import Mathlib.Algebra.GroupWithZero.Nat
import Mathlib.Logic.Relation
/-!
# Linear sweeps

A stream of items of different widths, read from position 0 on: the item at `i` is `width i` long, so that the next one
is at `i + width i`. `positions` is the loop that lists where the items start, and `Visits` what it lists, without the
loop.
-/
namespace Sweep

variable {width : Nat → Nat} {bound : Nat}

/-- Where the items start that a sweep from `i` on meets below `bound`, in `turns` turns. -/
def positions (width : Nat → Nat) (bound : Nat) : Nat → Nat → List Nat
  | 0, _ => []
  | turns + 1, i => if i < bound then i :: positions width bound turns (i + width i) else []

/-- A sweep from `i` on gets to `j`. -/
abbrev VisitsFrom (width : Nat → Nat) : Nat → Nat → Prop := Relation.ReflTransGen fun i j => j = i + width i

/-- The sweep gets to `j`. -/
abbrev Visits (width : Nat → Nat) (j : Nat) : Prop := VisitsFrom width 0 j

theorem Visits.next {j : Nat} (h : Visits width j) : Visits width (j + width j) := h.tail rfl

theorem VisitsFrom.le {i j : Nat} (h : VisitsFrom width i j) : i ≤ j := by
  induction h with
  | refl => exact Nat.le_refl i
  | tail _ h ih => omega

theorem VisitsFrom.eq_or {i j : Nat} (h : VisitsFrom width i j) : j = i ∨ VisitsFrom width (i + width i) j := by
  rcases Relation.ReflTransGen.cases_head h with rfl | ⟨k, rfl, hk⟩
  · exact .inl rfl
  · exact .inr hk

/-- With enough turns the loop lists all positions there are. -/
theorem mem_positions (hw : ∀ i, 0 < width i) {turns i j : Nat} (ht : bound ≤ i + turns) :
    j ∈ positions width bound turns i ↔ VisitsFrom width i j ∧ j < bound := by
  induction turns generalizing i with
  | zero =>
    simp only [positions, List.not_mem_nil, false_iff, not_and, Nat.not_lt]
    intro h
    have := h.le
    omega
  | succ turns ih =>
    have hi := hw i
    unfold positions
    by_cases h : i < bound
    · simp only [if_pos h, List.mem_cons, ih (show bound ≤ i + width i + turns by omega)]
      constructor
      · rintro (rfl | ⟨hv, hj⟩)
        · exact ⟨.refl, h⟩
        · exact ⟨.head rfl hv, hj⟩
      · rintro ⟨hv, hj⟩
        exact hv.eq_or.imp id fun hv => ⟨hv, hj⟩
    · simp only [if_neg h, List.not_mem_nil, false_iff, not_and, Nat.not_lt]
      intro hv
      have := hv.le
      omega

/-- Two items do not end at one place. -/
theorem Visits.eq_of_next_eq (hw : ∀ i, 0 < width i) {i j : Nat} (hi : Visits width i) (hj : Visits width j)
    (h : i + width i = j + width j) : i = j := by
  have hwi := hw i
  have hwj := hw j
  have huniq : Relator.RightUnique fun i j => j = i + width i := by
    rintro i _ _ rfl rfl
    rfl
  rcases Relation.ReflTransGen.total_of_right_unique huniq hi hj with hij | hji
  · rcases VisitsFrom.eq_or hij with rfl | hij
    · rfl
    · have := hij.le
      omega
  · rcases VisitsFrom.eq_or hji with rfl | hji
    · rfl
    · have := hji.le
      omega

/-- A position is the first one, or where the item at the position before it ends. -/
theorem eq_or_next_of_positions_eq {turns i k : Nat} {pre post : List Nat}
    (h : positions width bound turns i = pre ++ k :: post) :
    pre = [] ∧ k = i ∨ ∃ pre' q, pre = pre' ++ [q] ∧ k = q + width q := by
  induction turns generalizing i pre with
  | zero => simp [positions] at h
  | succ turns ih =>
    unfold positions at h
    split at h
    case isFalse => simp at h
    case isTrue =>
      cases pre with
      | nil => exact .inl ⟨rfl, (List.cons.inj h).1.symm⟩
      | cons q pre =>
        obtain ⟨rfl, hrest⟩ := List.cons.inj h
        rcases ih hrest with ⟨rfl, rfl⟩ | ⟨pre', q', rfl, hk⟩
        · exact .inr ⟨[], i, rfl, rfl⟩
        · exact .inr ⟨i :: pre', q', rfl, hk⟩

theorem le_of_mem_positions {turns i j : Nat} (hj : j ∈ positions width bound turns i) : i ≤ j ∧ j < bound := by
  induction turns generalizing i with
  | zero => simp [positions] at hj
  | succ turns ih =>
    unfold positions at hj
    split at hj
    case isFalse => simp at hj
    case isTrue h =>
      rcases List.mem_cons.1 hj with rfl | hj
      · exact ⟨Nat.le_refl j, h⟩
      · have := ih hj
        omega

theorem positions_sorted (hw : ∀ i, 0 < width i) (turns i : Nat) : (positions width bound turns i).Pairwise (· < ·) := by
  induction turns generalizing i with
  | zero => exact .nil
  | succ turns ih =>
    unfold positions
    split
    case isFalse => exact .nil
    case isTrue =>
      refine List.pairwise_cons.2 ⟨?_, ih (i + width i)⟩
      intro j hj
      have hi := hw i
      have := le_of_mem_positions hj
      omega

/-- An item starts where the widths of those before it add up to. -/
theorem eq_add_sum_of_positions_eq {turns i k : Nat} {pre post : List Nat}
    (h : positions width bound turns i = pre ++ k :: post) : k = i + (pre.map width).sum := by
  induction turns generalizing i pre with
  | zero => simp [positions] at h
  | succ turns ih =>
    unfold positions at h
    split at h
    case isFalse => simp at h
    case isTrue =>
      cases pre with
      | nil => simpa using (List.cons.inj h).1.symm
      | cons q pre =>
        obtain ⟨rfl, hrest⟩ := List.cons.inj h
        rw [ih hrest, List.map_cons, List.sum_cons, Nat.add_assoc]

/-- Where every item fits into the stream they make it up, without gap or overlap. -/
theorem flatMap_positions {α : Type} (hw : ∀ i, 0 < width i) {l : List α} {turns i : Nat} (ht : l.length ≤ i + turns)
    (hfits : ∀ k ∈ positions width l.length turns i, k + width k ≤ l.length) :
    (positions width l.length turns i).flatMap (fun k => (l.drop k).take (width k)) = l.drop i := by
  induction turns generalizing i with
  | zero => simpa [positions] using ht
  | succ turns ih =>
    have hi := hw i
    unfold positions at hfits ⊢
    by_cases h : i < l.length
    · rw [if_pos h] at hfits ⊢
      have hrest := ih (by omega) fun k hk => hfits k (List.mem_cons_of_mem i hk)
      rw [List.flatMap_cons, hrest, ← List.drop_drop, List.take_append_drop]
    · rw [if_neg h, List.drop_eq_nil_of_le (by omega)]
      rfl

/-- The first position after `j` is where the item at `j` ends, as far as that is below `bound`. -/
theorem find_positions (hw : ∀ i, 0 < width i) {turns i j : Nat} (ht : bound ≤ i + turns)
    (hj : j ∈ positions width bound turns i) :
    (positions width bound turns i).find? (fun k => j < k) = if j + width j < bound then some (j + width j) else none := by
  induction turns generalizing i with
  | zero => simp [positions] at hj
  | succ turns ih =>
    have hi := hw i
    have ht' : bound ≤ i + width i + turns := by omega
    have hlt := ((mem_positions hw ht).1 hj).2
    have hle := ((mem_positions hw ht).1 hj).1.le
    have hib : i < bound := by omega
    have hp : positions width bound (turns + 1) i = i :: positions width bound turns (i + width i) := by
      rw [positions, if_pos hib]
    rw [hp] at hj ⊢
    rcases List.mem_cons.1 hj with rfl | hj
    · -- the tail starts with the next position
      rw [List.find?_cons_of_neg (by simp)]
      cases turns with
      | zero =>
        rw [if_neg (by omega)]
        rfl
      | succ turns =>
        unfold positions
        by_cases h : j + width j < bound
        · simp [h, hi]
        · simp [h]
    · have hle' := ((mem_positions hw ht').1 hj).1.le
      rw [List.find?_cons_of_neg (by simp; omega)]
      exact ih ht' hj

end Sweep

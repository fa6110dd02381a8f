import Mathlib.Data.List.Perm.Basic
import Std.Data.ExtTreeMap
/-!
# Finite maps as lists of members

A map can be written down as the list of its members, key by key (`put`), and be built again from such a list (`insertIfNew`).
Where the keys have been renamed one to one on the way, the list is a rearrangement of the map's own (`members_eq_map`),
and the order does not matter when the map is built (`foldl_insertIfNew`).
-/
namespace Members

open Std

section

variable {κ β : Type} [DecidableEq κ] [LT κ] [DecidableLT κ]

/-- The members in the order of their keys, with the value of `k` put to `v`. -/
def put (k : κ) (v : β) : List (κ × β) → List (κ × β)
  | [] => [(k, v)]
  | m :: ms => if k = m.1 then (k, v) :: ms else if k < m.1 then (k, v) :: m :: ms else m :: put k v ms

variable {k k' : κ} {v : β}

omit [LT κ] [DecidableLT κ] in
theorem lookup_cons (k k' : κ) (v : β) (ms : List (κ × β)) :
    ((k, v) :: ms).lookup k' = if k' = k then some v else ms.lookup k' := by
  rw [List.lookup_cons]
  by_cases h : k' = k
  · simp [h]
  · rw [if_neg h, beq_eq_false_iff_ne.2 h]

@[simp] theorem lookup_put (ms : List (κ × β)) : (put k v ms).lookup k' = if k' = k then some v else ms.lookup k' := by
  induction ms with
  | nil => exact lookup_cons k k' v []
  | cons m ms ih =>
    obtain ⟨k1, v1⟩ := m
    unfold put
    by_cases h1 : k = k1
    · subst h1
      simp only [if_true, lookup_cons]
      split <;> rfl
    · rw [if_neg h1]
      split
      · exact lookup_cons ..
      · rw [lookup_cons, lookup_cons, ih]
        by_cases h : k' = k
        · subst h
          simp [h1]
        · simp [h]

variable {α : Type} {key : α → κ} (val : α → β)

/-- A member with a new key comes to stand somewhere among the others. -/
theorem put_map {a : α} {l : List α} (hnew : ∀ b ∈ l, key b ≠ key a) :
    ∃ l' : List α, put (key a) (val a) (l.map fun b => (key b, val b)) = l'.map (fun b => (key b, val b)) ∧ l'.Perm (a :: l) := by
  induction l with
  | nil => exact ⟨[a], rfl, .refl _⟩
  | cons b l ih =>
    have hb : key a ≠ key b := (hnew b (by simp)).symm
    simp only [List.map_cons, put, if_neg hb]
    split
    · exact ⟨a :: b :: l, rfl, .refl _⟩
    · obtain ⟨l', heq, hperm⟩ := ih fun c hc => hnew c (by simp [hc])
      refine ⟨b :: l', by simp [heq], ?_⟩
      exact (hperm.cons b).trans (.swap a b l)

/-- The members that are put one after the other, each with its own key. -/
theorem members_eq_map {l : List α} (hl : l.Pairwise fun a b => key a ≠ key b) :
    ∃ l' : List α, l.foldl (fun ms a => put (key a) (val a) ms) [] = l'.map (fun b => (key b, val b)) ∧ l'.Perm l := by
  have hgen : ∀ (l done : List α), l.Pairwise (fun a b => key a ≠ key b) → (∀ a ∈ l, ∀ b ∈ done, key b ≠ key a) →
      ∃ l' : List α, l.foldl (fun ms a => put (key a) (val a) ms) (done.map fun b => (key b, val b)) =
        l'.map (fun b => (key b, val b)) ∧ l'.Perm (done ++ l) := by
    intro l
    induction l with
    | nil => exact fun done _ _ => ⟨done, rfl, by simp⟩
    | cons a l ih =>
      intro done hl hnew
      obtain ⟨ha, hl⟩ := List.pairwise_cons.1 hl
      obtain ⟨done', heq, hperm⟩ := put_map val fun b hb => hnew a (by simp) b hb
      obtain ⟨l', heq', hperm'⟩ := ih done' hl fun c hc b hb => by
        rcases List.mem_cons.1 (hperm.mem_iff.1 hb) with rfl | hb
        · exact ha c hc
        · exact hnew c (by simp [hc]) b hb
      refine ⟨l', ?_, ?_⟩
      · rw [List.foldl_cons, heq, heq']
      · refine hperm'.trans ((hperm.append_right l).trans ?_)
        exact List.perm_middle.symm
  simpa using hgen l [] hl (by simp)

end

section

variable {α β : Type} [Ord α] [TransOrd α] [LawfulEqOrd α]

/-- What is in the map that is built: the members, each under its own key. -/
theorem getElem?_foldl_insertIfNew {l : List (α × β)} (hl : l.Pairwise fun a b => a.1 ≠ b.1) {m : ExtTreeMap α β} {k : α}
    {v : β} (hnew : ∀ a ∈ l, a.1 ∉ m) :
    (l.foldl (fun m a => m.insertIfNew a.1 a.2) m)[k]? = some v ↔ m[k]? = some v ∨ (k, v) ∈ l := by
  induction l generalizing m with
  | nil => simp
  | cons a l ih =>
    obtain ⟨ha, hl⟩ := List.pairwise_cons.1 hl
    have ham : a.1 ∉ m := hnew a (by simp)
    have hstep : (m.insertIfNew a.1 a.2)[k]? = some v ↔ m[k]? = some v ∨ (k, v) = a := by
      rw [ExtTreeMap.getElem?_insertIfNew]
      by_cases hk : a.1 = k
      · subst hk
        simp [ham, Prod.ext_iff, eq_comm]
      · have hne : (k, v) ≠ a := fun h => hk (congrArg Prod.fst h).symm
        simp [hk, hne]
    rw [List.foldl_cons, ih hl, hstep, List.mem_cons, or_assoc]
    intro b hb
    rw [ExtTreeMap.mem_insertIfNew, LawfulEqOrd.compare_eq_iff_eq]
    rintro (h | h)
    · exact ha b hb h
    · exact hnew b (by simp [hb]) h

/-- The map from the list of its members, in whatever order. -/
theorem foldl_insertIfNew {m : ExtTreeMap α β} {l : List (α × β)} (h : l.Perm m.toList) :
    l.foldl (fun m a => m.insertIfNew a.1 a.2) ∅ = m := by
  have hdistinct : m.toList.Pairwise fun a b => a.1 ≠ b.1 := by
    refine ExtTreeMap.distinct_keys_toList.imp fun {a b} hne => ?_
    rintro heq
    exact hne (LawfulEqOrd.compare_eq_iff_eq.2 heq)
  have hl : l.Pairwise fun a b => a.1 ≠ b.1 := hdistinct.perm h.symm fun hne => hne.symm
  ext k v
  rw [getElem?_foldl_insertIfNew hl (by simp), h.mem_iff, ExtTreeMap.mem_toList_iff_getElem?_eq_some]
  simp

end

end Members

import Mathlib
import EEVM.Lib.Hex
/-!
# Letter case and length of hexadecimal numbers

A digit is determined by its value and the case of its letter, and a number by its digits' values: two texts of one length
with the same value differ in letter case only. The first digit of `k + 1` is zero just in case the number is below `16 ^ k`.
-/
namespace Hex

variable {c l : Char} {cs as bs : List Char} {x y n d : Nat}

/-! ## One digit -/

theorem toLower_of_digit_value (h : digit_value c = some d) : c.toLower = d.digitChar := by
  rcases digit_cases h with ⟨hlow, hhigh, rfl⟩ | ⟨hlow, hhigh, rfl⟩ | ⟨hlow, hhigh, rfl⟩
  · exact of_range (P := fun c => c.toLower = (c.toNat - 87).digitChar) (by decide) hlow hhigh
  · exact of_range (P := fun c => c.toLower = (c.toNat - 55).digitChar) (by decide) hlow hhigh
  · exact of_range (P := fun c => c.toLower = (c.toNat - 48).digitChar) (by decide) hlow hhigh

@[simp] theorem digit_value_toLower (c : Char) : digit_value c.toLower = digit_value c := by
  by_cases hu : c.isUpper
  · have hrange : 65 ≤ c.toNat ∧ c.toNat ≤ 90 := by
      simpa [Char.isUpper, UInt32.le_iff_toNat_le] using hu
    exact of_range (P := fun c => digit_value c.toLower = digit_value c) (by decide) hrange.1 hrange.2
  · rw [Char.toLower_eq_of_not_isUpper hu]

/-- A letter can be written in two ways. -/
theorem toLower_eq_iff (hl : l.isLower) : c.toLower = l ↔ c = l ∨ c = l.toUpper := by
  constructor
  · rintro rfl
    by_cases hu : c.isUpper
    · right
      rw [Char.toUpper_toLower_eq_toUpper, Char.toUpper_eq_of_not_isLower (Char.not_isLower_of_isUpper hu)]
    · left
      rw [Char.toLower_eq_of_not_isUpper hu]
  · have hself : l.toLower = l := Char.toLower_eq_of_not_isUpper (Char.not_isUpper_of_isLower hl)
    rintro (rfl | rfl)
    · exact hself
    · rw [Char.toLower_toUpper_eq_toLower, hself]

theorem isLower_of_letter (h : 'a' ≤ c ∧ c ≤ 'f') : c.isLower :=
  of_range (P := fun c => c.isLower) (by decide) (toNat_le_of_le h.1) (toNat_le_of_le h.2)

theorem isSome_of_isDigit (h : c.isDigit) : (digit_value c).isSome := by
  obtain ⟨hlow, hhigh⟩ := Char.isDigit_iff_toNat.1 h
  exact of_range (P := fun c => (digit_value c).isSome) (by decide) hlow hhigh

theorem not_isAlpha_of_isDigit (h : c.isDigit) : ¬c.isAlpha := by
  obtain ⟨hlow, hhigh⟩ := Char.isDigit_iff_toNat.1 h
  exact of_range (P := fun c => ¬c.isAlpha) (by decide) hlow hhigh

/-- A lower-case digit below `a`. -/
theorem not_isAlpha_of_digit (h : digit_value c = some d) (hlow : c.toLower = c) (hletter : ¬('a' ≤ c ∧ c ≤ 'f')) :
    ¬c.isAlpha := by
  rcases digit_cases h with ⟨ha, hf, -⟩ | ⟨hA, hF, -⟩ | ⟨h0, h9, -⟩
  · exact absurd (of_range (P := fun c => 'a' ≤ c ∧ c ≤ 'f') (by decide) ha hf) hletter
  · exact absurd hlow (of_range (P := fun c => c.toLower ≠ c) (by decide) hA hF)
  · exact of_range (P := fun c => ¬c.isAlpha) (by decide) h0 h9

/-! ## Values -/

theorem value_from_bounds (h : value_from x cs = some n) : x * 16 ^ cs.length ≤ n ∧ n < (x + 1) * 16 ^ cs.length := by
  induction cs generalizing x with
  | nil =>
    cases h
    simp
  | cons c cs ih =>
    simp only [value_from, Option.bind_eq_some_iff] at h
    obtain ⟨d, hd, h⟩ := h
    have hlt := digit_value_lt hd
    obtain ⟨hlow, hhigh⟩ := ih h
    have hmul : x * 16 ^ (cs.length + 1) = 16 * x * 16 ^ cs.length := by ring
    have hmul' : (x + 1) * 16 ^ (cs.length + 1) = (16 * x + 16) * 16 ^ cs.length := by ring
    rw [List.length_cons, hmul, hmul']
    constructor
    · exact Nat.le_trans (Nat.mul_le_mul_right _ (by omega)) hlow
    · exact Nat.lt_of_lt_of_le hhigh (Nat.mul_le_mul_right _ (by omega))

/-- Texts of one length have the same value only if they have the same digits. -/
theorem value_from_inj (hlen : as.length = bs.length) (ha : value_from x as = some n) (hb : value_from y bs = some n) :
    x = y ∧ as.map digit_value = bs.map digit_value := by
  induction as generalizing x y bs with
  | nil =>
    obtain rfl := List.eq_nil_of_length_eq_zero hlen.symm
    cases ha
    cases hb
    exact ⟨rfl, rfl⟩
  | cons a as ih =>
    cases bs with
    | nil => cases hlen
    | cons b bs =>
      simp only [value_from, Option.bind_eq_some_iff] at ha hb
      obtain ⟨d, hd, ha⟩ := ha
      obtain ⟨e, he, hb⟩ := hb
      have hdlt := digit_value_lt hd
      have helt := digit_value_lt he
      obtain ⟨hxy, hmap⟩ := ih (Nat.succ.inj hlen) ha hb
      obtain rfl : d = e := by omega
      refine ⟨by omega, ?_⟩
      rw [List.map_cons, List.map_cons, hd, he, hmap]

theorem exists_value (h : ∀ c ∈ cs, (digit_value c).isSome) : ∃ n, value_from x cs = some n := by
  induction cs generalizing x with
  | nil => exact ⟨x, rfl⟩
  | cons c cs ih =>
    obtain ⟨d, hd⟩ := Option.isSome_iff_exists.1 (h c (by simp))
    obtain ⟨n, hn⟩ := ih (x := 16 * x + d) fun c hc => h c (List.mem_cons_of_mem _ hc)
    exact ⟨n, by rw [value_from, hd]; exact hn⟩

theorem digit_value_eq_zero_iff : digit_value c = some 0 ↔ c = '0' := by
  constructor
  · intro h
    rcases digit_cases h with ⟨hlow, hhigh, hzero⟩ | ⟨hlow, hhigh, hzero⟩ | ⟨hlow, hhigh, hzero⟩
    · omega
    · omega
    · exact of_range (P := fun c => 0 = c.toNat - 48 → c = '0') (by decide) hlow hhigh hzero
  · rintro rfl
    rfl

theorem head_eq_zero_iff (h : value_from 0 (c :: cs) = some n) : c = '0' ↔ n < 16 ^ cs.length := by
  simp only [value_from, Option.bind_eq_some_iff] at h
  obtain ⟨d, hd, h⟩ := h
  obtain ⟨hlow, hhigh⟩ := value_from_bounds h
  rw [← digit_value_eq_zero_iff, hd, Option.some.injEq]
  constructor
  · rintro rfl
    simpa using hhigh
  · intro hn
    by_contra hd0
    have hmul := Nat.mul_le_mul_right (16 ^ cs.length) (show 1 ≤ 16 * 0 + d by omega)
    omega

/-! ## Lower case -/

/-- The value of every digit determines its lower-case form. -/
theorem map_toLower_congr (ha : ∀ c ∈ as, (digit_value c).isSome) (h : as.map digit_value = bs.map digit_value) :
    as.map Char.toLower = bs.map Char.toLower := by
  induction as generalizing bs with
  | nil =>
    cases bs with
    | nil => rfl
    | cons b bs => cases h
  | cons a as ih =>
    cases bs with
    | nil => cases h
    | cons b bs =>
      rw [List.map_cons, List.map_cons, List.cons.injEq] at h
      obtain ⟨d, hd⟩ := Option.isSome_iff_exists.1 (ha a (by simp))
      rw [List.map_cons, List.map_cons, toLower_of_digit_value hd, toLower_of_digit_value (h.1 ▸ hd),
        ih (fun c hc => ha c (List.mem_cons_of_mem _ hc)) h.2]

theorem map_toLower_toDigits (n : Nat) : (Nat.toDigits 16 n).map Char.toLower = Nat.toDigits 16 n := by
  have hdigit : ∀ k < 16, k.digitChar.toLower = k.digitChar := by decide
  induction n using Nat.strongRecOn with
  | ind n ih =>
    by_cases hn : n < 16
    · rw [Nat.toDigits_of_lt_base hn]
      simp [hdigit n hn]
    · rw [Nat.toDigits_of_base_le (by omega) (by omega), List.map_append, ih (n / 16) (by omega)]
      simp [hdigit (n % 16) (Nat.mod_lt n (by omega))]

/-- As many digits as were read are written, unless there is a zero in front of others. -/
theorem length_toDigits_eq_iff (h : value_from 0 (c :: cs) = some n) (hcs : 0 < cs.length) :
    (Nat.toDigits 16 n).length = cs.length + 1 ↔ c ≠ '0' := by
  have hhigh := (value_from_bounds h).2
  simp only [Nat.zero_add, Nat.one_mul, List.length_cons] at hhigh
  have hle := length_toDigits_le (Nat.succ_pos cs.length) hhigh
  have hshort := Nat.length_toDigits_le_iff (n := n) (show 1 < 16 by omega) hcs
  rw [ne_eq, head_eq_zero_iff h, ← hshort]
  omega

end Hex

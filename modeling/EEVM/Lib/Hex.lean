import Mathlib.Tactic.IntervalCases
/-!
# Hexadecimal digits

`value_from x cs` reads the digits `cs` behind a number `x` that has been read already, in either letter case. `Nat.toDigits 16`
writes digits that read back as the number, also with zeros in front of them.
-/
namespace Hex

/-- The value of a digit, if the character is one. -/
def digit_value (c : Char) : Option Nat :=
  if 'a' ≤ c ∧ c ≤ 'f' then some (c.toNat - 87)
  else if 'A' ≤ c ∧ c ≤ 'F' then some (c.toNat - 55)
  else if '0' ≤ c ∧ c ≤ '9' then some (c.toNat - 48)
  else none

def value_from (x : Nat) : List Char → Option Nat
  | [] => some x
  | c :: cs => (digit_value c).bind fun d => value_from (16 * x + d) cs

variable {x n : Nat} {c : Char} {cs : List Char}

theorem toNat_le_of_le {c c' : Char} (h : c ≤ c') : c.toNat ≤ c'.toNat := UInt32.le_iff_toNat_le.1 h

theorem digit_cases {d : Nat} (h : digit_value c = some d) :
    (97 ≤ c.toNat ∧ c.toNat ≤ 102 ∧ d = c.toNat - 87) ∨ (65 ≤ c.toNat ∧ c.toNat ≤ 70 ∧ d = c.toNat - 55) ∨
      (48 ≤ c.toNat ∧ c.toNat ≤ 57 ∧ d = c.toNat - 48) := by
  unfold digit_value at h
  split at h
  · rename_i hc
    exact .inl ⟨toNat_le_of_le hc.1, toNat_le_of_le hc.2, (Option.some.inj h).symm⟩
  split at h
  · rename_i hc
    exact .inr (.inl ⟨toNat_le_of_le hc.1, toNat_le_of_le hc.2, (Option.some.inj h).symm⟩)
  split at h
  · rename_i hc
    exact .inr (.inr ⟨toNat_le_of_le hc.1, toNat_le_of_le hc.2, (Option.some.inj h).symm⟩)
  · cases h

theorem digit_value_lt {d : Nat} (h : digit_value c = some d) : d < 16 := by
  have hcases := digit_cases h
  omega

/-- No digit is white space or a sign. -/
theorem le_of_digit_value {d : Nat} (h : digit_value c = some d) : 48 ≤ c.toNat := by
  have hcases := digit_cases h
  omega

/-- What is checked of each character of a range. -/
theorem of_range {P : Char → Prop} {low high : Nat} (h : ∀ k ≤ high, low ≤ k → P (Char.ofNat k)) (hlow : low ≤ c.toNat)
    (hhigh : c.toNat ≤ high) : P c := by
  have hc := h c.toNat hhigh hlow
  rwa [Char.ofNat_toNat] at hc

/-- Either case of a letter has the same value. -/
theorem digit_value_toUpper_toLower (h : 'a' ≤ c ∧ c ≤ 'f') :
    digit_value c.toUpper = digit_value c ∧ digit_value c.toLower = digit_value c :=
  of_range (P := fun c => digit_value c.toUpper = digit_value c ∧ digit_value c.toLower = digit_value c) (by decide)
    (toNat_le_of_le h.1) (toNat_le_of_le h.2)

@[simp] theorem digit_value_digitChar (h : n < 16) : digit_value n.digitChar = some n := by
  interval_cases n <;> rfl

theorem value_from_append (as bs : List Char) :
    value_from x (as ++ bs) = (value_from x as).bind fun y => value_from y bs := by
  induction as generalizing x with
  | nil => rfl
  | cons a as ih =>
    simp only [List.cons_append, value_from, Option.bind_assoc]
    congr 1
    funext d
    exact ih

/-- Only the values of the digits count. -/
theorem value_from_congr {cs' : List Char} (h : cs'.map digit_value = cs.map digit_value) :
    value_from x cs' = value_from x cs := by
  induction cs generalizing x cs' with
  | nil =>
    rw [List.map_nil, List.map_eq_nil_iff] at h
    rw [h]
  | cons c cs ih =>
    cases cs' with
    | nil => simp at h
    | cons c' cs' =>
      simp only [List.map_cons, List.cons.injEq] at h
      simp only [value_from, h.1, ih h.2]

theorem isSome_of_value_from (h : value_from x cs = some n) : ∀ c ∈ cs, (digit_value c).isSome := by
  induction cs generalizing x with
  | nil => simp
  | cons c cs ih =>
    simp only [value_from, Option.bind_eq_some_iff] at h
    obtain ⟨d, hd, h⟩ := h
    intro c' hc'
    rcases List.mem_cons.1 hc' with rfl | hc'
    · simp [hd]
    · exact ih h c' hc'

/-! ## Written digits -/

theorem value_toDigits (n : Nat) : value_from 0 (Nat.toDigits 16 n) = some n := by
  induction n using Nat.strongRecOn with
  | ind n ih =>
    by_cases hn : n < 16
    · rw [Nat.toDigits_of_lt_base hn]
      simp [value_from, hn]
    · rw [Nat.toDigits_of_base_le (by omega) (by omega), value_from_append, ih (n / 16) (by omega)]
      have hd : n % 16 < 16 := Nat.mod_lt n (by omega)
      simp only [Option.bind_some, value_from, digit_value_digitChar hd, Nat.div_add_mod]

/-- Zeros in front make no difference. -/
theorem value_replicate_append (k : Nat) (cs : List Char) : value_from 0 (List.replicate k '0' ++ cs) = value_from 0 cs := by
  induction k with
  | zero => rfl
  | succ k ih => exact ih

theorem length_toDigits_le {k : Nat} (hk : 0 < k) (h : n < 16 ^ k) : (Nat.toDigits 16 n).length ≤ k :=
  (Nat.length_toDigits_le_iff (by omega) hk).2 h

end Hex

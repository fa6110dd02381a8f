import Mathlib.Tactic.Linarith
import Mathlib.Tactic.LinearCombination
import Mathlib.Tactic.Ring
/-!
# Numbers made of two halves

`join h hi lo` is the number of `2 * h` bits whose halves are `hi` and `lo`. Comparison, bitwise operations, shifts and
multiplication are carried out half by half.
-/
namespace Halves

/-- Two halves of `h` bits each. -/
def join (h hi lo : Nat) : Nat := hi * 2 ^ h + lo

section

variable {h a b c d : Nat}

theorem join_lt (ha : a < 2 ^ h) (hb : b < 2 ^ h) : join h a b < 2 ^ (2 * h) := by
  have h1 : (a + 1) * 2 ^ h ≤ 2 ^ h * 2 ^ h := Nat.mul_le_mul_right _ ha
  rw [two_mul, pow_add, join]
  linarith

/-- The order is lexicographic. -/
theorem join_lt_join_iff (hb : b < 2 ^ h) (hd : d < 2 ^ h) : join h a b < join h c d ↔ a < c ∨ a = c ∧ b < d := by
  unfold join
  rcases Nat.lt_trichotomy a c with hac | rfl | hca
  · have h1 : (a + 1) * 2 ^ h ≤ c * 2 ^ h := Nat.mul_le_mul_right _ hac
    have h2 : (a + 1) * 2 ^ h = a * 2 ^ h + 2 ^ h := by ring
    exact ⟨fun _ => .inl hac, fun _ => by omega⟩
  · simp
  · have h1 : (c + 1) * 2 ^ h ≤ a * 2 ^ h := Nat.mul_le_mul_right _ hca
    have h2 : (c + 1) * 2 ^ h = c * 2 ^ h + 2 ^ h := by ring
    exact ⟨fun hlt => by omega, fun hor => by omega⟩

/-- The halves are determined by the number. -/
theorem join_inj_iff (hb : b < 2 ^ h) (hd : d < 2 ^ h) : join h a b = join h c d ↔ a = c ∧ b = d := by
  constructor
  · intro heq
    have h1 := join_lt_join_iff (a := a) (c := c) hb hd
    have h2 := join_lt_join_iff (a := c) (c := a) hd hb
    omega
  · rintro ⟨rfl, rfl⟩
    rfl

theorem join_div (hb : b < 2 ^ h) : join h a b / 2 ^ h = a := by
  rw [join, Nat.mul_comm, Nat.mul_add_div (Nat.two_pow_pos h), Nat.div_eq_of_lt hb, Nat.add_zero]

theorem join_mod (hb : b < 2 ^ h) : join h a b % 2 ^ h = b := by
  rw [join, Nat.mul_comm, Nat.mul_add_mod, Nat.mod_eq_of_lt hb]

theorem join_div_mod (n : Nat) : join h (n / 2 ^ h) (n % 2 ^ h) = n := Nat.div_add_mod' n (2 ^ h)

/-- What exceeds the width is cut off the high half. -/
theorem join_mod_two_pow (a : Nat) (hb : b < 2 ^ h) : join h a b % 2 ^ (2 * h) = join h (a % 2 ^ h) b := by
  rw [two_mul, pow_add, Nat.mod_mul, join_div hb, join_mod hb, join, Nat.add_comm, Nat.mul_comm]

/-! ## Bitwise operations -/

/-- The bits below `h` are those of the low half, the others those of the high one. -/
theorem testBit_join (hb : b < 2 ^ h) (i : Nat) : (join h a b).testBit i = if i < h then b.testBit i else a.testBit (i - h) := by
  rw [join, Nat.mul_comm, Nat.testBit_two_pow_mul_add a hb]

theorem join_or (hb : b < 2 ^ h) (hd : d < 2 ^ h) : join h a b ||| join h c d = join h (a ||| c) (b ||| d) := by
  apply Nat.eq_of_testBit_eq
  intro i
  rw [Nat.testBit_or, testBit_join hb, testBit_join hd, testBit_join (Nat.or_lt_two_pow hb hd)]
  split <;> simp

theorem join_and (hb : b < 2 ^ h) (hd : d < 2 ^ h) : join h a b &&& join h c d = join h (a &&& c) (b &&& d) := by
  apply Nat.eq_of_testBit_eq
  intro i
  rw [Nat.testBit_and, testBit_join hb, testBit_join hd, testBit_join (Nat.and_lt_two_pow b hd)]
  split <;> simp

theorem join_xor (hb : b < 2 ^ h) (hd : d < 2 ^ h) : join h a b ^^^ join h c d = join h (a ^^^ c) (b ^^^ d) := by
  apply Nat.eq_of_testBit_eq
  intro i
  rw [Nat.testBit_xor, testBit_join hb, testBit_join hd, testBit_join (Nat.xor_lt_two_pow hb hd)]
  split <;> simp

/-- The complement within the width is that of each half. -/
theorem join_not (ha : a < 2 ^ h) (hb : b < 2 ^ h) :
    2 ^ (2 * h) - 1 - join h a b = join h (2 ^ h - 1 - a) (2 ^ h - 1 - b) := by
  have hlt := join_lt ha hb
  obtain ⟨a', ha'⟩ := Nat.exists_eq_add_of_lt ha
  rw [two_mul, pow_add] at *
  unfold join at *
  have h1 : (2 ^ h - 1 - a) * 2 ^ h + a * 2 ^ h + 2 ^ h = 2 ^ h * 2 ^ h := by
    rw [← Nat.add_mul, ← Nat.succ_mul]
    congr 1
    omega
  omega

/-- A multiple of `2 ^ s` has room for `s` bits. -/
theorem mul_two_pow_or (a : Nat) {b s : Nat} (hb : b < 2 ^ s) : a * 2 ^ s ||| b = a * 2 ^ s + b := by
  rw [Nat.mul_comm, Nat.two_pow_add_eq_or_of_lt hb]

/-! ## Shifts -/

/-- What a half shifted to the left by `s` keeps, with what comes in from the half below it. -/
theorem shl_or {s : Nat} (hs : s ≤ h) (hb : b < 2 ^ h) :
    a * 2 ^ s % 2 ^ h ||| b / 2 ^ (h - s) = a * 2 ^ s % 2 ^ h + b / 2 ^ (h - s) := by
  have hpow : 2 ^ h = 2 ^ (h - s) * 2 ^ s := by rw [← pow_add, Nat.sub_add_cancel hs]
  have hlt : b / 2 ^ (h - s) < 2 ^ s := Nat.div_lt_of_lt_mul (hpow ▸ hb)
  rw [hpow, Nat.mul_mod_mul_right, mul_two_pow_or _ hlt]

/-- The same of a shift to the right. -/
theorem shr_or {s : Nat} (hs : s ≤ h) (hb : b < 2 ^ h) :
    b / 2 ^ s ||| a * 2 ^ (h - s) % 2 ^ h = b / 2 ^ s + a * 2 ^ (h - s) % 2 ^ h := by
  have hor := shl_or (a := a) (Nat.sub_le h s) hb
  rw [Nat.sub_sub_self hs] at hor
  rw [Nat.or_comm, hor, Nat.add_comm]

/-- A shift by less than a half moves the high bits of the low half up. -/
theorem join_shl {s : Nat} (hs : s ≤ h) (hb : b < 2 ^ h) :
    join h (a * 2 ^ s % 2 ^ h + b / 2 ^ (h - s)) (b * 2 ^ s % 2 ^ h) = join h a b * 2 ^ s % 2 ^ (2 * h) := by
  have hpow : 2 ^ h = 2 ^ (h - s) * 2 ^ s := by rw [← pow_add, Nat.sub_add_cancel hs]
  have hlt : b / 2 ^ (h - s) < 2 ^ s := Nat.div_lt_of_lt_mul (hpow ▸ hb)
  have hdiv : b * 2 ^ s / 2 ^ h = b / 2 ^ (h - s) := by
    rw [hpow, Nat.mul_div_mul_right _ _ (Nat.two_pow_pos s)]
  have hb' := Nat.div_add_mod' (b * 2 ^ s) (2 ^ h)
  have hsum : join h a b * 2 ^ s = join h (a * 2 ^ s + b / 2 ^ (h - s)) (b * 2 ^ s % 2 ^ h) := by
    rw [hdiv] at hb'
    unfold join
    linarith
  -- the high half, with what has come in, does not reach the next multiple
  have hhi : (a * 2 ^ s + b / 2 ^ (h - s)) % 2 ^ h = a * 2 ^ s % 2 ^ h + b / 2 ^ (h - s) := by
    have hmod : a * 2 ^ s % 2 ^ h = a % 2 ^ (h - s) * 2 ^ s := by rw [hpow, Nat.mul_mod_mul_right]
    have hle : (a % 2 ^ (h - s) + 1) * 2 ^ s ≤ 2 ^ h := by
      rw [hpow]
      exact Nat.mul_le_mul_right _ (Nat.mod_lt _ (Nat.two_pow_pos _))
    have hexp : (a % 2 ^ (h - s) + 1) * 2 ^ s = a * 2 ^ s % 2 ^ h + 2 ^ s := by
      rw [hmod]
      ring
    rw [Nat.add_mod, Nat.mod_eq_of_lt (a := b / 2 ^ (h - s)) (by omega), Nat.mod_eq_of_lt (by omega)]
  rw [hsum, join_mod_two_pow _ (Nat.mod_lt _ (Nat.two_pow_pos h)), hhi]

theorem join_shl_of_le {s : Nat} (hs : h ≤ s) : join h (b * 2 ^ (s - h) % 2 ^ h) 0 = join h a b * 2 ^ s % 2 ^ (2 * h) := by
  have hpow : 2 ^ s = 2 ^ (s - h) * 2 ^ h := by rw [← pow_add, Nat.sub_add_cancel hs]
  rw [two_mul, pow_add, hpow, ← Nat.mul_assoc, Nat.mul_mod_mul_right, join, join, Nat.add_zero]
  congr 1
  rw [Nat.add_mul, Nat.mul_right_comm, Nat.mul_comm (a * _), Nat.mul_add_mod]

/-- And one to the right moves the low bits of the high half down. -/
theorem join_shr {s : Nat} (hs : s ≤ h) :
    join h (a / 2 ^ s) (b / 2 ^ s + a * 2 ^ (h - s) % 2 ^ h) = join h a b / 2 ^ s := by
  have hpow : 2 ^ h = 2 ^ (h - s) * 2 ^ s := by rw [← pow_add, Nat.sub_add_cancel hs]
  have hdiv : join h a b / 2 ^ s = a * 2 ^ (h - s) + b / 2 ^ s := by
    rw [join, hpow, ← Nat.mul_assoc, Nat.mul_comm _ (2 ^ s), Nat.mul_add_div (Nat.two_pow_pos s)]
  have hd : a * 2 ^ (h - s) / 2 ^ h = a / 2 ^ s := by
    rw [hpow, Nat.mul_comm (2 ^ (h - s)), Nat.mul_div_mul_right _ _ (Nat.two_pow_pos _)]
  have hsplit := Nat.div_add_mod' (a * 2 ^ (h - s)) (2 ^ h)
  rw [hd] at hsplit
  rw [hdiv, join]
  omega

theorem join_shr_of_le {s : Nat} (hs : h ≤ s) (hb : b < 2 ^ h) : join h 0 (a / 2 ^ (s - h)) = join h a b / 2 ^ s := by
  have hpow : 2 ^ s = 2 ^ h * 2 ^ (s - h) := by rw [← pow_add, Nat.add_sub_cancel' hs]
  rw [hpow, ← Nat.div_div_eq_div_mul, join_div hb, join, Nat.zero_mul, Nat.zero_add]

/-! ## Addition and multiplication -/

/-- The halves are added one by one; what the low halves carry over is added to the sum of the high ones. -/
theorem join_add {lo hi t k0 k1 k2 : Nat} (h0 : lo + k0 * 2 ^ h = b + d) (h1 : t + k1 * 2 ^ h = a + c)
    (h2 : hi + k2 * 2 ^ h = t + k0) : join h hi lo + (k1 + k2) * 2 ^ (2 * h) = join h a b + join h c d := by
  rw [two_mul, pow_add]
  unfold join
  linear_combination h0 + 2 ^ h * h1 + 2 ^ h * h2

/-- A product of halves leaves room for one more half. -/
theorem mul_add_lt {e : Nat} (ha : a < 2 ^ h) (hb : b < 2 ^ h) (he : e < 2 ^ h) : a * b + e < 2 ^ (2 * h) := by
  rw [two_mul, pow_add]
  nlinarith

/-- The sums of the schoolbook product that do not overflow, and the product. -/
theorem join_mul {u1 u2 : Nat} (h1 : u1 = a * d + b * d / 2 ^ h) (h2 : u2 = b * c + u1 % 2 ^ h) :
    join (2 * h) (a * c + u2 / 2 ^ h + u1 / 2 ^ h) (join h (u2 % 2 ^ h) (b * d % 2 ^ h)) = join h a b * join h c d := by
  have e0 := Nat.div_add_mod' (b * d) (2 ^ h)
  have e1 := Nat.div_add_mod' u1 (2 ^ h)
  have e2 := Nat.div_add_mod' u2 (2 ^ h)
  rw [join, two_mul, pow_add]
  unfold join
  generalize b * d / 2 ^ h = q0, b * d % 2 ^ h = r0, u1 / 2 ^ h = q1, u1 % 2 ^ h = r1, u2 / 2 ^ h = q2,
    u2 % 2 ^ h = r2 at *
  subst h1 h2
  linear_combination e0 + 2 ^ h * e1 + 2 ^ h * e2

theorem join_mul_mod : join h ((b * c + a * d + b * d / 2 ^ h) % 2 ^ h) (b * d % 2 ^ h) =
    join h a b * join h c d % 2 ^ (2 * h) := by
  have e0 := Nat.div_add_mod' (b * d) (2 ^ h)
  rw [← join_mod_two_pow _ (Nat.mod_lt _ (Nat.two_pow_pos h))]
  have hprod : join h a b * join h c d =
      join h (b * c + a * d + b * d / 2 ^ h) (b * d % 2 ^ h) + a * c * 2 ^ (2 * h) := by
    rw [two_mul, pow_add]
    unfold join
    linear_combination -e0
  rw [hprod, Nat.add_mul_mod_self_right]

end

end Halves

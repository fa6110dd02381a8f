import Mathlib.Tactic.Ring
/-!
# Division digit by digit

The digits of a number in base `B` are brought down one after the other. When the divisor has more than two digits, a
digit of the quotient is estimated from the two highest digits of the divisor and the three highest of the dividend.
-/
namespace LongDivision

section

variable {B n d x : Nat}

theorem div_next (hd : 0 < d) : (n * B + x) / d = n / d * B + (n % d * B + x) / d := by
  have h : n * B + x = n % d * B + x + d * (n / d * B) := by
    conv_lhs => rw [← Nat.div_add_mod' n d]
    ring
  rw [h, Nat.add_mul_div_left _ _ hd, Nat.add_comm]

theorem mod_next : (n * B + x) % d = (n % d * B + x) % d := by
  have h : n * B + x = n % d * B + x + d * (n / d * B) := by
    conv_lhs => rw [← Nat.div_add_mod' n d]
    ring
  rw [h, Nat.add_mul_mod_self_left]

/-- What is brought down to a remainder makes a number with one digit of quotient. -/
theorem next_lt {r : Nat} (hr : r < d) (hx : x < B) : r * B + x < d * B := by
  have h : (r + 1) * B ≤ d * B := Nat.mul_le_mul_right _ hr
  rw [Nat.succ_mul] at h
  omega

end

/-! ## The estimate -/

section

variable {B d1 d0 u2 u1 u0 q r : Nat}

/-- With the remainder by the highest digit, the second digit tells if the estimate is too large. -/
theorem too_large_iff (h : u2 * B + u1 = q * d1 + r) :
    r * B + u0 < q * d0 ↔ (u2 * B + u1) * B + u0 < q * (d1 * B + d0) := by
  have hq : q * (d1 * B + d0) = q * d1 * B + q * d0 := by ring
  rw [h, hq, Nat.add_mul]
  omega

/-- A remainder of more than one digit leaves room for the second digit. -/
theorem not_too_large_of_le (hr : B ≤ r) (hq : q ≤ B) (hd0 : d0 ≤ B) : ¬ r * B + u0 < q * d0 := by
  have h1 : q * d0 ≤ B * B := Nat.mul_le_mul hq hd0
  have h2 : B * B ≤ r * B := Nat.mul_le_mul_right _ hr
  omega

/-- Two corrections are enough. -/
theorem corrected_twice (h : u2 * B + u1 = q * d1 + r) (hq : q ≤ B) (hd0 : d0 ≤ B) (hd1 : B ≤ 2 * d1) :
    q * (d1 * B + d0) ≤ (u2 * B + u1) * B + u0 + 2 * (d1 * B + d0) := by
  have h1 : q * d0 ≤ B * B := Nat.mul_le_mul hq hd0
  have h2 : B * B ≤ 2 * d1 * B := Nat.mul_le_mul_right _ hd1
  have hq' : q * (d1 * B + d0) = q * d1 * B + q * d0 := by ring
  have hd : 2 * (d1 * B + d0) = 2 * d1 * B + 2 * d0 := by ring
  rw [h, hq', Nat.add_mul]
  omega

/-- One correction is enough when the remainder is as large as the highest digit. -/
theorem corrected_once (h : u2 * B + u1 = q * d1 + r) (hq : q ≤ B) (hd0 : d0 ≤ B) (hd1 : B ≤ 2 * d1) (hr : d1 ≤ r) :
    q * (d1 * B + d0) ≤ (u2 * B + u1) * B + u0 + (d1 * B + d0) := by
  have h1 : q * d0 ≤ B * B := Nat.mul_le_mul hq hd0
  have h2 : B * B ≤ 2 * d1 * B := Nat.mul_le_mul_right _ hd1
  have h3 : d1 * B ≤ r * B := Nat.mul_le_mul_right _ hr
  have hq' : q * (d1 * B + d0) = q * d1 * B + q * d0 := by ring
  have hd : 2 * d1 * B = d1 * B + d1 * B := by ring
  rw [h, hq', Nat.add_mul]
  omega

theorem first_estimate_ge (hd1 : 0 < d1) (hu0 : u0 < B) :
    ((u2 * B + u1) * B + u0) / (d1 * B + d0) ≤ (u2 * B + u1) / d1 := by
  rw [Nat.le_div_iff_mul_le hd1]
  generalize hq : ((u2 * B + u1) * B + u0) / (d1 * B + d0) = q
  have h1 : q * (d1 * B + d0) ≤ (u2 * B + u1) * B + u0 := hq ▸ Nat.div_mul_le_self _ _
  have h2 : q * d1 * B ≤ q * (d1 * B + d0) := by
    rw [Nat.mul_add, ← Nat.mul_assoc]
    omega
  have h3 : q * d1 * B < (u2 * B + u1 + 1) * B := by
    rw [Nat.succ_mul]
    omega
  exact Nat.lt_succ_iff.1 (Nat.lt_of_mul_lt_mul_right h3)

end

/-! ## The digits below

`W` and `V` have the highest digits `T` and `D`, and the same number `K` of what can be below them. -/

section

variable {B K T D W V q : Nat}

theorem div_le_top (hW : W < (T + 1) * K) (hV : D * K ≤ V) (hD : 0 < D) : W / V ≤ T / D := by
  rw [Nat.le_div_iff_mul_le hD]
  have h1 : W / V * D * K < (T + 1) * K := by
    have h2 : W / V * V ≤ W := Nat.div_mul_le_self _ _
    have h3 : W / V * (D * K) ≤ W / V * V := Nat.mul_le_mul_left _ hV
    rw [Nat.mul_assoc]
    omega
  exact Nat.lt_succ_iff.1 (Nat.lt_of_mul_lt_mul_right h1)

/-- **The estimate.** The quotient of the highest digits, kept to one digit, is at most one too large. -/
theorem top_le (hq : q * D ≤ T) (hqB : q ≤ B) (hBD : B ≤ D) (hW : T * K ≤ W) (hVD : D * K ≤ V) (hV : V ≤ (D + 1) * K)
    (hV0 : 0 < V) : q ≤ W / V + 1 := by
  rcases Nat.eq_zero_or_pos q with rfl | hpos
  · exact Nat.zero_le _
  have h1 : q * V ≤ W + V := by
    have h2 : q * V ≤ q * ((D + 1) * K) := Nat.mul_le_mul_left _ hV
    have h3 : q * ((D + 1) * K) = q * D * K + q * K := by ring
    have h4 : q * D * K ≤ T * K := Nat.mul_le_mul_right _ hq
    have h5 : q * K ≤ D * K := Nat.mul_le_mul_right _ (hqB.trans hBD)
    omega
  have h6 : (q - 1) * V ≤ W := by
    rw [Nat.sub_mul]
    omega
  exact Nat.sub_le_iff_le_add.1 ((Nat.le_div_iff_mul_le hV0).2 h6)

end

end LongDivision

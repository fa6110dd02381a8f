import Mathlib.Tactic.Linarith
import Mathlib.Tactic.LinearCombination
import Mathlib.Tactic.Ring
/-!
# Division by a number whose reciprocal is known

`B` is the base. `d` is a divisor of one digit (`S = 1`) or two (`S = B`), so `d < B * S`, and it is normalized: its
leading digit is at least `B / 2`. A numerator of one digit more is divided by multiplying its leading digit with the
reciprocal: the candidate for the quotient is wrong by at most one, and its remainder, possibly negative, tells which way.
-/
namespace Reciprocal

/-- `B + v` is the quotient of `N - 1` by `d`. -/
structure IsReciprocal (N B d v : Nat) : Prop where
  lt : (B + v) * d < N
  le : N ≤ (B + v + 1) * d

theorem IsReciprocal.eq {N B d v : Nat} (h : IsReciprocal N B d v) : v = (N - 1) / d - B := by
  have hlt := h.lt
  have hle := h.le
  have hsucc : (B + v + 1) * d = (B + v) * d + d := by ring
  have hq : (N - 1) / d = B + v := Nat.div_eq_of_lt_le (by omega) (by omega)
  omega

section

variable {B S d v u2 u1 u0 q1 q0 : Nat}

/-- The remainder of the candidate `q1 + 1`, as the reciprocal shows it. -/
theorem candidate_remainder (u0 : Nat) (K : Int) (hK : (K : Int) = B * S * B - (B + v) * d) (hq : (B + v) * u2 + u1 = q1 * B + q0) :
    (B : Int) * ((u2 * (B * S) + u1 * S + u0 : Nat) - (q1 + 1 : Nat) * d) =
      K * u2 + u1 * (B * S - d) + B * u0 + q0 * d - B * d := by
  have hq' : ((B : Int) + v) * u2 + u1 = q1 * B + q0 := by exact_mod_cast hq
  have h : (q1 : Int) * B = (B + v) * u2 + u1 - q0 := by linarith
  rw [hK]
  push_cast
  linear_combination -(d : Int) * h

/-- **The candidate.** Where the numerator is less than `d * B`, the remainder of the candidate is at least `-d`, and which
of two ranges it is in can be read off the low digit of the product. -/
theorem candidate_bounds (hn : B * S ≤ 2 * d) (hd : d < B * S) (hv : IsReciprocal (B * S * B) B d v) (hu0 : u0 < S)
    (hu1 : u1 < B) (hu : u2 * (B * S) + u1 * S + u0 < d * B) (hq0 : q0 < B) (hq : (B + v) * u2 + u1 = q1 * B + q0)
    {r : Int} (hr : r = (u2 * (B * S) + u1 * S + u0 : Nat) - (q1 + 1 : Nat) * d) :
    -d ≤ r ∧ (q0 : Int) * S - B * S < r ∧ (r < B * S - d ∨ r < q0 * S) := by
  obtain ⟨hlt, hle⟩ := hv
  obtain ⟨K, hK⟩ : ∃ K : Int, K = B * S * B - (B + v) * d := ⟨_, rfl⟩
  have hK1 : 1 ≤ K := by
    have : (((B + v) * d : Nat) : Int) < ((B * S * B : Nat) : Int) := by exact_mod_cast hlt
    push_cast at this
    omega
  have hKd : K ≤ d := by
    have : ((B * S * B : Nat) : Int) ≤ (((B + v + 1) * d : Nat) : Int) := by exact_mod_cast hle
    push_cast at this
    linarith
  have hB : (0 : Int) < B := by exact_mod_cast Nat.zero_lt_of_lt hu1
  have hdM : (d : Int) < B * S := by exact_mod_cast hd
  have hnM : (B : Int) * S ≤ 2 * d := by exact_mod_cast hn
  have hq0' : (q0 : Int) + 1 ≤ B := by exact_mod_cast hq0
  have hcand := candidate_remainder u0 K hK hq
  rw [← hr] at hcand
  have hpos : 0 ≤ K * u2 + u1 * (B * S - d) + B * u0 := by
    have h1 : 0 ≤ K * u2 := mul_nonneg (by omega) (by omega)
    have h2 : (0 : Int) ≤ u1 * (B * S - d) := mul_nonneg (by omega) (by omega)
    have h3 : (0 : Int) ≤ B * u0 := mul_nonneg (by omega) (by omega)
    omega
  refine ⟨?_, ?_, ?_⟩
  · have h : (B : Int) * -d ≤ B * r := by
      have h0 : (0 : Int) ≤ q0 * d := mul_nonneg (by omega) (by omega)
      linarith
    exact le_of_mul_le_mul_left h hB
  · have h : (B : Int) * (q0 * S - B * S) < B * r := by
      have h0 : ((B : Int) - q0) * d < (B - q0) * (B * S) := mul_lt_mul_of_pos_left hdM (by omega)
      linarith
    exact lt_of_mul_lt_mul_left h hB.le
  · by_contra hcon
    obtain ⟨h1, h2⟩ := not_or.1 hcon
    rw [not_lt] at h1 h2
    have hr0 : 0 ≤ r := by omega
    -- the candidate is a quotient then, so it is a digit
    have hq1 : (q1 : Int) + 1 ≤ B - 1 := by
      have hu' : ((u2 * (B * S) + u1 * S + u0 : Nat) : Int) < d * B := by exact_mod_cast hu
      have h : ((q1 : Int) + 1) * d < B * d := by
        push_cast at hr hu'
        linarith
      have hd0 : (0 : Int) ≤ d := by omega
      have := lt_of_mul_lt_mul_right h hd0
      omega
    have hprod : ((B : Int) + v) * r + B * (B * S) =
        (q1 + 1) * K + q0 * (B * S) + v * (u1 * S + u0) + B * u0 := by
      have hq' : ((B : Int) + v) * u2 + u1 = q1 * B + q0 := by exact_mod_cast hq
      rw [hr, hK]
      push_cast
      linear_combination ((B : Int) * S) * hq'
    have hx : (v : Int) * (u1 * S + u0) ≤ v * (B * S - 1) := by
      refine mul_le_mul_of_nonneg_left ?_ (by omega)
      have h1 : ((u1 : Int) + 1) * S ≤ B * S := mul_le_mul_of_nonneg_right (by omega) (by omega)
      have h2 : (u0 : Int) + 1 ≤ S := by omega
      linarith
    have hu0' : (B : Int) * u0 ≤ B * (S - 1) := mul_le_mul_of_nonneg_left (by omega) hB.le
    have hqK : ((q1 : Int) + 1) * K ≤ (B - 1) * K := mul_le_mul_of_nonneg_right hq1 (by omega)
    have hvr : (v : Int) * (B * S - d) ≤ v * r := mul_le_mul_of_nonneg_left h1 (by omega)
    have hBr : (B : Int) * (q0 * S) ≤ B * r := mul_le_mul_of_nonneg_left h2 hB.le
    have hBK : ((B : Int) - 2) * K ≤ (B - 2) * d := mul_le_mul_of_nonneg_left hKd (by omega)
    linarith

end

end Reciprocal

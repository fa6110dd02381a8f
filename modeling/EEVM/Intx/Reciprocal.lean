import Mathlib.Algebra.Order.Ring.Abs
import EEVM.Intx.Mul
import EEVM.Lib.Reciprocal
/-!
# intx: reciprocals (int128.hpp:452-534)

| here | there |
| --- | --- |
| `reciprocal_table_item` | `internal::reciprocal_table_item` (`int128.hpp:452`); the table is its values at 0..255 |
| `reciprocal_2by1`, `reciprocal_3by2` | `int128.hpp:480`, `:508` |

`reciprocal_2by1` looks the first nine bits up and refines what it finds three times; each step roughly doubles the
number of bits that are right. `e1`, `e2` and `e3` are the errors: how far `v1`, `v2` and `v3` times the divisor are below
a power of two. They stay positive, so the last step has to go up by one at most.
-/
namespace EEVM.Intx

open Halves Reciprocal

/-! ## The refinement, in numbers -/

section

variable {d d9 d40 v0 v1 v2 v3 t r e1 e2 e b : Int}

/-- The table: nine bits of the divisor. -/
theorem error0 (h9 : 256 ≤ d9 ∧ d9 ≤ 511) (h40 : d9 * 2 ^ 31 < d40 ∧ d40 ≤ (d9 + 1) * 2 ^ 31)
    (hv : v0 * d9 ≤ 523520 ∧ 523520 < (v0 + 1) * d9) :
    1024 ≤ v0 ∧ v0 ≤ 2045 ∧ -(1279 * 2 ^ 31) ≤ 2 ^ 50 - v0 * d40 ∧ 2 ^ 50 - v0 * d40 ≤ 1279 * 2 ^ 31 := by
  have hlo : 1024 ≤ v0 := by
    by_contra hlt
    have : (v0 + 1) * d9 ≤ 1024 * d9 := mul_le_mul_of_nonneg_right (by omega) (by omega)
    omega
  have hhi : v0 ≤ 2045 := by
    by_contra hlt
    have : 2046 * d9 ≤ v0 * d9 := mul_le_mul_of_nonneg_right (by omega) (by omega)
    omega
  have h1 : v0 * (d9 * 2 ^ 31) ≤ v0 * d40 := mul_le_mul_of_nonneg_left h40.1.le (by omega)
  have h2 : v0 * d40 ≤ v0 * ((d9 + 1) * 2 ^ 31) := mul_le_mul_of_nonneg_left h40.2 (by omega)
  refine ⟨hlo, hhi, ?_, ?_⟩ <;> linarith [hv.1, hv.2]

/-- `e1`, after the first step. -/
theorem error1 (h : v0 ^ 2 * d40 = 2 ^ 40 * t + r) (hv : v1 = 2 ^ 11 * v0 - t - 1) :
    2 ^ 40 * (2 ^ 60 - v1 * d40) = (2 ^ 50 - v0 * d40) ^ 2 + (2 ^ 40 - r) * d40 := by
  subst hv
  linear_combination -d40 * h

/-- `e2 / 2 ^ 24`, after the second. -/
theorem error2 (he : e1 = 2 ^ 60 - v1 * d40) (h : v1 * e1 = 2 ^ 47 * t + r) (hv : v2 = 2 ^ 13 * v1 + t) :
    2 ^ 47 * (2 ^ 73 - v2 * d40) = e1 ^ 2 + r * d40 := by
  subst hv he
  linear_combination d40 * h

/-- `e3`, after the third; `e` is the half of `e2`. -/
theorem error3 (he : e2 = 2 ^ 97 - v2 * d) (hb : e2 = 2 * e + b) (h : v2 * e = 2 ^ 65 * t + r) (hv : v3 = 2 ^ 31 * v2 + t) :
    2 ^ 66 * (2 ^ 128 - v3 * d) = e2 ^ 2 + b * v2 * d + 2 * r * d := by
  subst hv
  linear_combination (2 * d) * h + (d * v2) * hb - (e2 + 2 ^ 97) * he

theorem error1_lt (h40 : 2 ^ 39 < d40 ∧ d40 ≤ 2 ^ 40) (h0 : -(1279 * 2 ^ 31) ≤ 2 ^ 50 - v0 * d40)
    (h0' : 2 ^ 50 - v0 * d40 ≤ 1279 * 2 ^ 31) (hr : 0 ≤ r ∧ r < 2 ^ 40)
    (h : 2 ^ 40 * e1 = (2 ^ 50 - v0 * d40) ^ 2 + (2 ^ 40 - r) * d40) : 0 < e1 ∧ e1 < 2 ^ 43 := by
  have hsq : (2 ^ 50 - v0 * d40) ^ 2 ≤ (1279 * 2 ^ 31) ^ 2 := sq_le_sq' h0 h0'
  have hpos : 0 < (2 ^ 40 - r) * d40 := mul_pos (by omega) (by omega)
  have hle : (2 ^ 40 - r) * d40 ≤ 2 ^ 40 * 2 ^ 40 := mul_le_mul (by omega) h40.2 (by omega) (by omega)
  have hsq0 := sq_nonneg (2 ^ 50 - v0 * d40)
  constructor <;> omega

theorem error2_lt (hd : 2 ^ 63 ≤ d ∧ d < 2 ^ 64) (h40 : d < d40 * 2 ^ 24 ∧ d40 * 2 ^ 24 ≤ d + 2 ^ 24)
    (h1 : 0 < e1 ∧ e1 < 2 ^ 43) (hv2 : 0 < v2) (hr : 0 ≤ r ∧ r < 2 ^ 47)
    (h : 2 ^ 47 * (2 ^ 73 - v2 * d40) = e1 ^ 2 + r * d40) :
    v2 ≤ 2 ^ 34 ∧ 0 < 2 ^ 97 - v2 * d ∧ 2 ^ 97 - v2 * d < d + 2 ^ 63 + 2 ^ 59 := by
  have hd40 : 0 < d40 := by omega
  have hsq : e1 ^ 2 ≤ 2 ^ 43 * 2 ^ 43 := by
    rw [sq]
    exact mul_le_mul h1.2.le h1.2.le h1.1.le (by omega)
  have hrd : 0 ≤ r * d40 := mul_nonneg hr.1 hd40.le
  have hrd' : r * d40 ≤ 2 ^ 47 * d40 := mul_le_mul_of_nonneg_right hr.2.le hd40.le
  have hsq0 := sq_nonneg e1
  have hlow : 0 ≤ 2 ^ 73 - v2 * d40 := by omega
  have hhigh : 2 ^ 73 - v2 * d40 ≤ 2 ^ 39 + d40 := by omega
  have hdiff : v2 * 1 ≤ v2 * (d40 * 2 ^ 24 - d) := mul_le_mul_of_nonneg_left (by omega) hv2.le
  have hdiff' : v2 * (d40 * 2 ^ 24 - d) ≤ v2 * 2 ^ 24 := mul_le_mul_of_nonneg_left (by omega) hv2.le
  have hsplit : 2 ^ 97 - v2 * d = 2 ^ 24 * (2 ^ 73 - v2 * d40) + v2 * (d40 * 2 ^ 24 - d) := by ring
  have hle : v2 ≤ 2 ^ 34 := by
    have h2 : v2 * 2 ^ 63 ≤ v2 * d := mul_le_mul_of_nonneg_left hd.1 hv2.le
    omega
  refine ⟨hle, ?_, ?_⟩ <;> omega

theorem error3_le (hd : 2 ^ 63 ≤ d ∧ d < 2 ^ 64) (he : 0 < e2 ∧ e2 < d + 2 ^ 63 + 2 ^ 59) (hb : 0 ≤ b ∧ b ≤ 1)
    (hvd : 0 ≤ v2 * d ∧ v2 * d ≤ 2 ^ 97) (hr : 0 ≤ r ∧ r < 2 ^ 65)
    (h : 2 ^ 66 * (2 ^ 128 - v3 * d) = e2 ^ 2 + b * v2 * d + 2 * r * d) :
    0 < 2 ^ 128 - v3 * d ∧ 2 ^ 128 - v3 * d ≤ 2 * d := by
  have hsq : 0 < e2 ^ 2 := pow_pos he.1 2
  have hbv : 0 ≤ b * (v2 * d) ∧ b * (v2 * d) ≤ 2 ^ 97 := by
    refine ⟨mul_nonneg hb.1 hvd.1, ?_⟩
    calc b * (v2 * d) ≤ 1 * (v2 * d) := mul_le_mul_of_nonneg_right hb.2 hvd.1
      _ ≤ 2 ^ 97 := by omega
  have hrd : 0 ≤ r * d ∧ r * d ≤ 2 ^ 65 * d := ⟨mul_nonneg hr.1 (by omega), mul_le_mul_of_nonneg_right hr.2.le (by omega)⟩
  have hsq' : e2 ^ 2 + 2 ^ 97 ≤ 2 ^ 66 * d := by nlinarith
  constructor <;> nlinarith

end

/-! ## `reciprocal_2by1` -/

def reciprocal_table_item (d9 : UInt8) : UInt16 := UInt16.ofNat (0x7fd00 / (0x100 ||| d9.toNat))

def reciprocal_2by1 (d : UInt64) : UInt64 :=
  let d9 := (d >>> 55).toUInt8
  let v0 := (reciprocal_table_item d9).toUInt64
  let d40 := (d >>> 24) + 1
  let v1 := (v0 <<< 11) - ((v0 * v0 * d40) >>> 40) - 1
  let v2 := (v1 <<< 13) + ((v1 * (0x1000000000000000 - v1 * d40)) >>> 47)
  let d0 := d % 2
  let d63 := d / 2 + d0
  let nd0 := 0 - d0
  let e := ((v2 / 2) &&& nd0) - v2 * d63
  let mh := (umul v2 e).hi
  let v3 := (v2 <<< 31) + (mh >>> 1)
  let mf := umul v3 d
  let m := mf + widen d
  let v3a := m.hi + d
  v3 - v3a

theorem toNat_reciprocal_table_item {d : UInt64} (hd : 2 ^ 63 ≤ d.toNat) :
    (reciprocal_table_item (d >>> 55).toUInt8).toUInt64.toNat = 523520 / (d.toNat / 2 ^ 55) := by
  have hlt := d.toNat_lt
  have h55 : (d >>> 55).toNat = d.toNat / 2 ^ 55 := Uint128.toNat_shr d (n := 55) (by decide)
  have h9 : (d >>> 55).toUInt8.toNat = d.toNat / 2 ^ 55 - 256 := by
    rw [UInt64.toNat_toUInt8, h55]
    omega
  have hor : 0x100 ||| (d >>> 55).toUInt8.toNat = d.toNat / 2 ^ 55 := by
    have h : 0x100 ||| (d >>> 55).toUInt8.toNat = 1 * 2 ^ 8 + (d >>> 55).toUInt8.toNat :=
      mul_two_pow_or 1 (UInt8.toNat_lt _)
    omega
  have hdiv : 523520 / (d.toNat / 2 ^ 55) ≤ 523520 / 256 := Nat.div_le_div_left (by omega) (by omega)
  rw [reciprocal_table_item, hor, UInt16.toNat_toUInt64, UInt16.toNat_ofNat', Nat.mod_eq_of_lt (by omega)]

/-- The first refinement. -/
theorem refine1 {v0 d40 : UInt64} (h40 : 2 ^ 39 < d40.toNat ∧ d40.toNat ≤ 2 ^ 40) (hv : v0.toNat ≤ 2045)
    (h0 : -(1279 * 2 ^ 31) ≤ 2 ^ 50 - (v0.toNat : Int) * d40.toNat)
    (h0' : 2 ^ 50 - (v0.toNat : Int) * d40.toNat ≤ 1279 * 2 ^ 31) :
    0 < 2 ^ 60 - (((v0 <<< 11) - ((v0 * v0 * d40) >>> 40) - 1).toNat : Int) * d40.toNat ∧
      2 ^ 60 - (((v0 <<< 11) - ((v0 * v0 * d40) >>> 40) - 1).toNat : Int) * d40.toNat < 2 ^ 43 := by
  have hvv : v0.toNat * v0.toNat ≤ 2045 * 2045 := Nat.mul_le_mul hv hv
  have hprod : v0.toNat * v0.toNat * d40.toNat ≤ 2045 * 2045 * 2 ^ 40 := Nat.mul_le_mul hvv h40.2
  have hmul : (v0 * v0 * d40).toNat = v0.toNat * v0.toNat * d40.toNat := by
    rw [UInt64.toNat_mul, UInt64.toNat_mul, Nat.mod_eq_of_lt (a := v0.toNat * v0.toNat) (by omega), Nat.mod_eq_of_lt (by omega)]
  have hshr : ((v0 * v0 * d40) >>> 40).toNat = v0.toNat * v0.toNat * d40.toNat / 2 ^ 40 := by
    rw [← hmul]
    exact Uint128.toNat_shr _ (n := 40) (by decide)
  have hshl : (v0 <<< 11).toNat = 2 ^ 11 * v0.toNat := by
    have h : (v0 <<< 11).toNat = v0.toNat * 2 ^ 11 % 2 ^ 64 := Uint128.toNat_shl v0 (n := 11) (by decide)
    omega
  have hdm := Nat.div_add_mod (v0.toNat * v0.toNat * d40.toNat) (2 ^ 40)
  have hr := Nat.mod_lt (v0.toNat * v0.toNat * d40.toNat) (Nat.two_pow_pos 40)
  generalize v0.toNat * v0.toNat * d40.toNat / 2 ^ 40 = t, v0.toNat * v0.toNat * d40.toNat % 2 ^ 40 = r at hdm hr hshr
  have hsq : (v0.toNat : Int) ^ 2 * d40.toNat = 2 ^ 40 * t + r := by
    rw [sq]
    exact_mod_cast hdm.symm
  have he := error1_lt (by omega) h0 h0' (by omega) (error1 hsq rfl)
  -- `v1` is positive, since it is the quotient
  have hpos : 0 < 2 ^ 11 * (v0.toNat : Int) - t - 1 := by
    by_contra hneg
    have : (2 ^ 11 * (v0.toNat : Int) - t - 1) * d40.toNat ≤ 0 := mul_nonpos_of_nonpos_of_nonneg (by omega) (by omega)
    omega
  have hv1 : ((((v0 <<< 11) - ((v0 * v0 * d40) >>> 40) - 1).toNat : Nat) : Int) = 2 ^ 11 * v0.toNat - t - 1 := by
    refine toNat_eq_of_modEq ?_ (by omega) (by omega)
    refine (sub_modEq _ _).trans (((sub_modEq _ _).trans ?_).sub (.refl 1))
    rw [hshl, hshr]
    push_cast
    exact .refl _
  rw [hv1]
  exact he

/-- The second. -/
theorem refine2 {d v1 d40 : UInt64} (hd : 2 ^ 63 ≤ d.toNat)
    (h40 : d.toNat < d40.toNat * 2 ^ 24 ∧ d40.toNat * 2 ^ 24 ≤ d.toNat + 2 ^ 24)
    (h0 : 0 < 2 ^ 60 - (v1.toNat : Int) * d40.toNat) (h1 : 2 ^ 60 - (v1.toNat : Int) * d40.toNat < 2 ^ 43) {v2 : UInt64}
    (hv2 : v2 = (v1 <<< 13) + ((v1 * (0x1000000000000000 - v1 * d40)) >>> 47)) :
    v2.toNat ≤ 2 ^ 34 ∧ 0 < 2 ^ 97 - (v2.toNat : Int) * d.toNat ∧
      2 ^ 97 - (v2.toNat : Int) * d.toNat < d.toNat + 2 ^ 63 + 2 ^ 59 := by
  have hlt := d.toNat_lt
  have hv1 : v1.toNat < 2 ^ 21 := by
    by_contra hge
    have : 2 ^ 21 * 2 ^ 39 ≤ v1.toNat * d40.toNat := Nat.mul_le_mul (by omega) (by omega)
    zify at this
    omega
  have hpos : 0 < v1.toNat := by
    by_contra hz
    rw [Nat.eq_zero_of_not_pos hz] at h1
    omega
  have hprod : v1.toNat * d40.toNat ≤ 2 ^ 60 := by
    zify
    omega
  obtain ⟨e1, he1⟩ : ∃ e1 : UInt64, e1 = 0x1000000000000000 - v1 * d40 := ⟨_, rfl⟩
  have he : (e1.toNat : Int) = 2 ^ 60 - v1.toNat * d40.toNat := by
    refine toNat_eq_of_modEq ?_ h0.le (by omega)
    rw [he1]
    exact (sub_modEq _ _).trans ((Int.ModEq.refl _).sub (mul_modEq _ _))
  have hle : v1.toNat * e1.toNat ≤ 2 ^ 21 * 2 ^ 43 - 1 := by
    have : v1.toNat * e1.toNat ≤ (2 ^ 21 - 1) * 2 ^ 43 := Nat.mul_le_mul (by omega) (by omega)
    omega
  have hmul : (v1 * e1).toNat = v1.toNat * e1.toNat := by
    rw [UInt64.toNat_mul, Nat.mod_eq_of_lt (by omega)]
  have hshr : ((v1 * e1) >>> 47).toNat = v1.toNat * e1.toNat / 2 ^ 47 := by
    rw [← hmul]
    exact Uint128.toNat_shr _ (n := 47) (by decide)
  have hshl : (v1 <<< 13).toNat = 2 ^ 13 * v1.toNat := by
    have h : (v1 <<< 13).toNat = v1.toNat * 2 ^ 13 % 2 ^ 64 := Uint128.toNat_shl v1 (n := 13) (by decide)
    omega
  have hdm := Nat.div_add_mod (v1.toNat * e1.toNat) (2 ^ 47)
  have hr := Nat.mod_lt (v1.toNat * e1.toNat) (Nat.two_pow_pos 47)
  generalize v1.toNat * e1.toNat / 2 ^ 47 = t, v1.toNat * e1.toNat % 2 ^ 47 = r at hdm hr hshr
  have hval : v2.toNat = 2 ^ 13 * v1.toNat + t := by
    rw [hv2, ← he1, UInt64.toNat_add, hshl, hshr, Nat.mod_eq_of_lt (by omega)]
  have hmul' : (v1.toNat : Int) * e1.toNat = 2 ^ 47 * t + r := by exact_mod_cast hdm.symm
  have h2 := error2 he hmul' (show (v2.toNat : Int) = 2 ^ 13 * v1.toNat + t by exact_mod_cast hval)
  have h3 := error2_lt (d := (d.toNat : Int)) (by omega) (by omega) (by omega) (by omega) (by omega) h2
  exact ⟨by omega, h3.2⟩

/-- `e` is the half of the error. -/
theorem toNat_half_error {d v2 : UInt64} (hv2 : v2.toNat ≤ 2 ^ 34) (h0 : 0 < 2 ^ 97 - (v2.toNat : Int) * d.toNat)
    (h1 : 2 ^ 97 - (v2.toNat : Int) * d.toNat < 2 ^ 65) :
    ((((v2 / 2) &&& (0 - d % 2)) - v2 * (d / 2 + d % 2)).toNat : Int) = (2 ^ 97 - (v2.toNat : Int) * d.toNat) / 2 := by
  refine toNat_eq_of_modEq ?_ (by omega) (by omega)
  refine (sub_modEq _ _).trans ?_
  have hlt := d.toNat_lt
  have h2 : (2 : UInt64).toNat = 2 := rfl
  have h63 : (d / 2 + d % 2).toNat = d.toNat / 2 + d.toNat % 2 := by
    rw [UInt64.toNat_add, UInt64.toNat_div, UInt64.toNat_mod, h2]
    omega
  have hmul := mul_modEq v2 (d / 2 + d % 2)
  rw [h63] at hmul
  refine ((Int.ModEq.refl _).sub hmul).trans ?_
  rcases Nat.mod_two_eq_zero_or_one d.toNat with hd | hd
  · have hd0 : d % 2 = 0 := UInt64.toNat_inj.1 hd
    have hand : ((v2 / 2) &&& (0 - d % 2)).toNat = 0 := by rw [hd0]; simp
    obtain ⟨k, hk⟩ : ∃ k, d.toNat = 2 * k := ⟨d.toNat / 2, by omega⟩
    have hz : (v2.toNat : Int) * ((2 * k : Nat) : Int) = 2 * (v2.toNat * k) := by push_cast; ring
    have hhalf : (2 ^ 97 - (v2.toNat : Int) * d.toNat) / 2 = 2 ^ 96 - v2.toNat * k := by
      rw [hk, hz]
      omega
    have hsum : d.toNat / 2 + d.toNat % 2 = k := by omega
    rw [hhalf, hand, hsum]
    exact Int.modEq_iff_dvd.2 ⟨2 ^ 32, by push_cast; ring⟩
  · have hd1 : d % 2 = 1 := UInt64.toNat_inj.1 hd
    have hand : ((v2 / 2) &&& (0 - d % 2)).toNat = v2.toNat / 2 := by
      have h : (0 - 1 : UInt64) = 0xffffffffffffffff := rfl
      rw [hd1, h, UInt64.toNat_and, UInt64.toNat_div, h2]
      exact (Nat.and_two_pow_sub_one_eq_mod _ 64).trans (Nat.mod_eq_of_lt (by omega))
    obtain ⟨k, hk⟩ : ∃ k, d.toNat = 2 * k + 1 := ⟨d.toNat / 2, by omega⟩
    have hz : (v2.toNat : Int) * ((2 * k + 1 : Nat) : Int) = 2 * (v2.toNat * k) + v2.toNat := by push_cast; ring
    have hhalf : (2 ^ 97 - (v2.toNat : Int) * d.toNat) / 2 = 2 ^ 96 - v2.toNat * k - v2.toNat + (v2.toNat / 2 : Nat) := by
      rw [hk, hz]
      omega
    have hsum : d.toNat / 2 + d.toNat % 2 = k + 1 := by omega
    rw [hhalf, hand, hsum]
    exact Int.modEq_iff_dvd.2 ⟨2 ^ 32, by push_cast; ring⟩

/-- The third: `2 ^ 64 + v3` is the quotient or one less. -/
theorem refine3 {d v2 e : UInt64} (hd : 2 ^ 63 ≤ d.toNat) (hv2 : v2.toNat ≤ 2 ^ 34)
    (h0 : 0 < 2 ^ 97 - (v2.toNat : Int) * d.toNat) (h1 : 2 ^ 97 - (v2.toNat : Int) * d.toNat < d.toNat + 2 ^ 63 + 2 ^ 59)
    (he : (e.toNat : Int) = (2 ^ 97 - (v2.toNat : Int) * d.toNat) / 2) {v3 : UInt64}
    (hv3 : v3 = (v2 <<< 31) + ((umul v2 e).hi >>> 1)) :
    (2 ^ 64 + v3.toNat) * d.toNat < 2 ^ 128 ∧ 2 ^ 128 ≤ (2 ^ 64 + v3.toNat + 2) * d.toNat := by
  have hlt := d.toNat_lt
  have hhi : (umul v2 e).hi.toNat = v2.toNat * e.toNat / 2 ^ 64 := by
    rw [← value_uint64, hi_def, value_umul]
    rfl
  have hshr : ((umul v2 e).hi >>> 1).toNat = v2.toNat * e.toNat / 2 ^ 65 := by
    have h : ((umul v2 e).hi >>> 1).toNat = (umul v2 e).hi.toNat / 2 ^ 1 := Uint128.toNat_shr _ (n := 1) (by decide)
    rw [h, hhi, Nat.div_div_eq_div_mul, ← pow_add]
  have hshl : (v2 <<< 31).toNat = v2.toNat * 2 ^ 31 % 2 ^ 64 := Uint128.toNat_shl v2 (n := 31) (by decide)
  have hdm := Nat.div_add_mod (v2.toNat * e.toNat) (2 ^ 65)
  have hr := Nat.mod_lt (v2.toNat * e.toNat) (Nat.two_pow_pos 65)
  generalize v2.toNat * e.toNat / 2 ^ 65 = t, v2.toNat * e.toNat % 2 ^ 65 = r at hdm hr hshr
  obtain ⟨v, hv⟩ : ∃ v, v = 2 ^ 31 * v2.toNat + t := ⟨_, rfl⟩
  obtain ⟨e2, he2⟩ : ∃ e2 : Int, e2 = 2 ^ 97 - (v2.toNat : Int) * d.toNat := ⟨_, rfl⟩
  have hmul : (v2.toNat : Int) * e.toNat = 2 ^ 65 * t + r := by exact_mod_cast hdm.symm
  have hvd : (v2.toNat : Int) * d.toNat ≥ 0 := mul_nonneg (by omega) (by omega)
  have h3 := error3 (b := e2 % 2) he2 (by omega) hmul (show (v : Int) = 2 ^ 31 * v2.toNat + t by exact_mod_cast hv)
  replace h3 := error3_le (by omega) (by omega) (by omega) ⟨hvd, by omega⟩ (by omega) h3
  -- it is a number of 65 bits of which the top one is set
  have hv64 : 2 ^ 64 ≤ v ∧ v < 2 ^ 65 := by
    constructor
    · by_contra hcon
      have : ((v : Int) + 2) * d.toNat ≤ (2 ^ 64 + 1) * (2 ^ 64 - 1) := mul_le_mul (by omega) (by omega) (by omega) (by omega)
      linarith [h3.2]
    · by_contra hcon
      have : (2 : Int) ^ 65 * 2 ^ 63 ≤ v * d.toNat := mul_le_mul (by omega) (by omega) (by omega) (by omega)
      omega
  have hval : 2 ^ 64 + v3.toNat = v := by
    rw [hv3, UInt64.toNat_add, hshl, hshr]
    omega
  rw [hval]
  zify
  constructor <;> linarith [h3.1, h3.2]

/-- The last step, exact. -/
theorem refine4 {d v3 : UInt64} (hd : 2 ^ 63 ≤ d.toNat) (h0 : (2 ^ 64 + v3.toNat) * d.toNat < 2 ^ 128)
    (h1 : 2 ^ 128 ≤ (2 ^ 64 + v3.toNat + 2) * d.toNat) :
    IsReciprocal (2 ^ 128) (2 ^ 64) d.toNat (v3 - ((umul v3 d + widen d).hi + d)).toNat := by
  have hlt := d.toNat_lt
  have hv3 := v3.toNat_lt
  have hsucc : (v3.toNat + 1) * d.toNat < 2 ^ 128 := by
    have : (v3.toNat + 1) * d.toNat ≤ 2 ^ 64 * (2 ^ 64 - 1) := Nat.mul_le_mul (by omega) (by omega)
    omega
  have hhi : (umul v3 d + widen d).hi.toNat = (v3.toNat + 1) * d.toNat / 2 ^ 64 := by
    have hval : value (umul v3 d + widen d) = (v3.toNat + 1) * d.toNat := by
      rw [value_add, value_umul, value_widen, num_bits_uint128, value_uint64, value_uint64, ← Nat.succ_mul,
        Nat.mod_eq_of_lt hsucc]
    rw [← value_uint64, hi_def, hval]
    rfl
  have hP : (2 ^ 64 + v3.toNat + 1) * d.toNat = (v3.toNat + 1) * d.toNat + d.toNat * 2 ^ 64 := by ring
  have hP0 : (2 ^ 64 + v3.toNat + 1) * d.toNat = (2 ^ 64 + v3.toNat) * d.toNat + d.toNat := by ring
  have hP1 : (2 ^ 64 + v3.toNat + 2) * d.toNat = (2 ^ 64 + v3.toNat + 1) * d.toNat + d.toNat := by ring
  have hdiv : (2 ^ 64 + v3.toNat + 1) * d.toNat / 2 ^ 64 = (umul v3 d + widen d).hi.toNat + d.toNat := by
    rw [hP, hhi, Nat.add_mul_div_right _ _ (by omega)]
  have hsub : (v3 - ((umul v3 d + widen d).hi + d)).toNat =
      (2 ^ 64 - ((umul v3 d + widen d).hi.toNat + d.toNat) % 2 ^ 64 + v3.toNat) % 2 ^ 64 := by
    rw [UInt64.toNat_sub, UInt64.toNat_add]
  rw [← hdiv] at hsub
  rcases Nat.lt_or_ge ((2 ^ 64 + v3.toNat + 1) * d.toNat) (2 ^ 128) with hcase | hcase
  · have hq : v3.toNat + 1 < 2 ^ 64 := by
      by_contra hcon
      have : 2 ^ 65 * 2 ^ 63 ≤ (2 ^ 64 + v3.toNat + 1) * d.toNat := Nat.mul_le_mul (by omega) hd
      omega
    have hval : (v3 - ((umul v3 d + widen d).hi + d)).toNat = v3.toNat + 1 := by omega
    rw [hval]
    exact ⟨by rwa [← Nat.add_assoc], by rwa [← Nat.add_assoc]⟩
  · have hval : (v3 - ((umul v3 d + widen d).hi + d)).toNat = v3.toNat := by omega
    rw [hval]
    exact ⟨h0, hcase⟩

/-- **The reciprocal.** For a normalized `d` the result is `(2 ^ 128 - 1) / d - 2 ^ 64`. -/
theorem reciprocal_2by1_isReciprocal {d : UInt64} (hd : 2 ^ 63 ≤ d.toNat) :
    IsReciprocal (2 ^ 128) (2 ^ 64) d.toNat (reciprocal_2by1 d).toNat := by
  have hlt := d.toNat_lt
  have hd40 : ((d >>> 24) + 1).toNat = d.toNat / 2 ^ 24 + 1 := by
    have h : (d >>> 24).toNat = d.toNat / 2 ^ 24 := Uint128.toNat_shr d (n := 24) (by decide)
    have h1 : (1 : UInt64).toNat = 1 := rfl
    rw [UInt64.toNat_add, h, h1]
    omega
  have hv0 := toNat_reciprocal_table_item hd
  obtain ⟨v0, hv0'⟩ : ∃ v0, v0 = (reciprocal_table_item (d >>> 55).toUInt8).toUInt64 := ⟨_, rfl⟩
  obtain ⟨d40, hd40'⟩ : ∃ d40, d40 = (d >>> 24) + 1 := ⟨_, rfl⟩
  rw [← hv0'] at hv0
  rw [← hd40'] at hd40
  have hquot : v0.toNat * (d.toNat / 2 ^ 55) ≤ 523520 ∧ 523520 < (v0.toNat + 1) * (d.toNat / 2 ^ 55) := by
    have h := Nat.div_add_mod 523520 (d.toNat / 2 ^ 55)
    have hm := Nat.mod_lt 523520 (show 0 < d.toNat / 2 ^ 55 by omega)
    rw [← hv0, Nat.mul_comm] at h
    rw [Nat.succ_mul]
    omega
  have h0 := @error0 (d.toNat / 2 ^ 55 : Nat) d40.toNat v0.toNat (by omega) (by omega) (by exact_mod_cast hquot)
  obtain ⟨v1, hv1⟩ : ∃ v1, v1 = (v0 <<< 11) - ((v0 * v0 * d40) >>> 40) - 1 := ⟨_, rfl⟩
  have h1 := refine1 (by omega) (by omega) h0.2.2.1 h0.2.2.2
  rw [← hv1] at h1
  obtain ⟨v2, hv2⟩ : ∃ v2, v2 = (v1 <<< 13) + ((v1 * (0x1000000000000000 - v1 * d40)) >>> 47) := ⟨_, rfl⟩
  obtain ⟨h34, h2⟩ := refine2 hd (by omega) h1.1 h1.2 hv2
  have he := toNat_half_error h34 h2.1 (by omega)
  have h3 := refine3 hd h34 h2.1 h2.2 he rfl
  have h4 := refine4 hd h3.1 h3.2
  rw [reciprocal_2by1]
  rw [← hv0', ← hd40', ← hv1, ← hv2]
  exact h4

/-! ## `reciprocal_3by2` -/

/-- The first half of it: the candidate `v`, which takes the carry of the low word into account, and `p`. -/
def reciprocal_3by2_high (d : Uint128) : UInt64 × UInt64 :=
  let v := reciprocal_2by1 d.hi
  let p := d.hi * v
  let p := p + d.lo
  if p < d.lo then
    let v := v - 1
    if p ≥ d.hi then (v - 1, p - d.hi - d.hi) else (v, p - d.hi)
  else (v, p)

def reciprocal_3by2 (d : Uint128) : UInt64 :=
  let high := reciprocal_3by2_high d
  let v := high.1
  let t := umul v d.lo
  let p := high.2 + t.hi
  if p < t.hi then
    let v := v - 1
    if !Uint128.lt ⟨p, t.lo⟩ d then v - 1 else v
  else v

theorem toNat_pred {v : UInt64} {n : Nat} (h : v.toNat = n + 1) : (v - 1).toNat = n := by
  have h1 : (1 : UInt64).toNat = 1 := rfl
  have hv := v.toNat_lt
  rw [UInt64.toNat_sub, h1]
  omega

/-- `p` is what `(2 ^ 64 + v) * d.hi + d.lo` has over `2 ^ 128 - 2 ^ 64`. -/
theorem reciprocal_3by2_high_spec {d : Uint128} (hd : 2 ^ 63 ≤ d.hi.toNat) {v' p' : UInt64}
    (h : reciprocal_3by2_high d = (v', p')) :
    2 ^ 64 * d.hi.toNat + v'.toNat * d.hi.toNat + d.lo.toNat + 2 ^ 64 = 2 ^ 128 + p'.toNat ∧ 2 ^ 64 ≤ p'.toNat + d.hi.toNat := by
  obtain ⟨h0, h1⟩ := reciprocal_2by1_isReciprocal hd
  rw [Nat.add_mul] at h0
  rw [Nat.add_mul, Nat.add_mul, Nat.one_mul] at h1
  have hhi := d.hi.toNat_lt
  have hlo := d.lo.toNat_lt
  unfold reciprocal_3by2_high at h
  generalize reciprocal_2by1 d.hi = v at h0 h1 h
  dsimp only at h
  obtain ⟨p, hp⟩ : ∃ p, p = d.hi * v + d.lo := ⟨_, rfl⟩
  have hpv : p.toNat = (v.toNat * d.hi.toNat + d.lo.toNat) % 2 ^ 64 := by
    rw [hp, UInt64.toNat_add, UInt64.toNat_mul, Nat.mod_add_mod, Nat.mul_comm]
  rw [← hp] at h
  by_cases hlt : p < d.lo
  · rw [if_pos hlt] at h
    rw [UInt64.lt_iff_toNat_lt] at hlt
    by_cases hge : p ≥ d.hi
    · rw [if_pos hge] at h
      obtain ⟨rfl, rfl⟩ := Prod.mk.inj h
      rw [ge_iff_le, UInt64.le_iff_toNat_le] at hge
      obtain ⟨w, hw⟩ : ∃ w, v.toNat = w + 1 + 1 := by
        refine ⟨v.toNat - 2, ?_⟩
        by_contra hcon
        have hmul : v.toNat * d.hi.toNat ≤ 1 * d.hi.toNat := Nat.mul_le_mul_right _ (by omega)
        omega
      have hv2 : (v - 1 - 1).toNat = w := toNat_pred (toNat_pred hw)
      have hp2 : (p - d.hi - d.hi).toNat = 2 ^ 64 + p.toNat - 2 * d.hi.toNat := by
        rw [UInt64.toNat_sub, UInt64.toNat_sub]
        omega
      have hmul : v.toNat * d.hi.toNat = w * d.hi.toNat + 2 * d.hi.toNat := by rw [hw]; ring
      rw [hv2, hp2]
      omega
    · rw [if_neg hge] at h
      obtain ⟨rfl, rfl⟩ := Prod.mk.inj h
      rw [ge_iff_le, UInt64.le_iff_toNat_le] at hge
      obtain ⟨w, hw⟩ : ∃ w, v.toNat = w + 1 := by
        refine ⟨v.toNat - 1, ?_⟩
        by_contra hcon
        have hmul : v.toNat * d.hi.toNat = 0 := by rw [show v.toNat = 0 by omega, Nat.zero_mul]
        omega
      have hv2 : (v - 1).toNat = w := toNat_pred hw
      have hp2 : (p - d.hi).toNat = 2 ^ 64 + p.toNat - d.hi.toNat := by
        rw [UInt64.toNat_sub]
        omega
      have hmul : v.toNat * d.hi.toNat = w * d.hi.toNat + d.hi.toNat := by rw [hw]; ring
      rw [hv2, hp2]
      omega
  · rw [if_neg hlt] at h
    obtain ⟨rfl, rfl⟩ := Prod.mk.inj h
    rw [UInt64.lt_iff_toNat_lt] at hlt
    omega

/-- **The reciprocal of two words.** For a normalized `d` the result is `(2 ^ 192 - 1) / d - 2 ^ 64`. -/
theorem reciprocal_3by2_isReciprocal {d : Uint128} (hd : 2 ^ 63 ≤ d.hi.toNat) :
    IsReciprocal (2 ^ 192) (2 ^ 64) (value d) (reciprocal_3by2 d).toNat := by
  obtain ⟨r, hr⟩ : ∃ r, r = reciprocal_3by2 d := ⟨_, rfl⟩
  rw [← hr]
  obtain ⟨⟨v, p⟩, hvp⟩ : ∃ vp, reciprocal_3by2_high d = vp := ⟨_, rfl⟩
  obtain ⟨h0, h1⟩ := reciprocal_3by2_high_spec hd hvp
  have hhi := d.hi.toNat_lt
  have hlo := d.lo.toNat_lt
  have hv := v.toNat_lt
  have hd' := value_uint128 d
  rw [reciprocal_3by2, hvp] at hr
  dsimp only at hr
  -- `t` is the product of the candidate with the low word
  obtain ⟨t, ht⟩ : ∃ t, t = umul v d.lo := ⟨_, rfl⟩
  have htv : t.hi.toNat * 2 ^ 64 + t.lo.toNat = v.toNat * d.lo.toNat := by
    rw [ht, ← value_uint128, value_umul]
    rfl
  have hthi := t.hi.toNat_lt
  have htlo := t.lo.toNat_lt
  rw [← ht] at hr
  have htotal : (2 ^ 64 + v.toNat) * value d + 2 ^ 128 = 2 ^ 192 + p.toNat * 2 ^ 64 + (t.hi.toNat * 2 ^ 64 + t.lo.toNat) := by
    rw [hd', htv]
    linear_combination 2 ^ 64 * h0
  have hpv : (p + t.hi).toNat = (p.toNat + t.hi.toNat) % 2 ^ 64 := UInt64.toNat_add ..
  have hp := p.toNat_lt
  have hmul1 : (2 ^ 64 + v.toNat + 1) * value d = (2 ^ 64 + v.toNat) * value d + value d := by ring
  by_cases hlt : p + t.hi < t.hi
  · rw [if_pos hlt] at hr
    rw [UInt64.lt_iff_toNat_lt, hpv] at hlt
    -- too much by one or two: it is at least `2 ^ 192`
    have hlt' : p.toNat + t.hi.toNat ≥ 2 ^ 64 := by omega
    have hge : Uint128.lt ⟨p + t.hi, t.lo⟩ d = true ↔ (p.toNat + t.hi.toNat) * 2 ^ 64 + t.lo.toNat < 2 ^ 128 + value d := by
      rw [Uint128.lt_iff, value_uint128]
      dsimp only
      rw [hpv]
      omega
    have hprod : v.toNat * d.lo.toNat ≤ (2 ^ 64 - 1) * (2 ^ 64 - 1) := Nat.mul_le_mul (by omega) (by omega)
    obtain ⟨w, hw⟩ : ∃ w, v.toNat = w + 1 + 1 := by
      refine ⟨v.toNat - 2, ?_⟩
      by_contra hcon
      have hmul : v.toNat * d.lo.toNat ≤ 1 * d.lo.toNat := Nat.mul_le_mul_right _ (by omega)
      omega
    have hsplit : (2 ^ 64 + v.toNat) * value d = (2 ^ 64 + w) * value d + 2 * value d := by rw [hw]; ring
    have hsucc : (2 ^ 64 + w + 1) * value d = (2 ^ 64 + w) * value d + value d := by ring
    have hsucc' : (2 ^ 64 + (w + 1)) * value d = (2 ^ 64 + w) * value d + value d := by ring
    have hsucc2 : (2 ^ 64 + (w + 1) + 1) * value d = (2 ^ 64 + w) * value d + 2 * value d := by ring
    by_cases hless : Uint128.lt ⟨p + t.hi, t.lo⟩ d = true
    · have hv1 : r.toNat = w + 1 := by
        rw [hr, hless]
        exact toNat_pred hw
      rw [hge] at hless
      rw [hv1]
      constructor <;> omega
    · have hv2 : r.toNat = w := by
        rw [hr, Bool.eq_false_iff.2 hless]
        exact toNat_pred (toNat_pred hw)
      rw [hge] at hless
      rw [hv2]
      constructor <;> omega
  · rw [if_neg hlt] at hr
    rw [UInt64.lt_iff_toNat_lt, hpv] at hlt
    rw [hr]
    constructor <;> omega

/-! ## The two reciprocals -/

/-- **The reciprocal of a word.** The table and the four refinements give it exactly, for every normalized word. -/
theorem reciprocal_2by1_exact {d : UInt64} (hd : 2 ^ 63 ≤ d.toNat) :
    (reciprocal_2by1 d).toNat = (2 ^ 128 - 1) / d.toNat - 2 ^ 64 :=
  (reciprocal_2by1_isReciprocal hd).eq

theorem reciprocal_2by1_of_max : (reciprocal_2by1 (-1)).toNat = (2 ^ 128 - 1) / (-1 : UInt64).toNat - 2 ^ 64 :=
  reciprocal_2by1_exact (by decide)

/-- **The reciprocal of two words.** It is put right from that of the high word. -/
theorem reciprocal_3by2_exact {d : Uint128} (hd : 2 ^ 63 ≤ d.hi.toNat) :
    (reciprocal_3by2 d).toNat = (2 ^ 192 - 1) / value d - 2 ^ 64 :=
  (reciprocal_3by2_isReciprocal hd).eq

theorem reciprocal_3by2_of_max : (reciprocal_3by2 ⟨-1, 0⟩).toNat = (2 ^ 192 - 1) / value (⟨-1, 0⟩ : Uint128) - 2 ^ 64 :=
  reciprocal_3by2_exact (by decide)

end EEVM.Intx

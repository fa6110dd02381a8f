import Mathlib.Data.Nat.Size
import EEVM.Intx.Reciprocal
import EEVM.Lib.LongDivision
/-!
# intx: division of two or three words (int128.hpp:409-416, 536-645)

| here | there |
| --- | --- |
| `clz64` | `clz(uint64_t)` (`int128.hpp:409`), with the built-in |
| `DivResult` | `div_result` (`:444`) |
| `udivrem_2by1`, `udivrem_3by2` | `:536`, `:560` |
| `udivrem128` | `udivrem(uint128, uint128)` (`:590`) |
-/
namespace EEVM.Intx

open Halves Reciprocal LongDivision

structure DivResult (α : Type) where
  quot : α
  rem : α
deriving DecidableEq, Repr

/-! ## Two words by one -/

/-- The second adjustment. -/
def udivrem_2by1_last (qhi r d : UInt64) : DivResult UInt64 := if r ≥ d then ⟨qhi + 1, r - d⟩ else ⟨qhi, r⟩

def udivrem_2by1 (u : Uint128) (d v : UInt64) : DivResult UInt64 :=
  let q := umul v u.hi
  let q := q + u
  let qhi := q.hi + 1
  let r := u.lo - qhi * d
  if r > q.lo then udivrem_2by1_last (qhi - 1) (r + d) d else udivrem_2by1_last qhi r d

/-- A quotient and a remainder in range are the quotient and the remainder. -/
theorem eq_div_mod {n d : Nat} {Q R : Int} (h : (n : Int) = Q * d + R) (h0 : 0 ≤ R) (hd : R < d) :
    Q = (n / d : Nat) ∧ R = (n % d : Nat) := by
  have h1 := (Int.ediv_emod_unique (a := n) (b := d) (r := R) (q := Q) (by omega)).2 ⟨by linarith, h0, hd⟩
  push_cast
  exact ⟨h1.1.symm, h1.2.symm⟩

theorem div_lt_of_lt_mul {n d : Nat} (h : n < d * 2 ^ 64) : n / d < 2 ^ 64 := Nat.div_lt_of_lt_mul h

/-- The last adjustment gives the quotient, when what it starts from is the quotient or one less. -/
theorem udivrem_2by1_last_spec {n : Nat} {qhi r d : UInt64} {Q : Int} (hn : n < d.toNat * 2 ^ 64)
    (hq : (qhi.toNat : Int) ≡ Q [ZMOD 2 ^ 64]) (h : (n : Int) = Q * d.toNat + r.toNat) (hr : r.toNat < 2 * d.toNat) :
    (udivrem_2by1_last qhi r d).quot.toNat = n / d.toNat ∧ (udivrem_2by1_last qhi r d).rem.toNat = n % d.toNat := by
  have hlt := div_lt_of_lt_mul hn
  unfold udivrem_2by1_last
  by_cases hge : r ≥ d
  · rw [if_pos hge]
    rw [ge_iff_le, UInt64.le_iff_toNat_le] at hge
    have hsub : (r - d).toNat = r.toNat - d.toNat := UInt64.toNat_sub_of_le _ _ (UInt64.le_iff_toNat_le.2 hge)
    obtain ⟨h1, h2⟩ := eq_div_mod (n := n) (d := d.toNat) (Q := Q + 1) (R := (r - d).toNat) (by rw [hsub]; push_cast [hge]; linarith)
      (by omega) (by omega)
    generalize n / d.toNat = a, n % d.toNat = b at hlt h1 h2 ⊢
    have hq1 : ((qhi + 1).toNat : Int) = Q + 1 :=
      toNat_eq_of_modEq ((add_modEq _ _).trans (hq.add (.refl 1))) (by omega) (by omega)
    exact ⟨by dsimp only; omega, by dsimp only; omega⟩
  · rw [if_neg hge]
    rw [ge_iff_le, UInt64.le_iff_toNat_le] at hge
    obtain ⟨h1, h2⟩ := eq_div_mod (n := n) (d := d.toNat) (Q := Q) (R := r.toNat) h (by omega) (by omega)
    generalize n / d.toNat = a, n % d.toNat = b at hlt h1 h2 ⊢
    have hq1 : (qhi.toNat : Int) = Q := toNat_eq_of_modEq hq (by omega) (by omega)
    exact ⟨by dsimp only; omega, by dsimp only; omega⟩

theorem udivrem_2by1_spec {u : Uint128} {d v : UInt64} (hd : 2 ^ 63 ≤ d.toNat) (hu : u.hi.toNat < d.toNat)
    (hv : IsReciprocal (2 ^ 128) (2 ^ 64) d.toNat v.toNat) :
    (udivrem_2by1 u d v).quot.toNat = value u / d.toNat ∧ (udivrem_2by1 u d v).rem.toNat = value u % d.toNat := by
  have hdlt := d.toNat_lt
  have hlo := u.lo.toNat_lt
  have hval := value_uint128 u
  have hn : value u < d.toNat * 2 ^ 64 := by omega
  obtain ⟨q, hq⟩ : ∃ q, q = umul v u.hi + u := ⟨_, rfl⟩
  have hqv : (2 ^ 64 + v.toNat) * u.hi.toNat + u.lo.toNat = q.hi.toNat * 2 ^ 64 + q.lo.toNat := by
    have hlt : (2 ^ 64 + v.toNat) * u.hi.toNat + u.lo.toNat < 2 ^ 128 := by
      have h1 : (2 ^ 64 + v.toNat) * (u.hi.toNat + 1) ≤ (2 ^ 64 + v.toNat) * d.toNat := Nat.mul_le_mul_left _ hu
      have h2 := hv.lt
      rw [Nat.mul_succ] at h1
      omega
    have hsum : v.toNat * u.hi.toNat + value u = (2 ^ 64 + v.toNat) * u.hi.toNat + u.lo.toNat := by rw [hval]; ring
    rw [← value_uint128, hq, value_add, value_umul, num_bits_uint128, value_uint64, value_uint64, hsum, Nat.mod_eq_of_lt hlt]
  obtain ⟨rc, hrc⟩ : ∃ rc : Int, rc = (value u : Int) - (q.hi.toNat + 1 : Nat) * d.toNat := ⟨_, rfl⟩
  have hrc' : rc = (u.hi.toNat * (2 ^ 64 * 1) + u.lo.toNat * 1 + 0 : Nat) - (q.hi.toNat + 1 : Nat) * d.toNat := by
    simp only [hrc, hval, Nat.mul_one, Nat.add_zero]
  obtain ⟨h1, h2, h3⟩ := candidate_bounds (by omega) (by omega) (by simpa using hv) (by omega) hlo (by omega) q.lo.toNat_lt hqv hrc'
  have hq1 : ((q.hi + 1).toNat : Int) ≡ q.hi.toNat + 1 [ZMOD 2 ^ 64] := add_modEq _ _
  obtain ⟨r, hr⟩ : ∃ r, r = u.lo - (q.hi + 1) * d := ⟨_, rfl⟩
  have hrm : (r.toNat : Int) ≡ rc [ZMOD 2 ^ 64] := by
    rw [hr, hrc, hval]
    refine (sub_modEq _ _).trans (((Int.ModEq.refl _).sub ((mul_modEq _ _).trans (hq1.mul_right _))).trans ?_)
    exact Int.modEq_iff_dvd.2 ⟨u.hi.toNat, by push_cast; ring⟩
  rw [udivrem_2by1, ← hq, ← hr]
  have hrlt := r.toNat_lt
  have hqlt := q.lo.toNat_lt
  by_cases hc : r > q.lo
  · rw [if_pos hc]
    rw [gt_iff_lt, UInt64.lt_iff_toNat_lt] at hc
    have hrc2 : rc < 2 ^ 64 - d.toNat := by
      by_contra hge
      have : (r.toNat : Int) = rc := toNat_eq_of_modEq hrm (by omega) (by omega)
      omega
    have hr1 : ((r + d).toNat : Int) = rc + d.toNat :=
      toNat_eq_of_modEq ((add_modEq _ _).trans (hrm.add_right _)) (by omega) (by omega)
    have hq2 : ((q.hi + 1 - 1).toNat : Int) ≡ q.hi.toNat [ZMOD 2 ^ 64] := by
      rw [UInt64.add_sub_cancel]
    refine udivrem_2by1_last_spec hn hq2 ?_ (by omega)
    rw [hr1, hrc]
    push_cast
    ring
  · rw [if_neg hc]
    rw [gt_iff_lt, UInt64.lt_iff_toNat_lt] at hc
    have hrc2 : 0 ≤ rc := by
      by_contra hneg
      have : (r.toNat : Int) = rc + 2 ^ 64 := toNat_eq_of_modEq (hrm.trans Int.add_modEq_right.symm) (by omega) (by omega)
      omega
    have hr1 : (r.toNat : Int) = rc := toNat_eq_of_modEq hrm (by omega) (by omega)
    refine udivrem_2by1_last_spec hn hq1 ?_ (by omega)
    rw [hr1, hrc]
    push_cast
    ring

/-! ## Three words by two -/

def udivrem_3by2_last (qhi : UInt64) (r d : Uint128) : DivResult Uint128 :=
  if !Uint128.lt r d then ⟨widen (qhi + 1), r - d⟩ else ⟨widen qhi, r⟩

def udivrem_3by2 (u2 u1 u0 : UInt64) (d : Uint128) (v : UInt64) : DivResult Uint128 :=
  let q := umul v u2
  let q := q + ⟨u2, u1⟩
  let r1 := u1 - q.hi * d.hi
  let t := umul d.lo q.hi
  let r := ⟨r1, u0⟩ - t - d
  let r1 := r.hi
  let qhi := q.hi + 1
  if r1 ≥ q.lo then udivrem_3by2_last (qhi - 1) (r + d) d else udivrem_3by2_last qhi r d

theorem value_eq_of_modEq {x : Uint128} {z : Int} (h : (value x : Int) ≡ z [ZMOD 2 ^ 128]) (h0 : 0 ≤ z) (h1 : z < 2 ^ 128) :
    (value x : Int) = z :=
  eq_of_modEq h (by omega) (by exact_mod_cast value_uint128_lt x) h0 h1

theorem udivrem_3by2_last_spec {n : Nat} {qhi : UInt64} {r d : Uint128} {Q : Int} (hn : n < value d * 2 ^ 64)
    (hq : (qhi.toNat : Int) ≡ Q [ZMOD 2 ^ 64]) (h : (n : Int) = Q * value d + value r) (hr : value r < 2 * value d) :
    value (udivrem_3by2_last qhi r d).quot = n / value d ∧ value (udivrem_3by2_last qhi r d).rem = n % value d := by
  have hlt := div_lt_of_lt_mul hn
  have hd := value_uint128_lt d
  have hr' := value_uint128_lt r
  unfold udivrem_3by2_last
  by_cases hless : Uint128.lt r d = true
  · rw [hless]
    rw [Uint128.lt_iff] at hless
    obtain ⟨h1, h2⟩ := eq_div_mod (n := n) (d := value d) (Q := Q) (R := value r) h (by omega) (by omega)
    generalize n / value d = a, n % value d = b at hlt h1 h2 ⊢
    have hq1 : (qhi.toNat : Int) = Q := toNat_eq_of_modEq hq (by omega) (by omega)
    simp only [Bool.not_true, Bool.false_eq_true, if_false, value_widen, value_uint64]
    exact ⟨by omega, by omega⟩
  · rw [Bool.eq_false_iff.2 hless]
    rw [Uint128.lt_iff] at hless
    have hsub : value (r - d) = value r - value d := by
      rw [value_sub, num_bits_uint128]
      omega
    obtain ⟨h1, h2⟩ := eq_div_mod (n := n) (d := value d) (Q := Q + 1) (R := value (r - d))
      (by rw [hsub]; push_cast [Nat.le_of_not_lt hless]; linarith) (by omega) (by omega)
    generalize n / value d = a, n % value d = b at hlt h1 h2 ⊢
    have hq1 : ((qhi + 1).toNat : Int) = Q + 1 :=
      toNat_eq_of_modEq ((add_modEq _ _).trans (hq.add (.refl 1))) (by omega) (by omega)
    simp only [Bool.not_false, if_true, value_widen, value_uint64]
    exact ⟨by omega, by omega⟩

section

variable {u2 u1 u0 v : UInt64} {d : Uint128}

/-- The words of the product with the reciprocal: nothing is carried out of them. -/
theorem candidate_words (hu : u2.toNat * 2 ^ 64 + u1.toNat < value d)
    (hv : IsReciprocal (2 ^ 192) (2 ^ 64) (value d) v.toNat) :
    (2 ^ 64 + v.toNat) * u2.toNat + u1.toNat =
      (umul v u2 + ⟨u2, u1⟩).hi.toNat * 2 ^ 64 + (umul v u2 + ⟨u2, u1⟩).lo.toNat := by
  have hlt : (2 ^ 64 + v.toNat) * u2.toNat + u1.toNat < 2 ^ 128 := by
    have h1 : (2 ^ 64 + v.toNat) * (u2.toNat * 2 ^ 64 + u1.toNat + 1) ≤ (2 ^ 64 + v.toNat) * value d :=
      Nat.mul_le_mul_left _ hu
    have h2 := hv.lt
    have h3 : 2 ^ 64 * u1.toNat ≤ (2 ^ 64 + v.toNat) * u1.toNat := Nat.mul_le_mul_right _ (by omega)
    have h4 : (2 ^ 64 + v.toNat) * (u2.toNat * 2 ^ 64 + u1.toNat + 1) =
      (2 ^ 64 + v.toNat) * u2.toNat * 2 ^ 64 + (2 ^ 64 + v.toNat) * u1.toNat + (2 ^ 64 + v.toNat) := by ring
    omega
  have hsum : v.toNat * u2.toNat + (u2.toNat * 2 ^ 64 + u1.toNat) = (2 ^ 64 + v.toNat) * u2.toNat + u1.toNat := by ring
  rw [← value_uint128, value_add, value_umul, num_bits_uint128, value_uint64, value_uint64, value_uint128, hsum,
    Nat.mod_eq_of_lt hlt]

/-- The remainder of the candidate `q1 + 1`, from its two lower words. -/
theorem remainder_modEq (q1 : UInt64) :
    (value (⟨u1 - q1 * d.hi, u0⟩ - umul d.lo q1 - d : Uint128) : Int) ≡
      (u2.toNat * 2 ^ 128 + u1.toNat * 2 ^ 64 + u0.toNat : Nat) - (q1.toNat + 1 : Nat) * value d [ZMOD 2 ^ 128] := by
  obtain ⟨r1, hr1⟩ : ∃ r1, r1 = u1 - q1 * d.hi := ⟨_, rfl⟩
  rw [← hr1]
  have hr1m : (r1.toNat : Int) * 2 ^ 64 ≡ (u1.toNat - q1.toNat * d.hi.toNat) * 2 ^ 64 [ZMOD 2 ^ 128] := by
    rw [hr1]
    exact ((sub_modEq _ _).trans ((Int.ModEq.refl _).sub (mul_modEq _ _))).mul_right' (c := 2 ^ 64)
  have hsub : (value (⟨r1, u0⟩ - umul d.lo q1 - d : Uint128) : Int) ≡
      value (⟨r1, u0⟩ : Uint128) - d.lo.toNat * q1.toNat - value d [ZMOD 2 ^ 128] := by
    refine (value_sub_modEq _ _).trans (((value_sub_modEq _ _).trans ?_).sub_right _)
    rw [value_umul, value_uint64, value_uint64]
    push_cast
    rfl
  have htop : (value (⟨r1, u0⟩ : Uint128) : Int) ≡ (u1.toNat - q1.toNat * d.hi.toNat) * 2 ^ 64 + u0.toNat [ZMOD 2 ^ 128] := by
    rw [value_uint128]
    push_cast
    exact hr1m.add_right _
  refine hsub.trans (((htop.sub_right _).sub_right _).trans ?_)
  rw [value_uint128 d]
  exact Int.modEq_iff_dvd.2 ⟨u2.toNat, by push_cast; ring⟩

end

section

variable {n : Nat} {q r d : Uint128} {rc : Int} (hd : 2 ^ 127 ≤ value d) (hn : n < value d * 2 ^ 64)
  (hrc : rc = n - (q.hi.toNat + 1 : Nat) * value d)
  (hrm : (value r : Int) ≡ rc [ZMOD 2 ^ 128]) (hbelow : -(value d : Int) ≤ rc)
  (habove : (q.lo.toNat : Int) * 2 ^ 64 - 2 ^ 128 < rc) (hrange : rc < 2 ^ 128 - value d ∨ rc < q.lo.toNat * 2 ^ 64)

include hd hn hrc hrm hbelow habove hrange

/-- The remainder of the candidate is negative, or it leaves room for the divisor: the candidate is taken back. -/
theorem candidate_taken_back (hc : q.lo.toNat ≤ r.hi.toNat) :
    value (udivrem_3by2_last (q.hi + 1 - 1) (r + d) d).quot = n / value d ∧
      value (udivrem_3by2_last (q.hi + 1 - 1) (r + d) d).rem = n % value d := by
  have hrval := value_uint128 r
  have hrlo := r.lo.toNat_lt
  have hdlt := value_uint128_lt d
  have hqlt := q.lo.toNat_lt
  have hlt : rc < 2 ^ 128 - value d := by
    by_contra hge
    have : (value r : Int) = rc := value_eq_of_modEq hrm (by omega) (by omega)
    omega
  have hr1 : (value (r + d) : Int) = rc + value d :=
    value_eq_of_modEq ((value_add_modEq _ _).trans (hrm.add_right _)) (by omega) (by omega)
  have hq : ((q.hi + 1 - 1).toNat : Int) ≡ q.hi.toNat [ZMOD 2 ^ 64] := by
    rw [UInt64.add_sub_cancel]
  refine udivrem_3by2_last_spec hn hq ?_ (by omega)
  rw [hr1, hrc]
  push_cast
  ring

/-- The remainder of the candidate is not negative: the candidate is kept. -/
theorem candidate_kept (hc : r.hi.toNat < q.lo.toNat) :
    value (udivrem_3by2_last (q.hi + 1) r d).quot = n / value d ∧
      value (udivrem_3by2_last (q.hi + 1) r d).rem = n % value d := by
  have hrval := value_uint128 r
  have hrlo := r.lo.toNat_lt
  have hrlt := value_uint128_lt r
  have hdlt := value_uint128_lt d
  have hqlt := q.lo.toNat_lt
  have hpos : 0 ≤ rc := by
    by_contra hneg
    have : (value r : Int) = rc + 2 ^ 128 := value_eq_of_modEq (hrm.trans Int.add_modEq_right.symm) (by omega) (by omega)
    omega
  have hr1 : (value r : Int) = rc := value_eq_of_modEq hrm (by omega) (by omega)
  refine udivrem_3by2_last_spec hn (add_modEq _ _) ?_ (by omega)
  rw [hr1, hrc]
  push_cast
  ring

end

theorem udivrem_3by2_spec {u2 u1 u0 : UInt64} {d : Uint128} {v : UInt64} (hd : 2 ^ 63 ≤ d.hi.toNat)
    (hu : u2.toNat * 2 ^ 64 + u1.toNat < value d) (hv : IsReciprocal (2 ^ 192) (2 ^ 64) (value d) v.toNat) :
    value (udivrem_3by2 u2 u1 u0 d v).quot = (u2.toNat * 2 ^ 128 + u1.toNat * 2 ^ 64 + u0.toNat) / value d ∧
      value (udivrem_3by2 u2 u1 u0 d v).rem = (u2.toNat * 2 ^ 128 + u1.toNat * 2 ^ 64 + u0.toNat) % value d := by
  have hdlt := value_uint128_lt d
  have hval := value_uint128 d
  have h0lt := u0.toNat_lt
  have hd1 : 2 ^ 127 ≤ value d := by omega
  have hrm := @remainder_modEq u2 u1 u0 d
  obtain ⟨n, hnv⟩ : ∃ n, n = u2.toNat * 2 ^ 128 + u1.toNat * 2 ^ 64 + u0.toNat := ⟨_, rfl⟩
  rw [← hnv] at hrm ⊢
  have hn : n < value d * 2 ^ 64 := by omega
  obtain ⟨q, hq⟩ : ∃ q, q = umul v u2 + ⟨u2, u1⟩ := ⟨_, rfl⟩
  have hqv := candidate_words hu hv
  rw [← hq] at hqv
  obtain ⟨rc, hrc⟩ : ∃ rc : Int, rc = (n : Int) - (q.hi.toNat + 1 : Nat) * value d := ⟨_, rfl⟩
  replace hrm := hrc ▸ hrm q.hi
  have hsq : 2 ^ 64 * 2 ^ 64 = 2 ^ 128 := (pow_add 2 64 64).symm
  obtain ⟨hbelow, habove, hrange⟩ := @candidate_bounds (2 ^ 64) (2 ^ 64) (value d) v.toNat u2.toNat u1.toNat u0.toNat
    q.hi.toNat q.lo.toNat (by rw [hsq]; omega) (by rw [hsq]; exact hdlt) (by rw [hsq, ← pow_add]; exact hv) h0lt u1.toNat_lt
    (by rw [hsq, ← hnv]; exact hn) q.lo.toNat_lt hqv rc (by rw [hrc, hsq, hnv])
  push_cast [← pow_add] at habove hrange
  rw [udivrem_3by2, ← hq]
  generalize (⟨u1 - q.hi * d.hi, u0⟩ - umul d.lo q.hi - d : Uint128) = r at *
  by_cases hc : r.hi ≥ q.lo
  · rw [if_pos hc]
    rw [ge_iff_le, UInt64.le_iff_toNat_le] at hc
    exact candidate_taken_back hd1 hn hrc hrm hbelow habove hrange hc
  · rw [if_neg hc]
    rw [ge_iff_le, UInt64.le_iff_toNat_le, Nat.not_le] at hc
    exact candidate_kept hd1 hn hrc hrm hbelow habove hrange hc

/-! ## Normalization -/

/-- The number of leading zeros, which is not defined for zero. -/
def builtin_clzll (x : UInt64) : Nat := 63 - x.toNat.log2

def clz64 (x : UInt64) : Nat := if x ≠ 0 then builtin_clzll x else 64

theorem toNat_ne_zero {x : UInt64} : x.toNat ≠ 0 ↔ x ≠ 0 := by
  rw [ne_eq, ne_eq, ← UInt64.toNat_inj, UInt64.toNat_zero]

theorem clz64_eq (x : UInt64) : clz64 x = 64 - x.toNat.size := by
  unfold clz64 builtin_clzll
  split
  case isTrue hx =>
    have h0 := toNat_ne_zero.2 hx
    have h1 : x.toNat.log2 < x.toNat.size := Nat.lt_size.2 (Nat.log2_self_le h0)
    have h2 : x.toNat.size ≤ x.toNat.log2 + 1 := Nat.size_le.2 Nat.lt_log2_self
    omega
  case isFalse hx =>
    rw [not_ne_iff.1 hx]
    rfl

theorem clz64_lt {x : UInt64} (hx : x ≠ 0) : clz64 x < 64 := by
  have h := Nat.size_eq_zero.not.2 (toNat_ne_zero.2 hx)
  rw [clz64_eq]
  omega

/-- The highest bit of the shifted word is set, and none is lost. -/
theorem clz64_normalizes {x : UInt64} (hx : x ≠ 0) :
    2 ^ 63 ≤ x.toNat * 2 ^ clz64 x ∧ (x.toNat + 1) * 2 ^ clz64 x ≤ 2 ^ 64 := by
  have h0 := Nat.size_eq_zero.not.2 (toNat_ne_zero.2 hx)
  have h64 : x.toNat.size ≤ 64 := Nat.size_le.2 x.toNat_lt
  obtain ⟨k, hk⟩ := Nat.exists_eq_add_one_of_ne_zero h0
  have hlt : x.toNat < 2 ^ (k + 1) := hk ▸ Nat.lt_size_self x.toNat
  have hle : 2 ^ k ≤ x.toNat := Nat.lt_size.1 (by omega)
  rw [clz64_eq, hk]
  constructor
  · have h1 : 2 ^ 63 = 2 ^ k * 2 ^ (64 - (k + 1)) := by
      rw [← pow_add]
      congr 1
      omega
    exact h1 ▸ Nat.mul_le_mul_right _ hle
  · have h1 : 2 ^ 64 = 2 ^ (k + 1) * 2 ^ (64 - (k + 1)) := by
      rw [← pow_add]
      congr 1
      omega
    exact h1 ▸ Nat.mul_le_mul_right _ hlt

/-- A word shifted into another. -/
theorem toNat_shl_or {s : Nat} (w prev : UInt64) (h0 : 0 < s) (hs : s < 64) :
    ((w <<< UInt64.ofNat s) ||| (prev >>> UInt64.ofNat (64 - s))).toNat =
      w.toNat * 2 ^ s % 2 ^ 64 + prev.toNat / 2 ^ (64 - s) := by
  rw [UInt64.toNat_or, Uint128.toNat_shl _ hs, Uint128.toNat_shr _ (by omega), shl_or hs.le prev.toNat_lt]

theorem shl_split {s : Nat} (w : Nat) (hs : s ≤ 64) : w * 2 ^ s = w / 2 ^ (64 - s) * 2 ^ 64 + w * 2 ^ s % 2 ^ 64 := by
  have hpow : 2 ^ 64 = 2 ^ (64 - s) * 2 ^ s := by rw [← pow_add, Nat.sub_add_cancel hs]
  have hdiv : w * 2 ^ s / 2 ^ 64 = w / 2 ^ (64 - s) := by rw [hpow, Nat.mul_div_mul_right _ _ (Nat.two_pow_pos s)]
  rw [← hdiv]
  exact (Nat.div_add_mod' _ _).symm

/-! ## Two words by two -/

/-- The two steps of the division by a normalized word. -/
def udivrem128_by1 (xn_ex xn_hi xn_lo yn : UInt64) (lsh : Nat) : DivResult Uint128 :=
  let v := reciprocal_2by1 yn
  let res := udivrem_2by1 ⟨xn_ex, xn_hi⟩ yn v
  let q1 := res.quot
  let res := udivrem_2by1 ⟨res.rem, xn_lo⟩ yn v
  ⟨⟨q1, res.quot⟩, widen (res.rem >>> UInt64.ofNat lsh)⟩

/-- By a divisor of two words that is not normalized. -/
def udivrem128_by2 (x y : Uint128) (lsh : Nat) : DivResult Uint128 :=
  let rsh := 64 - lsh
  let yn_lo := y.lo <<< UInt64.ofNat lsh
  let yn_hi := y.lo >>> UInt64.ofNat rsh ||| y.hi <<< UInt64.ofNat lsh
  let xn_ex := x.hi >>> UInt64.ofNat rsh
  let xn_hi := x.lo >>> UInt64.ofNat rsh ||| x.hi <<< UInt64.ofNat lsh
  let xn_lo := x.lo <<< UInt64.ofNat lsh
  let v := reciprocal_3by2 ⟨yn_hi, yn_lo⟩
  let res := udivrem_3by2 xn_ex xn_hi xn_lo ⟨yn_hi, yn_lo⟩ v
  ⟨res.quot, Uint128.shr res.rem lsh⟩

def udivrem128 (x y : Uint128) : DivResult Uint128 :=
  if y.hi == 0 then
    let lsh := clz64 y.lo
    if lsh ≠ 0 then
      let rsh := 64 - lsh
      udivrem128_by1 (x.hi >>> UInt64.ofNat rsh) (x.lo >>> UInt64.ofNat rsh ||| x.hi <<< UInt64.ofNat lsh)
        (x.lo <<< UInt64.ofNat lsh) (y.lo <<< UInt64.ofNat lsh) lsh
    else udivrem128_by1 0 x.hi x.lo y.lo lsh
  else if y.hi > x.hi then ⟨widen 0, x⟩
  else
    let lsh := clz64 y.hi
    if lsh == 0 then
      if y.hi < x.hi || y.lo ≤ x.lo then ⟨widen 1, x - y⟩ else ⟨widen 0, x - widen 0⟩
    else udivrem128_by2 x y lsh

/-- A quotient does not depend on a common factor; the remainder is brought back by a shift. -/
theorem scaled {n d s : Nat} : n * 2 ^ s / (d * 2 ^ s) = n / d ∧ n * 2 ^ s % (d * 2 ^ s) / 2 ^ s = n % d :=
  ⟨Nat.mul_div_mul_right _ _ (Nat.two_pow_pos s),
    by rw [Nat.mul_mod_mul_right, Nat.mul_div_cancel _ (Nat.two_pow_pos s)]⟩

/-- What the shifts make of two words. -/
theorem shifted_words {s : Nat} (x : Uint128) (h0 : 0 < s) (hs : s < 64) :
    (x.hi >>> UInt64.ofNat (64 - s)).toNat * 2 ^ 128 +
        (x.lo >>> UInt64.ofNat (64 - s) ||| x.hi <<< UInt64.ofNat s).toNat * 2 ^ 64 + (x.lo <<< UInt64.ofNat s).toNat =
      value x * 2 ^ s := by
  have h1 := shl_split x.hi.toNat hs.le
  have h2 := shl_split x.lo.toNat hs.le
  rw [UInt64.or_comm, toNat_shl_or _ _ h0 hs, Uint128.toNat_shr _ (by omega), Uint128.toNat_shl _ hs, value_uint128]
  linarith

theorem udivrem128_by1_spec {xn_ex xn_hi xn_lo yn : UInt64} {lsh n d : Nat} (hl : lsh < 64) (hy : 2 ^ 63 ≤ yn.toNat)
    (hx : xn_ex.toNat < yn.toNat) (hd : yn.toNat = d * 2 ^ lsh)
    (hn : xn_ex.toNat * 2 ^ 128 + xn_hi.toNat * 2 ^ 64 + xn_lo.toNat = n * 2 ^ lsh) :
    value (udivrem128_by1 xn_ex xn_hi xn_lo yn lsh).quot = n / d ∧
      value (udivrem128_by1 xn_ex xn_hi xn_lo yn lsh).rem = n % d := by
  have hpos : 0 < yn.toNat := by omega
  obtain ⟨v, hvd⟩ : ∃ v, v = reciprocal_2by1 yn := ⟨_, rfl⟩
  have hv := reciprocal_2by1_isReciprocal hy
  rw [← hvd] at hv
  obtain ⟨res1, hres1⟩ : ∃ res, res = udivrem_2by1 ⟨xn_ex, xn_hi⟩ yn v := ⟨_, rfl⟩
  obtain ⟨hq1, hr1⟩ := udivrem_2by1_spec (u := ⟨xn_ex, xn_hi⟩) hy hx hv
  rw [← hres1] at hq1 hr1
  have hr1lt : res1.rem.toNat < yn.toNat := hr1 ▸ Nat.mod_lt _ hpos
  obtain ⟨res2, hres2⟩ : ∃ res, res = udivrem_2by1 ⟨res1.rem, xn_lo⟩ yn v := ⟨_, rfl⟩
  obtain ⟨hq2, hr2⟩ := udivrem_2by1_spec (u := ⟨res1.rem, xn_lo⟩) hy hr1lt hv
  rw [← hres2] at hq2 hr2
  rw [udivrem128_by1, ← hvd, ← hres1, ← hres2]
  have hnum : n * 2 ^ lsh = value (⟨xn_ex, xn_hi⟩ : Uint128) * 2 ^ 64 + xn_lo.toNat := by
    rw [← hn, value_uint128]
    ring
  rw [value_uint128, hr1] at hq2 hr2
  obtain ⟨hs1, hs2⟩ := scaled (n := n) (d := d) (s := lsh)
  rw [hnum, ← hd] at hs1 hs2
  constructor
  · rw [← hs1, div_next hpos, ← hq1, value_uint128, hq2]
  · rw [← hs2, mod_next, value_widen, value_uint64, Uint128.toNat_shr _ hl, hr2]

theorem udivrem128_by2_spec {x y : Uint128} {lsh : Nat} (h0 : 0 < lsh) (hl : lsh < 64) (hn : 2 ^ 63 ≤ y.hi.toNat * 2 ^ lsh)
    (hlt : (y.hi.toNat + 1) * 2 ^ lsh ≤ 2 ^ 64) :
    value (udivrem128_by2 x y lsh).quot = value x / value y ∧ value (udivrem128_by2 x y lsh).rem = value x % value y := by
  have hx := shifted_words x h0 hl
  have hy := shifted_words y h0 hl
  -- no bit of the divisor is lost
  have htop : (y.hi >>> UInt64.ofNat (64 - lsh)).toNat = 0 := by
    rw [Uint128.toNat_shr _ (by omega), Nat.div_eq_zero_iff_lt (Nat.two_pow_pos _)]
    have hpow : 2 ^ 64 = 2 ^ (64 - lsh) * 2 ^ lsh := by rw [← pow_add, Nat.sub_add_cancel hl.le]
    rw [hpow] at hlt
    exact Nat.le_of_mul_le_mul_right hlt (Nat.two_pow_pos lsh)
  have hxlt : value x * 2 ^ lsh < 2 ^ 128 * 2 ^ 63 :=
    Nat.mul_lt_mul_of_lt_of_le (value_uint128_lt x) (Nat.pow_le_pow_right (by omega) (by omega)) (Nat.two_pow_pos _)
  have hyle : 2 ^ 63 * 2 ^ 64 ≤ value y * 2 ^ lsh := by
    rw [value_uint128, Nat.add_mul, Nat.mul_right_comm]
    exact (Nat.mul_le_mul_right _ hn).trans (Nat.le_add_right _ _)
  rw [htop, Nat.zero_mul, Nat.zero_add] at hy
  obtain ⟨yn, hyn⟩ : ∃ yn : Uint128, yn = ⟨y.lo >>> UInt64.ofNat (64 - lsh) ||| y.hi <<< UInt64.ofNat lsh,
    y.lo <<< UInt64.ofNat lsh⟩ := ⟨_, rfl⟩
  have hynv : value yn = value y * 2 ^ lsh := by
    rw [← hy, hyn, value_uint128]
  rw [udivrem128_by2, ← hyn]
  generalize x.hi >>> UInt64.ofNat (64 - lsh) = xn_ex,
    x.lo >>> UInt64.ofNat (64 - lsh) ||| x.hi <<< UInt64.ofNat lsh = xn_hi, x.lo <<< UInt64.ofNat lsh = xn_lo at hx ⊢
  have hynhi : 2 ^ 63 ≤ yn.hi.toNat := by
    have h1 := value_uint128 yn
    have h2 := yn.lo.toNat_lt
    omega
  have hu : xn_ex.toNat * 2 ^ 64 + xn_hi.toNat < value yn := by omega
  obtain ⟨hq, hr⟩ := @udivrem_3by2_spec xn_ex xn_hi xn_lo yn _ hynhi hu (reciprocal_3by2_isReciprocal hynhi)
  obtain ⟨hs1, hs2⟩ := scaled (n := value x) (d := value y) (s := lsh)
  rw [hx, hynv] at hq hr
  obtain ⟨res, hres⟩ : ∃ res, res = udivrem_3by2 xn_ex xn_hi xn_lo yn (reciprocal_3by2 yn) := ⟨_, rfl⟩
  rw [← hres] at hq hr ⊢
  exact ⟨hq.trans hs1, by rw [Uint128.value_shr, hr, hs2]⟩

/-- A divisor of one word. -/
theorem udivrem128_one (x : Uint128) {y : Uint128} (hhi : y.hi = 0) (hy : value y ≠ 0) :
    value (udivrem128 x y).quot = value x / value y ∧ value (udivrem128 x y).rem = value x % value y := by
  have hyv := value_uint128 y
  have hxv := value_uint128 x
  have hylo := y.lo.toNat_lt
  rw [hhi, UInt64.toNat_zero, Nat.zero_mul, Nat.zero_add] at hyv
  have hlo0 : y.lo ≠ 0 := toNat_ne_zero.1 (hyv ▸ hy)
  have hl := clz64_lt hlo0
  obtain ⟨hn1, hn2⟩ := clz64_normalizes hlo0
  unfold udivrem128
  dsimp only
  rw [hhi, if_pos (by rfl)]
  generalize clz64 y.lo = lsh at *
  by_cases h0 : lsh = 0
  · rw [if_neg (not_not.2 h0)]
    subst h0
    refine udivrem128_by1_spec hl (by omega) ?_ (by omega) ?_
    · rw [UInt64.toNat_zero]
      omega
    · rw [UInt64.toNat_zero, hxv]
      omega
  · rw [if_pos h0]
    have hshl : (y.lo <<< UInt64.ofNat lsh).toNat = value y * 2 ^ lsh := by
      rw [Uint128.toNat_shl _ hl, hyv, Nat.mod_eq_of_lt]
      rw [Nat.succ_mul] at hn2
      have := Nat.two_pow_pos lsh
      omega
    refine udivrem128_by1_spec hl (by rw [hshl, hyv]; exact hn1) ?_ hshl (shifted_words x (by omega) hl)
    rw [Uint128.toNat_shr _ (by omega), hshl, hyv]
    have h1 : x.hi.toNat / 2 ^ (64 - lsh) < 2 ^ lsh := by
      apply Nat.div_lt_of_lt_mul
      rw [← pow_add, Nat.sub_add_cancel hl.le]
      exact x.hi.toNat_lt
    exact h1.trans_le (Nat.le_mul_of_pos_left _ (by omega))

/-- A divisor of two words whose highest bit is set: the quotient is one bit. -/
theorem udivrem128_bit {x y : Uint128} (hle : y.hi.toNat ≤ x.hi.toNat) (hn : 2 ^ 63 ≤ y.hi.toNat) :
    value (if y.hi < x.hi || y.lo ≤ x.lo then (⟨widen 1, x - y⟩ : DivResult Uint128) else ⟨widen 0, x - widen 0⟩).quot =
        value x / value y ∧
      value (if y.hi < x.hi || y.lo ≤ x.lo then (⟨widen 1, x - y⟩ : DivResult Uint128) else ⟨widen 0, x - widen 0⟩).rem =
        value x % value y := by
  have hyv := value_uint128 y
  have hxv := value_uint128 x
  have hylo := y.lo.toNat_lt
  have hxlo := x.lo.toNat_lt
  have hlt := value_uint128_lt x
  have hcmp : (y.hi < x.hi || y.lo ≤ x.lo : Bool) = true ↔ value y ≤ value x := by
    rw [Bool.or_eq_true, decide_eq_true_eq, decide_eq_true_eq, UInt64.lt_iff_toNat_lt, UInt64.le_iff_toNat_le]
    omega
  by_cases hge : value y ≤ value x
  · obtain ⟨h1, h2⟩ := eq_div_mod (n := value x) (d := value y) (Q := 1) (R := value (x - y))
      (by rw [value_sub, num_bits_uint128]; omega) (by omega) (by rw [value_sub, num_bits_uint128]; omega)
    rw [if_pos (hcmp.2 hge), value_widen]
    exact ⟨by exact_mod_cast h1, by exact_mod_cast h2⟩
  · have hxy : value x < value y := by omega
    have hsub : value (x - widen 0) = value x := by
      rw [value_sub, value_widen, value_uint64, UInt64.toNat_zero, num_bits_uint128]
      omega
    rw [if_neg (mt hcmp.1 hge), Nat.div_eq_of_lt hxy, Nat.mod_eq_of_lt hxy, value_widen]
    exact ⟨rfl, hsub⟩

/-- A divisor of two words. -/
theorem udivrem128_two (x : Uint128) {y : Uint128} (hhi : y.hi ≠ 0) :
    value (udivrem128 x y).quot = value x / value y ∧ value (udivrem128 x y).rem = value x % value y := by
  obtain ⟨hn1, hn2⟩ := clz64_normalizes hhi
  have hl := clz64_lt hhi
  unfold udivrem128
  dsimp only
  rw [if_neg (mt beq_iff_eq.1 hhi)]
  by_cases hgt : y.hi > x.hi
  · rw [if_pos hgt]
    rw [gt_iff_lt, UInt64.lt_iff_toNat_lt] at hgt
    have hxy : value x < value y := by
      have hxlo := x.lo.toNat_lt
      rw [value_uint128, value_uint128]
      omega
    rw [Nat.div_eq_of_lt hxy, Nat.mod_eq_of_lt hxy, value_widen]
    exact ⟨rfl, rfl⟩
  rw [if_neg hgt]
  rw [gt_iff_lt, UInt64.lt_iff_toNat_lt, Nat.not_lt] at hgt
  generalize clz64 y.hi = lsh at *
  by_cases h0 : lsh = 0
  · rw [if_pos (beq_iff_eq.2 h0)]
    subst h0
    exact udivrem128_bit hgt (by omega)
  · rw [if_neg (mt beq_iff_eq.1 h0)]
    exact udivrem128_by2_spec (Nat.pos_of_ne_zero h0) hl hn1 hn2

theorem udivrem128_spec (x : Uint128) {y : Uint128} (hy : value y ≠ 0) :
    value (udivrem128 x y).quot = value x / value y ∧ value (udivrem128 x y).rem = value x % value y := by
  by_cases hhi : y.hi = 0
  · exact udivrem128_one x hhi hy
  · exact udivrem128_two x hhi

/-- **Division of two words by two.** The remainder is less than the divisor, and nothing is lost. -/
theorem udivrem128_exact (x : Uint128) {y : Uint128} (hy : value y ≠ 0) :
    value x = value (udivrem128 x y).quot * value y + value (udivrem128 x y).rem ∧
      value (udivrem128 x y).rem < value y := by
  obtain ⟨hq, hr⟩ := udivrem128_spec x hy
  rw [hq, hr]
  exact ⟨(Nat.div_add_mod' _ _).symm, Nat.mod_lt _ (Nat.pos_of_ne_zero hy)⟩

theorem udivrem128_by_three :
    value (⟨1, 2⟩ : Uint128) = value (udivrem128 ⟨1, 2⟩ ⟨0, 3⟩).quot * value (⟨0, 3⟩ : Uint128) +
        value (udivrem128 ⟨1, 2⟩ ⟨0, 3⟩).rem ∧
      value (udivrem128 ⟨1, 2⟩ ⟨0, 3⟩).rem < value (⟨0, 3⟩ : Uint128) :=
  udivrem128_exact _ (by decide)

end EEVM.Intx

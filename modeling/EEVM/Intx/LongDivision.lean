import EEVM.Intx.Words
/-!
# intx: division of any number of words (div.cpp)

| here | there |
| --- | --- |
| `udivrem_by1`, `udivrem_by2` | `:17`, `:40` |
| `knuth_qhat` | the estimate of a quotient digit with its adjustments (`:65-97`) |
| `submul`, `addback` | the loops that multiply and subtract, and add back (`:101-107`, `:115-120`) |
| `knuth_digit`, `udivrem_knuth` | the body of the loop over the quotient digits, and `udivrem_knuth` (`:57`) |
| `denormalize`, `udivrem` | the loop that shifts the remainder back (`:172`), and `udivrem` (`:140`) |

The arrays that are updated in place are lists, which the functions return.
-/
namespace EEVM.Intx

open Halves Reciprocal LongDivision

/-! ## A divisor of one or two words -/

/-- The rounds `j - 1, ..., 0`. -/
def udivrem_by1_loop (d v : UInt64) : Nat → List UInt64 → UInt64 → List UInt64 × UInt64
  | 0, u, r => (u, r)
  | j + 1, u, r =>
    let x := udivrem_2by1 ⟨r, u.getD j 0⟩ d v
    udivrem_by1_loop d v j (u.set j x.quot) x.rem

def udivrem_by1 (u : List UInt64) (m : Nat) (d : UInt64) : List UInt64 × UInt64 :=
  let v := reciprocal_2by1 d
  let r := u.getD m 0
  udivrem_by1_loop d v m (u.set m 0) r

def udivrem_by2_loop (d : Uint128) (v : UInt64) : Nat → List UInt64 → Uint128 → List UInt64 × Uint128
  | 0, u, r => (u, r)
  | j + 1, u, r =>
    let x := udivrem_3by2 r.hi r.lo (u.getD j 0) d v
    udivrem_by2_loop d v j (u.set j x.quot.lo) x.rem

def udivrem_by2 (u : List UInt64) (m : Nat) (d : Uint128) : List UInt64 × Uint128 :=
  let v := reciprocal_3by2 d
  let r : Uint128 := ⟨u.getD m 0, u.getD (m - 1) 0⟩
  udivrem_by2_loop d v (m - 1) ((u.set (m - 1) 0).set m 0) r

/-- What a round leaves below its digit, and what it puts there. -/
theorem digits_take_set (j : Nat) (u : List UInt64) (w : UInt64) : digits ((u.set j w).take j) = digits (u.take j) := by
  rw [List.take_set_of_le (Nat.le_refl j)]

theorem digits_drop_set {j : Nat} {u : List UInt64} (hj : j < u.length) (w : UInt64) :
    digits ((u.set j w).drop j) = w.toNat + 2 ^ 64 * digits (u.drop (j + 1)) := by
  rw [digits_drop_eq, List.drop_set_of_lt (Nat.lt_succ_self j), List.getD_eq_getElem?_getD, List.getElem?_set_self hj]
  rfl

section

variable {d v : UInt64}

/-- The quotient digits that have been written, the remainder and the digits that are left stand for the same number after
each round. -/
theorem udivrem_by1_loop_spec (hd : 2 ^ 63 ≤ d.toNat) (hv : IsReciprocal (2 ^ 128) (2 ^ 64) d.toNat v.toNat) {j : Nat}
    {u : List UInt64} {r : UInt64} (hj : j ≤ u.length) (hr : r.toNat < d.toNat) :
    digits (udivrem_by1_loop d v j u r).1 * d.toNat + (udivrem_by1_loop d v j u r).2.toNat =
        2 ^ (64 * j) * (digits (u.drop j) * d.toNat + r.toNat) + digits (u.take j) ∧
      (udivrem_by1_loop d v j u r).2.toNat < d.toNat := by
  induction j generalizing u r with
  | zero => simpa [udivrem_by1_loop] using hr
  | succ j ih =>
    obtain ⟨hq, hrem⟩ := udivrem_2by1_spec (u := ⟨r, u.getD j 0⟩) hd hr hv
    rw [udivrem_by1_loop]
    generalize udivrem_2by1 ⟨r, u.getD j 0⟩ d v = x at *
    have hlt : x.rem.toNat < d.toNat := hrem ▸ Nat.mod_lt _ (by omega)
    have hdiv := Nat.div_add_mod' (value (⟨r, u.getD j 0⟩ : Uint128)) d.toNat
    obtain ⟨h1, h2⟩ := ih (u := u.set j x.quot) (by rw [List.length_set]; omega) hlt
    rw [← hq, ← hrem, value_uint128] at hdiv
    rw [digits_take_set, digits_drop_set (by omega)] at h1
    refine ⟨?_, h2⟩
    rw [h1, digits_take_succ, two_pow_words]
    linear_combination 2 ^ (64 * j) * hdiv

end

theorem udivrem_by1_spec {u : List UInt64} {m : Nat} {d : UInt64} (hd : 2 ^ 63 ≤ d.toNat) (hm : m < u.length)
    (hu : digits (u.drop (m + 1)) = 0) (hr : (u.getD m 0).toNat < d.toNat) :
    digits (udivrem_by1 u m d).1 = digits u / d.toNat ∧ (udivrem_by1 u m d).2.toNat = digits u % d.toNat := by
  have hlen : m ≤ (u.set m 0).length := by
    rw [List.length_set]
    exact hm.le
  obtain ⟨h1, h2⟩ := udivrem_by1_loop_spec hd (reciprocal_2by1_isReciprocal hd) hlen hr
  have htot := digits_take_drop m u
  rw [digits_drop_eq, hu] at htot
  rw [digits_take_set, digits_drop_set hm, hu, UInt64.toNat_zero, Nat.mul_zero, Nat.add_zero, Nat.zero_mul, Nat.zero_add]
    at h1
  rw [udivrem_by1]
  generalize udivrem_by1_loop d (reciprocal_2by1 d) m (u.set m 0) (u.getD m 0) = x at *
  have hn : (digits u : Int) = digits x.1 * d.toNat + x.2.toNat := by
    rw [← htot]
    push_cast
    linarith
  obtain ⟨hq, hrem⟩ := eq_div_mod hn (by omega) (by omega)
  exact ⟨by exact_mod_cast hq, by exact_mod_cast hrem⟩

section

variable {d : Uint128} {v : UInt64}

theorem udivrem_by2_loop_spec (hd : 2 ^ 63 ≤ d.hi.toNat) (hv : IsReciprocal (2 ^ 192) (2 ^ 64) (value d) v.toNat) {j : Nat}
    {u : List UInt64} {r : Uint128} (hj : j ≤ u.length) (hr : value r < value d) :
    digits (udivrem_by2_loop d v j u r).1 * value d + value (udivrem_by2_loop d v j u r).2 =
        2 ^ (64 * j) * (digits (u.drop j) * value d + value r) + digits (u.take j) ∧
      value (udivrem_by2_loop d v j u r).2 < value d := by
  induction j generalizing u r with
  | zero => simpa [udivrem_by2_loop] using hr
  | succ j ih =>
    have hpos : 0 < value d := Nat.zero_lt_of_lt hr
    have hrv := value_uint128 r
    have hw := (u.getD j 0).toNat_lt
    obtain ⟨hq, hrem⟩ := @udivrem_3by2_spec _ _ (u.getD j 0) _ _ hd (hrv.symm.trans_lt hr) hv
    have hnum : r.hi.toNat * 2 ^ 128 + r.lo.toNat * 2 ^ 64 + (u.getD j 0).toNat = value r * 2 ^ 64 + (u.getD j 0).toNat := by
      rw [hrv]
      ring
    rw [hnum] at hq hrem
    rw [udivrem_by2_loop]
    generalize udivrem_3by2 r.hi r.lo (u.getD j 0) d v = x at *
    have hlt : value x.rem < value d := by
      rw [hrem]
      exact Nat.mod_lt _ hpos
    have hlo : x.quot.lo.toNat = value x.quot := by
      have h1 : x.quot.lo.toNat = value x.quot % 2 ^ 64 := lo_def x.quot
      rw [h1, Nat.mod_eq_of_lt]
      rw [hq]
      exact div_lt_of_lt_mul (next_lt hr hw)
    have hdiv := Nat.div_add_mod' (value r * 2 ^ 64 + (u.getD j 0).toNat) (value d)
    obtain ⟨h1, h2⟩ := ih (u := u.set j x.quot.lo) (by rw [List.length_set]; omega) hlt
    rw [← hq, ← hrem] at hdiv
    rw [digits_take_set, digits_drop_set (by omega), hlo] at h1
    refine ⟨?_, h2⟩
    rw [h1, digits_take_succ, two_pow_words]
    linear_combination 2 ^ (64 * j) * hdiv

end

theorem udivrem_by2_spec {u : List UInt64} {m : Nat} {d : Uint128} (hd : 2 ^ 63 ≤ d.hi.toNat) (hm : m + 1 < u.length)
    (hu : digits (u.drop (m + 2)) = 0) (hr : digits (u.drop m) < value d) :
    digits (udivrem_by2 u (m + 1) d).1 = digits u / value d ∧ value (udivrem_by2 u (m + 1) d).2 = digits u % value d := by
  have htop : value (⟨u.getD (m + 1) 0, u.getD m 0⟩ : Uint128) = digits (u.drop m) := by
    rw [value_uint128, digits_drop_eq, digits_drop_eq (m + 1), hu]
    ring
  have hlen : m ≤ ((u.set m 0).set (m + 1) 0).length := by
    rw [List.length_set, List.length_set]
    omega
  obtain ⟨h1, h2⟩ := udivrem_by2_loop_spec hd (reciprocal_3by2_isReciprocal hd) hlen (htop.trans_lt hr)
  have htot := digits_take_drop m u
  have hz : digits (((u.set m 0).set (m + 1) 0).drop m) = 0 := by
    rw [digits_drop_eq, digits_drop_set (by rw [List.length_set]; exact hm), List.drop_set_of_lt (by omega), hu,
      List.getD_eq_getElem?_getD, List.getElem?_set_ne (by omega), List.getElem?_set_self (by omega)]
    rfl
  rw [hz, htop, List.take_set_of_le (by omega), digits_take_set, Nat.zero_mul, Nat.zero_add] at h1
  rw [udivrem_by2]
  rw [Nat.add_sub_cancel]
  generalize udivrem_by2_loop d (reciprocal_3by2 d) m ((u.set m 0).set (m + 1) 0) ⟨u.getD (m + 1) 0, u.getD m 0⟩ = x at *
  have hn : (digits u : Int) = digits x.1 * value d + value x.2 := by
    rw [← htot]
    push_cast
    linarith
  obtain ⟨hq, hrem⟩ := eq_div_mod hn (by omega) (by omega)
  exact ⟨by exact_mod_cast hq, by exact_mod_cast hrem⟩

/-! ## The estimate of a digit -/

def knuth_adjust (qhat : UInt64) (rhat divisor : Uint128) (u0 : UInt64) : UInt64 :=
  if rhat.hi == 0 && Uint128.gt (umul qhat divisor.lo) ⟨rhat.lo, u0⟩ then qhat - 1 else qhat

def knuth_qhat (u2 u1 u0 : UInt64) (divisor : Uint128) (reciprocal : UInt64) : UInt64 :=
  let dividend : Uint128 := ⟨u2, u1⟩
  if dividend.hi ≥ divisor.hi then
    let qhat : UInt64 := ~~~0
    let rhat := dividend - ⟨divisor.hi, 0⟩
    let rhat := rhat + widen divisor.hi
    knuth_adjust qhat rhat divisor u0
  else
    let res := udivrem_2by1 dividend divisor.hi reciprocal
    let qhat := res.quot
    let rhat : Uint128 := widen res.rem
    if Uint128.gt (umul qhat divisor.lo) ⟨rhat.lo, u0⟩ then
      let qhat := qhat - 1
      let rhat := rhat + widen divisor.hi
      knuth_adjust qhat rhat divisor u0
    else qhat

theorem gt_umul_iff (q d0 r u0 : UInt64) :
    Uint128.gt (umul q d0) ⟨r, u0⟩ = true ↔ r.toNat * 2 ^ 64 + u0.toNat < q.toNat * d0.toNat := by
  have h : Uint128.gt (umul q d0) ⟨r, u0⟩ = true ↔ value (umul q d0) > value (⟨r, u0⟩ : Uint128) :=
    LawfulHalf.gt_iff (umul q d0) (⟨r, u0⟩ : Uint128)
  rw [h, value_umul, value_uint128, gt_iff_lt]
  rfl

theorem toNat_sub_one {x : UInt64} (hx : 0 < x.toNat) : (x - 1).toNat = x.toNat - 1 := by
  have h1 : (1 : UInt64) ≤ x := UInt64.le_iff_toNat_le.2 hx
  rw [UInt64.toNat_sub_of_le _ _ h1]
  rfl

section

variable {u2 u1 u0 : UInt64} {divisor : Uint128}

theorem knuth_adjust_eq {qhat : UInt64} {rhat : Uint128}
    (h : u2.toNat * 2 ^ 64 + u1.toNat = qhat.toNat * divisor.hi.toNat + value rhat) :
    knuth_adjust qhat rhat divisor u0 =
      if (u2.toNat * 2 ^ 64 + u1.toNat) * 2 ^ 64 + u0.toNat < qhat.toNat * value divisor then qhat - 1 else qhat := by
  have hq := qhat.toNat_lt
  have hd0 := divisor.lo.toNat_lt
  have hr := value_uint128 rhat
  have htoo := @too_large_iff _ _ divisor.lo.toNat _ _ u0.toNat _ _ h
  unfold knuth_adjust
  rw [value_uint128 divisor]
  by_cases hhi : rhat.hi = 0
  · have hlo : value rhat = rhat.lo.toNat := by rw [hr, hhi, UInt64.toNat_zero, Nat.zero_mul, Nat.zero_add]
    rw [hlo] at htoo
    simp only [hhi, BEq.rfl, Bool.true_and, gt_umul_iff, htoo]
  · have hge : 2 ^ 64 ≤ value rhat := by
      have h0 := toNat_ne_zero.2 hhi
      omega
    have hnot := @not_too_large_of_le _ _ u0.toNat _ _ hge hq.le hd0.le
    rw [if_neg (by simp [hhi]), if_neg (mt htoo.2 hnot)]

/-- An estimate that is one too large is put right. -/
theorem toNat_knuth_adjust {qhat : UInt64} {rhat : Uint128} (hpos : 0 < value divisor)
    (h : u2.toNat * 2 ^ 64 + u1.toNat = qhat.toNat * divisor.hi.toNat + value rhat)
    (hle : (qhat.toNat - 1) * value divisor ≤ (u2.toNat * 2 ^ 64 + u1.toNat) * 2 ^ 64 + u0.toNat) :
    (knuth_adjust qhat rhat divisor u0).toNat =
      min qhat.toNat (((u2.toNat * 2 ^ 64 + u1.toNat) * 2 ^ 64 + u0.toNat) / value divisor) := by
  rw [knuth_adjust_eq h]
  split
  case isTrue hlt =>
    have hq : 0 < qhat.toNat := Nat.pos_of_mul_pos_right (Nat.zero_lt_of_lt hlt)
    have hdiv : ((u2.toNat * 2 ^ 64 + u1.toNat) * 2 ^ 64 + u0.toNat) / value divisor = qhat.toNat - 1 :=
      Nat.div_eq_of_lt_le hle (by rw [Nat.sub_add_cancel hq]; exact hlt)
    rw [toNat_sub_one hq, hdiv, Nat.min_eq_right (Nat.sub_le _ _)]
  case isFalse hge => rw [Nat.min_eq_left ((Nat.le_div_iff_mul_le hpos).2 (Nat.le_of_not_lt hge))]

/-- The highest words are equal: the estimate is the largest word. -/
theorem knuth_qhat_top {reciprocal : UInt64} (hd : 2 ^ 63 ≤ divisor.hi.toNat)
    (hu : u2.toNat * 2 ^ 64 + u1.toNat ≤ value divisor) (hge : u2 ≥ divisor.hi) :
    (knuth_qhat u2 u1 u0 divisor reciprocal).toNat =
      min (2 ^ 64 - 1) (((u2.toNat * 2 ^ 64 + u1.toNat) * 2 ^ 64 + u0.toNat) / value divisor) := by
  have hdv := value_uint128 divisor
  have hd0 := divisor.lo.toNat_lt
  have hd1 := divisor.hi.toNat_lt
  have hu1 := u1.toNat_lt
  have hq : knuth_qhat u2 u1 u0 divisor reciprocal =
      knuth_adjust (~~~0) (⟨u2, u1⟩ - ⟨divisor.hi, 0⟩ + widen divisor.hi) divisor u0 := if_pos hge
  rw [ge_iff_le, UInt64.le_iff_toNat_le] at hge
  have h2 : u2.toNat = divisor.hi.toNat := by omega
  have hmax : (~~~0 : UInt64).toNat = 2 ^ 64 - 1 := rfl
  have hrhat : value (⟨u2, u1⟩ - ⟨divisor.hi, 0⟩ + widen divisor.hi : Uint128) = u1.toNat + divisor.hi.toNat := by
    rw [value_add, value_sub, value_widen, value_uint128, value_uint128, num_bits_uint128, value_uint64, UInt64.toNat_zero]
    dsimp only
    omega
  have hnum : u2.toNat * 2 ^ 64 + u1.toNat =
      (~~~0 : UInt64).toNat * divisor.hi.toNat + value (⟨u2, u1⟩ - ⟨divisor.hi, 0⟩ + widen divisor.hi : Uint128) := by
    rw [hmax, hrhat, h2, Nat.sub_mul]
    omega
  have hone := @corrected_once _ _ _ _ _ u0.toNat _ _ hnum (by rw [hmax]; omega) hd0.le (by omega) (by rw [hrhat]; omega)
  rw [← hdv] at hone
  rw [hq, toNat_knuth_adjust (by omega) hnum (by rw [Nat.sub_mul, Nat.one_mul]; omega), hmax]

/-- The highest word of the dividend is less: the first estimate is at most two too large. -/
theorem knuth_qhat_below {reciprocal : UInt64} (hd : 2 ^ 63 ≤ divisor.hi.toNat)
    (hv : IsReciprocal (2 ^ 128) (2 ^ 64) divisor.hi.toNat reciprocal.toNat) (hlt : u2 < divisor.hi) :
    (knuth_qhat u2 u1 u0 divisor reciprocal).toNat =
      ((u2.toNat * 2 ^ 64 + u1.toNat) * 2 ^ 64 + u0.toNat) / value divisor := by
  have hdv := value_uint128 divisor
  have hd0 := divisor.lo.toNat_lt
  have hpos : 0 < value divisor := by omega
  obtain ⟨res, hres⟩ : ∃ res, res = udivrem_2by1 ⟨u2, u1⟩ divisor.hi reciprocal := ⟨_, rfl⟩
  have hq : knuth_qhat u2 u1 u0 divisor reciprocal =
      if Uint128.gt (umul res.quot divisor.lo) ⟨res.rem, u0⟩ then
        knuth_adjust (res.quot - 1) (widen res.rem + widen divisor.hi) divisor u0 else res.quot := by
    rw [hres]
    exact if_neg (UInt64.not_le.2 hlt)
  rw [UInt64.lt_iff_toNat_lt] at hlt
  obtain ⟨hq0, hr0⟩ := udivrem_2by1_spec (u := ⟨u2, u1⟩) hd hlt hv
  rw [← hres, value_uint128] at hq0 hr0
  have hnum : u2.toNat * 2 ^ 64 + u1.toNat = res.quot.toNat * divisor.hi.toNat + res.rem.toNat := by
    rw [hq0, hr0]
    exact (Nat.div_add_mod' _ _).symm
  have hfirst : ((u2.toNat * 2 ^ 64 + u1.toNat) * 2 ^ 64 + u0.toNat) / value divisor ≤ res.quot.toNat := by
    rw [hdv, hq0]
    exact first_estimate_ge (by omega) u0.toNat_lt
  have htoo := @too_large_iff _ _ divisor.lo.toNat _ _ u0.toNat _ _ hnum
  have htwo := @corrected_twice _ _ _ _ _ u0.toNat _ _ hnum res.quot.toNat_lt.le hd0.le (by omega)
  rw [← hdv] at htoo htwo
  rw [hq]
  by_cases hgt : Uint128.gt (umul res.quot divisor.lo) ⟨res.rem, u0⟩ = true
  · rw [if_pos hgt]
    rw [gt_umul_iff, htoo] at hgt
    have hpos0 : 0 < res.quot.toNat := Nat.pos_of_mul_pos_right (Nat.zero_lt_of_lt hgt)
    have hq1 := toNat_sub_one hpos0
    have hrlt := res.rem.toNat_lt
    have hd1 := divisor.hi.toNat_lt
    have hrhat : value (widen res.rem + widen divisor.hi : Uint128) = res.rem.toNat + divisor.hi.toNat := by
      rw [value_add, value_widen, value_widen, num_bits_uint128, value_uint64, value_uint64]
      omega
    have hnum1 : u2.toNat * 2 ^ 64 + u1.toNat =
        (res.quot - 1).toNat * divisor.hi.toNat + value (widen res.rem + widen divisor.hi : Uint128) := by
      have hle : divisor.hi.toNat ≤ res.quot.toNat * divisor.hi.toNat := Nat.le_mul_of_pos_left _ hpos0
      rw [hq1, hrhat, hnum, Nat.sub_mul]
      omega
    have hless : ((u2.toNat * 2 ^ 64 + u1.toNat) * 2 ^ 64 + u0.toNat) / value divisor < res.quot.toNat :=
      (Nat.div_lt_iff_lt_mul hpos).2 hgt
    rw [toNat_knuth_adjust hpos hnum1 (by rw [hq1, Nat.sub_sub, Nat.sub_mul]; omega), hq1]
    exact Nat.min_eq_right (Nat.le_sub_one_of_lt hless)
  · rw [if_neg hgt]
    rw [gt_umul_iff, htoo, Nat.not_lt] at hgt
    exact Nat.le_antisymm ((Nat.le_div_iff_mul_le hpos).2 hgt) hfirst

/-- The estimate, with its adjustments, is the quotient of the three words by the two, kept to one word. -/
theorem knuth_qhat_eq {reciprocal : UInt64} (hd : 2 ^ 63 ≤ divisor.hi.toNat)
    (hv : IsReciprocal (2 ^ 128) (2 ^ 64) divisor.hi.toNat reciprocal.toNat)
    (hu : u2.toNat * 2 ^ 64 + u1.toNat ≤ value divisor) :
    (knuth_qhat u2 u1 u0 divisor reciprocal).toNat =
      min (2 ^ 64 - 1) (((u2.toNat * 2 ^ 64 + u1.toNat) * 2 ^ 64 + u0.toNat) / value divisor) := by
  by_cases hge : u2 ≥ divisor.hi
  · exact knuth_qhat_top hd hu hge
  · have hlt := @knuth_qhat_below u2 u1 u0 divisor reciprocal hd hv (UInt64.not_le.1 hge)
    rw [← hlt, Nat.min_eq_right (Nat.le_sub_one_of_lt (UInt64.toNat_lt _))]

end

/-! ## Multiply and subtract, add back -/

def submul (qhat : UInt64) : List UInt64 → List UInt64 → UInt64 → List UInt64 × UInt64
  | v :: vn, u :: un, borrow =>
    let p := umul qhat v
    let s : Uint128 := widen u - widen borrow - widen p.lo
    let rest := submul qhat vn un (p.hi - s.hi)
    (s.lo :: rest.1, rest.2)
  | _, un, borrow => (un, borrow)

def addback : List UInt64 → List UInt64 → UInt64 → List UInt64 × UInt64
  | v :: vn, u :: un, carry =>
    let s : Uint128 := widen u + widen v + widen carry
    let rest := addback vn un s.hi
    (s.lo :: rest.1, rest.2)
  | _, un, carry => (un, carry)

/-- The arrays keep their lengths. -/
theorem length_submul (qhat : UInt64) (vn un : List UInt64) (borrow : UInt64) :
    (submul qhat vn un borrow).1.length = un.length := by
  induction vn generalizing un borrow with
  | nil => simp [submul]
  | cons v vn ih => cases un <;> simp [submul, ih]

theorem length_addback (vn un : List UInt64) (carry : UInt64) : (addback vn un carry).1.length = un.length := by
  induction vn generalizing un carry with
  | nil => simp [addback]
  | cons v vn ih => cases un <;> simp [addback, ih]

/-- One round: the borrow never needs more than a word. -/
theorem submul_round (qhat v u borrow : UInt64) :
    (widen u - widen borrow - widen (umul qhat v).lo : Uint128).lo.toNat + qhat.toNat * v.toNat + borrow.toNat =
      u.toNat + ((umul qhat v).hi - (widen u - widen borrow - widen (umul qhat v).lo : Uint128).hi).toNat * 2 ^ 64 := by
  have hp : value (umul qhat v) = qhat.toNat * v.toNat := value_umul qhat v
  have hple : qhat.toNat * v.toNat ≤ (2 ^ 64 - 1) * (2 ^ 64 - 1) :=
    Nat.mul_le_mul (Nat.le_sub_one_of_lt qhat.toNat_lt) (Nat.le_sub_one_of_lt v.toNat_lt)
  rw [← hp] at hple ⊢
  generalize umul qhat v = p at *
  have hpv := value_uint128 p
  have hplo := p.lo.toNat_lt
  have hphi := p.hi.toNat_lt
  have hu := u.toNat_lt
  have hb := borrow.toNat_lt
  have hs : value (widen u - widen borrow - widen p.lo : Uint128) =
      (2 ^ 128 - p.lo.toNat + (2 ^ 128 - borrow.toNat + u.toNat) % 2 ^ 128) % 2 ^ 128 := by
    rw [value_sub, value_sub, value_widen, value_widen, value_widen, num_bits_uint128]
    rfl
  generalize (widen u - widen borrow - widen p.lo : Uint128) = s at *
  have hsv := value_uint128 s
  have hslo := s.lo.toNat_lt
  have hshi := s.hi.toNat_lt
  rw [UInt64.toNat_sub]
  omega

theorem submul_spec (qhat : UInt64) {vn un : List UInt64} (hlen : vn.length ≤ un.length) (borrow : UInt64) :
    digits (submul qhat vn un borrow).1 + qhat.toNat * digits vn + borrow.toNat =
        digits un + (submul qhat vn un borrow).2.toNat * 2 ^ (64 * vn.length) ∧
      (submul qhat vn un borrow).1.drop vn.length = un.drop vn.length := by
  induction vn generalizing un borrow with
  | nil => cases un <;> simp [submul]
  | cons v vn ih =>
    cases un with
    | nil => simp at hlen
    | cons u un =>
      have hround := submul_round qhat v u borrow
      rw [submul]
      generalize (umul qhat v) = p at *
      generalize (widen u - widen borrow - widen p.lo : Uint128) = s at *
      obtain ⟨h1, h2⟩ := @ih un (by simpa using hlen) (p.hi - s.hi)
      refine ⟨?_, by simpa using h2⟩
      rw [digits_cons, digits_cons, digits_cons, List.length_cons, two_pow_words]
      linear_combination hround + 2 ^ 64 * h1

theorem addback_round (v u carry : UInt64) (hc : carry.toNat ≤ 1) :
    (widen u + widen v + widen carry : Uint128).lo.toNat + (widen u + widen v + widen carry : Uint128).hi.toNat * 2 ^ 64 =
        u.toNat + v.toNat + carry.toNat ∧ (widen u + widen v + widen carry : Uint128).hi.toNat ≤ 1 := by
  have hu := u.toNat_lt
  have hv := v.toNat_lt
  have hs : value (widen u + widen v + widen carry : Uint128) = u.toNat + v.toNat + carry.toNat := by
    rw [value_add, value_add, value_widen, value_widen, value_widen, num_bits_uint128, value_uint64, value_uint64, value_uint64]
    omega
  generalize (widen u + widen v + widen carry : Uint128) = s at *
  have hsv := value_uint128 s
  have hslo := s.lo.toNat_lt
  omega

theorem addback_spec {vn un : List UInt64} (hlen : vn.length ≤ un.length) {carry : UInt64} (hc : carry.toNat ≤ 1) :
    digits (addback vn un carry).1 + (addback vn un carry).2.toNat * 2 ^ (64 * vn.length) =
        digits un + digits vn + carry.toNat ∧
      (addback vn un carry).1.drop vn.length = un.drop vn.length := by
  induction vn generalizing un carry with
  | nil => cases un <;> simp [addback]
  | cons v vn ih =>
    cases un with
    | nil => simp at hlen
    | cons u un =>
      obtain ⟨hround, hle⟩ := addback_round v u carry hc
      rw [addback]
      generalize (widen u + widen v + widen carry : Uint128) = s at *
      obtain ⟨h1, h2⟩ := @ih un (by simpa using hlen) _ hle
      refine ⟨?_, by simpa using h2⟩
      rw [digits_cons, digits_cons, digits_cons, List.length_cons, two_pow_words]
      linear_combination hround + 2 ^ 64 * h1

/-! ## A digit of the quotient

`un` is the array from the word `j` on, `vn` the words of the denominator. -/

def knuth_correct (vn : List UInt64) (qhat u2 borrow : UInt64) (un : List UInt64) : UInt64 × List UInt64 :=
  let n := vn.length
  if u2 < borrow then
    let s := addback vn un 0
    (qhat - 1, s.1.set n (s.1.getD n 0 + s.2))
  else (qhat, un)

def knuth_digit (divisor : Uint128) (reciprocal : UInt64) (vn un : List UInt64) : UInt64 × List UInt64 :=
  let n := vn.length
  let u2 := un.getD n 0
  let u1 := un.getD (n - 1) 0
  let u0 := un.getD (n - 2) 0
  let qhat := knuth_qhat u2 u1 u0 divisor reciprocal
  let s := submul qhat vn un 0
  knuth_correct vn qhat u2 s.2 (s.1.set n (u2 - s.2))

/-- The words above the lowest `n` are the word `n`, when all above it are zero. -/
theorem digits_eq_join {n : Nat} {ws : List UInt64} (h : digits (ws.drop (n + 1)) = 0) :
    digits ws = join (64 * n) (ws.getD n 0).toNat (digits (ws.take n)) := by
  rw [← digits_take_drop n ws, digits_drop_eq, h, join]
  ring

theorem getD_set_self {n : Nat} {ws : List UInt64} (hn : n < ws.length) (w : UInt64) : (ws.set n w).getD n 0 = w := by
  rw [List.getD_eq_getElem?_getD, List.getElem?_set_self hn, Option.getD_some]

theorem digits_set_eq_join {n : Nat} {ws : List UInt64} (hn : n < ws.length) (h : digits (ws.drop (n + 1)) = 0) (w : UInt64) :
    digits (ws.set n w) = join (64 * n) w.toNat (digits (ws.take n)) := by
  have hd : digits ((ws.set n w).drop (n + 1)) = 0 := by rwa [List.drop_set_of_lt (Nat.lt_succ_self n)]
  rw [digits_eq_join hd, getD_set_self hn, digits_take_set]

/-- What is above the lowest `n` words, when these alone change. -/
theorem of_drop_eq {n : Nat} {as bs : List UInt64} (h : as.drop n = bs.drop n) :
    as.getD n 0 = bs.getD n 0 ∧ as.drop (n + 1) = bs.drop (n + 1) := by
  have hd : ∀ ws : List UInt64, ws.getD n 0 = (ws.drop n).getD 0 0 ∧ ws.drop (n + 1) = (ws.drop n).drop 1 :=
    fun ws => ⟨by simp, by simp⟩
  exact ⟨by rw [(hd as).1, (hd bs).1, h], by rw [(hd as).2, (hd bs).2, h]⟩

section

variable {vn un : List UInt64} {qhat u2 : UInt64} {s : List UInt64 × UInt64} (hlen : vn.length < s.1.length)
  (hz : digits (s.1.drop (vn.length + 1)) = 0) (hget : s.1.getD vn.length 0 = u2)
  (hsub : digits s.1 + qhat.toNat * digits vn = digits un + s.2.toNat * 2 ^ (64 * vn.length))

include hz hget hsub

/-- Where more is taken off than there is, the digit is one too large. -/
theorem one_too_large (hle : qhat.toNat ≤ digits un / digits vn + 1) (hlt : u2.toNat < s.2.toNat) :
    qhat.toNat = digits un / digits vn + 1 := by
  refine Nat.le_antisymm hle (Nat.lt_of_not_le fun hno => ?_)
  have h1 : qhat.toNat * digits vn ≤ digits un := (Nat.mul_le_mul_right _ hno).trans (Nat.div_mul_le_self _ _)
  have h2 : (u2.toNat + 1) * 2 ^ (64 * vn.length) ≤ s.2.toNat * 2 ^ (64 * vn.length) := Nat.mul_le_mul_right _ hlt
  have h3 := digits_take_lt vn.length s.1
  rw [digits_eq_join hz, hget, join] at hsub
  rw [Nat.succ_mul] at h2
  omega

include hlen

/-- What has been taken off too much carries over when it is added back. -/
theorem digits_added_back {y : List UInt64 × UInt64} (hy : y = addback vn (s.1.set vn.length (u2 - s.2)) 0)
    (hq : qhat.toNat = digits un / digits vn + 1) (hv : 0 < digits vn) :
    digits (y.1.set vn.length (y.1.getD vn.length 0 + y.2)) = digits un % digits vn := by
  have hset := digits_set_eq_join hlen hz (u2 - s.2)
  obtain ⟨hadd, hdrop⟩ := @addback_spec vn (s.1.set vn.length (u2 - s.2)) (by rw [List.length_set]; exact hlen.le) 0
    (Nat.zero_le 1)
  have hylen := length_addback vn (s.1.set vn.length (u2 - s.2)) 0
  rw [← hy] at hadd hdrop hylen
  obtain ⟨hyget, hyz⟩ := of_drop_eq hdrop
  rw [getD_set_self hlen] at hyget
  rw [List.drop_set_of_lt (Nat.lt_succ_self _)] at hyz
  have hs1 := digits_eq_join hz
  rw [← hyz] at hz
  have hy1 := digits_eq_join hz
  have hyset := @digits_set_eq_join vn.length y.1 (by rw [hylen, List.length_set]; exact hlen) hz (u2 - s.2 + y.2)
  rw [hyget] at hy1 ⊢
  have hremlt := Nat.mod_lt (digits un) hv
  have hcarry : join (64 * vn.length) (y.2.toNat + u2.toNat) (digits (y.1.take vn.length)) =
      join (64 * vn.length) s.2.toNat (digits un % digits vn) := by
    have hrem := Nat.div_add_mod' (digits un) (digits vn)
    have h1 : digits un / digits vn * digits vn + digits vn = qhat.toNat * digits vn := by
      rw [hq, Nat.succ_mul]
    rw [hset, hy1, UInt64.toNat_zero] at hadd
    rw [hs1, hget] at hsub
    unfold join at *
    linarith
  obtain ⟨hb, hr⟩ := (join_inj_iff (digits_take_lt _ _) (hremlt.trans (digits_lt vn))).1 hcarry
  have htop : (u2 - s.2 + y.2).toNat = 0 := by
    have h1 := s.2.toNat_lt
    rw [UInt64.toNat_add, UInt64.toNat_sub]
    omega
  rw [hyset, htop, hr, join, Nat.zero_mul, Nat.zero_add]

/-- Where no more is taken off than there is, the digit is right. -/
theorem digit_right (hge : digits un / digits vn ≤ qhat.toNat) (hv : 0 < digits vn) (hle : s.2.toNat ≤ u2.toNat) :
    qhat.toNat = digits un / digits vn ∧ digits (s.1.set vn.length (u2 - s.2)) = digits un % digits vn := by
  have htop : (u2 - s.2).toNat = u2.toNat - s.2.toNat := UInt64.toNat_sub_of_le _ _ (UInt64.le_iff_toNat_le.2 hle)
  have hnew : digits (s.1.set vn.length (u2 - s.2)) + qhat.toNat * digits vn = digits un := by
    have h1 : u2.toNat * 2 ^ (64 * vn.length) =
        (u2.toNat - s.2.toNat) * 2 ^ (64 * vn.length) + s.2.toNat * 2 ^ (64 * vn.length) := by
      rw [← Nat.add_mul, Nat.sub_add_cancel hle]
    rw [digits_eq_join hz, hget, join] at hsub
    rw [digits_set_eq_join hlen hz, htop, join]
    omega
  have hq : qhat.toNat = digits un / digits vn :=
    Nat.le_antisymm ((Nat.le_div_iff_mul_le hv).2 (by omega)) hge
  have hrem := Nat.div_add_mod' (digits un) (digits vn)
  rw [hq] at hnew
  exact ⟨hq, by omega⟩

end

/-- What is taken off the array is put right, when it was too much. -/
theorem knuth_correct_spec {vn un : List UInt64} {qhat : UInt64} {s : List UInt64 × UInt64} (hlen : vn.length < un.length)
    (hz : digits (un.drop (vn.length + 1)) = 0) (hs : s = submul qhat vn un 0) (hge : digits un / digits vn ≤ qhat.toNat)
    (hle : qhat.toNat ≤ digits un / digits vn + 1) (hv : 0 < digits vn) :
    (knuth_correct vn qhat (un.getD vn.length 0) s.2 (s.1.set vn.length (un.getD vn.length 0 - s.2))).1.toNat =
        digits un / digits vn ∧
      digits (knuth_correct vn qhat (un.getD vn.length 0) s.2 (s.1.set vn.length (un.getD vn.length 0 - s.2))).2 =
        digits un % digits vn := by
  obtain ⟨hsub, hdrop⟩ := submul_spec qhat hlen.le 0
  have hslen := length_submul qhat vn un 0
  rw [← hs] at hsub hdrop hslen
  rw [UInt64.toNat_zero, Nat.add_zero] at hsub
  obtain ⟨hget, hdrop1⟩ := of_drop_eq hdrop
  rw [← hdrop1] at hz
  rw [← hslen] at hlen
  unfold knuth_correct
  dsimp only
  by_cases hlt : un.getD vn.length 0 < s.2
  · rw [if_pos hlt]
    rw [UInt64.lt_iff_toNat_lt] at hlt
    have hq := one_too_large hz hget hsub hle hlt
    have hpos : 0 < qhat.toNat := by
      rw [hq]
      exact Nat.succ_pos _
    exact ⟨(toNat_sub_one hpos).trans (by rw [hq, Nat.add_sub_cancel]), digits_added_back hlen hz hget hsub rfl hq hv⟩
  · rw [if_neg hlt]
    rw [UInt64.lt_iff_toNat_lt, Nat.not_lt] at hlt
    exact digit_right hlen hz hget hsub hge hv hlt

theorem length_knuth_digit (divisor : Uint128) (reciprocal : UInt64) (vn un : List UInt64) :
    (knuth_digit divisor reciprocal vn un).2.length = un.length := by
  unfold knuth_digit knuth_correct
  dsimp only
  split <;> simp [length_submul, length_addback]

/-- The words with the three highest apart. -/
theorem digits_drop_three {k : Nat} {ws : List UInt64} (h : digits (ws.drop (k + 3)) = 0) :
    digits (ws.drop k) =
      ((ws.getD (k + 2) 0).toNat * 2 ^ 64 + (ws.getD (k + 1) 0).toNat) * 2 ^ 64 + (ws.getD k 0).toNat := by
  rw [digits_drop_eq, digits_drop_eq (k + 1), digits_drop_eq (k + 2), h]
  ring

section

variable {k : Nat} {vn un : List UInt64} {reciprocal : UInt64}

theorem knuth_digit_spec (hn : vn.length = k + 2) (hlen : vn.length < un.length) (hd : 2 ^ 63 ≤ (vn.getD (k + 1) 0).toNat)
    (hv : IsReciprocal (2 ^ 128) (2 ^ 64) (vn.getD (k + 1) 0).toNat reciprocal.toNat) (hlt : digits un < digits vn * 2 ^ 64) :
    (knuth_digit ⟨vn.getD (k + 1) 0, vn.getD k 0⟩ reciprocal vn un).1.toNat = digits un / digits vn ∧
      digits (knuth_digit ⟨vn.getD (k + 1) 0, vn.getD k 0⟩ reciprocal vn un).2 = digits un % digits vn := by
  obtain ⟨divisor, hdiv⟩ : ∃ d : Uint128, d = ⟨vn.getD (k + 1) 0, vn.getD k 0⟩ := ⟨_, rfl⟩
  have hD : value divisor = digits (vn.drop k) := by
    have hz : vn.drop (k + 2) = [] := List.drop_of_length_le hn.le
    rw [digits_drop_eq, digits_drop_eq (k + 1), hz, hdiv, value_uint128]
    simp only [digits_nil]
    ring
  have hhi : divisor.hi = vn.getD (k + 1) 0 := by rw [hdiv]
  rw [← hhi] at hd hv
  rw [← hdiv]
  have hDpos : 2 ^ 64 ≤ value divisor := by
    rw [value_uint128]
    omega
  -- the divisor between its highest two words
  have hV := digits_take_drop k vn
  have hVlt := digits_take_lt k vn
  rw [← hD, Nat.mul_comm] at hV
  have hvnlt := digits_lt vn
  have hzero : digits (un.drop (k + 3)) = 0 := by
    rw [digits_drop, Nat.div_eq_of_lt]
    rw [hn] at hvnlt
    calc digits un < digits vn * 2 ^ 64 := hlt
      _ ≤ 2 ^ (64 * (k + 2)) * 2 ^ 64 := Nat.mul_le_mul_right _ hvnlt.le
      _ = 2 ^ (64 * (k + 3)) := by rw [two_pow_words (k + 2), Nat.mul_comm]
  have hW := digits_take_drop k un
  have hWlt := digits_take_lt k un
  rw [digits_drop_three hzero, Nat.mul_comm] at hW
  obtain ⟨T, hT⟩ : ∃ T, T = ((un.getD (k + 2) 0).toNat * 2 ^ 64 + (un.getD (k + 1) 0).toNat) * 2 ^ 64 +
    (un.getD k 0).toNat := ⟨_, rfl⟩
  rw [← hT] at hW
  have hpos : 0 < digits vn := Nat.pos_of_mul_pos_right (Nat.zero_lt_of_lt hlt)
  have hVle : digits vn ≤ (value divisor + 1) * 2 ^ (64 * k) := by
    rw [Nat.succ_mul]
    omega
  have hWle : digits un < (T + 1) * 2 ^ (64 * k) := by
    rw [Nat.succ_mul]
    omega
  have hu : (un.getD (k + 2) 0).toNat * 2 ^ 64 + (un.getD (k + 1) 0).toNat ≤ value divisor := by
    have h1 : T * 2 ^ (64 * k) < (value divisor + 1) * 2 ^ 64 * 2 ^ (64 * k) :=
      calc T * 2 ^ (64 * k) ≤ digits un := by omega
        _ < digits vn * 2 ^ 64 := hlt
        _ ≤ (value divisor + 1) * 2 ^ (64 * k) * 2 ^ 64 := Nat.mul_le_mul_right _ hVle
        _ = (value divisor + 1) * 2 ^ 64 * 2 ^ (64 * k) := Nat.mul_right_comm _ _ _
    have h2 : T < (value divisor + 1) * 2 ^ 64 := Nat.lt_of_mul_lt_mul_right h1
    omega
  have hqhat := @knuth_qhat_eq _ _ (un.getD k 0) _ _ hd hv hu
  rw [← hT] at hqhat
  have hge : digits un / digits vn ≤ (knuth_qhat (un.getD (k + 2) 0) (un.getD (k + 1) 0) (un.getD k 0) divisor reciprocal).toNat := by
    rw [hqhat]
    refine Nat.le_min.2 ⟨?_, div_le_top hWle (by omega) (by omega)⟩
    exact Nat.le_sub_one_of_lt (div_lt_of_lt_mul hlt)
  have hle : (knuth_qhat (un.getD (k + 2) 0) (un.getD (k + 1) 0) (un.getD k 0) divisor reciprocal).toNat ≤
      digits un / digits vn + 1 := by
    have hmul : T / value divisor * value divisor ≤ T := Nat.div_mul_le_self _ _
    refine top_le (D := value divisor) (T := T) ((Nat.mul_le_mul_right _ ?_).trans hmul) (UInt64.toNat_lt _).le hDpos (by omega)
      (by omega) hVle hpos
    rw [hqhat]
    exact Nat.min_le_right _ _
  have hcorrect := knuth_correct_spec hlen (by rw [hn]; exact hzero) rfl hge hle hpos
  rw [hn] at hcorrect
  rw [knuth_digit]
  rw [hn]
  exact hcorrect

end

/-! ## All digits -/

/-- The rounds `j - 1, ..., 0`. -/
def udivrem_knuth_loop (divisor : Uint128) (reciprocal : UInt64) (vn : List UInt64) :
    Nat → List UInt64 → List UInt64 → List UInt64 × List UInt64
  | 0, q, un => (q, un)
  | j + 1, q, un =>
    let x := knuth_digit divisor reciprocal vn (un.drop j)
    udivrem_knuth_loop divisor reciprocal vn j (q.set j x.1) (un.take j ++ x.2)

def udivrem_knuth (q un : List UInt64) (m : Nat) (vn : List UInt64) (n : Nat) : List UInt64 × List UInt64 :=
  let divisor : Uint128 := ⟨vn.getD (n - 1) 0, vn.getD (n - 2) 0⟩
  let reciprocal := reciprocal_2by1 divisor.hi
  udivrem_knuth_loop divisor reciprocal (vn.take n) (m - n + 1) q un

section

variable {k : Nat} {vn : List UInt64} {reciprocal : UInt64}

/-- The quotient so far, times the divisor, and the array stand for the same number after each round; what the array has
from the last digit on is less than the divisor. -/
theorem udivrem_knuth_loop_spec (hn : vn.length = k + 2) (hd : 2 ^ 63 ≤ (vn.getD (k + 1) 0).toNat)
    (hv : IsReciprocal (2 ^ 128) (2 ^ 64) (vn.getD (k + 1) 0).toNat reciprocal.toNat) {j : Nat} {q un : List UInt64}
    (hq : j ≤ q.length) (hq0 : digits (q.take j) = 0) (hun : j + vn.length ≤ un.length)
    (hlt : digits (un.drop j) < digits vn) :
    digits (udivrem_knuth_loop ⟨vn.getD (k + 1) 0, vn.getD k 0⟩ reciprocal vn j q un).1 * digits vn +
          digits (udivrem_knuth_loop ⟨vn.getD (k + 1) 0, vn.getD k 0⟩ reciprocal vn j q un).2 =
        digits q * digits vn + digits un ∧
      digits (udivrem_knuth_loop ⟨vn.getD (k + 1) 0, vn.getD k 0⟩ reciprocal vn j q un).2 < digits vn ∧
      (udivrem_knuth_loop ⟨vn.getD (k + 1) 0, vn.getD k 0⟩ reciprocal vn j q un).2.length = un.length := by
  induction j generalizing q un with
  | zero => exact ⟨rfl, hlt, rfl⟩
  | succ j ih =>
    have hstep : digits (un.drop j) < digits vn * 2 ^ 64 := by
      rw [digits_drop_eq, Nat.add_comm, Nat.mul_comm (2 ^ 64)]
      exact next_lt hlt (UInt64.toNat_lt _)
    have hdigit := @knuth_digit_spec _ _ (un.drop j) _ hn (by rw [List.length_drop]; omega) hd hv hstep
    have hlen := length_knuth_digit ⟨vn.getD (k + 1) 0, vn.getD k 0⟩ reciprocal vn (un.drop j)
    rw [udivrem_knuth_loop]
    generalize knuth_digit ⟨vn.getD (k + 1) 0, vn.getD k 0⟩ reciprocal vn (un.drop j) = x at *
    have htake : (un.take j).length = j := List.length_take_of_le (by omega)
    have hlen1 : (un.take j ++ x.2).length = un.length := by
      rw [List.length_append, hlen, htake, List.length_drop]
      omega
    have hdrop1 : (un.take j ++ x.2).drop j = x.2 := by rw [List.drop_append_of_le_length htake.ge, List.drop_of_length_le htake.le, List.nil_append]
    rw [digits_take_succ] at hq0
    have hmodlt : digits (un.drop j) % digits vn < digits vn := Nat.mod_lt _ (Nat.zero_lt_of_lt hlt)
    obtain ⟨h1, h2, h3⟩ := @ih (q.set j x.1) (un.take j ++ x.2) (by rw [List.length_set]; omega)
      (by rw [digits_take_set]; omega) (by rw [hlen1]; omega) (by rw [hdrop1, hdigit.2]; exact hmodlt)
    refine ⟨?_, h2, h3.trans hlen1⟩
    have hset := @digits_set j q (by omega) x.1
    have hdm := Nat.div_add_mod' (digits (un.drop j)) (digits vn)
    have hsplit := digits_take_drop j un
    have hz : 2 ^ (64 * j) * (q.getD j 0).toNat = 0 := by omega
    rw [hz, Nat.add_zero, hdigit.1] at hset
    rw [h1, hset, digits_append, htake, hdigit.2, ← hsplit]
    linear_combination 2 ^ (64 * j) * hdm

end

/-! ## `udivrem` -/

variable {α : Type} [Digit α] [Words α]

/-- The remainder of the long division, shifted back. -/
def denormalize (shift n : Nat) (un : List UInt64) : List UInt64 :=
  if shift ≠ 0 then shr_words shift n un else un.take n

/-- An integer that is narrower than the result is converted word by word. -/
def udivrem (u v : α) : DivResult α :=
  let na := normalize (as_words u) (as_words v)
  let n := na.num_denominator_words
  let m := na.num_numerator_words
  let un := na.numerator ++ [na.numerator_ex]
  if n > m then ⟨Digit.zero, u⟩
  else if n == 1 then
    let r := udivrem_by1 un m (na.denominator.getD 0 0)
    ⟨of_words r.1, of_words (as_words (r.2 >>> UInt64.ofNat na.shift))⟩
  else if n == 2 then
    let d := na.denominator
    let r := udivrem_by2 un m ⟨d.getD 1 0, d.getD 0 0⟩
    ⟨of_words r.1, of_words (as_words (Uint128.shr r.2 na.shift))⟩
  else
    let q := List.replicate (num_words α) 0
    let x := udivrem_knuth q un m na.denominator n
    ⟨of_words x.1, of_words (denormalize na.shift n x.2)⟩

theorem digits_denormalize {shift n : Nat} {un : List UInt64} (hs : shift < 64) (hn : n < un.length)
    (hlt : digits un < 2 ^ (64 * n)) (hd : 2 ^ shift ∣ digits un) : digits (denormalize shift n un) = digits un / 2 ^ shift := by
  have htake : digits (un.take n) = digits un := by rw [digits_take, Nat.mod_eq_of_lt hlt]
  unfold denormalize
  by_cases h0 : shift = 0
  · rw [if_neg (not_not.2 h0), htake, h0, pow_zero, Nat.div_one]
  have hshr := digits_shr_words (Nat.pos_of_ne_zero h0) hs hn
  have htop : (un.getD n 0).toNat = 0 := by
    have h1 := digits_drop_eq n un
    rw [digits_drop, Nat.div_eq_of_lt hlt] at h1
    omega
  have hlow : (un.getD 0 0).toNat % 2 ^ shift = 0 := by
    have h1 := digits_drop_eq 0 un
    have h2 : 2 ^ shift ∣ 2 ^ 64 * digits (un.drop 1) := (pow_dvd_pow 2 hs.le).mul_right _
    rw [List.drop_zero] at h1
    rw [h1] at hd
    exact Nat.mod_eq_zero_of_dvd ((Nat.dvd_add_left h2).1 hd)
  rw [htop, hlow, htake, Nat.zero_mod, Nat.mul_zero, Nat.add_zero, Nat.add_zero] at hshr
  rw [if_pos h0, ← hshr, Nat.mul_div_cancel _ (Nat.two_pow_pos _)]

section

variable {u v : List UInt64} {na : NormalizedDivArgs} (h : Normalized u v na)

include h

/-- What the words of the dividend from the highest digit of the quotient on stand for is less than the divisor. -/
theorem Normalized.top_lt (hle : na.num_denominator_words ≤ na.num_numerator_words) :
    digits ((na.numerator ++ [na.numerator_ex]).drop (na.num_numerator_words - na.num_denominator_words + 1)) <
      digits v * 2 ^ na.shift := by
  have hn := h.num_denominator_words_pos
  have hge := h.denominator_ge
  have hu := h.numerator_lt
  rw [digits_drop, h.digits_numerator]
  apply Nat.div_lt_of_lt_mul
  rw [← Nat.mul_assoc]
  refine Nat.mul_lt_mul_of_pos_right ?_ (Nat.two_pow_pos _)
  refine hu.trans_le (Eq.trans_le ?_ (Nat.mul_le_mul_left _ hge))
  rw [← pow_add]
  congr 1
  omega

theorem Normalized.drop_eq_zero : digits ((na.numerator ++ [na.numerator_ex]).drop (na.num_numerator_words + 1)) = 0 := by
  have hs := h.shift_lt
  rw [digits_drop, h.digits_numerator, two_pow_words, Nat.mul_comm (2 ^ 64)]
  exact Nat.div_eq_of_lt (Nat.mul_lt_mul_of_lt_of_le h.numerator_lt (Nat.pow_le_pow_right (by omega) hs.le) (Nat.two_pow_pos _))

theorem Normalized.length_un : (na.numerator ++ [na.numerator_ex]).length = u.length + 1 := by
  rw [List.length_append, h.length_numerator]
  rfl

/-- The highest words of the denominator are all of it, when it has no more. -/
theorem Normalized.digits_denominator_take :
    digits (na.denominator.take na.num_denominator_words) = digits v * 2 ^ na.shift := by
  rw [digits_take, h.digits_denominator, Nat.mod_eq_of_lt h.denominator_lt]

theorem Normalized.by1 (h1 : na.num_denominator_words = 1) (hm : 1 ≤ na.num_numerator_words) :
    digits (udivrem_by1 (na.numerator ++ [na.numerator_ex]) na.num_numerator_words (na.denominator.getD 0 0)).1 =
        digits u / digits v ∧
      (udivrem_by1 (na.numerator ++ [na.numerator_ex]) na.num_numerator_words (na.denominator.getD 0 0)).2.toNat /
        2 ^ na.shift = digits u % digits v := by
  have htop := h.top_lt (h1.trans_le hm)
  have hlead := h.leading
  have hd : (na.denominator.getD 0 0).toNat = digits v * 2 ^ na.shift := by
    have ht := h.digits_denominator_take
    rw [h1, digits_take_succ, List.take_zero] at ht
    simpa using ht
  rw [h1, Nat.sub_add_cancel hm, digits_drop_eq, h.drop_eq_zero, Nat.mul_zero, Nat.add_zero, ← hd] at htop
  rw [h1] at hlead
  obtain ⟨hq, hr⟩ := udivrem_by1_spec hlead (by rw [h.length_un]; exact Nat.lt_succ_of_le h.num_numerator_words_le)
    h.drop_eq_zero htop
  obtain ⟨hs1, hs2⟩ := scaled (n := digits u) (d := digits v) (s := na.shift)
  rw [hq, hr, h.digits_numerator, hd]
  exact ⟨hs1, hs2⟩

theorem Normalized.by2 (h2 : na.num_denominator_words = 2) (hm : 2 ≤ na.num_numerator_words) :
    digits (udivrem_by2 (na.numerator ++ [na.numerator_ex]) na.num_numerator_words
        ⟨na.denominator.getD 1 0, na.denominator.getD 0 0⟩).1 = digits u / digits v ∧
      value (udivrem_by2 (na.numerator ++ [na.numerator_ex]) na.num_numerator_words
        ⟨na.denominator.getD 1 0, na.denominator.getD 0 0⟩).2 / 2 ^ na.shift = digits u % digits v := by
  have htop := h.top_lt (h2.trans_le hm)
  have hlead := h.leading
  have hz := h.drop_eq_zero
  have hmle := h.num_numerator_words_le
  have hd : value (⟨na.denominator.getD 1 0, na.denominator.getD 0 0⟩ : Uint128) = digits v * 2 ^ na.shift := by
    have ht := h.digits_denominator_take
    rw [h2, digits_take_succ, digits_take_succ, List.take_zero, digits_nil] at ht
    rw [value_uint128, ← ht]
    ring
  obtain ⟨m, hm1⟩ : ∃ m, na.num_numerator_words = m + 1 := ⟨na.num_numerator_words - 1, by omega⟩
  have hsub : m + 1 - 2 + 1 = m := by omega
  rw [h2] at hlead
  rw [h2, hm1, hsub, ← hd] at htop
  rw [hm1] at hz ⊢
  obtain ⟨hq, hr⟩ := udivrem_by2_spec (d := ⟨na.denominator.getD 1 0, na.denominator.getD 0 0⟩) hlead
    (by rw [h.length_un]; omega) hz htop
  obtain ⟨hs1, hs2⟩ := scaled (n := digits u) (d := digits v) (s := na.shift)
  rw [hq, hr, h.digits_numerator, hd]
  exact ⟨hs1, hs2⟩

theorem Normalized.knuth {k N : Nat} (hn : na.num_denominator_words = k + 2)
    (hle : na.num_denominator_words ≤ na.num_numerator_words) (hN : u.length = N) :
    digits (udivrem_knuth (List.replicate N 0) (na.numerator ++ [na.numerator_ex]) na.num_numerator_words na.denominator
        na.num_denominator_words).1 = digits u / digits v ∧
      digits (denormalize na.shift na.num_denominator_words (udivrem_knuth (List.replicate N 0)
        (na.numerator ++ [na.numerator_ex]) na.num_numerator_words na.denominator na.num_denominator_words).2) =
        digits u % digits v := by
  have htop := h.top_lt hle
  have hlead := h.leading
  have hden := h.digits_denominator_take
  have hdlt := h.denominator_lt
  have hmle := h.num_numerator_words_le
  have hnle := h.num_denominator_words_le
  have hlen := h.length_un
  have hnum := h.digits_numerator
  have hs := h.shift_lt
  have hvn : (na.denominator.take na.num_denominator_words).length = k + 2 := by
    rw [List.length_take_of_le (by rw [h.length_denominator]; exact hnle), hn]
  have hget : ∀ i < k + 2, (na.denominator.take na.num_denominator_words).getD i 0 = na.denominator.getD i 0 := by
    intro i hi
    rw [List.getD_eq_getElem?_getD, List.getD_eq_getElem?_getD, hn, List.getElem?_take_of_lt hi]
  generalize na.numerator ++ [na.numerator_ex] = un at *
  have hk1 : na.num_denominator_words - 1 = k + 1 := by omega
  have hk2 : na.num_denominator_words - 2 = k := by omega
  rw [hk1] at hlead
  have hspec := @udivrem_knuth_loop_spec _ _ (reciprocal_2by1 (na.denominator.getD (k + 1) 0)) hvn
    (by rw [hget _ (by omega)]; exact hlead) (by rw [hget _ (by omega)]; exact reciprocal_2by1_isReciprocal hlead)
    (na.num_numerator_words - na.num_denominator_words + 1) (List.replicate N 0) un
    (by rw [List.length_replicate]; omega) (by rw [List.take_replicate]; exact digits_replicate_zero _)
    (by rw [hvn]; omega) (hden ▸ htop)
  rw [hget _ (by omega), hget _ (by omega), hden, hnum, digits_replicate_zero, Nat.zero_mul, Nat.zero_add] at hspec
  rw [udivrem_knuth, hk1, hk2]
  obtain ⟨x, hx⟩ : ∃ x, x = udivrem_knuth_loop ⟨na.denominator.getD (k + 1) 0, na.denominator.getD k 0⟩
    (reciprocal_2by1 (na.denominator.getD (k + 1) 0)) (na.denominator.take na.num_denominator_words)
    (na.num_numerator_words - na.num_denominator_words + 1) (List.replicate N 0) un := ⟨_, rfl⟩
  rw [← hx] at hspec ⊢
  obtain ⟨hsum, hlt, hxlen⟩ := hspec
  have hsumZ : ((digits u * 2 ^ na.shift : Nat) : Int) = digits x.1 * (digits v * 2 ^ na.shift : Nat) + digits x.2 := by
    rw [← hsum]
    push_cast
    rfl
  obtain ⟨hq, hr⟩ := eq_div_mod hsumZ (Int.natCast_nonneg _) (by exact_mod_cast hlt)
  obtain ⟨hs1, hs2⟩ := scaled (n := digits u) (d := digits v) (s := na.shift)
  have hr' : digits x.2 = digits u % digits v * 2 ^ na.shift := by
    rw [← Nat.mul_mod_mul_right]
    exact_mod_cast hr
  refine ⟨(by exact_mod_cast hq : digits x.1 = _).trans hs1, ?_⟩
  rw [digits_denormalize hs (by omega) (hlt.trans hdlt) (hr' ▸ Dvd.intro_left _ rfl), hr',
    Nat.mul_div_cancel _ (Nat.two_pow_pos _)]

end

theorem value_of_digits [LawfulWords α] {ws : List UInt64} {k : Nat} (h : digits ws = k) (hk : k < 2 ^ num_bits α) :
    value (of_words ws : α) = k := by
  rw [value_of_words, digits_take, h, ← num_bits_words, Nat.mod_eq_of_lt hk]

theorem udivrem_spec [LawfulDigit α] [LawfulWords α] (u : α) {v : α} (hv : value v ≠ 0) :
    value (udivrem u v).quot = value u / value v ∧ value (udivrem u v).rem = value u % value v := by
  have hpos := Nat.pos_of_ne_zero hv
  have hqlt : value u / value v < 2 ^ num_bits α := (Nat.div_le_self _ _).trans_lt (value_lt u)
  have hrlt : value u % value v < 2 ^ num_bits α := (Nat.mod_lt _ hpos).trans (value_lt v)
  have hlen : (as_words v).length = (as_words u).length := (length_as_words v).trans (length_as_words u).symm
  have h := normalize_normalized hlen (by rw [digits_as_words]; exact hv)
  obtain ⟨na, hna⟩ : ∃ na, na = normalize (as_words u) (as_words v) := ⟨_, rfl⟩
  rw [← hna] at h
  rw [udivrem, ← hna]
  by_cases hnm : na.num_denominator_words > na.num_numerator_words
  · have hlt : value u < value v := by
      have hu := h.numerator_lt
      have hge := h.denominator_ge
      rw [digits_as_words] at hu hge
      exact hu.trans_le ((Nat.pow_le_pow_right (by omega) (Nat.mul_le_mul_left _ (by omega))).trans hge)
    rw [if_pos hnm, Nat.div_eq_of_lt hlt, Nat.mod_eq_of_lt hlt]
    exact ⟨value_zero, rfl⟩
  rw [if_neg hnm]
  rw [gt_iff_lt, Nat.not_lt] at hnm
  have hn0 := h.num_denominator_words_pos
  by_cases h1 : na.num_denominator_words = 1
  · obtain ⟨hq, hr⟩ := h.by1 h1 (h1 ▸ hnm)
    rw [if_pos (beq_iff_eq.2 h1)]
    rw [digits_as_words, digits_as_words] at hq hr
    obtain ⟨x, hx⟩ : ∃ x, x = udivrem_by1 (na.numerator ++ [na.numerator_ex]) na.num_numerator_words
      (na.denominator.getD 0 0) := ⟨_, rfl⟩
    rw [← hx] at hq hr ⊢
    refine ⟨value_of_digits hq hqlt, value_of_digits ?_ hrlt⟩
    rw [digits_as_words, value_uint64, Uint128.toNat_shr _ h.shift_lt, hr]
  rw [if_neg (mt beq_iff_eq.1 h1)]
  by_cases h2 : na.num_denominator_words = 2
  · obtain ⟨hq, hr⟩ := h.by2 h2 (h2 ▸ hnm)
    rw [if_pos (beq_iff_eq.2 h2)]
    rw [digits_as_words, digits_as_words] at hq hr
    obtain ⟨x, hx⟩ : ∃ x, x = udivrem_by2 (na.numerator ++ [na.numerator_ex]) na.num_numerator_words
      ⟨na.denominator.getD 1 0, na.denominator.getD 0 0⟩ := ⟨_, rfl⟩
    dsimp only
    rw [← hx] at hq hr ⊢
    refine ⟨value_of_digits hq hqlt, value_of_digits ?_ hrlt⟩
    rw [digits_as_words, Uint128.value_shr, hr]
  obtain ⟨hq, hr⟩ := h.knuth (k := na.num_denominator_words - 2) (by omega) hnm (length_as_words u)
  rw [if_neg (mt beq_iff_eq.1 h2)]
  rw [digits_as_words, digits_as_words] at hq hr
  dsimp only
  obtain ⟨x, hx⟩ : ∃ x, x = udivrem_knuth (List.replicate (num_words α) 0) (na.numerator ++ [na.numerator_ex])
    na.num_numerator_words na.denominator na.num_denominator_words := ⟨_, rfl⟩
  rw [← hx] at hq hr ⊢
  exact ⟨value_of_digits hq hqlt, value_of_digits hr hrlt⟩

/-- **Division.** For any number of words: the remainder is less than the divisor, and nothing is lost. -/
theorem udivrem_exact [LawfulDigit α] [LawfulWords α] (u : α) {v : α} (hv : value v ≠ 0) :
    value u = value (udivrem u v).quot * value v + value (udivrem u v).rem ∧ value (udivrem u v).rem < value v := by
  obtain ⟨hq, hr⟩ := udivrem_spec u hv
  rw [hq, hr]
  exact ⟨(Nat.div_add_mod' _ _).symm, Nat.mod_lt _ (Nat.pos_of_ne_zero hv)⟩

/-- A dividend of four words and a divisor of three. -/
theorem udivrem_four_by_three :
    value (⟨⟨1, 2⟩, ⟨3, 4⟩⟩ : Uint256) = value (udivrem ⟨⟨1, 2⟩, ⟨3, 4⟩⟩ (⟨⟨0, 5⟩, ⟨6, 7⟩⟩ : Uint256)).quot *
          value (⟨⟨0, 5⟩, ⟨6, 7⟩⟩ : Uint256) + value (udivrem ⟨⟨1, 2⟩, ⟨3, 4⟩⟩ (⟨⟨0, 5⟩, ⟨6, 7⟩⟩ : Uint256)).rem ∧
      value (udivrem ⟨⟨1, 2⟩, ⟨3, 4⟩⟩ (⟨⟨0, 5⟩, ⟨6, 7⟩⟩ : Uint256)).rem < value (⟨⟨0, 5⟩, ⟨6, 7⟩⟩ : Uint256) :=
  udivrem_exact _ (by decide)

end EEVM.Intx

import EEVM.Intx.LongDivision
/-!
# intx: the operators built on the others (intx.hpp:634-690)

| here | there |
| --- | --- |
| `mul_loop_row`, `mul_loop_opt` | the body of the outer loop of `mul_loop_opt` (`:635`), and `mul_loop_opt`, the `operator*` of `uint<512>` |
| `exp_loop`, `exp` | the loop of `exp` (`:678`), and `exp` |
-/
namespace EEVM.Intx

open Halves

/-! ## Multiplication word by word -/

def mul_loop_inner (v : UInt64) : List UInt64 → List UInt64 → UInt64 → List UInt64 × UInt64
  | u :: us, p :: ps, k =>
    let t := umul u v + widen p + widen k
    let rest := mul_loop_inner v us ps t.hi
    (t.lo :: rest.1, rest.2)
  | _, ps, k => (ps, k)

/-- The round `j`. The last word of the row is kept without what it carries over. -/
def mul_loop_row (num_words : Nat) (uw : List UInt64) (v : UInt64) (j : Nat) (pw : List UInt64) : List UInt64 :=
  let s := mul_loop_inner v (uw.take (num_words - j - 1)) (pw.drop j) 0
  let pw := pw.take j ++ s.1
  pw.set (num_words - 1) (pw.getD (num_words - 1) 0 + (uw.getD (num_words - j - 1) 0 * v + s.2))

def mul_loop_rows (num_words : Nat) (uw vw pw : List UInt64) (rounds : Nat) : List UInt64 :=
  (List.range rounds).foldl (fun pw j => mul_loop_row num_words uw (vw.getD j 0) j pw) pw

theorem mul_loop_inner_round (u v p k : UInt64) :
    (umul u v + widen p + widen k : Uint128).lo.toNat + (umul u v + widen p + widen k : Uint128).hi.toNat * 2 ^ 64 =
      u.toNat * v.toNat + p.toNat + k.toNat := by
  have hmul : u.toNat * v.toNat ≤ (2 ^ 64 - 1) * (2 ^ 64 - 1) :=
    Nat.mul_le_mul (Nat.le_sub_one_of_lt u.toNat_lt) (Nat.le_sub_one_of_lt v.toNat_lt)
  have hp := p.toNat_lt
  have hk := k.toNat_lt
  have ht : value (umul u v + widen p + widen k : Uint128) = u.toNat * v.toNat + p.toNat + k.toNat := by
    rw [value_add, value_add, value_umul, value_widen, value_widen, num_bits_uint128, value_uint64, value_uint64, value_uint64,
      value_uint64]
    omega
  rw [← ht, value_uint128, Nat.add_comm]

theorem mul_loop_inner_spec (v : UInt64) {us ps : List UInt64} (hlen : us.length ≤ ps.length) (k : UInt64) :
    digits (mul_loop_inner v us ps k).1 + (mul_loop_inner v us ps k).2.toNat * 2 ^ (64 * us.length) =
        digits ps + digits us * v.toNat + k.toNat ∧
      (mul_loop_inner v us ps k).1.length = ps.length := by
  induction us generalizing ps k with
  | nil => cases ps <;> simp [mul_loop_inner]
  | cons u us ih =>
    cases ps with
    | nil => simp at hlen
    | cons p ps =>
      have hround := mul_loop_inner_round u v p k
      rw [mul_loop_inner]
      generalize (umul u v + widen p + widen k : Uint128) = t at *
      obtain ⟨h1, h2⟩ := @ih ps (by simpa using hlen) t.hi
      refine ⟨?_, by simp [h2]⟩
      rw [digits_cons, digits_cons, digits_cons, List.length_cons, two_pow_words]
      linear_combination hround + 2 ^ 64 * h1

section

variable {N : Nat} {uw pw : List UInt64}

theorem length_mul_loop_row (hpw : pw.length = N) {j : Nat} (hj : j < N) (v : UInt64) :
    (mul_loop_row N uw v j pw).length = N := by
  have hlen : (uw.take (N - j - 1)).length ≤ (pw.drop j).length := by
    rw [List.length_drop, hpw]
    exact (List.length_take_le _ _).trans (by omega)
  rw [mul_loop_row, List.length_set, List.length_append, (mul_loop_inner_spec v hlen 0).2, List.length_drop, List.length_take]
  omega

/-- A row adds its multiple of `u`, up to multiples of the width. -/
theorem mul_loop_row_modEq (huw : uw.length = N) (hpw : pw.length = N) {j : Nat} (hj : j < N) (v : UInt64) :
    digits (mul_loop_row N uw v j pw) ≡ digits pw + 2 ^ (64 * j) * v.toNat * digits uw [MOD 2 ^ (64 * N)] := by
  obtain ⟨n, rfl⟩ : ∃ n, N = j + n + 1 := ⟨N - j - 1, by omega⟩
  have hn : j + n + 1 - j - 1 = n := by omega
  have htake : (uw.take n).length = n := List.length_take_of_le (by omega)
  obtain ⟨hinner, hslen⟩ := @mul_loop_inner_spec v (uw.take n) (pw.drop j) (by rw [htake, List.length_drop]; omega) 0
  rw [mul_loop_row, hn, Nat.add_sub_cancel]
  obtain ⟨s, hs⟩ : ∃ s, s = mul_loop_inner v (uw.take n) (pw.drop j) 0 := ⟨_, rfl⟩
  rw [← hs, htake, UInt64.toNat_zero, Nat.add_zero] at hinner
  rw [← hs] at hslen ⊢
  have hj' : (pw.take j).length = j := List.length_take_of_le (by omega)
  have hset := @digits_set (j + n) (pw.take j ++ s.1)
    (by rw [List.length_append, hslen, hj', List.length_drop]; omega)
    ((pw.take j ++ s.1).getD (j + n) 0 + (uw.getD n 0 * v + s.2))
  generalize (pw.take j ++ s.1).getD (j + n) 0 = old at *
  rw [digits_append, hj'] at hset
  have hpow : 2 ^ (64 * (j + n)) = 2 ^ (64 * j) * 2 ^ (64 * n) := by rw [Nat.mul_add, pow_add]
  have hpow1 : 2 ^ (64 * (j + n + 1)) = 2 ^ (64 * (j + n)) * 2 ^ 64 := by rw [two_pow_words, Nat.mul_comm]
  -- the last word
  have hnew : (old + (uw.getD n 0 * v + s.2)).toNat ≡ old.toNat + ((uw.getD n 0).toNat * v.toNat + s.2.toNat) [MOD 2 ^ 64] := by
    rw [UInt64.toNat_add, UInt64.toNat_add, UInt64.toNat_mul]
    exact (Nat.mod_modEq _ _).trans ((Nat.ModEq.refl _).add ((Nat.mod_modEq _ _).trans ((Nat.mod_modEq _ _).add_right _)))
  have hlast := hnew.mul_left' (2 ^ (64 * (j + n)))
  rw [← hpow1] at hlast
  -- what the row leaves out of `u` is a multiple of the width
  have hout : 2 ^ (64 * j) * v.toNat * digits (uw.take (n + 1)) ≡ 2 ^ (64 * j) * v.toNat * digits uw [MOD 2 ^ (64 * (j + n + 1))] := by
    have h1 : 2 ^ (64 * j) * v.toNat * digits uw =
        2 ^ (64 * j) * v.toNat * digits (uw.take (n + 1)) + 2 ^ (64 * (j + n + 1)) * (v.toNat * digits (uw.drop (n + 1))) := by
      rw [← digits_take_drop (n + 1) uw, two_pow_words n, hpow1, hpow]
      ring
    rw [h1]
    exact Nat.modEq_add_modulus_mul_iff.2 (.refl _)
  have hsum : digits (pw.take j) + 2 ^ (64 * j) * digits s.1 +
        2 ^ (64 * (j + n)) * (old.toNat + ((uw.getD n 0).toNat * v.toNat + s.2.toNat)) =
      digits pw + 2 ^ (64 * j) * v.toNat * digits (uw.take (n + 1)) + 2 ^ (64 * (j + n)) * old.toNat := by
    have hsplit := digits_take_drop j pw
    rw [digits_take_succ, hpow]
    linear_combination 2 ^ (64 * j) * hinner + hsplit
  refine Nat.ModEq.add_right_cancel' (2 ^ (64 * (j + n)) * old.toNat) ?_
  rw [hset]
  refine ((Nat.ModEq.refl _).add hlast).trans ?_
  rw [hsum]
  exact (hout.add_left _).add_right _

theorem mul_loop_rows_spec {vw : List UInt64} (huw : uw.length = N) {k : Nat} (hk : k ≤ N) :
    digits (mul_loop_rows N uw vw (List.replicate N 0) k) ≡ digits uw * digits (vw.take k) [MOD 2 ^ (64 * N)] ∧
      (mul_loop_rows N uw vw (List.replicate N 0) k).length = N := by
  induction k with
  | zero => exact ⟨by simp [mul_loop_rows, digits_replicate_zero, Nat.ModEq], List.length_replicate⟩
  | succ k ih =>
    obtain ⟨h1, h2⟩ := ih (by omega)
    have hrow : mul_loop_rows N uw vw (List.replicate N 0) (k + 1) =
        mul_loop_row N uw (vw.getD k 0) k (mul_loop_rows N uw vw (List.replicate N 0) k) := by
      rw [mul_loop_rows, List.range_succ, List.foldl_append]
      rfl
    rw [hrow]
    refine ⟨?_, length_mul_loop_row h2 (by omega) _⟩
    refine (mul_loop_row_modEq huw h2 (by omega) _).trans ((h1.add_right _).trans ?_)
    rw [digits_take_succ, Nat.mul_add, Nat.mul_comm (digits uw) (2 ^ (64 * k) * _)]

end

variable {α : Type} [Digit α]

section

variable [Words α]

def mul_loop_opt (u v : α) : α :=
  of_words (mul_loop_rows (num_words α) (as_words u) (as_words v) (List.replicate (num_words α) 0) (num_words α))

theorem value_mul_loop_opt [LawfulWords α] (u v : α) :
    value (mul_loop_opt u v) = value u * value v % 2 ^ num_bits α := by
  have h := (@mul_loop_rows_spec _ _ (as_words v) (length_as_words u) _ (Nat.le_refl _)).1
  rw [List.take_of_length_le (length_as_words v).le, digits_as_words, digits_as_words] at h
  rw [mul_loop_opt, value_of_words, digits_take, num_bits_words]
  exact h

end

instance : Mul Uint512 := ⟨mul_loop_opt⟩

theorem value_mul_uint512 (x y : Uint512) : value (x * y) = value x * value y % 2 ^ num_bits Uint512 :=
  value_mul_loop_opt x y

section

variable {H : Type} [Digit H] [Half H] [LawfulHalf H] [Words H] [LawfulWords H] [Mul H] [Umul H]

/-- **The two products.** For every width the product by rows is the one by halves. -/
theorem mul_loop_opt_eq_mul (hmul : ∀ x y : H, value (x * y) = value x * value y % 2 ^ num_bits H) (x y : Uint H) :
    mul_loop_opt x y = mul umul x y :=
  value_inj ((value_mul_loop_opt x y).trans (value_mul value_umul hmul x y).symm)

end

theorem mul_loop_opt_eq_mul_uint256 :
    mul_loop_opt (⟨⟨1, 2⟩, ⟨3, 4⟩⟩ : Uint256) ⟨⟨5, 6⟩, ⟨7, 8⟩⟩ = mul umul ⟨⟨1, 2⟩, ⟨3, 4⟩⟩ ⟨⟨5, 6⟩, ⟨7, 8⟩⟩ :=
  mul_loop_opt_eq_mul value_mul_uint128 _ _

/-! ## Exponentiation -/

section

variable [Half α]

theorem eq_zero_iff [LawfulHalf α] (x : α) : Half.eq x (Half.ofUInt64 0) = true ↔ value x = 0 := by
  rw [LawfulHalf.eq_iff, value_ofUInt64, UInt64.toNat_zero]

variable [Mul α]

/-- At most `bits` rounds of the loop: the exponent loses a bit in each. -/
def exp_loop : Nat → α → α → α → α
  | 0, result, _, _ => result
  | bits + 1, result, base, exponent =>
    if Half.eq exponent (Half.ofUInt64 0) then result
    else
      exp_loop bits (if Half.eq (exponent &&& Half.ofUInt64 1) (Half.ofUInt64 0) then result else result * base) (base * base)
        (Half.shr exponent 1)

def exp (base exponent : α) : α := exp_loop (num_bits α) (Half.ofUInt64 1) base exponent

variable [LawfulHalf α]

/-- What a bit of the exponent says. -/
theorem pow_bit (b e : Nat) : (b * b) ^ (e / 2) * b ^ (e % 2) = b ^ e := by
  rw [← pow_two, ← pow_mul, ← pow_add, Nat.div_add_mod]

theorem exp_loop_modEq (hmul : ∀ x y : α, value (x * y) = value x * value y % 2 ^ num_bits α) {bits : Nat}
    {result base exponent : α} (h : value exponent < 2 ^ bits) :
    value (exp_loop bits result base exponent) ≡ value result * value base ^ value exponent [MOD 2 ^ num_bits α] := by
  induction bits generalizing result base exponent with
  | zero =>
    have h0 : value exponent = 0 := by simpa using h
    rw [exp_loop, h0, pow_zero, Nat.mul_one]
  | succ bits ih =>
    rw [exp_loop]
    by_cases h0 : value exponent = 0
    · rw [if_pos ((eq_zero_iff exponent).2 h0), h0, pow_zero, Nat.mul_one]
    rw [if_neg (mt (eq_zero_iff exponent).1 h0)]
    have hshr : value (Half.shr exponent 1) = value exponent / 2 := by rw [value_shr, pow_one]
    have hlow : value (exponent &&& Half.ofUInt64 1) = value exponent % 2 := by
      have h1 : (1 : UInt64).toNat = 1 := rfl
      rw [value_and, value_ofUInt64, h1, Nat.and_one_is_mod]
    refine (ih (by rw [hshr]; omega)).trans ?_
    have hbase : value (base * base) ≡ value base * value base [MOD 2 ^ num_bits α] := by
      rw [hmul]
      exact Nat.mod_modEq _ _
    have hresult : value (if Half.eq (exponent &&& Half.ofUInt64 1) (Half.ofUInt64 0) then result else result * base) ≡
        value result * value base ^ (value exponent % 2) [MOD 2 ^ num_bits α] := by
      by_cases hb : value exponent % 2 = 0
      · rw [if_pos ((eq_zero_iff _).2 (hlow.trans hb)), hb, pow_zero, Nat.mul_one]
      · have h1 : value exponent % 2 = 1 := by omega
        rw [if_neg (mt (eq_zero_iff _).1 (hlow ▸ hb)), h1, pow_one, hmul]
        exact Nat.mod_modEq _ _
    refine (hresult.mul (hbase.pow _)).trans ?_
    rw [hshr, ← pow_bit (value base) (value exponent), Nat.mul_assoc, Nat.mul_comm (value base ^ _)]

theorem value_exp (hmul : ∀ x y : α, value (x * y) = value x * value y % 2 ^ num_bits α) (base exponent : α) :
    value (exp base exponent) = value base ^ value exponent % 2 ^ num_bits α := by
  have h : value (exp_loop (num_bits α) (Half.ofUInt64 1) base exponent) ≡
      value (Half.ofUInt64 1 : α) * value base ^ value exponent [MOD 2 ^ num_bits α] :=
    exp_loop_modEq hmul (value_lt exponent)
  have h1 : (1 : UInt64).toNat = 1 := rfl
  rw [value_ofUInt64, h1, Nat.one_mul] at h
  rw [exp, ← Nat.mod_eq_of_lt (value_lt (exp_loop _ _ base exponent))]
  exact h

end

end EEVM.Intx

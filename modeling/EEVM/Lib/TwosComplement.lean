import Mathlib.Data.BitVec
/-!
# Two's complement, as arithmetic on integers

What the signed operations of `BitVec` compute, as the word of the exact integer result, and the word that the low bits of
another one stand for. Sign extension is read bit by bit: bit `i` is bit `min i (k - 1)` of the operand, so extending
twice is extending once, from the lower of the two bits.
-/
namespace TwosComplement

variable {w : Nat} {x y : BitVec w}

/-! ## Quotient and remainder -/

theorem sdiv_eq_ofInt (x y : BitVec w) : x.sdiv y = BitVec.ofInt w (x.toInt.tdiv y.toInt) := by
  apply BitVec.eq_of_toInt_eq
  rw [BitVec.toInt_sdiv, BitVec.toInt_ofInt]

theorem srem_eq_ofInt (x y : BitVec w) : x.srem y = BitVec.ofInt w (x.toInt.tmod y.toInt) := by
  rw [← BitVec.toInt_srem, BitVec.ofInt_toInt]

/-! ## Order -/

/-- Words of one sign compare as they do without sign. -/
theorem toInt_lt_iff_of_msb_eq (h : x.msb = y.msb) : x.toInt < y.toInt ↔ x < y := by
  have hslt := BitVec.slt_eq_ult_of_msb_eq h
  rw [BitVec.slt_eq_decide, BitVec.ult, decide_eq_decide] at hslt
  rw [hslt, BitVec.lt_def]

/-- Of two words of different signs the negative one is the smaller. -/
theorem toInt_lt_iff_of_msb_ne (h : x.msb ≠ y.msb) : x.toInt < y.toInt ↔ x.msb = true := by
  cases hx : x.msb with
  | true =>
    have hy : y.msb = false := by
      rw [hx] at h
      simpa using h.symm
    have hneg := BitVec.toInt_neg_of_msb_true hx
    have hpos := BitVec.toInt_eq_toNat_of_msb hy
    simp only [iff_true]
    omega
  | false =>
    have hy : y.msb = true := by
      rw [hx] at h
      simpa using h.symm
    have hneg := BitVec.toInt_neg_of_msb_true hy
    have hpos := BitVec.toInt_eq_toNat_of_msb hx
    simp only [Bool.false_eq_true, iff_false]
    omega

/-! ## Sign extension -/

/-- The word that has the value of the low `k` bits of `x`. -/
def extend (k : Nat) (x : BitVec w) : BitVec w := (x.setWidth k).signExtend w

/-- From bit `n` on every bit of the word is bit `n` of `x`. -/
theorem getLsbD_extend (n : Nat) (x : BitVec w) (i : Nat) :
    (extend (n + 1) x).getLsbD i = (decide (i < w) && x.getLsbD (min i n)) := by
  rw [extend, BitVec.getLsbD_signExtend]
  by_cases h : i < n + 1
  · rw [if_pos h, BitVec.getLsbD_setWidth, Nat.min_eq_left (by omega)]
    simp [h]
  · rw [if_neg h, BitVec.msb_setWidth, Nat.min_eq_right (by omega)]
    simp

/-- All bits of a word stand for itself. -/
theorem extend_self (x : BitVec w) : extend w x = x := by
  rw [extend, BitVec.setWidth_eq, BitVec.signExtend_eq]

theorem extend_extend (m n : Nat) (x : BitVec w) :
    extend (m + 1) (extend (n + 1) x) = extend (min m n + 1) x := by
  apply BitVec.eq_of_getLsbD_eq
  intro i hi
  have hmin : min i m < w := by omega
  rw [getLsbD_extend, getLsbD_extend, getLsbD_extend, Nat.min_assoc]
  simp [hmin]

end TwosComplement

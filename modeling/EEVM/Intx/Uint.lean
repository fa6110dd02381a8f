import Mathlib.Data.Int.ModEq
import EEVM.Lib.Halves
import EEVM.Word
/-!
# intx: the integers and their linear operators (int128.hpp, intx.hpp)

| here | there |
| --- | --- |
| `Uint`, `Uint128`, `Uint256`, `Uint512` | `uint<N>` (`intx.hpp:19`), which is made of two halves, and its specialisation `uint<128>` (`int128.hpp:29`), whose halves are `uint64_t` |
| `Digit.value` | the number an integer stands for |
| `Half` | the operators of the smaller type that the templates for the larger one use |
| the instances on `Uint128` | the operators of `int128.hpp:72-260` |
| the instances on `Uint H` | the templates of `intx.hpp:166-405`, `:481-536`, for `N >= 256` |

`LawfulHalf` says that the operators compute what they should on the numbers. It is proved for `uint<128>`, and for
`uint<N>` from what holds of its half type: that covers every `N`. A shift amount is an `unsigned` and a `Nat` here; the
overloads for other types (`intx.hpp:390-406`) narrow an amount below the width to one, and give 0 otherwise, as these do.
-/
namespace EEVM.Intx

open Halves

/-- `uint<N>`, from the type of its halves. -/
structure Uint (H : Type) where
  hi : H
  lo : H
deriving DecidableEq, Repr

abbrev Uint128 := Uint UInt64
abbrev Uint256 := Uint Uint128
abbrev Uint512 := Uint Uint256

/-! ## Values -/

/-- An integer of a fixed width, and the number it stands for. -/
class Digit (α : Type) where
  num_bits : Nat
  value : α → Nat
  zero : α

export Digit (num_bits value)

/-- Integers and the numbers below `2 ^ num_bits` are the same. -/
class LawfulDigit (α : Type) [Digit α] : Prop where
  value_zero : value (Digit.zero : α) = 0
  value_lt : ∀ x : α, value x < 2 ^ num_bits α
  value_inj : ∀ {x y : α}, value x = value y → x = y

export LawfulDigit (value_zero value_lt value_inj)

instance : Digit UInt64 := ⟨64, UInt64.toNat, 0⟩
instance : LawfulDigit UInt64 := ⟨rfl, UInt64.toNat_lt, UInt64.toNat_inj.1⟩

variable {H : Type}

instance [Digit H] : Digit (Uint H) where
  num_bits := 2 * num_bits H
  value x := join (num_bits H) (value x.hi) (value x.lo)
  zero := ⟨Digit.zero, Digit.zero⟩

/-- The converting constructor `uint<N>(half_type x)`. -/
def widen [Digit H] (x : H) : Uint H := ⟨Digit.zero, x⟩

@[simp] theorem value_uint64 (x : UInt64) : value x = x.toNat := rfl
@[simp] theorem num_bits_uint64 : num_bits UInt64 = 64 := rfl

theorem value_def [Digit H] (x : Uint H) : value x = join (num_bits H) (value x.hi) (value x.lo) := rfl
theorem num_bits_def [Digit H] : num_bits (Uint H) = 2 * num_bits H := rfl

/-- The high half of a converted integer is zero. -/
theorem value_widen [Digit H] [LawfulDigit H] (x : H) : value (widen x) = value x := by
  simp [value_def, widen, value_zero, join]

instance [Digit H] [LawfulDigit H] : LawfulDigit (Uint H) where
  value_zero := by
    change join (num_bits H) (value Digit.zero) (value Digit.zero) = 0
    simp [value_zero, join]
  value_lt x := join_lt (value_lt x.hi) (value_lt x.lo)
  value_inj {x y} h := by
    obtain ⟨h1, h2⟩ := (join_inj_iff (value_lt x.lo) (value_lt y.lo)).1 h
    cases x
    cases y
    rw [Uint.mk.injEq]
    exact ⟨value_inj h1, value_inj h2⟩

/-! ## The operators of a half -/

/-- What the templates for `uint<N>` call on `uint<N / 2>`. -/
class Half (α : Type) [Digit α] extends Add α, Sub α, Neg α, OrOp α, AndOp α, XorOp α, Complement α where
  ofUInt64 : UInt64 → α
  toUInt64 : α → UInt64
  eq : α → α → Bool
  lt : α → α → Bool
  gt : α → α → Bool
  shl : α → Nat → α
  shr : α → Nat → α
  add_with_carry : α → α → α × Bool

open Half (ofUInt64 toUInt64 shl shr add_with_carry)

/-- Additions, subtractions and shifts wrap around at the width, as unsigned integers do; the carry of `add_with_carry` is
what has been cut off. -/
class LawfulHalf (α : Type) [Digit α] [Half α] : Prop extends LawfulDigit α where
  value_ofUInt64 : ∀ n : UInt64, value (ofUInt64 n : α) = n.toNat
  toNat_toUInt64 : ∀ x : α, (toUInt64 x).toNat = value x % 2 ^ 64
  num_bits_ge : 64 ≤ num_bits α
  value_add : ∀ x y : α, value (x + y) = (value x + value y) % 2 ^ num_bits α
  value_sub : ∀ x y : α, value (x - y) = (2 ^ num_bits α - value y + value x) % 2 ^ num_bits α
  value_neg : ∀ x : α, value (-x) = (2 ^ num_bits α - value x) % 2 ^ num_bits α
  eq_iff : ∀ x y : α, Half.eq x y = true ↔ value x = value y
  lt_iff : ∀ x y : α, Half.lt x y = true ↔ value x < value y
  gt_iff : ∀ x y : α, Half.gt x y = true ↔ value x > value y
  value_or : ∀ x y : α, value (x ||| y) = value x ||| value y
  value_and : ∀ x y : α, value (x &&& y) = value x &&& value y
  value_xor : ∀ x y : α, value (x ^^^ y) = value x ^^^ value y
  value_not : ∀ x : α, value (~~~x) = 2 ^ num_bits α - 1 - value x
  value_shl : ∀ (x : α) (s : Nat), value (shl x s) = value x * 2 ^ s % 2 ^ num_bits α
  value_shr : ∀ (x : α) (s : Nat), value (shr x s) = value x / 2 ^ s
  value_add_with_carry : ∀ x y : α,
    value (add_with_carry x y).1 + (add_with_carry x y).2.toNat * 2 ^ num_bits α = value x + value y

export LawfulHalf (value_ofUInt64 toNat_toUInt64 num_bits_ge value_add value_sub value_neg value_or value_and value_xor
  value_not value_shl value_shr value_add_with_carry)

attribute [simp] value_ofUInt64 value_or value_and value_xor value_not value_shl value_shr

/-! ## `uint<128>` -/

/-- The two words of a `uint<128>`, by which `omega` knows it. -/
theorem value_uint128 (x : Uint128) : value x = x.hi.toNat * 2 ^ 64 + x.lo.toNat := rfl
@[simp] theorem num_bits_uint128 : num_bits Uint128 = 128 := rfl

theorem value_uint128_lt (x : Uint128) : value x < 2 ^ 128 := value_lt x

namespace Uint128

def ofUInt64 (x : UInt64) : Uint128 := ⟨0, x⟩

/-- The sum of the low words has wrapped around when it is less than one of them. -/
def add (x y : Uint128) : Uint128 :=
  let lo := x.lo + y.lo
  let carry : UInt64 := if x.lo > lo then 1 else 0
  let hi := x.hi + y.hi + carry
  ⟨hi, lo⟩

/-- The difference of the low words has wrapped around when it is larger than the first of them. -/
def sub (x y : Uint128) : Uint128 :=
  let lo := x.lo - y.lo
  let borrow : UInt64 := if x.lo < lo then 1 else 0
  let hi := x.hi - y.hi - borrow
  ⟨hi, lo⟩

def neg (x : Uint128) : Uint128 := sub (ofUInt64 0) x

def eq (x y : Uint128) : Bool := x.lo == y.lo && x.hi == y.hi
/-- The low words are compared when the high ones are equal. -/
def lt (x y : Uint128) : Bool := x.hi < y.hi || (x.hi == y.hi && x.lo < y.lo)
def le (x y : Uint128) : Bool := x.hi < y.hi || (x.hi == y.hi && x.lo ≤ y.lo)
def gt (x y : Uint128) : Bool := !le x y

def shl (x : Uint128) (shift : Nat) : Uint128 :=
  if shift < 64 then
    -- for `shift == 0` a shift by `64 - shift` is invalid, so it is split into two
    ⟨x.hi <<< UInt64.ofNat shift ||| (x.lo >>> 1) >>> UInt64.ofNat (63 - shift), x.lo <<< UInt64.ofNat shift⟩
  else if shift < 128 then ⟨x.lo <<< UInt64.ofNat (shift - 64), 0⟩
  else ofUInt64 0

def shr (x : Uint128) (shift : Nat) : Uint128 :=
  if shift < 64 then
    ⟨x.hi >>> UInt64.ofNat shift, x.lo >>> UInt64.ofNat shift ||| (x.hi <<< 1) <<< UInt64.ofNat (63 - shift)⟩
  else if shift < 128 then ⟨0, x.hi >>> UInt64.ofNat (shift - 64)⟩
  else ofUInt64 0

instance : Half Uint128 where
  add := add
  sub := sub
  neg := neg
  or x y := ⟨x.hi ||| y.hi, x.lo ||| y.lo⟩
  and x y := ⟨x.hi &&& y.hi, x.lo &&& y.lo⟩
  xor x y := ⟨x.hi ^^^ y.hi, x.lo ^^^ y.lo⟩
  complement x := ⟨~~~x.hi, ~~~x.lo⟩
  ofUInt64 := ofUInt64
  toUInt64 x := x.lo
  eq := eq
  lt := lt
  gt := gt
  shl := shl
  shr := shr
  add_with_carry a b :=
    let s := add a b
    let k := lt s a
    (s, k)

theorem value_ofUInt64 (x : UInt64) : value (ofUInt64 x) = x.toNat := by simp [value_uint128, ofUInt64]

theorem lt_iff (x y : Uint128) : lt x y = true ↔ value x < value y := by
  rw [value_def, value_def, join_lt_join_iff (value_lt _) (value_lt _)]
  simp [lt, UInt64.lt_iff_toNat_lt, UInt64.toNat_inj]

/-- `<=` is a comparison of its own in intx, and `>` is its negation. -/
theorem le_iff (x y : Uint128) : le x y = true ↔ value x ≤ value y := by
  rw [← Nat.not_lt, value_def, value_def, join_lt_join_iff (value_lt _) (value_lt _)]
  simp only [le, Bool.or_eq_true, Bool.and_eq_true, decide_eq_true_eq, beq_iff_eq, UInt64.lt_iff_toNat_lt,
    UInt64.le_iff_toNat_le, ← UInt64.toNat_inj, value_uint64]
  omega

/-- Only the carry out of the high word is lost. -/
theorem value_add (x y : Uint128) : value (add x y) = (value x + value y) % 2 ^ 128 := by
  have h1 := x.lo.toNat_lt
  have h2 := y.lo.toNat_lt
  have hc : (if x.lo > x.lo + y.lo then 1 else 0 : UInt64).toNat = (x.lo.toNat + y.lo.toNat) / 2 ^ 64 := by
    simp only [gt_iff_lt, UInt64.lt_iff_toNat_lt, UInt64.toNat_add]
    split <;> simp <;> omega
  simp only [value_uint128, add, UInt64.toNat_add, hc]
  omega

/-- In the naturals the difference is taken from `2 ^ 128`, so that it does not go below zero. -/
theorem value_sub (x y : Uint128) : value (sub x y) = (2 ^ 128 - value y + value x) % 2 ^ 128 := by
  have h1 := x.lo.toNat_lt
  have h2 := y.lo.toNat_lt
  have h3 := y.hi.toNat_lt
  have hb : (if x.lo < x.lo - y.lo then 1 else 0 : UInt64).toNat = if x.lo.toNat < y.lo.toNat then 1 else 0 := by
    simp only [UInt64.lt_iff_toNat_lt, UInt64.toNat_sub]
    split <;> split <;> simp <;> omega
  simp only [value_uint128, sub, UInt64.toNat_sub, hb]
  split <;> omega

/-- The words themselves are shifted by less than 64 bits only, as C++ wants it. -/
theorem toNat_shl {n : Nat} (x : UInt64) (hn : n < 64) : (x <<< UInt64.ofNat n).toNat = x.toNat * 2 ^ n % 2 ^ 64 := by
  rw [UInt64.toNat_shiftLeft, UInt64.toNat_ofNat', Nat.mod_eq_of_lt (show n < 2 ^ 64 by omega), Nat.mod_eq_of_lt hn,
    Nat.shiftLeft_eq]

theorem toNat_shr {n : Nat} (x : UInt64) (hn : n < 64) : (x >>> UInt64.ofNat n).toNat = x.toNat / 2 ^ n := by
  rw [UInt64.toNat_shiftRight, UInt64.toNat_ofNat', Nat.mod_eq_of_lt (show n < 2 ^ 64 by omega), Nat.mod_eq_of_lt hn,
    Nat.shiftRight_eq_div_pow]

/-- The two shifts into which a shift by `64 - n` is split. -/
theorem toNat_shr_split {n : Nat} (x : UInt64) (hn : n < 64) :
    ((x >>> 1) >>> UInt64.ofNat (63 - n)).toNat = x.toNat / 2 ^ (64 - n) := by
  have h1 : x >>> 1 = x >>> UInt64.ofNat 1 := rfl
  rw [toNat_shr _ (by omega), h1, toNat_shr _ (by omega), Nat.div_div_eq_div_mul, ← pow_add]
  congr 2
  omega

theorem toNat_shl_split {n : Nat} (x : UInt64) (hn : n < 64) :
    ((x <<< 1) <<< UInt64.ofNat (63 - n)).toNat = x.toNat * 2 ^ (64 - n) % 2 ^ 64 := by
  have h1 : x <<< 1 = x <<< UInt64.ofNat 1 := rfl
  rw [toNat_shl _ (by omega), h1, toNat_shl _ (by omega), Nat.mod_mul_mod, Nat.mul_assoc, ← pow_add]
  congr 3
  omega

/-- The amount is within a word, within the two words, or beyond; in the last case the product has no bit left. -/
theorem value_shl (x : Uint128) (s : Nat) : value (shl x s) = value x * 2 ^ s % 2 ^ 128 := by
  unfold shl
  split
  case isTrue hs =>
    rw [value_def, value_uint64, value_uint64, UInt64.toNat_or, toNat_shl _ hs, toNat_shl _ hs, toNat_shr_split _ hs,
      shl_or hs.le x.lo.toNat_lt]
    exact join_shl hs.le x.lo.toNat_lt
  case isFalse hs =>
    split
    case isTrue h2 =>
      rw [value_def, value_uint64, value_uint64, toNat_shl _ (by omega), UInt64.toNat_zero]
      exact join_shl_of_le (by simp; omega)
    case isFalse h2 =>
      have hpow : 2 ^ s = 2 ^ (s - 128) * 2 ^ 128 := by rw [← pow_add, Nat.sub_add_cancel (by omega)]
      rw [value_ofUInt64, hpow, ← Nat.mul_assoc, Nat.mul_mod_left, UInt64.toNat_zero]

/-- In the last case the number is less than the divisor. -/
theorem value_shr (x : Uint128) (s : Nat) : value (shr x s) = value x / 2 ^ s := by
  unfold shr
  split
  case isTrue hs =>
    rw [value_def, value_uint64, value_uint64, UInt64.toNat_or, toNat_shr _ hs, toNat_shr _ hs, toNat_shl_split _ hs,
      shr_or hs.le x.lo.toNat_lt]
    exact join_shr hs.le
  case isFalse hs =>
    split
    case isTrue h2 =>
      rw [value_def, value_uint64, value_uint64, toNat_shr _ (by omega), UInt64.toNat_zero]
      exact join_shr_of_le (by simp; omega) x.lo.toNat_lt
    case isFalse h2 =>
      have hlt : value x < 2 ^ s := (value_lt x).trans_le (Nat.pow_le_pow_right (by omega) (by simp; omega))
      rw [value_ofUInt64, Nat.div_eq_of_lt hlt, UInt64.toNat_zero]

/-- The bottom of the induction over the width. -/
instance : LawfulHalf Uint128 where
  value_zero := value_zero
  value_lt := value_lt
  value_inj := value_inj
  value_ofUInt64 := value_ofUInt64
  toNat_toUInt64 x := by
    rw [value_def, value_uint64, value_uint64, num_bits_uint64, join_mod x.lo.toNat_lt]
    rfl
  num_bits_ge := by simp
  value_add := value_add
  value_sub := value_sub
  value_neg x := by
    have h : -x = sub (ofUInt64 0) x := rfl
    rw [h, value_sub, value_ofUInt64, UInt64.toNat_zero, Nat.add_zero, num_bits_uint128]
  eq_iff x y := by
    rw [value_def, value_def, join_inj_iff (value_lt _) (value_lt _)]
    simp [Half.eq, eq, UInt64.toNat_inj, and_comm]
  lt_iff := lt_iff
  gt_iff x y := by
    have h := le_iff x y
    simp only [Half.gt, gt, Bool.not_eq_true', ← Bool.not_eq_true, h]
    omega
  value_or x y := by
    rw [value_def x, value_def y, join_or (value_lt x.lo) (value_lt y.lo)]
    rfl
  value_and x y := by
    rw [value_def x, value_def y, join_and (value_lt x.lo) (value_lt y.lo)]
    rfl
  value_xor x y := by
    rw [value_def x, value_def y, join_xor (value_lt x.lo) (value_lt y.lo)]
    rfl
  value_not x := by
    have h : value (~~~x) = join 64 (~~~x.hi).toNat (~~~x.lo).toNat := rfl
    rw [h, UInt64.toNat_not, UInt64.toNat_not, num_bits_def, value_def x, join_not (value_lt x.hi) (value_lt x.lo)]
    rfl
  value_shl := value_shl
  value_shr := value_shr
  value_add_with_carry x y := by
    have h1 := value_uint128_lt x
    have h2 := value_uint128_lt y
    have h3 := value_add x y
    have h4 : (Half.add_with_carry x y) = (add x y, lt (add x y) x) := rfl
    rw [h4, num_bits_uint128]
    by_cases hlt : value (add x y) < value x
    · rw [(lt_iff _ _).2 hlt]
      simp only [Bool.toNat_true]
      omega
    · rw [Bool.eq_false_iff.2 (mt (lt_iff _ _).1 hlt)]
      simp only [Bool.toNat_false]
      omega

end Uint128

/-! ## `uint<N>` from its half type -/

namespace Uint

variable [Digit H] [Half H]

def ofUInt64 (x : UInt64) : Uint H := ⟨Half.ofUInt64 0, Half.ofUInt64 x⟩

def eq (a b : Uint H) : Bool := Half.eq a.lo b.lo && Half.eq a.hi b.hi
def lt (a b : Uint H) : Bool := Half.lt a.hi b.hi || (Half.eq a.hi b.hi && Half.lt a.lo b.lo)
def gt (a b : Uint H) : Bool := Half.gt a.hi b.hi || (Half.eq a.hi b.hi && Half.gt a.lo b.lo)

def shl (x : Uint H) (shift : Nat) : Uint H :=
  let half_bits := num_bits H
  if shift < half_bits then
    let lo := Half.shl x.lo shift
    let rshift := half_bits - shift
    let lo_overflow := Half.shr (Half.shr x.lo (rshift - 1)) 1
    let hi := Half.shl x.hi shift ||| lo_overflow
    ⟨hi, lo⟩
  else if shift < num_bits (Uint H) then ⟨Half.shl x.lo (shift - half_bits), Half.ofUInt64 0⟩
  else ofUInt64 0

def shr (x : Uint H) (shift : Nat) : Uint H :=
  let half_bits := num_bits H
  if shift < half_bits then
    let hi := Half.shr x.hi shift
    let lshift := half_bits - shift
    let hi_overflow := Half.shl (Half.shl x.hi (lshift - 1)) 1
    let lo_part := Half.shr x.lo shift
    let lo := lo_part ||| hi_overflow
    ⟨hi, lo⟩
  else if shift < num_bits (Uint H) then ⟨Half.ofUInt64 0, Half.shr x.hi (shift - half_bits)⟩
  else ofUInt64 0

/-- The carry of the low halves is added to the sum of the high ones, and both of these additions can carry. -/
def add_with_carry (a b : Uint H) : Uint H × Bool :=
  let lo := Half.add_with_carry a.lo b.lo
  let tt := Half.add_with_carry a.hi b.hi
  let hi := Half.add_with_carry tt.1 (Half.ofUInt64 (if lo.2 then 1 else 0))
  (⟨hi.1, lo.1⟩, tt.2 || hi.2)

def add (x y : Uint H) : Uint H := (add_with_carry x y).1
/-- The two's complement; subtraction adds it. -/
def neg (x : Uint H) : Uint H := add ⟨~~~x.hi, ~~~x.lo⟩ (ofUInt64 1)
def sub (x y : Uint H) : Uint H := add x (neg y)

instance : Half (Uint H) where
  add := add
  sub := sub
  neg := neg
  or x y := ⟨x.hi ||| y.hi, x.lo ||| y.lo⟩
  and x y := ⟨x.hi &&& y.hi, x.lo &&& y.lo⟩
  xor x y := ⟨x.hi ^^^ y.hi, x.lo ^^^ y.lo⟩
  complement x := ⟨~~~x.hi, ~~~x.lo⟩
  ofUInt64 := ofUInt64
  toUInt64 x := Half.toUInt64 x.lo
  eq := eq
  lt := lt
  gt := gt
  shl := shl
  shr := shr
  add_with_carry := add_with_carry

variable [LawfulHalf H]

theorem value_ofUInt64 (n : UInt64) : value (ofUInt64 n : Uint H) = n.toNat := by
  simp [value_def, ofUInt64, join]

theorem eq_iff (x y : Uint H) : eq x y = true ↔ value x = value y := by
  rw [value_def, value_def, join_inj_iff (value_lt _) (value_lt _)]
  simp [eq, LawfulHalf.eq_iff, and_comm]

/-- The order of the halves is lexicographic, and so is that of the numbers. -/
theorem lt_iff (x y : Uint H) : lt x y = true ↔ value x < value y := by
  rw [value_def, value_def, join_lt_join_iff (value_lt _) (value_lt _)]
  simp [lt, LawfulHalf.eq_iff, LawfulHalf.lt_iff]

theorem gt_iff (x y : Uint H) : gt x y = true ↔ value x > value y := by
  rw [gt_iff_lt, value_def x, value_def y, join_lt_join_iff (value_lt _) (value_lt _), eq_comm (a := value y.hi)]
  simp [gt, LawfulHalf.eq_iff, LawfulHalf.gt_iff]

omit [Half H] [LawfulHalf H] in
/-- A shift by the number of bits that are left is split into two. -/
theorem two_pow_split {s : Nat} (hs : s < num_bits H) : 2 ^ (num_bits H - s - 1) * 2 ^ 1 = 2 ^ (num_bits H - s) := by
  rw [← pow_add, Nat.sub_add_cancel (by omega)]

/-- The cases are those of `uint<128>`, with the width of the half in place of 64. -/
theorem value_shl (x : Uint H) (s : Nat) : value (shl x s) = value x * 2 ^ s % 2 ^ num_bits (Uint H) := by
  have hlo := value_lt x.lo
  by_cases hs : s < num_bits H
  · simp only [shl, if_pos hs, value_def, Intx.value_shl, Intx.value_shr, value_or, Nat.div_div_eq_div_mul,
      two_pow_split hs, shl_or hs.le hlo]
    exact join_shl hs.le hlo
  by_cases h2 : s < num_bits (Uint H)
  · simp only [shl, if_neg hs, if_pos h2, value_def, Intx.value_shl, Intx.value_ofUInt64]
    exact join_shl_of_le (by omega)
  · have hpow : 2 ^ s = 2 ^ (s - num_bits (Uint H)) * 2 ^ num_bits (Uint H) := by
      rw [← pow_add, Nat.sub_add_cancel (by omega)]
    simp only [shl, if_neg hs, if_neg h2]
    rw [value_ofUInt64, hpow, ← Nat.mul_assoc, Nat.mul_mod_left, UInt64.toNat_zero]

theorem value_shr (x : Uint H) (s : Nat) : value (shr x s) = value x / 2 ^ s := by
  have hlo := value_lt x.lo
  by_cases hs : s < num_bits H
  · simp only [shr, if_pos hs, value_def, Intx.value_shl, Intx.value_shr, value_or, Nat.mod_mul_mod, Nat.mul_assoc,
      two_pow_split hs, shr_or hs.le hlo]
    exact join_shr hs.le
  by_cases h2 : s < num_bits (Uint H)
  · simp only [shr, if_neg hs, if_pos h2, value_def, Intx.value_shr, Intx.value_ofUInt64]
    exact join_shr_of_le (by omega) hlo
  · have hlt : value x < 2 ^ s := (value_lt x).trans_le (Nat.pow_le_pow_right (by omega) (by omega))
    simp only [shr, if_neg hs, if_neg h2]
    rw [value_ofUInt64, Nat.div_eq_of_lt hlt, UInt64.toNat_zero]

/-- Nothing is lost between the sum and its carry. -/
theorem value_add_with_carry (a b : Uint H) :
    value (add_with_carry a b).1 + (add_with_carry a b).2.toNat * 2 ^ num_bits (Uint H) = value a + value b := by
  have h0 := Intx.value_add_with_carry a.lo b.lo
  have h1 := Intx.value_add_with_carry a.hi b.hi
  have ha := value_lt a.hi
  have hb := value_lt b.hi
  unfold add_with_carry
  dsimp only
  generalize Half.add_with_carry a.lo b.lo = lo, Half.add_with_carry a.hi b.hi = tt at h0 h1 ⊢
  have h2 := Intx.value_add_with_carry tt.1 (Half.ofUInt64 (if lo.2 then 1 else 0))
  generalize Half.add_with_carry tt.1 (Half.ofUInt64 (if lo.2 then 1 else 0)) = hi at h2 ⊢
  have hk : (if lo.2 then 1 else 0 : UInt64).toNat = lo.2.toNat := by cases lo.2 <;> rfl
  rw [Intx.value_ofUInt64, hk] at h2
  -- at most one of the two additions to the high half carries over
  have hor : (tt.2 || hi.2).toNat = tt.2.toNat + hi.2.toNat := by
    have hle := Bool.toNat_le lo.2
    have hv := value_lt tt.1
    cases ht : tt.2 <;> cases hh : hi.2 <;> simp [ht, hh] at h1 h2 ⊢
    omega
  rw [hor]
  exact join_add h0 h1 h2

theorem value_add (x y : Uint H) : value (add x y) = (value x + value y) % 2 ^ num_bits (Uint H) := by
  rw [← value_add_with_carry x y, Nat.add_mul_mod_self_right, Nat.mod_eq_of_lt (value_lt _)]
  rfl

/-- Each half is complemented within its own width. -/
theorem value_not (x : Uint H) : value (~~~x) = 2 ^ num_bits (Uint H) - 1 - value x := by
  rw [num_bits_def, value_def x, join_not (value_lt x.hi) (value_lt x.lo), ← Intx.value_not, ← Intx.value_not]
  rfl

/-- The complement is one less than the negation. -/
theorem value_neg (x : Uint H) : value (neg x) = (2 ^ num_bits (Uint H) - value x) % 2 ^ num_bits (Uint H) := by
  have hlt := value_lt x
  have h1 : (1 : UInt64).toNat = 1 := rfl
  have hnot := value_not x
  rw [neg, value_add, value_ofUInt64, h1]
  have h : value (⟨~~~x.hi, ~~~x.lo⟩ : Uint H) = 2 ^ num_bits (Uint H) - 1 - value x := hnot
  rw [h]
  congr 1
  omega

/-- Subtraction adds what is missing to the next power of two. -/
theorem value_sub (x y : Uint H) :
    value (sub x y) = (2 ^ num_bits (Uint H) - value y + value x) % 2 ^ num_bits (Uint H) := by
  rw [sub, value_add, value_neg, Nat.add_mod_mod, Nat.add_comm]

/-- One step of the induction over the width. -/
instance : LawfulHalf (Uint H) where
  value_zero := value_zero
  value_lt := value_lt
  value_inj := value_inj
  value_ofUInt64 := value_ofUInt64
  toNat_toUInt64 x := by
    have hdvd : 2 ^ 64 ∣ 2 ^ num_bits H := pow_dvd_pow 2 (num_bits_ge (α := H))
    have h : (toUInt64 x : UInt64) = toUInt64 x.lo := rfl
    rw [h, Intx.toNat_toUInt64, ← Nat.mod_mod_of_dvd (value x) hdvd, value_def, join_mod (value_lt x.lo)]
  num_bits_ge := by
    have h := num_bits_ge (α := H)
    rw [num_bits_def]
    omega
  value_add := value_add
  value_sub := value_sub
  value_neg := value_neg
  eq_iff := eq_iff
  lt_iff := lt_iff
  gt_iff := gt_iff
  value_or x y := by
    rw [value_def x, value_def y, join_or (value_lt x.lo) (value_lt y.lo), ← Intx.value_or, ← Intx.value_or]
    rfl
  value_and x y := by
    rw [value_def x, value_def y, join_and (value_lt x.lo) (value_lt y.lo), ← Intx.value_and, ← Intx.value_and]
    rfl
  value_xor x y := by
    rw [value_def x, value_def y, join_xor (value_lt x.lo) (value_lt y.lo), ← Intx.value_xor, ← Intx.value_xor]
    rfl
  value_not := value_not
  value_shl := value_shl
  value_shr := value_shr
  value_add_with_carry := value_add_with_carry

end Uint

/-! ## Residues

What wraps around on the way is followed as an integer modulo the width. -/

/-- Wrapping around does not change the residue. -/
theorem add_modEq (x y : UInt64) : ((x + y).toNat : Int) ≡ x.toNat + y.toNat [ZMOD 2 ^ 64] := by
  rw [UInt64.toNat_add, Int.natCast_mod]
  exact Int.mod_modEq _ _

/-- A difference, which over the integers may be negative. -/
theorem sub_modEq (x y : UInt64) : ((x - y).toNat : Int) ≡ x.toNat - y.toNat [ZMOD 2 ^ 64] := by
  have hy := y.toNat_lt
  have h : ((2 ^ 64 - y.toNat + x.toNat : Nat) : Int) = x.toNat - y.toNat + 2 ^ 64 := by omega
  rw [UInt64.toNat_sub, Int.natCast_mod, h]
  exact (Int.mod_modEq _ _).trans Int.add_modEq_right

theorem mul_modEq (x y : UInt64) : ((x * y).toNat : Int) ≡ x.toNat * y.toNat [ZMOD 2 ^ 64] := by
  rw [UInt64.toNat_mul, Int.natCast_mod]
  exact Int.mod_modEq _ _

section

variable [Digit H] [Half H] [LawfulHalf H]

theorem value_add_modEq (x y : H) : (value (x + y) : Int) ≡ value x + value y [ZMOD 2 ^ num_bits H] := by
  rw [value_add, Int.natCast_mod]
  push_cast
  exact Int.mod_modEq _ _

/-- The same of integers of any width. -/
theorem value_sub_modEq (x y : H) : (value (x - y) : Int) ≡ value x - value y [ZMOD 2 ^ num_bits H] := by
  have hy := value_lt y
  have h : ((2 ^ num_bits H - value y + value x : Nat) : Int) = value x - value y + (2 ^ num_bits H : Nat) := by omega
  rw [value_sub, Int.natCast_mod, h]
  push_cast
  exact (Int.mod_modEq _ _).trans Int.add_modEq_right

end

/-- A number of the range is the only one with its residue. -/
theorem eq_of_modEq {a b m : Int} (h : a ≡ b [ZMOD m]) (ha : 0 ≤ a) (ham : a < m) (hb : 0 ≤ b) (hbm : b < m) : a = b := by
  rw [Int.ModEq, Int.emod_eq_of_lt ha ham, Int.emod_eq_of_lt hb hbm] at h
  exact h

/-- A word is found from its residue once the bounds of the integer are known. -/
theorem toNat_eq_of_modEq {x : UInt64} {z : Int} (h : (x.toNat : Int) ≡ z [ZMOD 2 ^ 64]) (h0 : 0 ≤ z) (h1 : z < 2 ^ 64) :
    (x.toNat : Int) = z :=
  eq_of_modEq h (by omega) (by exact_mod_cast x.toNat_lt) h0 h1

end EEVM.Intx

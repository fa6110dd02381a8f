import EEVM.Arithmetic
import EEVM.Intx.Operators
/-!
# The instructions over intx's integers (processor.cpp:33-36, 693-930)

The handlers of the arithmetic and bitwise instructions once more, this time with the operators of intx on two halves of two
words each. What they push stands for the word that the instruction pushes in the model, whose words are those of `BitVec`.

| here | there |
| --- | --- |
| `to_bool` | `operator bool` (`intx.hpp:48`, `int128.hpp:59`) |
| `Handler.add`, ... | the member functions of `_Processor` of these names |
-/
namespace EEVM.Intx

/-! ## Integers and words -/

/-- The word of the model for an integer of intx. -/
def word (x : Uint256) : Word := BitVec.ofNat 256 (value x)

/-- The integer that has the 64-bit digits of a word of the model. -/
def of_word (w : Word) : Uint256 := of_words ((List.range 4).map fun i => UInt64.ofNat (w.toNat / 2 ^ (64 * i)))

theorem value_uint256_lt (x : Uint256) : value x < 2 ^ 256 := value_lt x

@[simp] theorem toNat_word (x : Uint256) : (word x).toNat = value x := by
  rw [word, BitVec.toNat_ofNat, Nat.mod_eq_of_lt (value_uint256_lt x)]

/-- Different integers are different words. -/
theorem word_inj {x y : Uint256} : word x = word y ↔ value x = value y := by
  rw [← toNat_word x, ← toNat_word y, BitVec.toNat_inj]

theorem word_of_word (w : Word) : word (of_word w) = w := by
  apply BitVec.eq_of_toNat_eq
  have hw := w.isLt
  have hn : num_words Uint256 = 4 := rfl
  rw [toNat_word, of_word, value_of_words, List.take_of_length_le (by simp [hn])]
  simp only [List.range, List.range.loop, List.map_cons, List.map_nil, digits_cons, digits_nil, UInt64.toNat_ofNat']
  omega

/-- The integers and the words are the same up to names. -/
theorem word_bijective : Function.Bijective word :=
  ⟨fun _ _ h => value_inj (word_inj.1 h), fun w => ⟨of_word w, word_of_word w⟩⟩

section

variable (x y : Uint256)

theorem word_add : word (x + y) = word x + word y := by
  apply BitVec.eq_of_toNat_eq
  rw [toNat_word, BitVec.toNat_add, toNat_word, toNat_word]
  exact value_add x y

theorem word_sub : word (x - y) = word x - word y := by
  apply BitVec.eq_of_toNat_eq
  rw [toNat_word, BitVec.toNat_sub, toNat_word, toNat_word]
  exact value_sub x y

theorem word_mul : word (x * y) = word x * word y := by
  apply BitVec.eq_of_toNat_eq
  rw [toNat_word, BitVec.toNat_mul, toNat_word, toNat_word, value_mul_uint256]

theorem word_and : word (x &&& y) = word x &&& word y := by
  apply BitVec.eq_of_toNat_eq
  rw [toNat_word, BitVec.toNat_and, toNat_word, toNat_word, value_and]

theorem word_or : word (x ||| y) = word x ||| word y := by
  apply BitVec.eq_of_toNat_eq
  rw [toNat_word, BitVec.toNat_or, toNat_word, toNat_word, value_or]

theorem word_xor : word (x ^^^ y) = word x ^^^ word y := by
  apply BitVec.eq_of_toNat_eq
  rw [toNat_word, BitVec.toNat_xor, toNat_word, toNat_word, value_xor]

theorem word_not : word (~~~x) = ~~~word x := by
  apply BitVec.eq_of_toNat_eq
  rw [toNat_word, BitVec.toNat_not, toNat_word]
  exact value_not x

theorem word_shl (s : Nat) : word (Half.shl x s) = word x <<< s := by
  apply BitVec.eq_of_toNat_eq
  rw [toNat_word, BitVec.toNat_shiftLeft, toNat_word, Nat.shiftLeft_eq]
  exact value_shl x s

theorem word_shr (s : Nat) : word (Half.shr x s) = word x >>> s := by
  apply BitVec.eq_of_toNat_eq
  rw [toNat_word, BitVec.toNat_ushiftRight, toNat_word, Nat.shiftRight_eq_div_pow, value_shr]

variable {y}

/-- Where the divisor is not zero, the division of intx is that of the words (`udivrem_spec`). -/
theorem word_quot (hy : word y ≠ 0) : word (udivrem x y).quot = word x / word y := by
  apply BitVec.eq_of_toNat_eq
  rw [toNat_word, BitVec.toNat_udiv, toNat_word, toNat_word]
  exact (udivrem_spec x fun h => hy (BitVec.eq_of_toNat_eq (by rw [toNat_word, h]; rfl))).1

theorem word_rem (hy : word y ≠ 0) : word (udivrem x y).rem = word x % word y := by
  apply BitVec.eq_of_toNat_eq
  rw [toNat_word, BitVec.toNat_umod, toNat_word, toNat_word]
  exact (udivrem_spec x fun h => hy (BitVec.eq_of_toNat_eq (by rw [toNat_word, h]; rfl))).2

end

/-- A 64-bit integer is converted without its sign. -/
theorem word_ofUInt64 (n : UInt64) : word (Half.ofUInt64 n) = BitVec.ofNat 256 n.toNat := by
  rw [word, value_ofUInt64]

theorem word_zero : word (Half.ofUInt64 0) = 0 := word_ofUInt64 0
theorem word_one : word (Half.ofUInt64 1) = 1 := word_ofUInt64 1

/-- The comparisons are those of the words, which are unsigned. -/
theorem half_eq_iff (x y : Uint256) : Half.eq x y = true ↔ word x = word y := by
  rw [LawfulHalf.eq_iff, word_inj]

theorem half_lt_iff (x y : Uint256) : Half.lt x y = true ↔ word x < word y := by
  rw [LawfulHalf.lt_iff, BitVec.lt_def, toNat_word, toNat_word]

theorem half_gt_iff (x y : Uint256) : Half.gt x y = true ↔ word x > word y := by
  rw [LawfulHalf.gt_iff, gt_iff_lt, gt_iff_lt, BitVec.lt_def, toNat_word, toNat_word]

/-- Some word is not zero. -/
def to_bool (x : Uint256) : Bool := (x.lo.hi ||| x.lo.lo) != 0 || (x.hi.hi ||| x.hi.lo) != 0

theorem or_ne_zero_iff (a b : UInt64) : ((a ||| b) != 0) = true ↔ a.toNat ≠ 0 ∨ b.toNat ≠ 0 := by
  rw [bne_iff_ne, ← toNat_ne_zero, UInt64.toNat_or, ne_eq, Nat.or_eq_zero_iff]
  omega

theorem to_bool_iff (x : Uint256) : to_bool x = true ↔ word x ≠ 0 := by
  have h : word x ≠ 0 ↔ value x ≠ 0 := by
    rw [ne_eq, ne_eq, ← BitVec.toNat_inj, toNat_word]
    rfl
  have hv : value x = (x.hi.hi.toNat * 2 ^ 64 + x.hi.lo.toNat) * 2 ^ 128 + (x.lo.hi.toNat * 2 ^ 64 + x.lo.lo.toNat) := rfl
  rw [h, hv, to_bool, Bool.or_eq_true, or_ne_zero_iff, or_ne_zero_iff]
  omega

/-! ## The handlers -/

namespace Handler

/-- An integer literal. -/
def lit (n : UInt64) : Uint256 := Half.ofUInt64 n

/-- The highest bit (`processor.cpp:33`). -/
def get_sign (v : Uint256) : Int := if to_bool (Half.shr v 255) then -1 else 1

def add (x y : Uint256) : Uint256 := x + y
def sub (x y : Uint256) : Uint256 := x - y
def mul (x y : Uint256) : Uint256 := x * y
/-- A zero divisor gives 0, before intx is asked to divide. -/
def div (x y : Uint256) : Uint256 := if !to_bool y then lit 0 else (udivrem x y).quot

def sdiv (x y : Uint256) : Uint256 :=
  let min := (udivrem (~~~lit 0) (lit 2)).quot + lit 1
  if Half.eq y (lit 0) then lit 0
  -- the literal `-1` goes through `uint64_t`
  else if Half.eq x min && Half.eq y (lit (-1)) then x
  else
    let signX := get_sign x
    let signY := get_sign y
    let x := if signX = -1 then lit 0 - x else x
    let y := if signY = -1 then lit 0 - y else y
    let z := (udivrem x y).quot
    if signX ≠ signY then lit 0 - z else z

def mod (x m : Uint256) : Uint256 := if !to_bool m then lit 0 else (udivrem x m).rem

def smod (x m : Uint256) : Uint256 :=
  if Half.eq m (lit 0) then lit 0
  else
    let signX := get_sign x
    let signM := get_sign m
    let x := if signX = -1 then lit 0 - x else x
    let m := if signM = -1 then lit 0 - m else m
    let z := (udivrem x m).rem
    if signX = -1 then lit 0 - z else z

/-- The sum is one of 512 bits. -/
def addmod (x y m : Uint256) : Uint256 :=
  if !to_bool m then lit 0 else (udivrem (widen x + widen y : Uint512) (widen m)).rem.lo

/-- Here a zero modulus is pushed itself, and it is 0. -/
def mulmod (x y m : Uint256) : Uint256 :=
  if !to_bool m then m else (udivrem (widen x * widen y : Uint512) (widen m)).rem.lo

def exp (b : Uint256) (e : UInt64) : Uint256 := Intx.exp b (lit e)

/-- `shrink<uint8_t>` (`processor.cpp:391`). -/
def shrink (i : Uint256) : UInt8 := (Half.toUInt64 (i &&& lit 255)).toUInt8

/-- The bits above the sign bit are replaced by it. -/
def signextend (x y : Uint256) : Uint256 :=
  if !Half.lt x (lit 32) then y
  else
    let idx := 8 * (shrink x).toNat + 7
    let sign := Half.toUInt64 (Half.shr y idx &&& lit 1)
    let mask := Half.shr (~~~lit 0) (256 - idx)
    Half.shl (if sign.toUInt8 ≠ 0 then ~~~lit 0 else lit 0) idx ||| (y &&& mask)

def of_bool (b : Bool) : Uint256 := if b then lit 1 else lit 0

def lt (x y : Uint256) : Uint256 := of_bool (Half.lt x y)
def gt (x y : Uint256) : Uint256 := of_bool (Half.gt x y)

/-- Where the signs are equal, the unsigned order is that of the signed numbers. -/
def slt (x y : Uint256) : Uint256 :=
  if Half.eq x y then lit 0
  else
    let signX := get_sign x
    let signY := get_sign y
    if signX ≠ signY then (if signX = -1 then lit 1 else lit 0) else of_bool (Half.lt x y)

/-- `swap(1)`, then `slt`. -/
def sgt (x y : Uint256) : Uint256 := slt y x

def eq (x y : Uint256) : Uint256 := of_bool (Half.eq x y)
def isZero (x : Uint256) : Uint256 := of_bool (Half.eq x (lit 0))
def and_ (x y : Uint256) : Uint256 := x &&& y
def or_ (x y : Uint256) : Uint256 := x ||| y
def xor_ (x y : Uint256) : Uint256 := x ^^^ y
def not_ (x : Uint256) : Uint256 := ~~~x

/-- `BYTE` pops no value and pushes 0 when the index is out of range. -/
def out_of_range (idx : Uint256) : Bool := !Half.lt idx (lit 32)

/-- What it pushes when it is in range. -/
def byte (idx val : Uint256) : Uint256 :=
  let shift := 256 - 8 - 8 * (shrink idx).toNat
  let mask := Half.shl (lit 255) shift
  Half.shr (val &&& mask) shift

/-! ## What they stand for -/

@[simp] theorem word_lit (n : UInt64) : word (lit n) = BitVec.ofNat 256 n.toNat := word_ofUInt64 n
theorem lit_zero : word (lit 0) = 0 := word_zero

theorem eq_lit_zero_iff (x : Uint256) : Half.eq x (lit 0) = true ↔ word x = 0 := by
  rw [half_eq_iff, lit_zero]

theorem not_to_bool_iff (x : Uint256) : (!to_bool x) = true ↔ word x = 0 := by
  have h := to_bool_iff x
  cases hb : to_bool x <;> simp_all

/-- The sign is the same as that of the word. -/
theorem get_sign_word (v : Uint256) : get_sign v = Op.get_sign (word v) := by
  unfold get_sign Op.get_sign
  simp only [to_bool_iff, word_shr]

/-- A truth value is pushed as 1 or 0. -/
theorem word_of_bool (b : Bool) : word (of_bool b) = Op.of_bool b := by
  cases b
  · exact word_zero
  · exact word_one

theorem word_ite {p : Prop} [Decidable p] (x y : Uint256) : word (if p then x else y) = if p then word x else word y := by
  split <;> rfl

/-- Both sides look at the divisor first. -/
theorem word_div (x y : Uint256) : word (div x y) = if word y = 0 then 0 else word x / word y := by
  by_cases h : word y = 0
  · rw [div, if_pos ((not_to_bool_iff y).2 h), if_pos h, lit_zero]
  · rw [div, if_neg (mt (not_to_bool_iff y).1 h), if_neg h, word_quot x h]

theorem word_mod (x m : Uint256) : word (mod x m) = if word m = 0 then 0 else word x % word m := by
  by_cases h : word m = 0
  · rw [mod, if_pos ((not_to_bool_iff m).2 h), if_pos h, lit_zero]
  · rw [mod, if_neg (mt (not_to_bool_iff m).1 h), if_neg h, word_rem x h]

/-- The operand with its sign taken off. -/
theorem word_abs (x : Uint256) : word (if get_sign x = -1 then lit 0 - x else x) =
    if Op.get_sign (word x) = -1 then 0 - word x else word x := by
  rw [word_ite, word_sub, lit_zero, get_sign_word]

/-- A divisor without its sign is not zero either. -/
theorem abs_ne_zero {y : Word} (h : y ≠ 0) : (if Op.get_sign y = -1 then 0 - y else y) ≠ 0 := by
  split
  · simpa using h
  · exact h

/-- The remainder has the sign of the dividend. -/
theorem word_smod (x m : Uint256) : word (smod x m) =
    if word m = 0 then 0
    else
      let z := (if Op.get_sign (word x) = -1 then 0 - word x else word x) %
        (if Op.get_sign (word m) = -1 then 0 - word m else word m)
      if Op.get_sign (word x) = -1 then 0 - z else z := by
  have h0 := eq_lit_zero_iff m
  unfold smod
  by_cases h : word m = 0
  · rw [if_pos (h0.2 h), if_pos h, lit_zero]
  · have hm : word (if get_sign m = -1 then lit 0 - m else m) ≠ 0 := by
      rw [word_abs]
      exact abs_ne_zero h
    rw [if_neg (mt h0.1 h), if_neg h]
    dsimp only
    rw [word_ite, word_sub, lit_zero, word_rem _ hm, word_abs, word_abs, get_sign_word]

/-- The guard compares the divisor with a literal that has gone through 64 bits, on both sides. -/
theorem word_sdiv (x y : Uint256) : word (sdiv x y) =
    let min := BitVec.allOnes 256 / 2 + 1
    if word y = 0 then 0
    else if word x = min ∧ word y = word_of_int (-1) then word x
    else
      let z := (if Op.get_sign (word x) = -1 then 0 - word x else word x) /
        (if Op.get_sign (word y) = -1 then 0 - word y else word y)
      if Op.get_sign (word x) ≠ Op.get_sign (word y) then 0 - z else z := by
  have h0 := eq_lit_zero_iff y
  have hmin : word ((udivrem (~~~lit 0) (lit 2)).quot + lit 1) = BitVec.allOnes 256 / 2 + 1 := by
    rw [word_add, word_quot _ (by rw [word_lit]; decide), word_not, word_lit, word_lit, word_lit]
    decide
  have hone : word (lit (-1)) = word_of_int (-1) := by
    rw [word_lit]
    decide
  have h1 : (Half.eq x ((udivrem (~~~lit 0) (lit 2)).quot + lit 1) && Half.eq y (lit (-1))) = true ↔
      word x = BitVec.allOnes 256 / 2 + 1 ∧ word y = word_of_int (-1) := by
    rw [Bool.and_eq_true, half_eq_iff, half_eq_iff, hmin, hone]
  unfold sdiv
  dsimp only
  by_cases h : word y = 0
  · rw [if_pos (h0.2 h), if_pos h, lit_zero]
  rw [if_neg (mt h0.1 h), if_neg h]
  by_cases hov : word x = BitVec.allOnes 256 / 2 + 1 ∧ word y = word_of_int (-1)
  · rw [if_pos (h1.2 hov), if_pos hov]
  · have hy : word (if get_sign y = -1 then lit 0 - y else y) ≠ 0 := by
      rw [word_abs]
      exact abs_ne_zero h
    rw [if_neg (mt h1.1 hov), if_neg hov, word_ite, word_sub, lit_zero, word_quot _ hy, word_abs, word_abs, get_sign_word,
      get_sign_word]

/-- A remainder by a word is its own low half. -/
theorem value_lo_rem {n : Uint512} {m : Uint256} (hm : value m ≠ 0) :
    value (udivrem n (widen m)).rem.lo = value n % value m := by
  have hrem := (udivrem_spec n (v := widen m) (by rw [value_widen]; exact hm)).2
  rw [value_widen] at hrem
  rw [lo_def, hrem]
  exact Nat.mod_eq_of_lt ((Nat.mod_lt _ (Nat.pos_of_ne_zero hm)).trans (value_lt m))

/-- No sum and no product of two words needs more than 512 bits. -/
theorem two_pow_uint512 : 2 ^ num_bits Uint512 = 2 ^ 256 * 2 ^ 256 := by
  have h : num_bits Uint512 = 256 + 256 := rfl
  rw [h, pow_add]

theorem word_ne_zero_iff (x : Uint256) : word x ≠ 0 ↔ value x ≠ 0 := by
  rw [ne_eq, ne_eq, ← BitVec.toNat_inj, toNat_word]
  rfl

/-- The sum does not wrap around, so it is that of the numbers. -/
theorem word_addmod (x y m : Uint256) : word (addmod x y m) =
    if word m = 0 then 0 else BitVec.ofNat 256 (((word x).toNat + (word y).toNat) % (word m).toNat) := by
  by_cases h : word m = 0
  · rw [addmod, if_pos ((not_to_bool_iff m).2 h), if_pos h, lit_zero]
  · have hx := value_uint256_lt x
    have hy := value_uint256_lt y
    have hsum : value (widen x + widen y : Uint512) = value x + value y := by
      rw [value_add, value_widen, value_widen, two_pow_uint512, Nat.mod_eq_of_lt]
      omega
    rw [addmod, if_neg (mt (not_to_bool_iff m).1 h), if_neg h, word, value_lo_rem ((word_ne_zero_iff m).1 h), hsum,
      toNat_word, toNat_word, toNat_word]

/-- As for the sum, the product is that of the numbers. -/
theorem word_mulmod (x y m : Uint256) : word (mulmod x y m) =
    if word m = 0 then word m else BitVec.ofNat 256 (((word x).toNat * (word y).toNat) % (word m).toNat) := by
  by_cases h : word m = 0
  · rw [mulmod, if_pos ((not_to_bool_iff m).2 h), if_pos h]
  · have hprod : value (widen x * widen y : Uint512) = value x * value y := by
      rw [value_mul_uint512, value_widen, value_widen, two_pow_uint512, Nat.mod_eq_of_lt]
      exact Nat.mul_lt_mul'' (value_uint256_lt x) (value_uint256_lt y)
    rw [mulmod, if_neg (mt (not_to_bool_iff m).1 h), if_neg h, word, value_lo_rem ((word_ne_zero_iff m).1 h), hprod,
      toNat_word, toNat_word, toNat_word]

/-- The order of the words serves where the signs agree. -/
theorem word_slt (x y : Uint256) : word (slt x y) =
    if word x = word y then 0
    else if Op.get_sign (word x) ≠ Op.get_sign (word y) then (if Op.get_sign (word x) = -1 then 1 else 0)
    else Op.of_bool (word x < word y) := by
  unfold slt
  dsimp only
  have hlt : Half.lt x y = decide (word x < word y) := by
    rw [Bool.eq_iff_iff, half_lt_iff, decide_eq_true_iff]
  by_cases h : word x = word y
  · rw [if_pos ((half_eq_iff x y).2 h), if_pos h, lit_zero]
  · rw [if_neg (mt (half_eq_iff x y).1 h), if_neg h, word_ite, word_ite, word_of_bool, hlt, lit_zero, get_sign_word,
      get_sign_word]
    rfl

theorem word_lt (x y : Uint256) : word (lt x y) = Op.of_bool (word x < word y) := by
  have h : Half.lt x y = decide (word x < word y) := by rw [Bool.eq_iff_iff, half_lt_iff, decide_eq_true_iff]
  rw [lt, word_of_bool, h]

theorem word_gt (x y : Uint256) : word (gt x y) = Op.of_bool (word x > word y) := by
  have h : Half.gt x y = decide (word x > word y) := by rw [Bool.eq_iff_iff, half_gt_iff, decide_eq_true_iff]
  rw [gt, word_of_bool, h]

theorem word_eq (x y : Uint256) : word (eq x y) = if word x = word y then 1 else 0 := by
  rw [eq, word_of_bool, Op.of_bool]
  simp only [half_eq_iff]

theorem word_isZero (x : Uint256) : word (isZero x) = if word x = 0 then 1 else 0 := by
  rw [isZero, word_of_bool, Op.of_bool]
  simp only [eq_lit_zero_iff]

/-- The rounds go in step: squaring, and multiplying where a bit is set. The induction is on the rounds that are left. -/
theorem word_exp_loop {bits : Nat} (result base exponent : Uint256) :
    word (exp_loop bits result base exponent) = Op.intx_exp bits (word result) (word base) (word exponent) := by
  induction bits generalizing result base exponent with
  | zero => rfl
  | succ bits ih =>
    have h0 := half_eq_iff exponent (Half.ofUInt64 0)
    have h1 := half_eq_iff (exponent &&& Half.ofUInt64 1) (Half.ofUInt64 0)
    rw [word_zero] at h0 h1
    rw [word_and, word_one] at h1
    rw [exp_loop, Op.intx_exp]
    by_cases h : word exponent = 0
    · rw [if_pos (h0.2 h), if_pos h]
    · rw [if_neg (mt h0.1 h), if_neg h, ih, word_mul, word_shr]
      by_cases hb : word exponent &&& 1 = 0
      · rw [if_pos (h1.2 hb), if_neg (not_not.2 hb)]
      · rw [if_neg (mt h1.1 hb), if_pos hb, word_mul]

theorem word_exp (b : Uint256) (e : UInt64) : word (exp b e) = Op.intx_exp 256 1 (word b) (Word.ofUInt64 e) := by
  have hbits : num_bits Uint256 = 256 := rfl
  rw [exp, Intx.exp, word_exp_loop, hbits, word_lit, word_one]
  rfl

/-- What is left of an index is its lowest byte. -/
theorem toNat_shrink (i : Uint256) : (shrink i).toNat = value i % 2 ^ 8 := by
  have h255 : (255 : UInt64).toNat = 2 ^ 8 - 1 := rfl
  rw [shrink, UInt64.toNat_toUInt8, toNat_toUInt64, value_and, lit, value_ofUInt64, h255, Nat.and_two_pow_sub_one_eq_mod]
  omega

/-- The bit that is kept of a word. -/
theorem low_bit_ne_zero (w : Uint256) : (Half.toUInt64 (w &&& lit 1)).toUInt8 ≠ 0 ↔ word w &&& 1 ≠ 0 := by
  have h1 : (1 : UInt64).toNat = 2 ^ 1 - 1 := rfl
  have hand : value (w &&& lit 1) = value w % 2 := by
    rw [value_and, lit, value_ofUInt64, h1, Nat.and_two_pow_sub_one_eq_mod, pow_one]
  have hword : word w &&& 1 ≠ 0 ↔ value (w &&& lit 1) ≠ 0 := by
    have hl : word (lit 1) = 1 := word_one
    rw [← word_ne_zero_iff, word_and, hl]
  have hbyte : (Half.toUInt64 (w &&& lit 1)).toUInt8.toNat = value w % 2 := by
    rw [UInt64.toNat_toUInt8, toNat_toUInt64, hand]
    omega
  rw [hword, hand, ← hbyte, ne_eq, ne_eq, ← UInt8.toNat_inj]
  rfl

/-- An index is out of range from 32 on, whatever is above its lowest byte. -/
theorem out_of_range_iff (x : Uint256) : out_of_range x = true ↔ (word x).toNat ≥ 32 := by
  have hlt := LawfulHalf.lt_iff x (lit 32)
  have hl : (32 : UInt64).toNat = 32 := rfl
  rw [lit, value_ofUInt64, hl] at hlt
  rw [out_of_range, toNat_word, Bool.not_eq_true', ← Bool.not_eq_true, lit, hlt]
  exact Nat.not_lt

/-- The mask keeps the bits below the sign bit. -/
theorem word_signextend (x y : Uint256) : word (signextend x y) =
    if (word x).toNat ≥ 32 then word y
    else
      let idx := 8 * ((word x).toNat % 2 ^ 8) + 7
      let sign := (word y >>> idx) &&& 1
      let mask := (~~~(0 : Word)) >>> (256 - idx)
      ((if sign ≠ 0 then ~~~(0 : Word) else 0) <<< idx) ||| (word y &&& mask) := by
  have h32 : (!Half.lt x (lit 32)) = true ↔ (word x).toNat ≥ 32 := out_of_range_iff x
  unfold signextend
  by_cases h : (word x).toNat ≥ 32
  · rw [if_pos (h32.2 h), if_pos h]
  · rw [if_neg (mt h32.1 h), if_neg h]
    dsimp only
    rw [word_or, word_shl, word_ite, word_and, word_shr, word_not, lit_zero, toNat_shrink, toNat_word]
    simp only [low_bit_ne_zero, word_shr]

/-- Byte 0 is the highest. -/
theorem word_byte (x y : Uint256) : word (byte x y) =
    let shift := 256 - 8 - 8 * ((word x).toNat % 2 ^ 8)
    (word y &&& ((255 : Word) <<< shift)) >>> shift := by
  have h255 : word (lit 255) = 255 := word_lit 255
  rw [byte, word_shr, word_and, word_shl, toNat_shrink, toNat_word, h255]

end Handler

end EEVM.Intx

/-! ## The instructions -/

namespace EEVM

open ExcState Intx

/-- In every state with these operands on top of the stack, the instruction takes them and pushes `w`. -/
def Processor.Pushes (op : Opcode) (operands : List Word) (w : Word) : Prop :=
  ∀ (W R : Type) [GlobalState W R] [Keccak] (p : Processor W R) (c : Context R) (cs : List (Context R)) (st : Stack),
    p.ctxts = c :: cs → c.next_op = some op → c.s = operands ++ st →
    dispatch p = onCtxt (s_push w) { traced p c with ctxts := { c with s := st } :: cs }

/-- In every state with these operands on top of the stack, the instruction refuses them. -/
def Processor.Refuses (op : Opcode) (operands : List Word) : Prop :=
  ∀ (W R : Type) [GlobalState W R] [Keccak] (p : Processor W R) (c : Context R) (cs : List (Context R)) (st : Stack),
    p.ctxts = c :: cs → c.next_op = some op → c.s = operands ++ st →
    ∃ ex p', dispatch p = .error (.exception ex) p'

theorem Op.unary_cons {R : Type} {c : Context R} {x : Word} {st : Stack} (f : Word → Word) (h : c.s = x :: st) :
    Op.unary f c = s_push (f x) { c with s := st } := by
  rw [Op.unary, bind_of_ok (s_pop_of_cons h)]

theorem Op.ternary_cons {R : Type} {c : Context R} {x y m : Word} {st : Stack} (f : Word → Word → Word → Word)
    (h : c.s = x :: y :: m :: st) : Op.ternary f c = s_push (f x y m) { c with s := st } := by
  have h1 : ({ c with s := y :: m :: st } : Context R).s = y :: m :: st := rfl
  have h2 : ({ c with s := m :: st } : Context R).s = m :: st := rfl
  rw [Op.ternary, bind_of_ok (s_pop_of_cons h), bind_of_ok (s_pop_of_cons h1), bind_of_ok (s_pop_of_cons h2)]

/-- The exponent is popped as 64 bits. -/
theorem Op.exp_cons {R : Type} {c : Context R} {b : Word} {e : UInt64} {st : Stack} (h : c.s = b :: Word.ofUInt64 e :: st) :
    Op.exp c = s_push (Op.intx_exp 256 1 b (Word.ofUInt64 e)) { c with s := st } := by
  have he : (Word.ofUInt64 e).toNat = e.toNat := by
    rw [Word.ofUInt64, BitVec.toNat_ofNat, Nat.mod_eq_of_lt (e.toNat_lt.trans (by decide))]
  have hback : (Word.ofUInt64 e).toUInt64 = e := by rw [Word.toUInt64, he, UInt64.ofNat_toNat]
  have h1 : ({ c with s := Word.ofUInt64 e :: st } : Context R).s = Word.ofUInt64 e :: st := rfl
  rw [Op.exp, bind_of_ok (s_pop_of_cons h), bind_of_ok (s_pop64_of_lt h1 (he ▸ e.toNat_lt)), hback]

namespace Op

/-- An exponent of more than 64 bits is not popped. -/
theorem exp_of_le {R : Type} {c : Context R} {b e : Word} {st : Stack} (h : c.s = b :: e :: st) (he : 2 ^ 64 ≤ e.toNat) :
    ∃ ex c', Op.exp c = .error (.exception ex) c' := by
  obtain ⟨ex, c', hpop⟩ := s_pop64_of_le (c := { c with s := e :: st }) rfl he
  exact ⟨ex, c', by rw [Op.exp, bind_of_ok (s_pop_of_cons h), bind_of_error hpop]⟩

/-- After `swap(1)` the operands stand for `slt`. -/
theorem sgt_over {R : Type} {c : Context R} {x y : Uint256} {st : Stack} (h : c.s = word x :: word y :: st) :
    Op.sgt c = s_push (word (Handler.sgt x y)) { c with s := st } := by
  have h1 : ({ c with s := word y :: word x :: st } : Context R).s = word y :: word x :: st := rfl
  rw [Op.sgt_eq_slt h, Op.slt, Op.binary_cons _ h1, Handler.sgt, Handler.word_slt]

/-- Out of range the handler returns before it pops the value. -/
theorem byte_of_le {R : Type} {c : Context R} {idx : Word} {st : Stack} (h : c.s = idx :: st) (hidx : idx.toNat ≥ 32) :
    Op.byte c = s_push 0 { c with s := st } := by
  rw [Op.byte, bind_of_ok (s_pop_of_cons h), if_pos hidx]

theorem byte_of_lt {R : Type} {c : Context R} {idx val : Word} {st : Stack} (h : c.s = idx :: val :: st)
    (hidx : ¬idx.toNat ≥ 32) :
    Op.byte c = s_push (let shift := 256 - 8 - 8 * (idx.toNat % 2 ^ 8)
      (val &&& ((255 : Word) <<< shift)) >>> shift) { c with s := st } := by
  have h1 : ({ c with s := val :: st } : Context R).s = val :: st := rfl
  rw [Op.byte, bind_of_ok (s_pop_of_cons h)]
  simp only [if_neg hidx]
  rw [bind_of_ok (s_pop_of_cons h1)]

end Op

namespace Processor

section

variable {op : Opcode}

/-- An instruction that works on its context alone does on the processor what it does there. -/
theorem pushes_of {m : ∀ R : Type, CtxM R Unit} {operands : List Word} {w : Word}
    (hexec : ∀ (W R : Type) [GlobalState W R] [Keccak], (exec op : M W R Unit) = onCtxt (m R))
    (hm : ∀ (R : Type) (c : Context R) (st : Stack), c.s = operands ++ st → m R c = s_push w { c with s := st }) :
    Pushes op operands w := by
  intro W R _ _ p c cs st hp hop hs
  have hp' : (traced p c).ctxts = c :: cs := hp
  have hp'' : ({ traced p c with ctxts := { c with s := st } :: cs } : Processor W R).ctxts = { c with s := st } :: cs := rfl
  rw [dispatch_eq hp, hop]
  simp only [hexec]
  rw [onCtxt_cons hp', onCtxt_cons hp'', hm R c st hs]

theorem refuses_of {m : ∀ R : Type, CtxM R Unit} {operands : List Word}
    (hexec : ∀ (W R : Type) [GlobalState W R] [Keccak], (exec op : M W R Unit) = onCtxt (m R))
    (hm : ∀ (R : Type) (c : Context R) (st : Stack), c.s = operands ++ st →
      ∃ ex c', m R c = .error (.exception ex) c') : Refuses op operands := by
  intro W R _ _ p c cs st hp hop hs
  have hp' : (traced p c).ctxts = c :: cs := hp
  obtain ⟨ex, c', herr⟩ := hm R c st hs
  rw [dispatch_eq hp, hop]
  simp only [hexec]
  rw [onCtxt_cons hp', herr]
  exact ⟨ex, _, rfl⟩

theorem pushes_unary {f : Word → Word} (hexec : ∀ (W R : Type) [GlobalState W R] [Keccak], (exec op : M W R Unit) = onCtxt (Op.unary f))
    {x w : Word} (h : w = f x) : Pushes op [x] w :=
  pushes_of hexec fun _ _ _ hs => h ▸ Op.unary_cons f hs

/-- For each arity, what is pushed is left to show. -/
theorem pushes_binary {f : Word → Word → Word}
    (hexec : ∀ (W R : Type) [GlobalState W R] [Keccak], (exec op : M W R Unit) = onCtxt (Op.binary f))
    {x y w : Word} (h : w = f x y) : Pushes op [x, y] w :=
  pushes_of hexec fun _ _ _ hs => h ▸ Op.binary_cons f hs

theorem pushes_ternary {f : Word → Word → Word → Word}
    (hexec : ∀ (W R : Type) [GlobalState W R] [Keccak], (exec op : M W R Unit) = onCtxt (Op.ternary f))
    {x y m w : Word} (h : w = f x y m) : Pushes op [x, y, m] w :=
  pushes_of hexec fun _ _ _ hs => h ▸ Op.ternary_cons f hs

end

/-- On the words that these integers stand for, the instructions push what the handlers compute with intx's operators.
`EXP` refuses an exponent of more than 64 bits, and `BYTE` takes one operand when its index is out of range. -/
structure OverIntx (x y m : Uint256) : Prop where
  add : Pushes .ADD [word x, word y] (word (Handler.add x y))
  sub : Pushes .SUB [word x, word y] (word (Handler.sub x y))
  mul : Pushes .MUL [word x, word y] (word (Handler.mul x y))
  div : Pushes .DIV [word x, word y] (word (Handler.div x y))
  sdiv : Pushes .SDIV [word x, word y] (word (Handler.sdiv x y))
  mod : Pushes .MOD [word x, word y] (word (Handler.mod x y))
  smod : Pushes .SMOD [word x, word y] (word (Handler.smod x y))
  addmod : Pushes .ADDMOD [word x, word y, word m] (word (Handler.addmod x y m))
  mulmod : Pushes .MULMOD [word x, word y, word m] (word (Handler.mulmod x y m))
  exp : ∀ e : UInt64, Pushes .EXP [word x, Word.ofUInt64 e] (word (Handler.exp x e))
  exp_refuses : 2 ^ 64 ≤ value y → Refuses .EXP [word x, word y]
  signextend : Pushes .SIGNEXTEND [word x, word y] (word (Handler.signextend x y))
  lt : Pushes .LT [word x, word y] (word (Handler.lt x y))
  gt : Pushes .GT [word x, word y] (word (Handler.gt x y))
  slt : Pushes .SLT [word x, word y] (word (Handler.slt x y))
  sgt : Pushes .SGT [word x, word y] (word (Handler.sgt x y))
  eq : Pushes .EQ [word x, word y] (word (Handler.eq x y))
  isZero : Pushes .ISZERO [word x] (word (Handler.isZero x))
  and_ : Pushes .AND [word x, word y] (word (Handler.and_ x y))
  or_ : Pushes .OR [word x, word y] (word (Handler.or_ x y))
  xor_ : Pushes .XOR [word x, word y] (word (Handler.xor_ x y))
  not_ : Pushes .NOT [word x] (word (Handler.not_ x))
  byte_out : Handler.out_of_range x = true → Pushes .BYTE [word x] (word (Handler.lit 0))
  byte : Handler.out_of_range x = false → Pushes .BYTE [word x, word y] (word (Handler.byte x y))

/-- **The instructions over intx.** Every word is what one integer of two halves stands for, and on these integers every
arithmetic, comparison and bitwise instruction pushes the word for what its handler computes. -/
theorem arithmetic_over_intx : Function.Bijective word ∧ ∀ x y m : Uint256, OverIntx x y m := by
  refine ⟨word_bijective, fun x y m => ?_⟩
  exact {
    add := pushes_binary (fun _ _ _ _ => rfl) (word_add x y)
    sub := pushes_binary (fun _ _ _ _ => rfl) (word_sub x y)
    mul := pushes_binary (fun _ _ _ _ => rfl) (word_mul x y)
    div := pushes_binary (fun _ _ _ _ => rfl) (Handler.word_div x y)
    sdiv := pushes_binary (fun _ _ _ _ => rfl) (Handler.word_sdiv x y)
    mod := pushes_binary (fun _ _ _ _ => rfl) (Handler.word_mod x y)
    smod := pushes_binary (fun _ _ _ _ => rfl) (Handler.word_smod x y)
    addmod := pushes_ternary (fun _ _ _ _ => rfl) (Handler.word_addmod x y m)
    mulmod := pushes_ternary (fun _ _ _ _ => rfl) (Handler.word_mulmod x y m)
    exp := fun e => pushes_of (fun _ _ _ _ => rfl) fun _ _ _ hs => (Handler.word_exp x e).symm ▸ Op.exp_cons hs
    exp_refuses := fun hy => refuses_of (fun _ _ _ _ => rfl) fun _ _ _ hs => Op.exp_of_le hs (by rwa [toNat_word])
    signextend := pushes_binary (fun _ _ _ _ => rfl) (Handler.word_signextend x y)
    lt := pushes_binary (fun _ _ _ _ => rfl) (Handler.word_lt x y)
    gt := pushes_binary (fun _ _ _ _ => rfl) (Handler.word_gt x y)
    slt := pushes_binary (fun _ _ _ _ => rfl) (Handler.word_slt x y)
    sgt := pushes_of (fun _ _ _ _ => rfl) fun _ _ _ hs => Op.sgt_over hs
    eq := pushes_binary (fun _ _ _ _ => rfl) (Handler.word_eq x y)
    isZero := pushes_unary (fun _ _ _ _ => rfl) (Handler.word_isZero x)
    and_ := pushes_binary (fun _ _ _ _ => rfl) (word_and x y)
    or_ := pushes_binary (fun _ _ _ _ => rfl) (word_or x y)
    xor_ := pushes_binary (fun _ _ _ _ => rfl) (word_xor x y)
    not_ := pushes_unary (fun _ _ _ _ => rfl) (word_not x)
    byte_out := fun h => by
      rw [Handler.lit_zero]
      exact pushes_of (fun _ _ _ _ => rfl) fun _ _ _ hs => Op.byte_of_le hs ((Handler.out_of_range_iff x).1 h)
    byte := fun h => pushes_of (fun _ _ _ _ => rfl) fun _ _ _ hs =>
      (Handler.word_byte x y).symm ▸ Op.byte_of_lt hs (mt (Handler.out_of_range_iff x).2 (by simp [h])) }

/-- **Exponentiation.** The rounds of squaring give the power modulo 2^256, for every base and every exponent of 64 bits. -/
theorem exp_pushes_power (b : Word) (e : UInt64) :
    Pushes .EXP [b, Word.ofUInt64 e] (BitVec.ofNat 256 (b.toNat ^ e.toNat)) := by
  obtain ⟨x, rfl⟩ := word_bijective.2 b
  have hpow : BitVec.ofNat 256 ((word x).toNat ^ e.toNat) = word (Handler.exp x e) := by
    apply BitVec.eq_of_toNat_eq
    rw [toNat_word, BitVec.toNat_ofNat, toNat_word, Handler.exp, value_exp value_mul_uint256, Handler.lit, value_ofUInt64]
    rfl
  rw [hpow, Handler.word_exp]
  exact pushes_of (fun _ _ _ _ => rfl) fun _ _ _ hs => Op.exp_cons hs

end Processor

end EEVM

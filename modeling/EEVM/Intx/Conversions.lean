import Mathlib.Data.Nat.Digits.Lemmas
import EEVM.FrameMemory
import EEVM.HexText
import EEVM.Intx.Refinement
import EEVM.Rlp.RoundTrip
/-!
# intx: bytes and texts (intx.hpp:601, :727-742, :791, :990-1071, int128.hpp:425-438, :733-817)

| here | there |
| --- | --- |
| `as_bytes`, `of_bytes` | what `memcpy` reads and writes: the storage of an integer, `lo` in front of `hi`, a word with its least significant byte first |
| `bswap`, `count_significant_bytes` | `bswap`, `count_significant_words<uint8_t>` |
| `be.load`, `be.store` | `be::load` (`:995`) and `be::store` (`:1012`); those of `be::unsafe` (`:1054`, `:1064`) are the same on a whole buffer |
| `from_big_endian`, `to_big_endian`, `to_byte_string` | `util.h:21`, `:43`, `rlp.h:119` |
| `to_string`, `from_string` | `int128.hpp:791`, `:749`; what the second throws is that of `HexText` |

The word that an integer stands for is converted in the model as the integer is here.
-/
namespace EEVM.Intx

open BigEndian Halves

variable {H : Type}

/-! ## Storage -/

class Stored (α : Type) where
  sizeof : Nat
  as_bytes : α → Bytes
  of_bytes : Bytes → α
  bswap : α → α
  count_significant_bytes : α → Nat

export Stored (sizeof as_bytes of_bytes bswap count_significant_bytes)

instance : Stored UInt64 where
  sizeof := 8
  as_bytes x := (toBytes 8 x.toNat).reverse
  of_bytes bs := UInt64.ofNat (ofBytes bs.reverse)
  -- `__builtin_bswap64`
  bswap x := UInt64.ofNat (ofBytes (toBytes 8 x.toNat).reverse)
  -- by halves of 32, 16 and 8 bits
  count_significant_bytes x := significant 3 x.toNat

instance [Stored H] : Stored (Uint H) where
  sizeof := sizeof H + sizeof H
  as_bytes x := as_bytes x.lo ++ as_bytes x.hi
  of_bytes bs := ⟨of_bytes (bs.drop (sizeof H)), of_bytes (bs.take (sizeof H))⟩
  bswap x := ⟨bswap x.lo, bswap x.hi⟩
  count_significant_bytes x :=
    let h := count_significant_bytes x.hi
    let l := count_significant_bytes x.lo
    if h ≠ 0 then h + (sizeof H + sizeof H) / 2 else l

class LawfulStored (α : Type) [Digit α] [Stored α] : Prop where
  two_pow_num_bits : 2 ^ num_bits α = 256 ^ sizeof α
  as_bytes_eq : ∀ x : α, as_bytes x = (toBytes (sizeof α) (value x)).reverse
  value_of_bytes : ∀ bs : Bytes, bs.length = sizeof α → value (of_bytes bs : α) = ofBytes bs.reverse
  value_bswap : ∀ x : α, value (bswap x) = ofBytes (toBytes (sizeof α) (value x)).reverse
  count_significant_bytes_eq : ∀ x : α, count_significant_bytes x = (minimal (toBytes (sizeof α) (value x))).length

export LawfulStored (two_pow_num_bits as_bytes_eq value_of_bytes value_bswap count_significant_bytes_eq)

theorem toNat_ofBytes {bs : Bytes} (h : bs.length = 8) : (UInt64.ofNat (ofBytes bs)).toNat = ofBytes bs := by
  have hlt : ofBytes bs < 256 ^ 8 := ofBytes_lt_of_le h.le
  rw [UInt64.toNat_ofNat', Nat.mod_eq_of_lt]
  exact hlt

instance : LawfulStored UInt64 where
  two_pow_num_bits := rfl
  as_bytes_eq _ := rfl
  value_of_bytes bs h := toNat_ofBytes (by rw [List.length_reverse]; exact h)
  value_bswap x := toNat_ofBytes (by rw [List.length_reverse, length_toBytes])
  count_significant_bytes_eq x := (length_minimal_toBytes 3 x.toNat x.toNat_lt).symm

/-- The bytes of the halves, one behind the other. -/
theorem toBytes_value [Digit H] [LawfulDigit H] [Stored H] [LawfulStored H] (x : Uint H) :
    toBytes (sizeof H + sizeof H) (value x) = toBytes (sizeof H) (value x.hi) ++ toBytes (sizeof H) (value x.lo) := by
  rw [toBytes_add, ← two_pow_num_bits, ← hi_def, ← toBytes_mod (sizeof H) (value x), ← two_pow_num_bits, ← lo_def]

theorem value_eq_ofBytes [Digit H] [Stored H] [LawfulStored H] {x : Uint H} {as bs : Bytes} (hlen : bs.length = sizeof H)
    (hhi : value x.hi = ofBytes as) (hlo : value x.lo = ofBytes bs) : value x = ofBytes (as ++ bs) := by
  rw [value_def, join, hhi, hlo, ofBytes_append, hlen, two_pow_num_bits]

instance [Digit H] [LawfulDigit H] [Stored H] [LawfulStored H] : LawfulStored (Uint H) where
  two_pow_num_bits := by
    have h : sizeof (Uint H) = sizeof H + sizeof H := rfl
    rw [num_bits_def, two_mul, pow_add, two_pow_num_bits, h, pow_add]
  as_bytes_eq x := by
    have h : as_bytes x = as_bytes x.lo ++ as_bytes x.hi := rfl
    have hbytes := toBytes_value x
    rw [h, as_bytes_eq, as_bytes_eq, ← List.reverse_append, ← hbytes]
    rfl
  value_of_bytes bs h := by
    have hlen : bs.length = sizeof H + sizeof H := h
    have htake : (bs.take (sizeof H)).length = sizeof H := by rw [List.length_take]; omega
    have hdrop : (bs.drop (sizeof H)).length = sizeof H := by rw [List.length_drop]; omega
    have hsplit : bs.reverse = (bs.drop (sizeof H)).reverse ++ (bs.take (sizeof H)).reverse := by
      rw [← List.reverse_append, List.take_append_drop]
    rw [hsplit]
    exact value_eq_ofBytes (by rw [List.length_reverse, htake]) (value_of_bytes _ hdrop) (value_of_bytes _ htake)
  value_bswap x := by
    have hbytes : toBytes (sizeof (Uint H)) (value x) = _ := toBytes_value x
    rw [hbytes, List.reverse_append]
    exact value_eq_ofBytes (by rw [List.length_reverse, length_toBytes]) (value_bswap x.lo) (value_bswap x.hi)
  count_significant_bytes_eq x := by
    have hbytes : toBytes (sizeof (Uint H)) (value x) = _ := toBytes_value x
    have hcount : count_significant_bytes x = if count_significant_bytes x.hi ≠ 0
        then count_significant_bytes x.hi + (sizeof H + sizeof H) / 2 else count_significant_bytes x.lo := rfl
    have hhalf : (sizeof H + sizeof H) / 2 = sizeof H := by omega
    rw [hbytes, hcount, count_significant_bytes_eq, count_significant_bytes_eq, hhalf]
    by_cases h : minimal (toBytes (sizeof H) (value x.hi)) = []
    · rw [if_neg (not_not.2 (List.length_eq_zero_iff.2 h)), minimal_append_of_eq_nil _ h]
    · rw [if_pos (mt List.length_eq_zero_iff.1 h), minimal_append_of_ne_nil _ h, List.length_append, length_toBytes]

/-! ## Big-endian bytes -/

namespace be

/-- The bytes stand at the end of the storage, behind zeros. -/
def load (α : Type) [Stored α] (bytes : Bytes) : α := bswap (of_bytes (List.replicate (sizeof α - bytes.length) 0 ++ bytes))

def store {α : Type} [Stored α] (x : α) : Bytes := as_bytes (bswap x)

variable {α : Type} [Digit α] [Stored α] [LawfulStored α]

theorem value_load {bytes : Bytes} (h : bytes.length ≤ sizeof α) : value (load α bytes) = ofBytes bytes := by
  have hlen : (List.replicate (sizeof α - bytes.length) 0 ++ bytes).length = sizeof α := by
    rw [List.length_append, List.length_replicate, Nat.sub_add_cancel h]
  have hrev : toBytes (sizeof α) (ofBytes (List.replicate (sizeof α - bytes.length) 0 ++ bytes).reverse) =
      (List.replicate (sizeof α - bytes.length) 0 ++ bytes).reverse :=
    toBytes_ofBytes_of_length (by rw [List.length_reverse, hlen])
  rw [load, value_bswap, value_of_bytes _ hlen, hrev, List.reverse_reverse, ofBytes_append, ofBytes_replicate_zero,
    Nat.zero_mul, Nat.zero_add]

theorem store_eq (x : α) : store x = toBytes (sizeof α) (value x) := by
  have hrev : toBytes (sizeof α) (ofBytes (toBytes (sizeof α) (value x)).reverse) = (toBytes (sizeof α) (value x)).reverse :=
    toBytes_ofBytes_of_length (by rw [List.length_reverse, length_toBytes])
  rw [store, as_bytes_eq, value_bswap, hrev, List.reverse_reverse]

end be

def from_big_endian (bs : Bytes) : Except String Uint256 :=
  if bs.length = 32 then .ok (be.load Uint256 bs)
  else if bs.length > 32 then .error "Calling from_big_endian with oversized array"
  else
    let offset := 32 - bs.length
    let tmp := List.replicate offset 0 ++ bs
    .ok (be.load Uint256 tmp)

def to_big_endian (v : Uint256) : Bytes := be.store v

def to_byte_string (n : Uint256) : Bytes :=
  if !Half.eq n (Handler.lit 0) then
    let arr := be.store n
    let n_bytes := count_significant_bytes n
    arr.drop (32 - n_bytes)
  else []

theorem word_load {bs : Bytes} (h : bs.length ≤ 32) : word (be.load Uint256 bs) = EEVM.from_big_endian bs := by
  rw [word, be.value_load h]
  rfl

theorem word_from_big_endian (bs : Bytes) : (from_big_endian bs).map word =
    if bs.length ≤ 32 then .ok (EEVM.from_big_endian bs) else .error "Calling from_big_endian with oversized array" := by
  unfold from_big_endian
  rcases Nat.lt_trichotomy bs.length 32 with h | h | h
  · have hlen : (List.replicate (32 - bs.length) 0 ++ bs).length ≤ 32 := by
      rw [List.length_append, List.length_replicate]
      omega
    have hzeros : EEVM.from_big_endian (List.replicate (32 - bs.length) 0 ++ bs) = EEVM.from_big_endian bs := by
      rw [EEVM.from_big_endian, ofBytes_append, ofBytes_replicate_zero, Nat.zero_mul, Nat.zero_add]
      rfl
    rw [if_neg h.ne, if_neg h.not_gt, if_pos h.le]
    exact congrArg Except.ok ((word_load hlen).trans hzeros)
  · rw [if_pos h, if_pos h.le]
    exact congrArg Except.ok (word_load h.le)
  · rw [if_neg h.ne', if_pos h, if_neg h.not_ge]
    rfl

theorem to_big_endian_word (x : Uint256) : to_big_endian x = EEVM.to_big_endian (word x) := by
  have hsize : sizeof Uint256 = 32 := rfl
  rw [to_big_endian, be.store_eq, EEVM.to_big_endian, toNat_word, hsize]

theorem count_significant_bytes_word (x : Uint256) :
    count_significant_bytes x = Rlp.count_significant_bytes (word x) := by
  rw [count_significant_bytes_eq, Rlp.count_significant_bytes, toNat_word]
  exact length_minimal_toBytes 5 (value x) (value_uint256_lt x)

theorem not_eq_zero_iff (x : Uint256) : (!Half.eq x (Handler.lit 0)) = true ↔ word x ≠ 0 := by
  rw [Bool.not_eq_true', ← Bool.not_eq_true, Handler.eq_lit_zero_iff]

theorem to_byte_string_word (x : Uint256) : to_byte_string x = Rlp.to_byte_string_u256 (word x) := by
  have hstore : be.store x = EEVM.to_big_endian (word x) := to_big_endian_word x
  unfold to_byte_string Rlp.to_byte_string_u256
  dsimp only
  rw [hstore, count_significant_bytes_word]
  by_cases h : word x = 0
  · rw [if_neg (mt (not_eq_zero_iff x).1 (not_not.2 h)), if_neg (not_not.2 h)]
  · rw [if_pos ((not_eq_zero_iff x).2 h), if_pos h]

theorem eq_ok_of_map_word {ε : Type} {e : Except ε Uint256} {x : Uint256} (h : e.map word = .ok (word x)) : e = .ok x := by
  cases e with
  | error err => cases h
  | ok y => exact congrArg Except.ok (word_bijective.1 (Except.ok.inj h))

/-- **Bytes over intx.** Loading swaps the bytes of the storage and storing swaps them back, and on the words that the
integers stand for the conversions of the model are these. -/
theorem byte_conversions_over_intx :
    (∀ bs : Bytes, (from_big_endian bs).map word =
      if bs.length ≤ 32 then .ok (EEVM.from_big_endian bs) else .error "Calling from_big_endian with oversized array") ∧
    (∀ x : Uint256, to_big_endian x = EEVM.to_big_endian (word x)) ∧
    (∀ x : Uint256, to_byte_string x = Rlp.to_byte_string_u256 (word x)) ∧
    ∀ x : Uint256, from_big_endian (to_big_endian x) = .ok x ∧ from_big_endian (to_byte_string x) = .ok x := by
  have hback : ∀ (x : Uint256) {bs : Bytes}, bs.length ≤ 32 → EEVM.from_big_endian bs = word x → from_big_endian bs = .ok x := by
    intro x bs hlen hx
    exact eq_ok_of_map_word (by rw [word_from_big_endian, if_pos hlen, hx])
  refine ⟨word_from_big_endian, to_big_endian_word, to_byte_string_word, fun x => ⟨hback x ?_ ?_, hback x ?_ ?_⟩⟩
  · rw [to_big_endian_word, EEVM.to_big_endian, length_toBytes]
  · rw [to_big_endian_word, from_to_big_endian]
  · rw [to_byte_string_word, Rlp.to_byte_string_u256_eq]
    exact (length_minimal_le _).trans (length_toBytes 32 _).le
  · rw [to_byte_string_word, Rlp.to_byte_string_u256_eq, EEVM.from_big_endian, ofBytes_minimal]
    exact from_to_big_endian (word x)

/-! ## Texts -/

/-- The character of a digit, of up to 36. -/
def digit_char (d : Nat) : Char := Char.ofNat (if d < 10 then 48 + d else 97 + d - 10)

theorem value_eq_zero_iff (x : Uint256) : Half.eq x (Handler.lit 0) = true ↔ value x = 0 := by
  rw [LawfulHalf.eq_iff, Handler.lit, value_ofUInt64]
  rfl

theorem value_quot_lt {x base : Uint256} (hbase : 2 ≤ value base) (hx : ¬Half.eq x (Handler.lit 0) = true) :
    value (udivrem x base).quot < value x := by
  rw [value_eq_zero_iff] at hx
  rw [(udivrem_spec x (v := base) (by omega)).1]
  exact Nat.div_lt_self (Nat.pos_of_ne_zero hx) hbase

/-- The loop of `to_string`: it ends because the quotient is smaller. -/
def to_string_loop (base : Uint256) (hbase : 2 ≤ value base) (x : Uint256) (s : List Char) : List Char :=
  if h : Half.eq x (Handler.lit 0) = true then s
  else
    let res := udivrem x base
    let d := (Half.toUInt64 res.rem).toNat
    have := value_quot_lt hbase h
    to_string_loop base hbase res.quot (s ++ [digit_char d])
termination_by value x

theorem value_base {base : Int} (h : ¬(base < 2 ∨ base > 36)) :
    value (Handler.lit (UInt64.ofNat base.toNat)) = base.toNat := by
  rw [Handler.lit, value_ofUInt64, UInt64.toNat_ofNat', Nat.mod_eq_of_lt]
  omega

def to_string (x : Uint256) (base : Int) : Except ParseError (List Char) :=
  if h : base < 2 ∨ base > 36 then .error (.invalid_argument ("invalid base: " ++ toString base))
  else if Half.eq x (Handler.lit 0) then .ok ['0']
  else .ok (to_string_loop (Handler.lit (UInt64.ofNat base.toNat)) (by rw [value_base h]; omega) x []).reverse

/-- The loop writes the digits from the last one on. -/
theorem to_string_loop_eq {base : Uint256} (hbase : 2 ≤ value base) (hle : value base ≤ 36) (x : Uint256) (s : List Char) :
    to_string_loop base hbase x s = s ++ (Nat.digits (value base) (value x)).map digit_char := by
  induction hn : value x using Nat.strongRecOn generalizing x s with
  | ind n ih =>
    subst hn
    rw [to_string_loop]
    by_cases h : Half.eq x (Handler.lit 0) = true
    · rw [dif_pos h, (value_eq_zero_iff x).1 h, Nat.digits_zero, List.map_nil, List.append_nil]
    · have hlt := value_quot_lt hbase h
      obtain ⟨hquot, hrem⟩ := udivrem_spec x (v := base) (by omega)
      have hdigit : (Half.toUInt64 (udivrem x base).rem).toNat = value x % value base := by
        have hmod := Nat.mod_lt (value x) (show 0 < value base by omega)
        rw [toNat_toUInt64, hrem, Nat.mod_eq_of_lt (by omega)]
      rw [dif_neg h]
      refine (ih _ hlt _ _ rfl).trans ?_
      rw [hdigit, hquot, List.append_assoc, Nat.digits_def' (by omega) (show 0 < value x by omega), List.map_cons,
        List.singleton_append]

theorem to_string_eq (x : Uint256) (base : Int) :
    to_string x base =
      if base < 2 ∨ base > 36 then .error (.invalid_argument ("invalid base: " ++ toString base))
      else .ok (if value x = 0 then ['0'] else ((Nat.digits base.toNat (value x)).map digit_char).reverse) := by
  unfold to_string
  by_cases h : base < 2 ∨ base > 36
  · rw [dif_pos h, if_pos h]
  · have hbase := value_base h
    rw [dif_neg h, if_neg h]
    by_cases hx : value x = 0
    · rw [if_pos ((value_eq_zero_iff x).2 hx), if_pos hx]
    · rw [if_neg (mt (value_eq_zero_iff x).1 hx), if_neg hx, to_string_loop_eq _ (by omega), hbase, List.nil_append]

/-- **Writing a number.** In every base that is allowed the loop ends, and the characters are those of the digits of the
number, without a zero in front. -/
theorem to_string_spells (x : Uint256) (base : Int) :
    if base < 2 ∨ base > 36 then to_string x base = .error (.invalid_argument ("invalid base: " ++ toString base))
    else ∃ ds : List Nat, to_string x base = .ok (ds.map digit_char) ∧ (∀ d ∈ ds, d < base.toNat) ∧
      Nat.ofDigits base.toNat ds.reverse = value x ∧ (ds.head? = some 0 ↔ ds = [0]) ∧ ds ≠ [] := by
  rw [to_string_eq]
  by_cases h : base < 2 ∨ base > 36
  · rw [if_pos h, if_pos h]
  rw [if_neg h, if_neg h]
  by_cases hx : value x = 0
  · refine ⟨[0], by rw [if_pos hx]; rfl, ?_, by rw [hx]; rfl, by simp, by simp⟩
    intro d hd
    rw [List.mem_singleton.1 hd]
    omega
  · have hne : Nat.digits base.toNat (value x) ≠ [] := Nat.digits_ne_nil_iff_ne_zero.2 hx
    have hhead : (Nat.digits base.toNat (value x)).reverse.head? ≠ some 0 := by
      rw [List.head?_reverse, List.getLast?_eq_some_getLast hne, ne_eq, Option.some.injEq]
      exact Nat.getLast_digit_ne_zero base.toNat hx
    refine ⟨(Nat.digits base.toNat (value x)).reverse, by rw [if_neg hx, List.map_reverse], ?_, ?_, ?_, ?_⟩
    · intro d hd
      exact Nat.digits_lt_base (by omega) (List.mem_reverse.1 hd)
    · rw [List.reverse_reverse, Nat.ofDigits_digits]
    · refine ⟨fun h0 => absurd h0 hhead, fun h0 => absurd ?_ hhead⟩
      rw [h0]
      rfl
    · exact fun h0 => hne (List.reverse_eq_nil_iff.1 h0)

/-- `constexpr_mul` (`intx.hpp:602`, `int128.hpp:312`). -/
def constexpr_mul (a b : Uint256) : Uint256 :=
  @mul Uint128 _ _ ⟨mul128 constexpr_umul64⟩ (umul_halves constexpr_umul64) a b

/-- `d` is the value of a digit. -/
def from_string_hex (num_digits : Nat) (x : Uint256) : List Char → Except ParseError Uint256
  | [] => .ok x
  | c :: s =>
    if num_digits + 1 > 64 then .error (.overflow_error "Integer overflow")
    else do
      let d ← from_hex_digit c
      from_string_hex (num_digits + 1) (Half.shl x 4 ||| Handler.lit (UInt64.ofNat d)) s

def from_string_dec (num_digits : Nat) (x : Uint256) : List Char → Except ParseError Uint256
  | [] => .ok x
  | c :: s =>
    if num_digits > 77 then .error (.overflow_error "Integer overflow")
    else do
      let d ← from_dec_digit c
      let x := constexpr_mul x (Handler.lit 10) + Handler.lit (UInt64.ofNat d)
      if Half.lt x (Handler.lit (UInt64.ofNat d)) then .error (.overflow_error "Integer overflow")
      else from_string_dec (num_digits + 1) x s

def from_string (s : List Char) : Except ParseError Uint256 :=
  match c_str s with
  | '0' :: 'x' :: s => from_string_hex 0 (Handler.lit 0) s
  | s => from_string_dec 0 (Handler.lit 0) s

theorem word_constexpr_mul (a b : Uint256) : word (constexpr_mul a b) = word a * word b := by
  apply BitVec.eq_of_toNat_eq
  rw [toNat_word, BitVec.toNat_mul, toNat_word, toNat_word]
  exact @value_mul Uint128 _ _ _ ⟨mul128 constexpr_umul64⟩ _ (value_umul_halves value_constexpr_umul64)
    (value_mul128 value_constexpr_umul64) a b

theorem word_digit {d : Nat} (h : d < 16) : word (Handler.lit (UInt64.ofNat d)) = BitVec.ofNat 256 d := by
  rw [Handler.word_lit, UInt64.toNat_ofNat', Nat.mod_eq_of_lt (by omega)]

theorem hex_digit_lt {c : Char} {d : Nat} (h : from_hex_digit c = .ok d) : d < 16 := by
  rw [from_hex_digit_eq_match] at h
  split at h
  · rename_i e he
    obtain rfl := Except.ok.inj h
    exact Hex.digit_value_lt he
  · cases h

theorem dec_digit_lt {c : Char} {d : Nat} (h : from_dec_digit c = .ok d) : d < 10 := by
  unfold from_dec_digit at h
  split at h
  · rename_i hc
    obtain rfl := Except.ok.inj h
    have hle : c.toNat ≤ 57 := Hex.toNat_le_of_le hc.2
    omega
  · cases h

theorem from_string_hex_word (num_digits : Nat) (x : Uint256) (s : List Char) :
    (from_string_hex num_digits x s).map word = EEVM.from_string_hex num_digits (word x) s := by
  induction s generalizing num_digits x with
  | nil => rfl
  | cons c s ih =>
    rw [from_string_hex, EEVM.from_string_hex]
    by_cases h : num_digits + 1 > 64
    · rw [if_pos h, if_pos h]
      rfl
    · rw [if_neg h, if_neg h]
      cases hd : from_hex_digit c with
      | error e => rfl
      | ok d =>
        have h := ih (num_digits + 1) (Half.shl x 4 ||| Handler.lit (UInt64.ofNat d))
        rw [word_or, word_shl, word_digit (hex_digit_lt hd)] at h
        exact h

theorem from_string_dec_digit {num_digits d : Nat} {c : Char} (x : Uint256) (s : List Char) (hnum : ¬num_digits > 77)
    (hd : from_dec_digit c = .ok d) :
    ∃ y, y = constexpr_mul x (Handler.lit 10) + Handler.lit (UInt64.ofNat d) ∧
      from_string_dec num_digits x (c :: s) =
        if Half.lt y (Handler.lit (UInt64.ofNat d)) then .error (.overflow_error "Integer overflow")
        else from_string_dec (num_digits + 1) y s := by
  refine ⟨_, rfl, ?_⟩
  rw [from_string_dec, if_neg hnum, hd]
  rfl

theorem to_uint256_dec_digit {num_digits d : Nat} {c : Char} (z : Word) (s : List Char) (hnum : ¬num_digits > 77)
    (hd : from_dec_digit c = .ok d) :
    EEVM.from_string_dec num_digits z (c :: s) =
      if z * 10 + BitVec.ofNat 256 d < BitVec.ofNat 256 d then .error (.overflow_error "Integer overflow")
      else EEVM.from_string_dec (num_digits + 1) (z * 10 + BitVec.ofNat 256 d) s := by
  rw [EEVM.from_string_dec, if_neg hnum, hd]
  rfl

theorem from_string_dec_word (num_digits : Nat) (x : Uint256) (s : List Char) :
    (from_string_dec num_digits x s).map word = EEVM.from_string_dec num_digits (word x) s := by
  induction s generalizing num_digits x with
  | nil => rfl
  | cons c s ih =>
    by_cases hnum : num_digits > 77
    · rw [from_string_dec, EEVM.from_string_dec, if_pos hnum, if_pos hnum]
      rfl
    cases hd : from_dec_digit c with
    | error e =>
      rw [from_string_dec, EEVM.from_string_dec, if_neg hnum, if_neg hnum, hd]
      rfl
    | ok d =>
      obtain ⟨y, hy, hstep⟩ := from_string_dec_digit x s hnum hd
      have hlt : d < 16 := (dec_digit_lt hd).trans (by decide)
      have h10 : word (Handler.lit 10) = 10 := by
        rw [Handler.word_lit]
        rfl
      have hx : word y = word x * 10 + BitVec.ofNat 256 d := by
        rw [hy, word_add, word_constexpr_mul, word_digit hlt, h10]
      have hover := half_lt_iff y (Handler.lit (UInt64.ofNat d))
      rw [word_digit hlt] at hover
      rw [hstep, to_uint256_dec_digit _ s hnum hd, ← hx]
      by_cases ho : word y < BitVec.ofNat 256 d
      · rw [if_pos (hover.2 ho), if_pos ho]
        rfl
      · rw [if_neg (mt hover.1 ho), if_neg ho, ih]

theorem digit_char_eq {d : Nat} (h : d < 16) : digit_char d = d.digitChar := by
  interval_cases d <;> rfl

theorem hex_eq (n : Nat) : hex n = if n = 0 then ['0'] else ((Nat.digits 16 n).map digit_char).reverse := by
  induction n using Nat.strongRecOn with
  | ind n ih =>
    rw [hex]
    by_cases h0 : n = 0
    · rw [if_pos h0, h0]
      rfl
    have hdigit : digit_char (n % 16) = (n % 16).digitChar := digit_char_eq (Nat.mod_lt n (by decide))
    rw [if_neg h0, Nat.digits_def' (by decide) (Nat.pos_of_ne_zero h0), List.map_cons, List.reverse_cons, hdigit]
    by_cases h : n < 16
    · rw [Nat.toDigits_of_lt_base h, Nat.div_eq_of_lt h, Nat.mod_eq_of_lt h]
      rfl
    · have hquot := ih (n / 16) (by omega)
      rw [if_neg (by omega), hex] at hquot
      rw [Nat.toDigits_of_base_le (by decide) (by omega), hquot]

theorem from_string_word (s : List Char) : (from_string s).map word = to_uint256 s := by
  by_cases h : ∃ ds, c_str s = '0' :: 'x' :: ds
  · obtain ⟨ds, hds⟩ := h
    have hhex := from_string_hex_word 0 (Handler.lit 0) ds
    rw [Handler.lit_zero] at hhex
    simpa only [from_string, to_uint256, hds] using hhex
  · have hdec := from_string_dec_word 0 (Handler.lit 0) (c_str s)
    have hne : ∀ ds, c_str s = '0' :: 'x' :: ds → False := fun ds hds => h ⟨ds, hds⟩
    rw [Handler.lit_zero] at hdec
    simpa only [from_string, to_uint256, hne] using hdec

theorem to_string_hex (x : Uint256) : to_string x 16 = .ok (hex (word x).toNat) := by
  rw [to_string_eq, if_neg (by decide), toNat_word, hex_eq]
  rfl

/-- **Texts over intx.** What `from_string` makes of a text stands for what the model reads, errors included, the
hexadecimal text of an integer is the model's, and it reads back as the integer. -/
theorem texts_over_intx :
    (∀ s : List Char, (from_string s).map word = to_uint256 s) ∧
      ∀ x : Uint256, ∃ s, to_string x 16 = .ok s ∧ s = hex (word x).toNat ∧ from_string ('0' :: 'x' :: s) = .ok x := by
  refine ⟨from_string_word, fun x => ⟨_, to_string_hex x, rfl, eq_ok_of_map_word ?_⟩⟩
  have h := to_uint256_to_hex_string (word x)
  rw [to_hex_string, String.toList_ofList] at h
  rw [from_string_word]
  exact h

end EEVM.Intx

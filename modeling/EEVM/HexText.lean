import EEVM.Word
import EEVM.Lib.Hex
/-!
# Numbers as text (util.h:104-178, util.cpp:15-45, intx's int128.hpp:733-783)

| here | there |
| --- | --- |
| `to_hex_string_u64`, `to_hex_string_bytes` | the overloads of `to_hex_string` (`util.h:121-129`) for `uint64_t` and for bytes |
| `from_hex_digit`, `from_string_hex`, `from_string_dec` | `from_hex_digit` (`int128.hpp:739`), the two loops of `from_string` (`:749`) |
| `to_uint256`, `to_uint64`, `strip`, `to_bytes` | `util.h:151`, `util.cpp:20`, `:15`, `:25` |
| `strtoull` | the C library's, in base 16; `strtoul` is the same function |

What is written in one of the five formats is read back by the parser that belongs to it.
-/
namespace EEVM

/-! ## Writing -/

def to_hex_string_u64 (v : UInt64) : List Char := ['0', 'x'] ++ hex v.toNat

/-- Two digits for each byte. -/
def to_hex_string_bytes (bytes : Bytes) : List Char := ['0', 'x'] ++ bytes.flatMap fun b => zero_fill 2 (hex b.toNat)

/-! ## Reading -/

/-- What `from_string` throws. -/
inductive ParseError
  | invalid_argument (what : String)
  | overflow_error (what : String)
deriving DecidableEq, Repr

def from_dec_digit (c : Char) : Except ParseError Nat :=
  if '0' ≤ c ∧ c ≤ '9' then .ok (c.toNat - 48) else .error (.invalid_argument ("Invalid digit: " ++ c.toString))

def from_hex_digit (c : Char) : Except ParseError Nat :=
  if 'a' ≤ c ∧ c ≤ 'f' then .ok (c.toNat - (97 - 10))
  else if 'A' ≤ c ∧ c ≤ 'F' then .ok (c.toNat - (65 - 10))
  else from_dec_digit c

/-- The loop over the digits behind `0x`. -/
def from_string_hex (num_digits : Nat) (x : Word) : List Char → Except ParseError Word
  | [] => .ok x
  | c :: s =>
    if num_digits + 1 > 64 then .error (.overflow_error "Integer overflow")
    else do
      let d ← from_hex_digit c
      from_string_hex (num_digits + 1) (x <<< 4 ||| BitVec.ofNat 256 d) s

/-- The loop over decimal digits; `digits10` is 77. -/
def from_string_dec (num_digits : Nat) (x : Word) : List Char → Except ParseError Word
  | [] => .ok x
  | c :: s =>
    if num_digits > 77 then .error (.overflow_error "Integer overflow")
    else do
      let d ← from_dec_digit c
      let x := x * 10 + BitVec.ofNat 256 d
      if x < BitVec.ofNat 256 d then .error (.overflow_error "Integer overflow")
      else from_string_dec (num_digits + 1) x s

/-- `from_string` works on the characters up to the first NUL. -/
def c_str (s : List Char) : List Char := s.takeWhile (· ≠ '\x00')

def to_uint256 (s : List Char) : Except ParseError Word :=
  match c_str s with
  | '0' :: 'x' :: s => from_string_hex 0 0 s
  | s => from_string_dec 0 0 s

/-- `isspace` in the C locale. -/
def is_space (c : Char) : Bool := c = ' ' ∨ (9 ≤ c.toNat ∧ c.toNat ≤ 13)

def is_hex_digit (c : Char) : Bool := (Hex.digit_value c).isSome

def read_sign : List Char → Bool × List Char
  | '-' :: s => (true, s)
  | '+' :: s => (false, s)
  | s => (false, s)

/-- `0x` counts as a prefix where a digit follows. -/
def skip_0x : List Char → List Char
  | '0' :: x :: c :: s => if (x = 'x' ∨ x = 'X') ∧ is_hex_digit c then c :: s else '0' :: x :: c :: s
  | s => s

/-- White space, a sign, `0x`, and then all digits up to the first character that is none. A number that does not fit is
the largest one; a minus sign negates modulo 2^64. -/
def strtoull (s : List Char) : UInt64 :=
  let (negative, s) := read_sign (s.dropWhile is_space)
  let v := (Hex.value_from 0 ((skip_0x s).takeWhile is_hex_digit)).getD 0
  if v ≥ 2 ^ 64 then UInt64.ofNat (2 ^ 64 - 1) else if negative then -UInt64.ofNat v else UInt64.ofNat v

def to_uint64 (s : List Char) : UInt64 := strtoull s

def strip : List Char → List Char
  | _ :: 'x' :: s => s
  | s => s

/-- `static_cast<uint8_t>(strtoul(...))`. -/
def byte_of (s : List Char) : UInt8 := (strtoull s).toUInt8

/-- The loop of `to_bytes`. -/
def byte_pairs : List Char → Bytes
  | a :: b :: s => byte_of [a, b] :: byte_pairs s
  | _ => []

def to_bytes (s : List Char) : Bytes :=
  let s := strip s
  if s.length % 2 ≠ 0 then byte_of (s.take 1) :: byte_pairs (s.drop 1) else byte_pairs s

/-! ## 256-bit numbers -/

variable {c : Char} {cs : List Char} {n d : Nat}

/-- The three ranges of `from_hex_digit` are those of a digit. -/
theorem from_hex_digit_eq_match (c : Char) : from_hex_digit c = match Hex.digit_value c with
    | some d => .ok d
    | none => .error (.invalid_argument ("Invalid digit: " ++ c.toString)) := by
  unfold from_hex_digit from_dec_digit Hex.digit_value
  split
  · rfl
  split
  · rfl
  split
  · rfl
  · rfl

theorem from_hex_digit_eq (h : Hex.digit_value c = some d) : from_hex_digit c = .ok d := by
  rw [from_hex_digit_eq_match, h]

theorem from_hex_digit_ok (h : from_hex_digit c = .ok d) : is_hex_digit c := by
  rw [from_hex_digit_eq_match] at h
  rw [is_hex_digit]
  cases hd : Hex.digit_value c with
  | some e => rfl
  | none =>
    rw [hd] at h
    cases h

/-- One more digit. -/
theorem shiftLeft_or_digit (x : Nat) (h : d < 16) :
    BitVec.ofNat 256 x <<< 4 ||| BitVec.ofNat 256 d = BitVec.ofNat 256 (16 * x + d) := by
  rw [shiftLeft_or _ (by omega) h]
  apply BitVec.eq_of_toNat_eq
  simp only [BitVec.toNat_ofNat]
  omega

theorem from_string_hex_eq {x num_digits : Nat} (h : Hex.value_from x cs = some n) (hlen : num_digits + cs.length ≤ 64) :
    from_string_hex num_digits (BitVec.ofNat 256 x) cs = .ok (BitVec.ofNat 256 n) := by
  induction cs generalizing x num_digits with
  | nil =>
    cases h
    rfl
  | cons c cs ih =>
    simp only [Hex.value_from, Option.bind_eq_some_iff] at h
    obtain ⟨d, hd, h⟩ := h
    simp only [List.length_cons] at hlen
    rw [from_string_hex, if_neg (by omega), from_hex_digit_eq hd]
    change from_string_hex _ _ cs = _
    rw [shiftLeft_or_digit x (Hex.digit_value_lt hd)]
    exact ih h (by omega)

theorem to_uint256_eq (h : Hex.value_from 0 cs = some n) (hlen : cs.length ≤ 64) :
    to_uint256 (['0', 'x'] ++ cs) = .ok (BitVec.ofNat 256 n) := by
  have hnul : cs.takeWhile (· ≠ '\x00') = cs := by
    rw [List.takeWhile_eq_self_iff]
    intro c hc
    have hs := Hex.isSome_of_value_from h c hc
    simp only [ne_eq, decide_eq_true_eq]
    rintro rfl
    cases hs
  have hc : c_str (['0', 'x'] ++ cs) = '0' :: 'x' :: cs := by
    simpa [c_str] using hnul
  rw [to_uint256, hc]
  exact from_string_hex_eq h (by omega)

theorem length_hex_le (w : Word) : (hex w.toNat).length ≤ 64 := Hex.length_toDigits_le (by omega) w.isLt

theorem to_uint256_to_hex_string (w : Word) : to_uint256 (to_hex_string w).toList = .ok w := by
  have hv : Hex.value_from 0 (hex w.toNat) = some w.toNat := Hex.value_toDigits w.toNat
  rw [to_hex_string, String.toList_ofList, to_uint256_eq hv (length_hex_le w)]
  simp

theorem length_zero_fill_le {k m : Nat} (hk : k ≤ m) (hcs : cs.length ≤ m) : (zero_fill k cs).length ≤ m := by
  simp only [zero_fill, List.length_append, List.length_replicate]
  omega

theorem value_zero_fill (k n : Nat) : Hex.value_from 0 (zero_fill k (hex n)) = some n := by
  rw [zero_fill, Hex.value_replicate_append]
  exact Hex.value_toDigits n

theorem to_uint256_to_hex_string_fixed (w : Word) {k : Nat} (hk : k ≤ 64) : to_uint256 (to_hex_string_fixed w k) = .ok w := by
  rw [to_hex_string_fixed, to_uint256_eq (value_zero_fill k w.toNat) (length_zero_fill_le hk (length_hex_le w))]
  simp

theorem map_digit_value_checksum_digits (h : Vector UInt8 32) (i : Nat) (cs : List Char) :
    (checksum_digits h i cs).map Hex.digit_value = cs.map Hex.digit_value := by
  induction cs generalizing i with
  | nil => rfl
  | cons c cs ih =>
    simp only [checksum_digits, List.map_cons, ih, List.cons.injEq, and_true]
    split
    · rename_i hc
      have hcase := Hex.digit_value_toUpper_toLower hc
      rw [apply_ite Hex.digit_value, hcase.1, hcase.2, ite_self]
    · rfl

/-- The parser does not see the case of a checksum address. -/
theorem to_uint256_to_checksum_address [Keccak] (a : Address) : to_uint256 (to_checksum_address a) = .ok a := by
  have hdrop : (address_to_hex_string a).drop 2 = zero_fill 40 (hex a.toNat) := rfl
  have htake : (address_to_hex_string a).take 2 = ['0', 'x'] := rfl
  simp only [to_checksum_address, hdrop, htake]
  generalize keccak_256 _ = h
  have hmap := map_digit_value_checksum_digits h 0 (zero_fill 40 (hex a.toNat))
  have hlen := congrArg List.length hmap
  simp only [List.length_map] at hlen
  have hv := (Hex.value_from_congr hmap).trans (value_zero_fill 40 a.toNat)
  rw [to_uint256_eq hv (hlen ▸ length_zero_fill_le (by omega) (length_hex_le a))]
  simp

/-! ## 64-bit numbers and bytes -/

theorem strtoull_eq {s : List Char} (hspace : s.dropWhile is_space = s) (hsign : read_sign s = (false, s))
    (hskip : (skip_0x s).takeWhile is_hex_digit = cs) (h : Hex.value_from 0 cs = some n) (hn : n < 2 ^ 64) :
    strtoull s = UInt64.ofNat n := by
  rw [strtoull, hspace, hsign]
  simp only [hskip, h, Option.getD_some]
  rw [if_neg (by omega)]
  simp

theorem takeWhile_is_hex_digit (h : Hex.value_from 0 cs = some n) : cs.takeWhile is_hex_digit = cs := by
  rw [List.takeWhile_eq_self_iff]
  exact Hex.isSome_of_value_from h

theorem strtoull_0x (h : Hex.value_from 0 cs = some n) (hne : cs ≠ []) (hn : n < 2 ^ 64) :
    strtoull (['0', 'x'] ++ cs) = UInt64.ofNat n := by
  have hskip : skip_0x (['0', 'x'] ++ cs) = cs := by
    cases cs with
    | nil => exact absurd rfl hne
    | cons c cs =>
      have hc : is_hex_digit c = true := Hex.isSome_of_value_from h c (by simp)
      simp [skip_0x, hc]
  refine strtoull_eq rfl rfl ?_ h hn
  rw [hskip, takeWhile_is_hex_digit h]

theorem to_uint64_to_hex_string_u64 (v : UInt64) : to_uint64 (to_hex_string_u64 v) = v := by
  have hv : Hex.value_from 0 (hex v.toNat) = some v.toNat := Hex.value_toDigits v.toNat
  rw [to_uint64, to_hex_string_u64, strtoull_0x hv Nat.toDigits_ne_nil v.toNat_lt]
  simp

/-- Two digits. -/
theorem strtoull_pair {a b : Char} (h : Hex.value_from 0 [a, b] = some n) (hn : n < 2 ^ 64) :
    strtoull [a, b] = UInt64.ofNat n := by
  have hdigit : is_hex_digit a = true := Hex.isSome_of_value_from h a (by simp)
  obtain ⟨d, hd⟩ := Option.isSome_iff_exists.1 hdigit
  have hle := Hex.le_of_digit_value hd
  have hspace : is_space a = false := by
    simp only [is_space, decide_eq_false_iff_not]
    rintro (rfl | ⟨-, h13⟩)
    · cases hd
    · omega
  have hskip : skip_0x [a, b] = [a, b] := by
    unfold skip_0x
    split
    · simp_all
    · rfl
  refine strtoull_eq ?_ ?_ (by rw [hskip, takeWhile_is_hex_digit h]) h hn
  · simp [hspace]
  · unfold read_sign
    split
    · rename_i heq
      obtain ⟨rfl, -⟩ := List.cons.inj heq
      simp at hle
    · rename_i heq
      obtain ⟨rfl, -⟩ := List.cons.inj heq
      simp at hle
    · rfl

theorem length_byte_digits (b : UInt8) : (zero_fill 2 (hex b.toNat)).length = 2 := by
  have hlt : b.toNat < 16 ^ 2 := b.toNat_lt
  have hle : (hex b.toNat).length ≤ 2 := Hex.length_toDigits_le (by omega) hlt
  simp only [zero_fill, List.length_append, List.length_replicate]
  omega

theorem byte_pairs_flatMap (bs : Bytes) : byte_pairs (bs.flatMap fun b => zero_fill 2 (hex b.toNat)) = bs := by
  induction bs with
  | nil => rfl
  | cons b bs ih =>
    have hv := value_zero_fill 2 b.toNat
    have hlt := b.toNat_lt
    obtain ⟨x, y, hxy⟩ := List.length_eq_two.1 (length_byte_digits b)
    rw [hxy] at hv
    rw [List.flatMap_cons, hxy]
    simp only [List.cons_append, List.nil_append, byte_pairs, ih, byte_of, strtoull_pair hv (by omega)]
    simp

theorem length_flatMap_bytes (bs : Bytes) : (bs.flatMap fun b => zero_fill 2 (hex b.toNat)).length % 2 = 0 := by
  induction bs with
  | nil => rfl
  | cons b bs ih =>
    rw [List.flatMap_cons, List.length_append, length_byte_digits]
    omega

theorem to_bytes_to_hex_string_bytes (bs : Bytes) : to_bytes (to_hex_string_bytes bs) = bs := by
  have hstrip : strip (to_hex_string_bytes bs) = bs.flatMap fun b => zero_fill 2 (hex b.toNat) := rfl
  rw [to_bytes, hstrip]
  simp only [length_flatMap_bytes, ne_eq, not_true_eq_false, if_false, byte_pairs_flatMap]

end EEVM

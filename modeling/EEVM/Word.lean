import Mathlib.Data.Vector.Defs
import EEVM.Lib.BigEndian
/-!
# Words, byte strings and the helpers of `util.h`

| here | there |
| --- | --- |
| `Word`, `Address`, `Bytes` | `uint256_t` (`bigint.h:13`), `Address` (`address.h:13`), `std::vector<uint8_t>` |
| `word_of_int` | the implicit constructors `uint<256>(T)`, `uint<128>(T)` (`intx.hpp:43`, `int128.hpp:40`): an integer literal goes through `uint64_t` |
| `from_big_endian`, `to_big_endian` | `util.h:21`, `util.h:43` |
| `Keccak` | `keccak_256` (`util.h:51-101`, over the vendored `3rdparty/keccak`): a parameter of the model |
| `to_hex_string`, `to_hex_string_fixed`, `to_checksum_address` | `util.h:104-178` |

intx's 256-bit operators are exact modulo 2^256, so a word is a `BitVec 256`. A `std::string` that only
carries a message is a `String`.
-/
namespace EEVM

abbrev Bytes := List UInt8
abbrev Word := BitVec 256
abbrev Address := Word
abbrev Code := Bytes

/-- intx's conversion of a built-in integer: it is cast to `uint64_t` first, so `-1` is `2^64 - 1`. -/
def word_of_int (n : Int) : Word := BitVec.setWidth 256 (BitVec.ofInt 64 n)

/-- `static_cast<uint64_t>` of a word. -/
def Word.toUInt64 (w : Word) : UInt64 := UInt64.ofNat w.toNat

def Word.ofUInt64 (n : UInt64) : Word := BitVec.ofNat 256 n.toNat

/-- A word shifted to the left takes `k` new bits on its right. -/
theorem shiftLeft_or (x : Word) {k d : Nat} (hk : k ≤ 256) (hd : d < 2 ^ k) :
    x <<< k ||| BitVec.ofNat 256 d = BitVec.ofNat 256 (x.toNat * 2 ^ k + d) := by
  have hpow : 2 ^ (256 - k) * 2 ^ k = 2 ^ 256 := by
    rw [← Nat.pow_add, Nat.sub_add_cancel hk]
  have hle : 2 ^ k ≤ 2 ^ 256 := Nat.pow_le_pow_right (by omega) hk
  have hshift : x.toNat <<< k % 2 ^ 256 = (x.toNat % 2 ^ (256 - k)) <<< k := by
    rw [Nat.shiftLeft_eq, Nat.shiftLeft_eq, ← hpow, Nat.mul_mod_mul_right]
  have hlt : (x.toNat % 2 ^ (256 - k)) * 2 ^ k + d < 2 ^ 256 := by
    have hmod : x.toNat % 2 ^ (256 - k) + 1 ≤ 2 ^ (256 - k) := Nat.mod_lt _ (Nat.two_pow_pos _)
    have hmul := Nat.mul_le_mul_right (2 ^ k) hmod
    rw [hpow, Nat.add_mul] at hmul
    omega
  apply BitVec.eq_of_toNat_eq
  rw [BitVec.toNat_or, BitVec.toNat_shiftLeft, BitVec.toNat_ofNat, BitVec.toNat_ofNat, hshift,
    Nat.mod_eq_of_lt (show d < 2 ^ 256 by omega), ← Nat.shiftLeft_add_eq_or_of_lt hd, Nat.add_mod, ← Nat.shiftLeft_eq,
    hshift, Nat.mod_eq_of_lt (show d < 2 ^ 256 by omega), Nat.shiftLeft_eq, Nat.mod_eq_of_lt hlt]

/-- `numeric_limits<uint64_t>::max()` as a word. -/
def UINT64_MAX : Word := BitVec.ofNat 256 (2 ^ 64 - 1)

/-- `from_big_endian` on at most 32 bytes. The branch that throws `std::logic_error` (more than 32 bytes)
is reached by `from_bytes<uint256_t>` only and is modelled there. -/
def from_big_endian (bs : Bytes) : Word := BitVec.ofNat 256 (BigEndian.ofBytes bs)

def to_big_endian (v : Word) : Bytes := BigEndian.toBytes 32 v.toNat

/-- `keccak_256`, a parameter: nothing below depends on which function it is. -/
class Keccak where
  keccak_256 : Bytes → Vector UInt8 32

export Keccak (keccak_256)

/-- An instance for examples in which nothing is hashed. -/
@[reducible] def no_hash : Keccak := ⟨fun _ => Vector.replicate 32 0⟩

/-! ## Hexadecimal text -/

/-- `intx::hex` (`int128.hpp:814`). -/
def hex (n : Nat) : List Char := Nat.toDigits 16 n

/-- `fmt`'s `{:0>w}`: right-aligned, filled with `0`. -/
def zero_fill (w : Nat) (cs : List Char) : List Char := List.replicate (w - cs.length) '0' ++ cs

def to_hex_string (v : Word) : String := String.ofList (['0', 'x'] ++ hex v.toNat)

def to_hex_string_fixed (v : Word) (min_hex_chars : Nat) : List Char :=
  ['0', 'x'] ++ zero_fill min_hex_chars (hex v.toNat)

def address_to_hex_string (v : Address) : List Char := to_hex_string_fixed v 40

/-- The loop of `to_checksum_address` over the digits from index `i` on (`util.h:159-174`). -/
def checksum_digits (h : Vector UInt8 32) : Nat → List Char → List Char
  | _, [] => []
  | i, c :: cs =>
    let mask : UInt8 := if i % 2 = 0 then 0x80 else 0x08
    let c' := if 'a' ≤ c ∧ c ≤ 'f' then
      (if h.toList.getD (i / 2) 0 &&& mask ≠ 0 then c.toUpper else c.toLower) else c
    c' :: checksum_digits h (i + 1) cs

def to_checksum_address [Keccak] (a : Address) : List Char :=
  let s := address_to_hex_string a
  let digits := s.drop 2
  s.take 2 ++ checksum_digits (keccak_256 (digits.map fun c => UInt8.ofNat c.toNat)) 0 digits

end EEVM

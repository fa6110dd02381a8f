import EEVM.Rlp.Types
/-!
# `rlp::encode` (rlp.h:34-265)

| here | there |
| --- | --- |
| `to_byte_string_u64`, `to_byte_string_u256` | `to_byte_string(uint64_t)` (`:94`), `to_byte_string(const uint256_t&)` (`:119`) |
| `to_byte_string_array`, `to_byte_string_vector` | the overloads for `std::array` (`:56`, `:62`) and `std::vector` (`:46`, `:78`) |
| `prefix_multiple_length`, `encode_single` | `:141`, `:175` |
| `encode`, `encode_multiple`, `encode_args` | `encode` (`:239`) on one argument, `encode_multiple` (`:219`, `:228`), `encode` on a pack |

`size_t` is 64 bits wide; the length of a byte string is its `List.length`.
-/
namespace EEVM.Rlp

/-- One turn of the loop of `to_byte_string(uint64_t)`: `started` and the bytes so far. -/
def push_byte (n : Nat) (st : Bool × Bytes) (byte_index : Nat) : Bool × Bytes :=
  let offset := (7 - byte_index) * 8
  let current_byte := UInt8.ofNat (n / 2 ^ offset)
  if st.1 ∨ current_byte ≠ 0 then (true, st.2 ++ [current_byte]) else st

/-- `to_byte_string(uint64_t)`: big endian without leading zeroes, so `0` gives the empty string. -/
def to_byte_string_u64 (n : Nat) : Bytes := ((List.range 8).foldl (push_byte n) (false, [])).2

/-- `intx::count_significant_words<uint8_t>` (`intx.hpp:735`) on a 256-bit number. -/
def count_significant_bytes (n : Word) : Nat := BigEndian.significant 5 n.toNat

def to_byte_string_u256 (n : Word) : Bytes :=
  if n ≠ 0 then (to_big_endian n).drop (32 - count_significant_bytes n) else []

def prefix_multiple_length (total_length : Nat) (bs : Bytes) : Bytes :=
  if total_length ≤ 55 then UInt8.ofNat (0xc0 + total_length) :: bs
  else
    let total_length_as_bytes := to_byte_string_u64 total_length
    UInt8.ofNat (0xf7 + total_length_as_bytes.length) :: (total_length_as_bytes ++ bs)

/-- `encode_single`, after `to_byte_string` has turned the argument into `bytes`. -/
def encode_single (bytes : Bytes) : Bytes :=
  if bytes.length = 1 ∧ bytes.headD 0 ≤ 0x7f then bytes
  else if bytes.length ≤ 55 then UInt8.ofNat (0x80 + bytes.length) :: bytes
  else
    let length_as_bytes := to_byte_string_u64 bytes.length
    UInt8.ofNat (0xb7 + length_as_bytes.length) :: (length_as_bytes ++ bytes)

/-- The list encoding of already encoded terms: the end of `encode`, and the containers' `to_byte_string`. -/
def encode_list (terms : List Bytes) : Bytes :=
  let flattened := terms.flatten
  prefix_multiple_length flattened.length flattened

/-- `to_byte_string` of a `std::vector`; a `ByteString` is returned as it is (`:46`). -/
def to_byte_string_vector : (t : Ty) → (Val t → Bytes) → List (Val t) → Bytes
  | .uint .w8, _, v => v
  | _, enc, v => encode_list (v.map enc)

/-- `to_byte_string` of a `std::array`; a `std::array<uint8_t, N>` is copied (`:56`). -/
def to_byte_string_array : (t : Ty) → (Val t → Bytes) → List (Val t) → Bytes
  | .uint .w8, _, a => a
  | _, enc, a => encode_list (a.map enc)

mutual

/-- `encode` of one argument. -/
def encode : (t : Ty) → Val t → Bytes
  | .uint w, n => encode_single (to_byte_string_u64 (w.value n))
  | .u256, n => encode_single (to_byte_string_u256 n)
  | .string, s => encode_single s
  | .vector t, v => encode_single (to_byte_string_vector t (encode t) v)
  | .array t _, a => encode_single (to_byte_string_array t (encode t) a.toList)
  | .tuple ts, vs => encode_list (encode_multiple ts vs)

/-- `encode_multiple`: the encoding of each term. -/
def encode_multiple : (ts : List Ty) → Vals ts → List Bytes
  | [], _ => []
  | t :: ts, (v, vs) => encode t v :: encode_multiple ts vs

end

/-- `encode(a1, ..., an)`. With one argument, tuple or not, it is `encode` of that argument. -/
def encode_args : (ts : List Ty) → Vals ts → Bytes
  | [t], (v, _) => encode t v
  | ts, vs => encode_list (encode_multiple ts vs)

end EEVM.Rlp

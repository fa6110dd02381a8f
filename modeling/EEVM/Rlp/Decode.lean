import EEVM.Rlp.Types
/-!
# `rlp::decode` (rlp.h:267-667)

| here | there |
| --- | --- |
| `Cursor.data`, the `size` arguments | the pointer `data` (as the bytes from it to the end of the buffer), the counters `size` and `contained_length` |
| `next_byte`, `peek` | `*data++`, `data[0]`; past the end of the buffer they are undefined behaviour, `Fail.out_of_bounds` |
| `size_sub` | `size -= contained_length` on a `size_t`: below zero it wraps around |
| `decode_length` | `:454` |
| `from_bytes_*` | the specialisations of `from_bytes` (`:298-452`) |
| `decode_impl`, `decode_tuple` | `decode_impl<T>` (`:588`), `decode_tuple` (`:529-550`) |
| `decode_item`, `decode_multiple`, `decode_impl_args` | `:556`, `:571`, `:588` on a pack |
| `decode`, `decode_single` | `:634-666` |

The `log` records what a bounds argument talks about: each byte read, with where the innermost declared
payload around it ends (`lim`: how many bytes of the buffer lie behind it), and each `-=` on a counter.
Nothing in the decoder looks at it. Allocations are assumed to succeed.
-/
namespace EEVM.Rlp

inductive Arity
  | single | multiple
deriving DecidableEq, Repr

inductive Fail
  /-- `decode_error`, the exception the decoder is documented to throw. -/
  | decode_error (what : String)
  /-- A `std::logic_error` that is not a `decode_error`. -/
  | logic_error (what : String)
  /-- A read past the end of the buffer. -/
  | out_of_bounds
  /-- A loop that does not end. -/
  | diverges
deriving DecidableEq, Repr

inductive Event
  /-- A read at distance `pos` from the end of the buffer, inside a payload that ends at distance `lim`. -/
  | read (pos lim : Nat)
  | sub (size amount : Nat)
deriving DecidableEq, Repr

structure Cursor where
  data : Bytes
  log : List Event := []
deriving DecidableEq, Repr

abbrev Decoder := EStateM Fail Cursor

/-! ## Reading bytes and counting down -/

/-- `data[0]`. -/
def peek (lim : Nat) : Decoder UInt8 := fun c =>
  let log := .read c.data.length lim :: c.log
  match c.data with
  | [] => .error .out_of_bounds { c with log }
  | b :: _ => .ok b { c with log }

/-- `*data++`. -/
def next_byte (lim : Nat) : Decoder UInt8 := fun c =>
  let log := .read c.data.length lim :: c.log
  match c.data with
  | [] => .error .out_of_bounds { c with log }
  | b :: data => .ok b { data, log }

def size_sub (size amount : Nat) : Decoder Nat := fun c =>
  .ok (if amount ≤ size then size - amount else size + 2 ^ 64 - amount) { c with log := .sub size amount :: c.log }

/-- The end of a payload of `contained` bytes starting here, inside one ending at `lim`. -/
def payload_end (lim contained : Nat) : Decoder Nat := fun c => .ok (max lim (c.data.length - contained)) c

/-- `size` times `*data++`, as `std::copy` and the other byte loops do. -/
def read_bytes (lim : Nat) : Nat → Decoder Bytes
  | 0 => pure []
  | size + 1 => do
    let b ← next_byte lim
    let bs ← read_bytes lim size
    pure (b :: bs)

/-! ## `from_bytes` and `decode_length` -/

/-- The loop of `from_bytes<size_t>`; `size` is at most 8, so `result` does not overflow. -/
def size_t_loop (lim : Nat) : Nat → Nat → Decoder Nat
  | 0, result => pure result
  | size + 1, result => do
    let b ← next_byte lim
    size_t_loop lim size (result * 256 + b.toNat)

def from_bytes_size_t (lim size : Nat) : Decoder Nat :=
  if size > 8 then
    throw (.decode_error ("Trying to decode number: " ++ toString size ++ "  is too many bytes for uint64_t"))
  else size_t_loop lim size 0

def from_bytes_uint (w : Width) (lim size : Nat) : Decoder w.Carrier := do
  let n ← from_bytes_size_t lim size
  pure (w.cast n)

/-- `for (auto i = 0u; i < size; ++i) result[i] = *data++`: `i` is a 32-bit counter, so from `size = 2^32` on
the loop reads until it leaves the buffer. -/
def copy_loop (lim size : Nat) : UInt32 → Bytes → List Event → EStateM.Result Fail Cursor Bytes
  | i, [], log =>
    if i.toNat < size then .error .out_of_bounds { data := [], log := .read 0 lim :: log }
    else .ok [] { data := [], log }
  | i, b :: data, log =>
    if i.toNat < size then
      match copy_loop lim size (i + 1) data (.read (data.length + 1) lim :: log) with
      | .ok bs c => .ok (b :: bs) c
      | .error e c => .error e c
    else .ok [] { data := b :: data, log }

/-- `from_bytes<std::string>` and `from_bytes<ByteString>`. -/
def from_bytes_string (lim size : Nat) : Decoder Bytes := fun c => copy_loop lim size 0 c.data c.log

/-- `from_bytes<uint256_t>`; `from_big_endian` throws a plain `std::logic_error` on more than 32 bytes. -/
def from_bytes_u256 (lim size : Nat) : Decoder Word :=
  if size > 32 then throw (.logic_error "Calling from_big_endian with oversized array")
  else do
    let bs ← read_bytes lim size
    pure (from_big_endian bs)

def read_array (lim : Nat) : (N : Nat) → Decoder (List.Vector UInt8 N)
  | 0 => pure List.Vector.nil
  | N + 1 => do
    let b ← next_byte lim
    let bs ← read_array lim N
    pure (b ::ᵥ bs)

/-- `from_bytes<std::array<uint8_t, N>>`. -/
def from_bytes_byte_array (N lim size : Nat) : Decoder (List.Vector UInt8 N) :=
  if size ≠ N then
    throw (.decode_error ("Trying to decode " ++ toString N ++ " byte array, but given " ++ toString size ++
      " bytes to decode"))
  else read_array lim N

/-- A header whose length is spelled in the next `length_of_length` bytes. -/
def long_length (what : String) (arity : Arity) (lim size length_of_length : Nat) :
    Decoder ((Arity × Nat) × Nat) :=
  if size < length_of_length then
    throw (.decode_error ("Length of next " ++ what ++ " should be encoded in " ++ toString length_of_length ++
      " bytes, but only " ++ toString size ++ " remain"))
  else do
    let size ← size_sub size length_of_length
    let content_length ← from_bytes_size_t lim length_of_length
    pure ((arity, content_length), size)

/-- `decode_length`: the arity and declared length of the next item, and the counter after its header. -/
def decode_length (lim size : Nat) : Decoder ((Arity × Nat) × Nat) :=
  if size = 0 then throw (.decode_error "Trying to decode length: got empty data")
  else do
    let first ← peek lim
    if first ≤ 0x7f then pure ((.single, 1), size)
    else do
      let length := (← next_byte lim).toNat
      let size ← size_sub size 1
      if length ≤ 0xb7 then pure ((.single, length - 0x80), size)
      else if length ≤ 0xbf then long_length "element" .single lim size (length - 0xb7)
      else if length ≤ 0xf7 then pure ((.multiple, length - 0xc0), size)
      else long_length "list" .multiple lim size (length - 0xf7)

section Containers

variable {α : Type} (elem : Nat → Nat → Decoder (α × Nat))

/-- The loop of `from_bytes<std::array<T, N>>`, `N` turns of `result[i] = get<0>(decode_impl<T>(data, size))`. -/
def array_loop (lim : Nat) : (N : Nat) → Nat → Decoder (List.Vector α N)
  | 0, _ => pure List.Vector.nil
  | N + 1, size => do
    let (v, size) ← elem lim size
    let vs ← array_loop lim N size
    pure (v ::ᵥ vs)

/-- The same loop when `N` is out of reach of its 32-bit counter: it stops only by failing. -/
def endless_loop (lim : Nat) : Nat → Nat → Decoder Unit
  | 0, _ => throw .diverges
  | fuel + 1, size => do
    let (_, size) ← elem lim size
    endless_loop lim fuel size

/-- `while (contained_length > 0) result.push_back(get<0>(decode_impl<T>(data, contained_length)))`. -/
def vector_loop (lim : Nat) : Nat → Nat → Decoder (List α)
  | _, 0 => pure []
  | 0, _ + 1 => throw .diverges
  | fuel + 1, contained_length => do
    let (v, contained_length) ← elem lim contained_length
    let vs ← vector_loop lim fuel contained_length
    pure (v :: vs)

/-- More turns than a decoding loop can take: each turn lowers the counter or moves `data`
(`decode_terminates`). -/
def loop_fuel (contained_length : Nat) : Decoder Nat := fun c =>
  .ok (c.data.length * 2 ^ 64 + contained_length) c

def from_bytes_list_array (N lim size : Nat) : Decoder (List.Vector α N) := do
  let ((_, contained_length), size) ← decode_length lim size
  let lim ← payload_end lim contained_length
  if N < 2 ^ 32 then array_loop elem lim N size
  else do
    endless_loop elem lim ((← loop_fuel size) + 1) size
    throw .diverges

def from_bytes_list_vector (lim size : Nat) : Decoder (List α) := do
  let ((_, contained_length), _) ← decode_length lim size
  let lim ← payload_end lim contained_length
  vector_loop elem lim (← loop_fuel contained_length) contained_length

end Containers

/-- The specialisations for `std::array<uint8_t, N>` (`:356`) and `std::array<T, N>` (`:379`). -/
def from_bytes_array : (t : Ty) → (Nat → Nat → Decoder (Val t × Nat)) → (N : Nat) → Nat → Nat →
    Decoder (List.Vector (Val t) N)
  | .uint .w8, _, N => from_bytes_byte_array N
  | _, elem, N => from_bytes_list_array elem N

/-- The specialisations for `ByteString` (`:418`) and `std::vector<T>` (`:398`). -/
def from_bytes_vector : (t : Ty) → (Nat → Nat → Decoder (Val t × Nat)) → Nat → Nat → Decoder (List (Val t))
  | .uint .w8, _ => from_bytes_string
  | _, elem => from_bytes_list_vector elem

/-! ## `decode_impl` -/

/-- `decode_impl<T>` for a `T` that is no tuple: a single item, converted by `from_bytes<T>`. -/
def decode_one {α : Type} (from_bytes : Nat → Nat → Decoder α) (lim size : Nat) : Decoder (α × Nat) := do
  let ((arity, contained_length), size) ← decode_length lim size
  if arity ≠ .single then throw (.decode_error "Expected single item, but data encodes a list")
  else do
    let size ← size_sub size contained_length
    let lim ← payload_end lim contained_length
    let v ← from_bytes lim contained_length
    pure (v, size)

/-- The list half of `decode_impl`: `items` runs inside the payload, on a counter of its own. -/
def decode_list {α : Type} (items : Nat → Nat → Decoder (α × Nat)) (lim size : Nat) : Decoder (α × Nat) := do
  let ((arity, contained_length), size) ← decode_length lim size
  if arity ≠ .multiple then throw (.decode_error "Expected list item, but data encodes a single item")
  else do
    let size ← size_sub size contained_length
    let lim ← payload_end lim contained_length
    let (v, _) ← items lim contained_length
    pure (v, size)

mutual

/-- `decode_impl<T>`. For a tuple, `decode_multiple<tuple<Ts...>>` is `decode_tuple` on the payload. -/
def decode_impl : (t : Ty) → (lim size : Nat) → Decoder (Val t × Nat)
  | .uint w => decode_one (from_bytes_uint w)
  | .u256 => decode_one from_bytes_u256
  | .string => decode_one from_bytes_string
  | .vector t => decode_one (from_bytes_vector t (decode_impl t))
  | .array t N => decode_one (from_bytes_array t (decode_impl t) N)
  | .tuple ts => decode_list (decode_tuple ts)

def decode_tuple : (ts : List Ty) → (lim size : Nat) → Decoder (Vals ts × Nat)
  | [], _, size => pure ((), size)
  | t :: ts, lim, size => do
    let (first, size) ← decode_impl t lim size
    let (rest, size) ← decode_tuple ts lim size
    pure ((first, rest), size)

end

/-- `decode_item`: a tuple is unwrapped in place, its own list header is not read. -/
def decode_item : (t : Ty) → (lim size : Nat) → Decoder (Val t × Nat)
  | .tuple ts => decode_tuple ts
  | t => decode_impl t

def decode_multiple : (ts : List Ty) → (lim size : Nat) → Decoder (Vals ts × Nat)
  | [], _, size => pure ((), size)
  | t :: ts, lim, size => do
    let (first, size) ← decode_item t lim size
    let (rest, size) ← decode_multiple ts lim size
    pure ((first, rest), size)

/-- `decode_impl<Ts...>` with an empty pack. -/
def decode_none (lim size : Nat) : Decoder (Unit × Nat) := do
  let ((arity, contained_length), size) ← decode_length lim size
  if arity ≠ .multiple then throw (.decode_error "Expected list item, but data encodes a single item")
  else if contained_length ≠ 0 then
    throw (.decode_error ("Expected empty list, but data contains " ++ toString contained_length ++
      " remaining bytes"))
  else pure ((), size)

/-- `decode_impl<Ts...>`. -/
def decode_impl_args : (ts : List Ty) → (lim size : Nat) → Decoder (Vals ts × Nat)
  | [], lim, size => decode_none lim size
  | [t], lim, size => do
    let (v, size) ← decode_impl t lim size
    pure ((v, ()), size)
  | t :: t' :: ts, lim, size => decode_list (decode_multiple (t :: t' :: ts)) lim size

/-- `decode<Ts...>`: what `decode_impl` leaves of the input must be nothing. -/
def decode (ts : List Ty) (bytes : Bytes) : EStateM.Result Fail Cursor (Vals ts) :=
  (do
    let (res, size) ← decode_impl_args ts 0 bytes.length
    if size ≠ 0 then
      throw (.decode_error ("Expected to decode entire input, but " ++ toString size ++ " bytes remain"))
    else pure res : Decoder (Vals ts)) { data := bytes }

/-- `decode_single<T>`. -/
def decode_single (t : Ty) (bytes : Bytes) : EStateM.Result Fail Cursor (Val t) :=
  match decode [t] bytes with
  | .ok (v, _) c => .ok v c
  | .error e c => .error e c

end EEVM.Rlp

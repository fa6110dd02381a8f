import EEVM.Word
import Mathlib.Data.Vector.Basic
/-!
# The C++ types `rlp.h` can encode and decode

| here | there |
| --- | --- |
| `Width`, `Ty.uint` | `uint8_t`, `uint16_t`, `uint32_t`, `uint64_t` |
| `Ty.u256`, `Ty.string` | `uint256_t`, `std::string` |
| `Ty.vector`, `Ty.array`, `Ty.tuple` | `std::vector<T>`, `std::array<T, N>`, `std::tuple<Ts...>` |

`ByteString` is `std::vector<uint8_t>`, so it is `.vector (.uint .w8)`; the overloads of `to_byte_string` and the
specialisations of `from_bytes` pick it out by that type, and so do the definitions here. A `std::string` is its bytes.
-/
namespace EEVM.Rlp

inductive Width
  | w8 | w16 | w32 | w64
deriving DecidableEq, Repr

namespace Width

def bits : Width → Nat
  | w8 => 8 | w16 => 16 | w32 => 32 | w64 => 64

def Carrier : Width → Type
  | w8 => UInt8 | w16 => UInt16 | w32 => UInt32 | w64 => UInt64

def value : (w : Width) → w.Carrier → Nat
  | w8, n => UInt8.toNat n
  | w16, n => UInt16.toNat n
  | w32, n => UInt32.toNat n
  | w64, n => UInt64.toNat n

/-- The cast `(T)n`, which keeps the low bits. -/
def cast : (w : Width) → Nat → w.Carrier
  | w8, n => UInt8.ofNat n
  | w16, n => UInt16.ofNat n
  | w32, n => UInt32.ofNat n
  | w64, n => UInt64.ofNat n

theorem value_lt : ∀ (w : Width) (n : w.Carrier), w.value n < 2 ^ 64
  | w8, n => Nat.lt_trans (UInt8.toNat_lt n) (by decide)
  | w16, n => Nat.lt_trans (UInt16.toNat_lt n) (by decide)
  | w32, n => Nat.lt_trans (UInt32.toNat_lt n) (by decide)
  | w64, n => UInt64.toNat_lt n

@[simp] theorem cast_value : ∀ (w : Width) (n : w.Carrier), w.cast (w.value n) = n
  | w8, _ => UInt8.ofNat_toNat
  | w16, _ => UInt16.ofNat_toNat
  | w32, _ => UInt32.ofNat_toNat
  | w64, _ => UInt64.ofNat_toNat

end Width

inductive Ty
  | uint (w : Width)
  | u256
  | string
  | vector (t : Ty)
  | array (t : Ty) (N : Nat)
  | tuple (ts : List Ty)

namespace Ty

/-- `is_tuple` (`rlp.h:25-31`). -/
def is_tuple : Ty → Bool
  | tuple _ => true
  | _ => false

mutual

/-- The values of a type. -/
def Val : Ty → Type
  | uint w => w.Carrier
  | u256 => Word
  | string => Bytes
  | vector t => List t.Val
  | array t N => List.Vector t.Val N
  | tuple ts => Vals ts

/-- The values of a pack of types. -/
def Vals : List Ty → Type
  | [] => Unit
  | t :: ts => t.Val × Vals ts

end

end Ty

export Ty (Val Vals)

end EEVM.Rlp

import EEVM.Intx.Uint
/-!
# intx: multiplication (int128.hpp:267-317, intx.hpp:554-608)

| here | there |
| --- | --- |
| `umul64`, `constexpr_umul64` | `umul` and `constexpr_umul` of two `uint64_t` (`int128.hpp:288`, `:267`) |
| `umul_halves` | the template `umul`, and `constexpr_umul`, which is the same with `constexpr_umul` of the halves (`intx.hpp:555`, `:572`) |
| `Umul` | a type that has a `umul`, and that it is exact |
| `mul128`, `mul` | `operator*` of `uint<128>` (`int128.hpp:305`), and `mul`, the `operator*` of `uint<256>` (`intx.hpp:589`, `:658`) |
-/
namespace EEVM.Intx

open Halves

variable {H : Type}

/-! ## The full product -/

/-- Through `unsigned __int128`, which holds the product. -/
def umul64 (x y : UInt64) : Uint128 :=
  let p := x.toNat * y.toNat
  ⟨UInt64.ofNat (p / 2 ^ 64), UInt64.ofNat p⟩

/-- The portable one, by halves of 32 bits. -/
def constexpr_umul64 (x y : UInt64) : Uint128 :=
  let xl := x &&& 0xffffffff
  let xh := x >>> 32
  let yl := y &&& 0xffffffff
  let yh := y >>> 32
  let t0 := xl * yl
  let t1 := xh * yl
  let t2 := xl * yh
  let t3 := xh * yh
  let u1 := t1 + (t0 >>> 32)
  let u2 := t2 + (u1 &&& 0xffffffff)
  let lo := (u2 <<< 32) ||| (t0 &&& 0xffffffff)
  let hi := t3 + (u2 >>> 32) + (u1 >>> 32)
  ⟨hi, lo⟩

def umul_halves [Digit H] [Half (Uint H)] (umul : H → H → Uint H) (x y : Uint H) : Uint (Uint H) :=
  let t0 := umul x.lo y.lo
  let t1 := umul x.hi y.lo
  let t2 := umul x.lo y.hi
  let t3 := umul x.hi y.hi
  let u1 := t1 + widen t0.hi
  let u2 := t2 + widen u1.lo
  let lo := Half.shl u2 (num_bits (Uint H) / 2) ||| widen t0.lo
  let hi := t3 + widen u2.hi + widen u1.hi
  ⟨hi, lo⟩

class Umul (α : Type) [Digit α] where
  umul : α → α → Uint α
  value_umul : ∀ x y : α, value (umul x y) = value x * value y

export Umul (umul value_umul)

theorem value_umul64 (x y : UInt64) : value (umul64 x y) = x.toNat * y.toNat := by
  have hlt : x.toNat * y.toNat < 2 ^ 64 * 2 ^ 64 := Nat.mul_lt_mul'' x.toNat_lt y.toNat_lt
  rw [value_uint128, umul64, UInt64.toNat_ofNat', UInt64.toNat_ofNat', Nat.mod_eq_of_lt (Nat.div_lt_of_lt_mul hlt)]
  exact Nat.div_add_mod' _ _

instance : Umul UInt64 := ⟨umul64, value_umul64⟩

theorem lo_def [Digit H] [LawfulDigit H] (x : Uint H) : value x.lo = value x % 2 ^ num_bits H := by
  rw [value_def, join_mod (value_lt x.lo)]

theorem hi_def [Digit H] [LawfulDigit H] (x : Uint H) : value x.hi = value x / 2 ^ num_bits H := by
  rw [value_def, join_div (value_lt x.lo)]

/-- No sum in the template overflows. -/
theorem value_umul_halves [Digit H] [LawfulDigit H] [Half (Uint H)] [LawfulHalf (Uint H)] {umul : H → H → Uint H}
    (hu : ∀ x y, value (umul x y) = value x * value y) (x y : Uint H) :
    value (umul_halves umul x y) = value x * value y := by
  obtain ⟨x1, x0⟩ := x
  obtain ⟨y1, y0⟩ := y
  have hx1 := value_lt x1
  have hx0 := value_lt x0
  have hy1 := value_lt y1
  have hy0 := value_lt y0
  have hbits : num_bits (Uint H) = 2 * num_bits H := rfl
  obtain ⟨h, hh⟩ : ∃ h, h = num_bits H := ⟨_, rfl⟩
  have hdiv : value x0 * value y0 / 2 ^ h < 2 ^ h := Nat.div_lt_of_lt_mul (hh ▸ Nat.mul_lt_mul'' hx0 hy0)
  -- the two sums in the middle
  obtain ⟨u1, hu1⟩ : ∃ u1, u1 = umul x1 y0 + widen (umul x0 y0).hi := ⟨_, rfl⟩
  obtain ⟨u2, hu2⟩ : ∃ u2, u2 = umul x0 y1 + widen u1.lo := ⟨_, rfl⟩
  have v1 : value u1 = value x1 * value y0 + value x0 * value y0 / 2 ^ h := by
    rw [hu1, value_add, value_widen, hi_def, hu, hu, hbits, ← hh, Nat.mod_eq_of_lt]
    exact mul_add_lt (hh ▸ hx1) (hh ▸ hy0) hdiv
  have v2 : value u2 = value x0 * value y1 + value u1 % 2 ^ h := by
    rw [hu2, value_add, value_widen, lo_def, hu, hbits, ← hh, Nat.mod_eq_of_lt]
    exact mul_add_lt (hh ▸ hx0) (hh ▸ hy1) (Nat.mod_lt _ (Nat.two_pow_pos h))
  have hmul := join_mul (h := h) (a := value x1) (c := value y1) v1 v2
  have hlo : value (Half.shl u2 (num_bits (Uint H) / 2) ||| widen (umul x0 y0).lo) =
      join h (value u2 % 2 ^ h) (value x0 * value y0 % 2 ^ h) := by
    have hshl : value u2 * 2 ^ h % 2 ^ (2 * h) = value u2 % 2 ^ h * 2 ^ h := by
      rw [two_mul, pow_add, Nat.mul_mod_mul_right]
    rw [value_or, value_shl, value_widen, lo_def, hu, hbits, Nat.mul_div_cancel_left _ (by omega), ← hh, hshl,
      mul_two_pow_or _ (Nat.mod_lt _ (Nat.two_pow_pos h)), join]
  have hhi : value (umul x1 y1 + widen u2.hi + widen u1.hi) =
      value x1 * value y1 + value u2 / 2 ^ h + value u1 / 2 ^ h := by
    have hlt : value x1 * value y1 + value u2 / 2 ^ h + value u1 / 2 ^ h < 2 ^ (2 * h) := by
      have h1 : join h (value x1) (value x0) * join h (value y1) (value y0) < 2 ^ (2 * h) * 2 ^ (2 * h) :=
        Nat.mul_lt_mul'' (join_lt (hh ▸ hx1) (hh ▸ hx0)) (join_lt (hh ▸ hy1) (hh ▸ hy0))
      rw [← hmul] at h1
      exact Nat.lt_of_mul_lt_mul_right (Nat.lt_of_le_of_lt (Nat.le_add_right _ _) h1)
    rw [value_add, value_add, value_widen, value_widen, hi_def, hi_def, hu, hbits, ← hh, Nat.mod_add_mod,
      Nat.mod_eq_of_lt hlt]
  have hdef : umul_halves umul ⟨x1, x0⟩ ⟨y1, y0⟩ =
      ⟨umul x1 y1 + widen u2.hi + widen u1.hi, Half.shl u2 (num_bits (Uint H) / 2) ||| widen (umul x0 y0).lo⟩ := by
    rw [hu2, hu1]
    rfl
  rw [hdef, value_def, hhi, hlo, hbits, ← hh, hmul, value_def, value_def, hh]

instance [Digit H] [LawfulDigit H] [Half (Uint H)] [LawfulHalf (Uint H)] [Umul H] : Umul (Uint H) :=
  ⟨umul_halves umul, value_umul_halves value_umul⟩

/-! ## The portable product -/

theorem toNat_and_low (x : UInt64) : (x &&& 0xffffffff).toNat = x.toNat % 2 ^ 32 := by
  rw [UInt64.toNat_and]
  exact Nat.and_two_pow_sub_one_eq_mod _ 32

theorem toNat_shr_32 (x : UInt64) : (x >>> 32).toNat = x.toNat / 2 ^ 32 := Uint128.toNat_shr x (n := 32) (by decide)
theorem toNat_shl_32 (x : UInt64) : (x <<< 32).toNat = x.toNat * 2 ^ 32 % 2 ^ 64 := Uint128.toNat_shl x (n := 32) (by decide)

theorem toNat_mul_of_lt {x y : UInt64} (hx : x.toNat < 2 ^ 32) (hy : y.toNat < 2 ^ 32) :
    (x * y).toNat = x.toNat * y.toNat := by
  have hlt : x.toNat * y.toNat < 2 ^ 32 * 2 ^ 32 := Nat.mul_lt_mul'' hx hy
  rw [UInt64.toNat_mul, Nat.mod_eq_of_lt (by omega)]

theorem value_constexpr_umul64 (x y : UInt64) : value (constexpr_umul64 x y) = x.toNat * y.toNat := by
  have hx := x.toNat_lt
  have hy := y.toNat_lt
  obtain ⟨a, ha⟩ : ∃ a, a = x >>> 32 := ⟨_, rfl⟩
  obtain ⟨b, hb⟩ : ∃ b, b = x &&& 0xffffffff := ⟨_, rfl⟩
  obtain ⟨c, hc⟩ : ∃ c, c = y >>> 32 := ⟨_, rfl⟩
  obtain ⟨d, hd⟩ : ∃ d, d = y &&& 0xffffffff := ⟨_, rfl⟩
  have va : a.toNat < 2 ^ 32 := by rw [ha, toNat_shr_32]; omega
  have vb : b.toNat < 2 ^ 32 := by rw [hb, toNat_and_low]; omega
  have vc : c.toNat < 2 ^ 32 := by rw [hc, toNat_shr_32]; omega
  have vd : d.toNat < 2 ^ 32 := by rw [hd, toNat_and_low]; omega
  have hxy : join 32 a.toNat b.toNat = x.toNat ∧ join 32 c.toNat d.toNat = y.toNat := by
    rw [ha, hb, hc, hd, toNat_shr_32, toNat_and_low, toNat_shr_32, toNat_and_low]
    exact ⟨join_div_mod _, join_div_mod _⟩
  have hdiv : b.toNat * d.toNat / 2 ^ 32 < 2 ^ 32 := Nat.div_lt_of_lt_mul (Nat.mul_lt_mul'' vb vd)
  obtain ⟨u1, hu1⟩ : ∃ u1, u1 = a * d + (b * d) >>> 32 := ⟨_, rfl⟩
  obtain ⟨u2, hu2⟩ : ∃ u2, u2 = b * c + (u1 &&& 0xffffffff) := ⟨_, rfl⟩
  have v1 : u1.toNat = a.toNat * d.toNat + b.toNat * d.toNat / 2 ^ 32 := by
    rw [hu1, UInt64.toNat_add, toNat_shr_32, toNat_mul_of_lt va vd, toNat_mul_of_lt vb vd, Nat.mod_eq_of_lt]
    exact mul_add_lt va vd hdiv
  have v2 : u2.toNat = b.toNat * c.toNat + u1.toNat % 2 ^ 32 := by
    rw [hu2, UInt64.toNat_add, toNat_and_low, toNat_mul_of_lt vb vc, Nat.mod_eq_of_lt]
    exact mul_add_lt vb vc (Nat.mod_lt _ (by decide))
  have hmul := join_mul v1 v2
  rw [hxy.1, hxy.2] at hmul
  have hlo : ((u2 <<< 32) ||| (b * d &&& 0xffffffff)).toNat = join 32 (u2.toNat % 2 ^ 32) (b.toNat * d.toNat % 2 ^ 32) := by
    have hshl : u2.toNat * 2 ^ 32 % 2 ^ 64 = u2.toNat % 2 ^ 32 * 2 ^ 32 := Nat.mul_mod_mul_right (2 ^ 32) _ (2 ^ 32)
    rw [UInt64.toNat_or, toNat_shl_32, toNat_and_low, toNat_mul_of_lt vb vd, hshl,
      mul_two_pow_or _ (Nat.mod_lt _ (by decide)), join]
  have hhi : (a * c + u2 >>> 32 + u1 >>> 32).toNat = a.toNat * c.toNat + u2.toNat / 2 ^ 32 + u1.toNat / 2 ^ 32 := by
    have hlt : a.toNat * c.toNat + u2.toNat / 2 ^ 32 + u1.toNat / 2 ^ 32 < 2 ^ 64 := by
      have h1 : x.toNat * y.toNat < 2 ^ 64 * 2 ^ 64 := Nat.mul_lt_mul'' hx hy
      rw [← hmul] at h1
      exact Nat.lt_of_mul_lt_mul_right (Nat.lt_of_le_of_lt (Nat.le_add_right _ _) h1)
    rw [UInt64.toNat_add, UInt64.toNat_add, toNat_shr_32, toNat_shr_32, toNat_mul_of_lt va vc, Nat.mod_add_mod,
      Nat.mod_eq_of_lt hlt]
  have hdef : constexpr_umul64 x y =
      ⟨a * c + u2 >>> 32 + u1 >>> 32, (u2 <<< 32) ||| (b * d &&& 0xffffffff)⟩ := by
    rw [hu2, hu1, ha, hb, hc, hd]
    rfl
  rw [hdef, value_def, value_uint64, value_uint64, hhi, hlo]
  exact hmul

/-! ## The product that is cut off -/

/-- `operator*` of `uint<128>`, and with `constexpr_umul` its `constexpr_mul`. -/
def mul128 (umul : UInt64 → UInt64 → Uint128) (x y : Uint128) : Uint128 :=
  let p := umul x.lo y.lo
  ⟨p.hi + (x.lo * y.hi + x.hi * y.lo), p.lo⟩

def mul [Digit H] [Half H] [Mul H] (umul : H → H → Uint H) (a b : Uint H) : Uint H :=
  let t := umul a.lo b.lo
  let hi := a.lo * b.hi + a.hi * b.lo + t.hi
  ⟨hi, t.lo⟩

theorem value_mul128 {umul : UInt64 → UInt64 → Uint128} (hu : ∀ x y, value (umul x y) = value x * value y)
    (x y : Uint128) : value (mul128 umul x y) = value x * value y % 2 ^ 128 := by
  have hlo : (umul x.lo y.lo).lo.toNat = x.lo.toNat * y.lo.toNat % 2 ^ 64 := by
    rw [← value_uint64, lo_def, hu]
    rfl
  have hhi : (umul x.lo y.lo).hi.toNat = x.lo.toNat * y.lo.toNat / 2 ^ 64 := by
    rw [← value_uint64, hi_def, hu]
    rfl
  have h := join_mul_mod (h := 64) (a := x.hi.toNat) (b := x.lo.toNat) (c := y.hi.toNat) (d := y.lo.toNat)
  refine Eq.trans ?_ h
  rw [value_def, mul128, value_uint64, value_uint64, num_bits_uint64, UInt64.toNat_add, UInt64.toNat_add,
    UInt64.toNat_mul, UInt64.toNat_mul, hlo, hhi]
  simp only [Nat.add_mod_mod, Nat.mod_add_mod]
  rw [Nat.add_comm]

theorem value_mul [Digit H] [Half H] [LawfulHalf H] [Mul H] {umul : H → H → Uint H}
    (hu : ∀ x y, value (umul x y) = value x * value y)
    (hmul : ∀ x y : H, value (x * y) = value x * value y % 2 ^ num_bits H) (a b : Uint H) :
    value (mul umul a b) = value a * value b % 2 ^ num_bits (Uint H) := by
  have hlo : value (umul a.lo b.lo).lo = value a.lo * value b.lo % 2 ^ num_bits H := by rw [lo_def, hu]
  have hhi : value (umul a.lo b.lo).hi = value a.lo * value b.lo / 2 ^ num_bits H := by rw [hi_def, hu]
  rw [value_def a, value_def b, num_bits_def, ← join_mul_mod, value_def, mul, hlo, value_add, value_add, hmul, hmul, hhi]
  simp only [Nat.add_mod_mod, Nat.mod_add_mod]

instance : Mul Uint128 := ⟨mul128 umul⟩

theorem value_mul_uint128 (x y : Uint128) : value (x * y) = value x * value y % 2 ^ 128 := value_mul128 value_umul x y

instance : Mul Uint256 := ⟨mul umul⟩

theorem value_mul_uint256 (x y : Uint256) : value (x * y) = value x * value y % 2 ^ 256 :=
  value_mul value_umul value_mul_uint128 x y

/-- **The full product of 256 bits.** With the built-in product of two words or the portable one, it is exact. -/
theorem umul_exact (x y : Uint256) :
    value (umul x y) = value x * value y ∧ umul_halves (umul_halves constexpr_umul64) x y = umul x y := by
  have h : value (umul_halves (umul_halves constexpr_umul64) x y) = value x * value y :=
    value_umul_halves (value_umul_halves value_constexpr_umul64) x y
  exact ⟨value_umul x y, value_inj (h.trans (value_umul x y).symm)⟩

end EEVM.Intx

import EEVM.Change
import EEVM.Simple
import EEVM.Lib.TwosComplement
/-!
# Signed arithmetic (processor.cpp:33-36, 728-785, 826-886)

The words are unsigned; `sdiv`, `smod`, `slt`, `sgt` and `signextend` find the signs out by themselves. `Computes` says what
an instruction of two operands does to the stack; the values it is compared with are those of two's complement.
-/
namespace EEVM

open ExcState TwosComplement

/-! ## Instructions of two operands -/

namespace Processor

/-- In every state with `x` and `y` on top of the stack, the instruction `op` takes these and pushes `w`. -/
def Computes (op : Opcode) (x y w : Word) : Prop :=
  ∀ (W R : Type) [GlobalState W R] [Keccak] (p : Processor W R) (c : Context R) (cs : List (Context R)) (st : Stack),
    p.ctxts = c :: cs → c.next_op = some op → c.s = x :: y :: st →
    dispatch p = onCtxt (s_push w) { traced p c with ctxts := { c with s := st } :: cs }

end Processor

theorem Op.binary_cons {R : Type} {c : Context R} {x y : Word} {st : Stack} (f : Word → Word → Word)
    (h : c.s = x :: y :: st) : Op.binary f c = s_push (f x y) { c with s := st } := by
  have h1 : ({ c with s := y :: st } : Context R).s = y :: st := rfl
  rw [Op.binary, bind_of_ok (s_pop_of_cons h), bind_of_ok (s_pop_of_cons h1)]

/-- `SGT` exchanges the operands of `SLT`. -/
theorem Op.sgt_eq_slt {R : Type} {c : Context R} {x y : Word} {st : Stack} (h : c.s = x :: y :: st) :
    Op.sgt c = Op.slt { c with s := y :: x :: st } := by
  have hswap : onStack (Stack.swap 1) c = .ok () { c with s := y :: x :: st } := by
    simp [onStack, Stack.swap, h]
  rw [Op.sgt, bind_of_ok hswap]

namespace Processor

/-- A lone instruction with two words on the stack. -/
def lone (op : Opcode) (x y : Word) : Processor SimpleGlobalState Address :=
  { gs := {}, tx := { origin := 0 },
    ctxts := [{ as := 0, caller := 0, input := [], call_value := 0, prog := .ofCode [op.toByte], handlers := .run, s := [x, y] }] }

/-- What an instruction of the context on top computes is what it does to that context. -/
theorem computes_iff {op : Opcode} {m : ∀ R : Type, CtxM R Unit} {x y v : Word}
    (hexec : ∀ (W R : Type) [GlobalState W R] [Keccak], (exec op : M W R Unit) = onCtxt (m R))
    (hbyte : Opcode.ofByte op.toByte = some op)
    (hm : ∀ (R : Type) (c : Context R) (st : Stack), c.s = x :: y :: st → m R c = s_push v { c with s := st }) (w : Word) :
    Computes op x y w ↔ v = w := by
  have hd : Computes op x y v := by
    intro W R _ _ p c cs st hp hop hs
    have hp' : (traced p c).ctxts = c :: cs := hp
    have hp'' : ({ traced p c with ctxts := { c with s := st } :: cs } : Processor W R).ctxts = { c with s := st } :: cs := rfl
    rw [dispatch_eq hp, hop]
    simp only [hexec]
    rw [onCtxt_cons hp', onCtxt_cons hp'', hm R c st hs]
  constructor
  · intro h
    -- on a stack of these two words only, the results are seen apart
    have hop : (Opcode.ofByte ([op.toByte].getD 0 0)) = some op := hbyte
    have h1 := @hd _ _ _ no_hash (lone op x y) _ [] [] rfl hop rfl
    have h2 := @h _ _ _ no_hash (lone op x y) _ [] [] rfl hop rfl
    have heq : [[v]] = [[w]] := congrArg (fun r => (final r).ctxts.map Context.s) (h1.symm.trans h2)
    simpa using heq
  · rintro rfl
    exact hd

theorem computes_binary_iff {op : Opcode} {f : Word → Word → Word}
    (hexec : ∀ (W R : Type) [GlobalState W R] [Keccak], (exec op : M W R Unit) = onCtxt (Op.binary f))
    (hbyte : Opcode.ofByte op.toByte = some op) (x y w : Word) : Computes op x y w ↔ f x y = w :=
  computes_iff hexec hbyte (fun _ _ _ h => Op.binary_cons f h) w

/-! ## Signs -/

theorem get_sign_eq (v : Word) : Op.get_sign v = if v.msb = true then -1 else 1 := by
  have h : v >>> 255 ≠ 0 ↔ v.msb = true := by
    rw [BitVec.msb_eq_decide, decide_eq_true_iff, ne_eq, BitVec.toNat_eq, BitVec.toNat_ushiftRight, Nat.shiftRight_eq_div_pow]
    have hv := v.isLt
    simp only [BitVec.ofNat_eq_ofNat, BitVec.toNat_ofNat]
    omega
  unfold Op.get_sign
  simp only [h]

/-! ## Division and remainder -/

/-- What `SDIV` is for: the quotient of the signed values, rounded toward zero, as a word. -/
def signed_quotient (x y : Word) : Word := if y = 0 then 0 else BitVec.ofInt 256 (x.toInt.tdiv y.toInt)

/-- What `SMOD` is for: the remainder of that division, which has the sign of the dividend. -/
def signed_remainder (x y : Word) : Word := if y = 0 then 0 else BitVec.ofInt 256 (x.toInt.tmod y.toInt)

/-- Dividing the absolute values and then putting the sign right is signed division. -/
theorem sdiv_of_signs (x y : Word) :
    (let z := (if Op.get_sign x = -1 then 0 - x else x) / (if Op.get_sign y = -1 then 0 - y else y)
      if Op.get_sign x ≠ Op.get_sign y then 0 - z else z) = x.sdiv y := by
  rw [BitVec.sdiv_eq, get_sign_eq, get_sign_eq]
  cases x.msb <;> cases y.msb <;> simp

theorem srem_of_signs (x y : Word) :
    (let z := (if Op.get_sign x = -1 then 0 - x else x) % (if Op.get_sign y = -1 then 0 - y else y)
      if Op.get_sign x = -1 then 0 - z else z) = x.srem y := by
  rw [BitVec.srem_eq, get_sign_eq, get_sign_eq]
  cases x.msb <;> cases y.msb <;> simp

/-- **Signed division.** `SDIV` is exact but where the dividend is the least value and the divisor is 2^64 - 1, which the
literal `-1` of its special case stands for. -/
theorem sdiv_exact_iff (x y : Word) :
    Computes .SDIV x y (signed_quotient x y) ↔ ¬(x = BitVec.ofNat 256 (2 ^ 255) ∧ y = BitVec.ofNat 256 (2 ^ 64 - 1)) := by
  have hmin : BitVec.allOnes 256 / 2 + 1 = BitVec.ofNat 256 (2 ^ 255) := by decide
  have hone : word_of_int (-1) = BitVec.ofNat 256 (2 ^ 64 - 1) := by decide
  rw [computes_binary_iff (fun _ _ _ _ => rfl) (by decide)]
  simp only [hmin, hone, sdiv_of_signs, signed_quotient, ← sdiv_eq_ofInt]
  by_cases h : x = BitVec.ofNat 256 (2 ^ 255) ∧ y = BitVec.ofNat 256 (2 ^ 64 - 1)
  · obtain ⟨rfl, rfl⟩ := h
    decide
  · simp only [h, not_false_eq_true, if_false]

/-- -2^255 divided by 2^64 - 1 is said to be -2^255. -/
theorem sdiv_of_min_is_min : ¬∀ x y : Word, Computes .SDIV x y (signed_quotient x y) := by
  intro h
  have hmin := (computes_binary_iff (fun _ _ _ _ => rfl) (by decide) _ _ _).1
    (h (BitVec.ofNat 256 (2 ^ 255)) (BitVec.ofNat 256 (2 ^ 64 - 1)))
  exact absurd hmin (by decide)

/-! ## Comparison -/

/-- A comparison that looks at the signs first is one of the signed values. -/
theorem slt_of_signs (x y : Word) :
    (if x = y then 0
      else if Op.get_sign x ≠ Op.get_sign y then (if Op.get_sign x = -1 then 1 else 0) else Op.of_bool (x < y)) =
      Op.of_bool (x.toInt < y.toInt) := by
  by_cases he : x = y
  · subst he
    simp [Op.of_bool]
  rw [if_neg he, get_sign_eq, get_sign_eq]
  by_cases hm : x.msb = y.msb
  · simp [hm, toInt_lt_iff_of_msb_eq hm]
  · simp only [toInt_lt_iff_of_msb_ne hm]
    cases hx : x.msb <;> cases hy : y.msb <;> simp_all [Op.of_bool]

/-! ## Sign extension -/

/-- What `SIGNEXTEND` is for: the low `k + 1` bytes of `y`, read as a signed value. -/
def sign_extended (k y : Word) : Word :=
  if 31 ≤ k.toNat then y else BitVec.ofInt 256 (y.setWidth (8 * (k.toNat + 1))).toInt

theorem sign_extended_eq (k y : Word) : sign_extended k y = extend (8 * min k.toNat 31 + 7 + 1) y := by
  unfold sign_extended
  by_cases h : 31 ≤ k.toNat
  · rw [if_pos h, Nat.min_eq_right h]
    exact (extend_self y).symm
  · rw [if_neg h, Nat.min_eq_left (by omega)]
    rfl

/-- Below the sign bit the bits are kept, from it on they are the sign. -/
theorem extend_of_mask {n : Nat} (hn : n < 256) (y : Word) :
    ((if y >>> n &&& 1 ≠ 0 then ~~~(0 : Word) else 0) <<< n) ||| (y &&& ~~~(0 : Word) >>> (256 - n)) = extend (n + 1) y := by
  have hsign : y >>> n &&& 1 ≠ 0 ↔ y.getLsbD n = true := by
    have hone : (1 : Word) = 1#256 := rfl
    rw [hone, BitVec.and_one_eq_setWidth_ofBool_getLsbD, BitVec.getLsbD_ushiftRight, Nat.add_zero]
    cases y.getLsbD n <;> decide
  apply BitVec.eq_of_getLsbD_eq
  intro i hi
  rw [getLsbD_extend]
  simp only [hsign, BitVec.getLsbD_or, BitVec.getLsbD_shiftLeft, BitVec.getLsbD_and, BitVec.getLsbD_ushiftRight]
  have hones : ∀ j, (~~~(0 : Word)).getLsbD j = decide (j < 256) := by
    intro j
    have h0 : ~~~(0 : Word) = BitVec.allOnes 256 := by decide
    rw [h0, BitVec.getLsbD_allOnes]
  by_cases h : i < n
  · have h1 : 256 - n + i < 256 := by omega
    rw [hones, Nat.min_eq_left (by omega)]
    simp [h, h1, hi]
  · have h1 : ¬256 - n + i < 256 := by omega
    have h2 : i - n < 256 := by omega
    rw [hones, Nat.min_eq_right (by omega)]
    cases y.getLsbD n with
    | false => simp [h1]
    | true => simp only [if_true, hones, hi, h, h1, h2, decide_true, decide_false, Bool.not_false, Bool.and_true,
        Bool.and_false, Bool.or_false]

/-! ## The four instructions -/

theorem sgt_cons {R : Type} {c : Context R} {x y : Word} {st : Stack} (h : c.s = x :: y :: st) :
    Op.sgt c = s_push (Op.of_bool (y.toInt < x.toInt)) { c with s := st } := by
  have h1 : ({ c with s := y :: x :: st } : Context R).s = y :: x :: st := rfl
  rw [Op.sgt_eq_slt h, Op.slt, Op.binary_cons _ h1]
  simp only [slt_of_signs]

/-- What the two's complement reading of words asks of four instructions. -/
structure SignedReading : Prop where
  smod : ∀ x m, Computes .SMOD x m (signed_remainder x m)
  slt : ∀ x y, Computes .SLT x y (Op.of_bool (x.toInt < y.toInt))
  sgt : ∀ x y, Computes .SGT x y (Op.of_bool (x.toInt > y.toInt))
  signextend : ∀ k y, Computes .SIGNEXTEND k y (sign_extended k y)
  signextend_twice : ∀ j k y, Computes .SIGNEXTEND j (sign_extended k y) (sign_extended (if j ≤ k then j else k) y)

theorem computes_signextend (k y : Word) : Computes .SIGNEXTEND k y (sign_extended k y) := by
  rw [computes_binary_iff (fun _ _ _ _ => rfl) (by decide)]
  by_cases hk : k.toNat ≥ 32
  · simp only [if_pos hk, sign_extended, if_pos (show 31 ≤ k.toNat by omega)]
  · have hmod : k.toNat % 2 ^ 8 = k.toNat := Nat.mod_eq_of_lt (by omega)
    simp only [if_neg hk, hmod]
    rw [extend_of_mask (by omega), sign_extended_eq, Nat.min_eq_left (by omega)]

theorem sign_extended_twice (j k y : Word) :
    sign_extended j (sign_extended k y) = sign_extended (if j ≤ k then j else k) y := by
  have hmin : min (8 * min j.toNat 31 + 7) (8 * min k.toNat 31 + 7) = 8 * min (min j.toNat k.toNat) 31 + 7 := by omega
  have hif : (if j ≤ k then j else k).toNat = min j.toNat k.toNat := by
    split
    · rw [Nat.min_eq_left (BitVec.le_def.1 ‹_›)]
    · rw [Nat.min_eq_right (by have := BitVec.lt_def.1 (BitVec.not_le.1 ‹_›); omega)]
  rw [sign_extended_eq, sign_extended_eq, sign_extended_eq, extend_extend, hmin, hif]

/-- **Two's complement.** `SMOD`, `SLT`, `SGT` and `SIGNEXTEND` are exact on all words. -/
theorem signed_reading : SignedReading := by
  constructor
  · intro x m
    rw [computes_binary_iff (fun _ _ _ _ => rfl) (by decide)]
    simp only [srem_of_signs, signed_remainder, ← srem_eq_ofInt]
  · intro x y
    rw [computes_binary_iff (fun _ _ _ _ => rfl) (by decide)]
    exact slt_of_signs x y
  · intro x y
    rw [computes_iff (fun _ _ _ _ => rfl) (by decide) fun _ _ _ h => sgt_cons h]
  · exact computes_signextend
  · intro j k y
    rw [← sign_extended_twice]
    exact computes_signextend j _

end Processor

end EEVM

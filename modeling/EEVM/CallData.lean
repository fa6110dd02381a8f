import EEVM.FrameMemory
/-!
# Reading the call data (processor.cpp:1035-1066)

`CALLDATALOAD` shifts bytes of the input into a word; `CALLDATACOPY` copies them to the memory, from where `MLOAD` reads a
word. Both spell the same 32 bytes of the input, with zeros past its end.
-/
namespace EEVM

open ExcState BigEndian

/-! ## The loop of `calldataload` -/

theorem toNat_shift_add {v : Word} {n : Nat} (hn : n < 32) (hv : v.toNat < 256 ^ n) (b : UInt8) :
    ((v <<< 8) + BitVec.ofNat 256 b.toNat).toNat = v.toNat * 256 + b.toNat := by
  have hb := b.toNat_lt
  have hpow : 256 ^ n * 256 ≤ 256 ^ 32 := by
    rw [← pow_succ]
    exact Nat.pow_le_pow_right (by decide) hn
  have hmax : (256 : Nat) ^ 32 = 2 ^ 256 := by decide
  rw [BitVec.toNat_add, BitVec.toNat_shiftLeft, BitVec.toNat_ofNat, Nat.shiftLeft_eq]
  omega

theorem toNat_shift_rest {v : Word} {n k : Nat} (hv : v.toNat < 256 ^ n) (hk : n + k = 32) :
    (v <<< (8 * k)).toNat = v.toNat * 256 ^ k := by
  have hpow : 256 ^ n * 256 ^ k = 2 ^ 256 := by
    rw [← pow_add, hk]
    decide
  have hpos : 0 < 256 ^ k := Nat.pow_pos (by decide)
  rw [BitVec.toNat_shiftLeft, Nat.shiftLeft_eq, pow_mul, show (2 : Nat) ^ 8 = 256 from rfl, Nat.mod_eq_of_lt]
  rw [← hpow]
  exact Nat.mul_lt_mul_of_pos_right hv hpos

/-- With `n` bytes to go, `v` holds what has been read, and the loop appends the rest. -/
theorem toNat_calldataload_loop (input : Bytes) (offset : Nat) {n : Nat} (hn : n ≤ 32) {v : Word} (hv : v.toNat < 256 ^ (32 - n)) :
    (Op.calldataload_loop input offset n v).toNat =
      v.toNat * 256 ^ n + ofBytes (copied input (offset + (32 - n)) n 0) := by
  induction n generalizing v with
  | zero => simp [Op.calldataload_loop, copied]
  | succ n ih =>
    have hstep : offset + (32 - (n + 1)) + 1 = offset + (32 - n) := by omega
    have hexp : 32 - n = 32 - (n + 1) + 1 := by omega
    unfold Op.calldataload_loop
    simp only []
    split
    · have hadd := toNat_shift_add (by omega) hv (input.getD (offset + (32 - (n + 1))) 0)
      have hb := (input.getD (offset + (32 - (n + 1))) 0).toNat_lt
      rw [ih (by omega), hadd, copied_succ, hstep, ofBytes_cons, length_copied, pow_succ]
      · ring
      · rw [hadd, hexp, pow_succ]
        omega
    · rename_i hpast
      -- the input has ended: the last shift is for the zeros that are missing
      rw [toNat_shift_rest hv (by omega), copied_of_le (Nat.le_of_not_lt hpast), ofBytes_replicate_zero]
      rfl

/-- The word that the 32 bytes of the input from `off` on spell, with zeros past its end. -/
def data_word (input : Bytes) (off : Nat) : Word := from_big_endian (copied input off 32 0)

theorem calldataload_loop_eq (input : Bytes) (off : Nat) : Op.calldataload_loop input off 32 0 = data_word input off := by
  have hlt := ofBytes_lt (copied input off 32 0)
  rw [length_copied] at hlt
  have hloop := toNat_calldataload_loop input off (n := 32) (by decide) (v := 0) (by decide)
  apply BitVec.eq_of_toNat_eq
  rw [hloop, data_word, from_big_endian, BitVec.toNat_ofNat, Nat.mod_eq_of_lt (Nat.lt_of_lt_of_eq hlt (by decide))]
  simp

section

variable {R : Type} {c : Context R} {st : Stack} {o m : Word}

theorem calldataload_of_lt (hs : c.s = o :: st) (ho : o.toNat + 32 < 2 ^ 64) :
    Op.calldataload c = s_push (data_word c.input o.toNat) { c with s := st } := by
  have ho64 : o.toNat < 2 ^ 64 := by omega
  have hsafe : safeAdd o.toUInt64 WORD_SIZE { c with s := st } = .ok (o.toUInt64 + WORD_SIZE) { c with s := st } := by
    have hsum : (o.toUInt64 + WORD_SIZE).toNat = o.toNat + 32 := by
      rw [UInt64.toNat_add, toNat_toUInt64 ho64]
      exact Nat.mod_eq_of_lt ho
    have hno : ¬o.toUInt64 + WORD_SIZE < o.toUInt64 := by
      rw [UInt64.lt_iff_toNat_lt, hsum, toNat_toUInt64 ho64]
      omega
    simp only [safeAdd, if_neg hno, run_pure]
  rw [Op.calldataload, bind_of_ok (s_pop64_of_lt hs ho64), bind_of_ok hsafe, bind_of_ok (run_get _), toNat_toUInt64 ho64,
    calldataload_loop_eq]

/-- The 32 bytes from `o` on are copied to `m`, where they are read. -/
theorem calldatacopy_of_le (hs : c.s = m :: o :: 32 :: st) (hlen : c.input.length < 2 ^ 63) (ho : o.toNat + 32 < 2 ^ 64)
    (hm : m.toNat + 32 ≤ 2 ^ 25) : ∃ mem, Op.calldatacopy c = .ok () { c with s := st, mem } ∧
      m.toNat + 32 ≤ mem.length ∧ (mem.drop m.toNat).take 32 = copied c.input o.toNat 32 0 := by
  have hm64 : m.toUInt64.toNat = m.toNat := toNat_toUInt64 (by omega)
  have hn : (32 : Word).toUInt64.toNat = 32 := rfl
  have hperf := copy_mem_performs hs (by omega) (by omega) (by decide) (by decide) hlen 0
  have hok := hperf.fits (show m.toUInt64.toNat + 32 ≤ MAX_MEM_SIZE.toNat by rw [hm64]; exact hm)
  have hbs : (copied c.input o.toNat 32 0).length = 32 := length_copied _ _ _ _
  have hroom : m.toNat + 32 ≤ (grow c.mem (m.toNat + 32)).length := by
    rw [length_grow]
    omega
  refine ⟨overwrite (grow c.mem (m.toNat + 32)) m.toNat (copied c.input o.toNat 32 0), ?_, ?_, ?_⟩
  · rw [show Op.calldatacopy c = copy_mem c.input 0 c from rfl, hok, MemAccess.apply, MemAccess.last, hn, hm64]
    rfl
  · rw [length_overwrite (by rw [hbs]; exact hroom)]
    exact hroom
  · have hread : ((overwrite (grow c.mem (m.toNat + 32)) m.toNat (copied c.input o.toNat 32 0)).drop m.toNat).take
        (copied c.input o.toNat 32 0).length = copied c.input o.toNat 32 0 := take_drop_overwrite (by rw [hbs]; exact hroom)
    rwa [hbs] at hread

theorem mload_of_le (hs : c.s = m :: st) (hm : m.toNat + 32 ≤ 2 ^ 25) (hmem : m.toNat + 32 ≤ c.mem.length) :
    Op.mload c = s_push (from_big_endian ((c.mem.drop m.toNat).take 32)) { c with s := st } := by
  have hm64 : m.toUInt64.toNat = m.toNat := toNat_toUInt64 (by omega)
  have hperf := mload_performs hs (by omega)
  have hok := hperf.fits (show m.toUInt64.toNat + 32 ≤ MAX_MEM_SIZE.toNat by rw [hm64]; exact hm)
  have happly : MemAccess.apply ⟨m.toUInt64, WORD_SIZE, .read from_big_endian⟩ c.mem = c.mem := by
    apply grow_of_le
    rw [MemAccess.last, hm64]
    exact hmem
  rw [hok, happly, ← hm64]
  rfl

end

namespace Processor

variable {W R : Type} [GlobalState W R] [Keccak]

/-- In a frame with that input `CALLDATALOAD` of `off` pushes `w`, and so does `MLOAD` of `m` once `CALLDATACOPY` has copied
32 bytes from `off` to `m`. -/
structure Spells (W R : Type) [GlobalState W R] [Keccak] (input : Bytes) (off m w : Word) : Prop where
  load : ∀ (p : Processor W R) c cs st, p.ctxts = c :: cs → c.next_op = some .CALLDATALOAD → c.input = input → c.s = off :: st →
    dispatch p = onCtxt (s_push w) { traced p c with ctxts := { c with s := st } :: cs }
  copy_load : ∀ (p : Processor W R) c cs st, p.ctxts = c :: cs → c.next_op = some .CALLDATACOPY → c.input = input →
    c.s = m :: off :: 32 :: st →
    ∃ mem, dispatch p = .ok () { traced p c with ctxts := { c with s := st, mem } :: cs } ∧
      ∀ (p' : Processor W R) c' cs' st', p'.ctxts = c' :: cs' → c'.next_op = some .MLOAD → c'.mem = mem → c'.s = m :: st' →
        dispatch p' = onCtxt (s_push w) { traced p' c' with ctxts := { c' with s := st' } :: cs' }

/-- **Call data.** `CALLDATALOAD` agrees with `CALLDATACOPY` and `MLOAD`, on the value of the 32 bytes. A vector has less than
2^63 bytes. -/
theorem calldataload_agrees (input : Bytes) (off m : Word) (hlen : input.length < 2 ^ 63) (hoff : off.toNat + 32 < 2 ^ 64)
    (hm : m.toNat + 32 ≤ 2 ^ 25) : Spells W R input off m (data_word input off.toNat) := by
  constructor
  · rintro p c cs st hp hop rfl hs
    have hdispatch := dispatch_eq hp
    rw [hop] at hdispatch
    change dispatch p = onCtxt Op.calldataload (traced p c) at hdispatch
    rw [hdispatch]
    exact onCtxt_congr hp (calldataload_of_lt hs hoff)
  · rintro p c cs st hp hop rfl hs
    obtain ⟨mem, hcopy, hroom, hread⟩ := calldatacopy_of_le hs hlen hoff hm
    have hdispatch := dispatch_eq hp
    rw [hop] at hdispatch
    change dispatch p = onCtxt Op.calldatacopy (traced p c) at hdispatch
    refine ⟨mem, ?_, ?_⟩
    · rw [hdispatch, onCtxt_cons (show (traced p c).ctxts = c :: cs from hp), hcopy]
    · rintro p' c' cs' st' hp' hop' rfl hs'
      have hdispatch' := dispatch_eq hp'
      rw [hop'] at hdispatch'
      change dispatch p' = onCtxt Op.mload (traced p' c') at hdispatch'
      rw [hdispatch', data_word, ← hread]
      exact onCtxt_congr hp' (mload_of_le hs' hm hroom)

omit [Keccak] in
/-- A window that straddles the end of the input. -/
theorem calldataload_agrees_past_end :
    @Spells SimpleGlobalState Address _ no_hash [1, 2, 3] 1 64 (data_word [1, 2, 3] 1) ∧
      data_word [1, 2, 3] 1 = 0x0203 <<< 240 :=
  ⟨@calldataload_agrees _ _ _ no_hash [1, 2, 3] 1 64 (by decide) (by decide) (by decide), rfl⟩

end Processor

end EEVM

import EEVM.Handlers
import EEVM.Memory
import EEVM.Simple
/-!
# The memory of a frame (processor.cpp:289-367, 969-996, 1014-1066, 1185-1194)

Seven instructions read the memory of their context or write to it, through `prepare_mem_access` or `copy_mem_raw`. What one
of them does with its operands is an `MemAccess`: a range, and what is written there or what word is made of the bytes there.
A sequence of accesses does to the memory what it does to an array of zeros without an end (`memory_refines_array`).
-/
namespace EEVM

open ExcState Writes

/-! ## Accesses -/

/-- Bytes are written to a range, or read from it to be turned into a word that is pushed. -/
inductive AccessKind
  | write (bs : Bytes)
  | read (f : Bytes → Word)

structure MemAccess where
  off : UInt64
  size : UInt64
  kind : AccessKind

namespace MemAccess

/-- The first address after the range. -/
def last (a : MemAccess) : Nat := a.off.toNat + a.size.toNat

/-- The range ends within the limit, over the integers. -/
def Fits (a : MemAccess) : Prop := a.last ≤ MAX_MEM_SIZE.toNat

/-- What becomes of the memory. -/
def apply (a : MemAccess) (mem : Bytes) : Bytes :=
  match a.kind with
  | .write bs => overwrite (grow mem a.last) a.off.toNat bs
  | .read _ => grow mem a.last

/-- What is written to the array. -/
def toWrite (a : MemAccess) : Write Nat UInt8 :=
  match a.kind with
  | .write bs => block a.off.toNat bs
  | .read _ => fun _ => none

/-- A write fills its range. -/
def Exact (a : MemAccess) : Prop := ∀ bs, a.kind = .write bs → bs.length = a.size.toNat

theorem length_apply {a : MemAccess} (h : a.Exact) (mem : Bytes) : (a.apply mem).length = max mem.length a.last := by
  have hlen := length_grow mem a.last
  cases hk : a.kind with
  | write bs =>
    have hbs := h bs hk
    simp only [apply, hk]
    rw [length_overwrite, hlen]
    unfold last at hlen ⊢
    omega
  | read f => simp only [apply, hk, hlen]

theorem getD_apply {a : MemAccess} (h : a.Exact) (mem : Bytes) (k : Nat) :
    (a.apply mem).getD k 0 = (a.toWrite k).getD (mem.getD k 0) := by
  have hlen := length_grow mem a.last
  cases hk : a.kind with
  | write bs =>
    have hbs := h bs hk
    simp only [apply, toWrite, hk]
    rw [getD_overwrite, getD_grow]
    unfold last at hlen ⊢
    omega
  | read f =>
    simp only [apply, toWrite, hk]
    exact getD_grow mem a.last k

/-- What the instruction does after it has accessed the memory. -/
def report {R : Type} (a : MemAccess) : CtxM R Unit :=
  match a.kind with
  | .write _ => pure ()
  | .read f => do
    let c ← get
    s_push (f ((c.mem.drop a.off.toNat).take a.size.toNat))

end MemAccess

/-! ## The array -/

variable {a : MemAccess} {mem : Bytes}

/-- The largest end of an access. -/
def extent (l : List MemAccess) : Nat := (l.map MemAccess.last).foldl max 0

/-- What an array of zeros without an end becomes. -/
def array (l : List MemAccess) : Nat → UInt8 := value (fun _ => 0) (l.map MemAccess.toWrite)

/-- What an access reads of an array. -/
def bytes_at (f : Nat → UInt8) (a : MemAccess) : Bytes := (List.range a.size.toNat).map fun i => f (a.off.toNat + i)

/-- The smallest multiple of 32 that is not below `n`. -/
def words_up (n : Nat) : Nat := (n + 31) / 32 * 32

theorem extent_append (l : List MemAccess) (a : MemAccess) : extent (l ++ [a]) = max (extent l) a.last := by
  simp [extent]

theorem array_append (l : List MemAccess) (a : MemAccess) (k : Nat) :
    array (l ++ [a]) k = (a.toWrite k).getD (array l k) := by
  rw [array, List.map_append, List.map_singleton, value_append]
  rfl

theorem extent_le_append (l l' : List MemAccess) : extent l ≤ extent (l ++ l') := by
  induction l' using List.reverseRecOn with
  | nil => rw [List.append_nil]
  | append_singleton l' a ih =>
    rw [← List.append_assoc, extent_append]
    exact Nat.le_trans ih (Nat.le_max_left _ _)

theorem words_up_le {n m : Nat} (h : n ≤ m) : words_up n ≤ words_up m :=
  Nat.mul_le_mul_right 32 (Nat.div_le_div_right (Nat.add_le_add_right h 31))

/-- What is read of a vector that reaches to the end of the range. -/
theorem read_eq_bytes_at {f : Nat → UInt8} (hmem : ∀ k, mem.getD k 0 = f k) (hlast : a.last ≤ mem.length) :
    (mem.drop a.off.toNat).take a.size.toNat = bytes_at f a := by
  have hcopied := copied_eq mem a.off.toNat a.size.toNat 0
  unfold MemAccess.last at hlast
  rw [show a.size.toNat - (mem.length - a.off.toNat) = 0 by omega, List.replicate_zero, List.append_nil] at hcopied
  rw [← hcopied, copied, bytes_at]
  simp only [hmem]

theorem bytes_at_written {o : UInt64} {bs : Bytes} {f : Bytes → Word} {n : UInt64} (hbs : bs.length = n.toNat) (l : List MemAccess) :
    bytes_at (array (l ++ [⟨o, n, .write bs⟩])) ⟨o, n, .read f⟩ = bs := by
  ext1 i
  simp only [bytes_at, List.getElem?_map, array_append, MemAccess.toWrite, block]
  by_cases hi : i < n.toNat
  · have hget : bs[i]? = some bs[i] := List.getElem?_eq_getElem (by omega)
    rw [List.getElem?_range hi, Option.map_some, if_pos (Nat.le_add_right _ _), Nat.add_sub_cancel_left, hget]
    rfl
  · have hget : bs[i]? = none := List.getElem?_eq_none (by omega)
    rw [List.getElem?_eq_none (by rw [List.length_range]; omega), hget]
    rfl

theorem from_to_big_endian (w : Word) : from_big_endian (to_big_endian w) = w := by
  rw [from_big_endian, to_big_endian, BigEndian.ofBytes_toBytes]
  apply BitVec.eq_of_toNat_eq
  simpa using w.isLt

/-! ## What each instruction does -/

/-- `m` carries out the access and leaves the stack `st`; where the range does not fit it raises an exception. -/
structure Performs {R : Type} (m : CtxM R Unit) (c : Context R) (a : MemAccess) (st : Stack) : Prop where
  fits : a.Fits → m c = a.report { c with s := st, mem := a.apply c.mem }
  refused : ¬a.Fits → ∃ ex, m c = .error (.exception ex) { c with s := st }

section

variable {R : Type} {c : Context R} {st : Stack} {o v d s n : Word}

theorem mload_performs (hs : c.s = o :: st) (ho : o.toNat < 2 ^ 64) :
    Performs Op.mload c ⟨o.toUInt64, WORD_SIZE, .read from_big_endian⟩ st := by
  constructor
  · intro h
    rw [Op.mload, bind_of_ok (s_pop64_of_lt hs ho), bind_of_ok (prepare_mem_access_of_le h _)]
    rfl
  · intro h
    obtain ⟨ex, hx⟩ := prepare_mem_access_of_lt (Nat.lt_of_not_le h) { c with s := st }
    exact ⟨ex, by rw [Op.mload, bind_of_ok (s_pop64_of_lt hs ho), bind_of_error hx]⟩

theorem mstore_performs (hs : c.s = o :: v :: st) (ho : o.toNat < 2 ^ 64) :
    Performs Op.mstore c ⟨o.toUInt64, WORD_SIZE, .write (to_big_endian v)⟩ st := by
  have hpop : s_pop { c with s := v :: st } = .ok v { c with s := st } := s_pop_of_cons rfl
  constructor
  · intro h
    rw [Op.mstore, bind_of_ok (s_pop64_of_lt hs ho), bind_of_ok hpop, bind_of_ok (prepare_mem_access_of_le h _)]
    rfl
  · intro h
    obtain ⟨ex, hx⟩ := prepare_mem_access_of_lt (Nat.lt_of_not_le h) { c with s := st }
    exact ⟨ex, by rw [Op.mstore, bind_of_ok (s_pop64_of_lt hs ho), bind_of_ok hpop, bind_of_error hx]⟩

theorem mstore8_performs (hs : c.s = o :: v :: st) (ho : o.toNat < 2 ^ 64) :
    Performs Op.mstore8 c ⟨o.toUInt64, 1, .write [UInt8.ofNat v.toNat]⟩ st := by
  have hpop : s_pop { c with s := v :: st } = .ok v { c with s := st } := s_pop_of_cons rfl
  constructor
  · intro h
    have hset : (grow c.mem (o.toUInt64.toNat + 1)).set o.toUInt64.toNat (UInt8.ofNat v.toNat) =
        overwrite (grow c.mem (o.toUInt64.toNat + 1)) o.toUInt64.toNat [UInt8.ofNat v.toNat] := by
      apply set_eq_overwrite
      rw [length_grow]
      omega
    rw [Op.mstore8, bind_of_ok (s_pop64_of_lt hs ho), bind_of_ok hpop, bind_of_ok (prepare_mem_access_of_le h _)]
    change EStateM.Result.ok () { c with s := st, mem := (grow c.mem (o.toUInt64.toNat + 1)).set _ _ } = _
    rw [hset]
    rfl
  · intro h
    obtain ⟨ex, hx⟩ := prepare_mem_access_of_lt (Nat.lt_of_not_le h) { c with s := st }
    exact ⟨ex, by rw [Op.mstore8, bind_of_ok (s_pop64_of_lt hs ho), bind_of_ok hpop, bind_of_error hx]⟩

theorem sha3_performs [Keccak] (hs : c.s = o :: n :: st) (ho : o.toNat < 2 ^ 64) (hn : n.toNat < 2 ^ 64) :
    Performs Op.sha3 c ⟨o.toUInt64, n.toUInt64, .read fun bs => from_big_endian (keccak_256 bs).toList⟩ st := by
  have hpop : s_pop64 { c with s := n :: st } = .ok n.toUInt64 { c with s := st } := s_pop64_of_lt rfl hn
  constructor
  · intro h
    rw [Op.sha3, Op.sha3_by, bind_of_ok (s_pop64_of_lt hs ho), bind_of_ok hpop, bind_of_ok (prepare_mem_access_of_le h _)]
    rfl
  · intro h
    obtain ⟨ex, hx⟩ := prepare_mem_access_of_lt (Nat.lt_of_not_le h) { c with s := st }
    exact ⟨ex, by rw [Op.sha3, Op.sha3_by, bind_of_ok (s_pop64_of_lt hs ho), bind_of_ok hpop, bind_of_error hx]⟩

/-- The copy instructions, when there is something to copy. A vector has less than 2^63 bytes. -/
theorem copy_mem_performs (hs : c.s = d :: s :: n :: st) (hd : d.toNat < 2 ^ 64) (hs64 : s.toNat < 2 ^ 64)
    (hn : n.toNat < 2 ^ 64) (h0 : n ≠ 0) {src : Bytes} (hsrc : src.length < 2 ^ 63) (pad : UInt8) :
    Performs (copy_mem src pad) c ⟨d.toUInt64, n.toUInt64, .write (copied src s.toNat n.toNat pad)⟩ st := by
  have hpop : s_pop64 { c with s := s :: n :: st } = .ok s.toUInt64 { c with s := n :: st } := s_pop64_of_lt rfl hs64
  have hpop' : s_pop64 { c with s := n :: st } = .ok n.toUInt64 { c with s := st } := s_pop64_of_lt rfl hn
  have h0' : n.toUInt64 ≠ 0 := by
    intro h
    apply h0
    apply BitVec.eq_of_toNat_eq
    rw [← toNat_toUInt64 hn, h]
    rfl
  constructor
  · intro h
    obtain ⟨bs, -, hbs, hcopy⟩ := copy_mem_raw_of_le h0' h s.toUInt64 c.mem src pad
    rw [hbs hsrc, toNat_toUInt64 hs64, toNat_toUInt64 hn] at hcopy
    rw [copy_mem, copy_mem_by, bind_of_ok (s_pop64_of_lt hs hd), bind_of_ok hpop, bind_of_ok hpop']
    simp only [copy_to_mem, hcopy, MemAccess.report, MemAccess.apply, MemAccess.last, toNat_toUInt64 hn]
    rfl
  · intro h
    obtain ⟨ex, hx⟩ := copy_mem_raw_of_lt h0' (Nat.lt_of_not_le h) s.toUInt64 c.mem src pad
    refine ⟨ex, ?_⟩
    rw [copy_mem, copy_mem_by, bind_of_ok (s_pop64_of_lt hs hd), bind_of_ok hpop, bind_of_ok hpop']
    simp only [copy_to_mem, hx]

end

namespace Processor

/-! ## Sequences -/

/-- The code that `EXTCODECOPY` copies: that of the account the low 160 bits of the word are the address of. -/
def ext_code {W R : Type} [GlobalState W R] (gs : W) (w : Word) : Code :=
  let found := GlobalState.get (w &&& (((1 : Word) <<< 160) - 1)) gs
  get_code found.1 found.2

/-- The instruction at the pc of `c`, with its operands on the stack and the world `gs`, makes the access and leaves the
stack `st`. What is copied from is a vector, and has less than 2^63 bytes. -/
inductive Accesses {W R : Type} [GlobalState W R] [Keccak] (gs : W) (c : Context R) : MemAccess → Stack → Prop
  | mload {o st} (hop : c.next_op = some .MLOAD) (hs : c.s = o :: st) (ho : o.toNat < 2 ^ 64) :
    Accesses gs c ⟨o.toUInt64, WORD_SIZE, .read from_big_endian⟩ st
  | mstore {o v st} (hop : c.next_op = some .MSTORE) (hs : c.s = o :: v :: st) (ho : o.toNat < 2 ^ 64) :
    Accesses gs c ⟨o.toUInt64, WORD_SIZE, .write (to_big_endian v)⟩ st
  | mstore8 {o v st} (hop : c.next_op = some .MSTORE8) (hs : c.s = o :: v :: st) (ho : o.toNat < 2 ^ 64) :
    Accesses gs c ⟨o.toUInt64, 1, .write [UInt8.ofNat v.toNat]⟩ st
  | sha3 {o n st} (hop : c.next_op = some .SHA3) (hs : c.s = o :: n :: st) (ho : o.toNat < 2 ^ 64) (hn : n.toNat < 2 ^ 64)
      (h0 : n ≠ 0) : Accesses gs c ⟨o.toUInt64, n.toUInt64, .read fun bs => from_big_endian (keccak_256 bs).toList⟩ st
  | codecopy {d s n st} (hop : c.next_op = some .CODECOPY) (hs : c.s = d :: s :: n :: st) (hd : d.toNat < 2 ^ 64)
      (hs64 : s.toNat < 2 ^ 64) (hn : n.toNat < 2 ^ 64) (h0 : n ≠ 0) (hsrc : c.prog.code.length < 2 ^ 63) :
    Accesses gs c ⟨d.toUInt64, n.toUInt64, .write (copied c.prog.code s.toNat n.toNat 0)⟩ st
  | calldatacopy {d s n st} (hop : c.next_op = some .CALLDATACOPY) (hs : c.s = d :: s :: n :: st) (hd : d.toNat < 2 ^ 64)
      (hs64 : s.toNat < 2 ^ 64) (hn : n.toNat < 2 ^ 64) (h0 : n ≠ 0) (hsrc : c.input.length < 2 ^ 63) :
    Accesses gs c ⟨d.toUInt64, n.toUInt64, .write (copied c.input s.toNat n.toNat 0)⟩ st
  | extcodecopy {w d s n st} (hop : c.next_op = some .EXTCODECOPY) (hs : c.s = w :: d :: s :: n :: st)
      (hd : d.toNat < 2 ^ 64) (hs64 : s.toNat < 2 ^ 64) (hn : n.toNat < 2 ^ 64) (h0 : n ≠ 0)
      (hsrc : (ext_code gs w).length < 2 ^ 63) :
    Accesses gs c ⟨d.toUInt64, n.toUInt64, .write (copied (ext_code gs w) s.toNat n.toNat 0)⟩ st

variable {W R : Type} {p q : Processor W R} {c c' : Context R} {cs : List (Context R)} {st : Stack} {l : List MemAccess}

theorem onCtxt_congr {m m' : CtxM R Unit} (hp : p.ctxts = c :: cs) (h : m c = m' c') :
    onCtxt m p = onCtxt m' { p with ctxts := c' :: cs } := by
  rw [onCtxt_cons hp, onCtxt_cons rfl, h]

/-- Reporting does not touch the memory. -/
theorem mem_of_report {q' : Processor W R} {cs' : List (Context R)} (hq : q.ctxts = c :: cs)
    (h : onCtxt a.report q = .ok () q') (hq' : q'.ctxts = c' :: cs') : c'.mem = c.mem := by
  rw [onCtxt_cons hq] at h
  cases hk : a.kind with
  | write bs =>
    simp only [MemAccess.report, hk, run_pure] at h
    cases h
    cases hq'
    rfl
  | read f =>
    simp only [MemAccess.report, hk] at h
    rw [bind_of_ok (run_get c)] at h
    rcases s_push_cases (f ((c.mem.drop a.off.toNat).take a.size.toNat)) c with ⟨-, hpush⟩ | ⟨-, ex, hpush⟩
    all_goals rw [hpush] at h
    · cases h
      cases hq'
      rfl
    · cases h

variable [GlobalState W R] [Keccak]

theorem Accesses.exact {gs : W} (h : Accesses gs c a st) : a.Exact := by
  intro bs hk
  cases h with
  | mload | sha3 => exact absurd hk AccessKind.noConfusion
  | mstore =>
    rw [← AccessKind.write.inj hk]
    exact BigEndian.length_toBytes 32 _
  | mstore8 =>
    rw [← AccessKind.write.inj hk]
    rfl
  | codecopy hop hs hd hs64 hn | calldatacopy hop hs hd hs64 hn | extcodecopy hop hs hd hs64 hn =>
    rw [← AccessKind.write.inj hk, length_copied, toNat_toUInt64 hn]

/-- Where the access fits, the instruction carries it out and reports; else it raises an exception. -/
structure AccessOutcome (p : Processor W R) (c : Context R) (cs : List (Context R)) (a : MemAccess) (st : Stack) : Prop where
  fits : a.Fits → ∃ q : Processor W R, q.ctxts = { c with s := st, mem := a.apply c.mem } :: cs ∧ dispatch p = onCtxt a.report q
  refused : ¬a.Fits → ∃ ex p1, dispatch p = .error (.exception ex) p1

theorem outcome_of_performs {m : CtxM R Unit} {c1 : Context R} (h : Performs m c1 a st) (hq : q.ctxts = c1 :: cs)
    (hc : { c1 with s := st } = { c with s := st }) (hd : dispatch p = onCtxt m q) : AccessOutcome p c cs a st := by
  constructor
  · intro hf
    have hctx : { c1 with s := st, mem := a.apply c1.mem } = { c with s := st, mem := a.apply c.mem } :=
      congrArg (fun x : Context R => { x with mem := a.apply x.mem }) hc
    rw [onCtxt_congr hq (h.fits hf), hctx] at hd
    exact ⟨_, rfl, hd⟩
  · intro hf
    obtain ⟨ex, hx⟩ := h.refused hf
    rw [onCtxt_cons hq, hx] at hd
    exact ⟨ex, _, hd⟩

theorem Accesses.outcome (h : Accesses p.gs c a st) (hp : p.ctxts = c :: cs) : AccessOutcome p c cs a st := by
  have hpt : (traced p c).ctxts = c :: cs := hp
  have hdispatch := dispatch_eq hp
  cases h with
  | mload hop hs ho =>
    rw [hop] at hdispatch
    exact outcome_of_performs (mload_performs hs ho) hpt rfl hdispatch
  | mstore hop hs ho =>
    rw [hop] at hdispatch
    exact outcome_of_performs (mstore_performs hs ho) hpt rfl hdispatch
  | mstore8 hop hs ho =>
    rw [hop] at hdispatch
    exact outcome_of_performs (mstore8_performs hs ho) hpt rfl hdispatch
  | sha3 hop hs ho hn h0 =>
    rw [hop] at hdispatch
    exact outcome_of_performs (sha3_performs hs ho hn) hpt rfl hdispatch
  | codecopy hop hs hd hs64 hn h0 hsrc =>
    rw [hop] at hdispatch
    have hperf := copy_mem_performs hs hd hs64 hn h0 hsrc Opcode.STOP.toByte
    exact outcome_of_performs (m := Op.codecopy) ⟨hperf.fits, hperf.refused⟩ hpt rfl hdispatch
  | calldatacopy hop hs hd hs64 hn h0 hsrc =>
    rw [hop] at hdispatch
    have hperf := copy_mem_performs hs hd hs64 hn h0 hsrc 0
    exact outcome_of_performs (m := Op.calldatacopy) ⟨hperf.fits, hperf.refused⟩ hpt rfl hdispatch
  | @extcodecopy w d s n st hop hs hd hs64 hn h0 hsrc =>
    rw [hop] at hdispatch
    have hpop : pop_addr c = .ok (w &&& (((1 : Word) <<< 160) - 1)) { c with s := d :: s :: n :: st } := by
      rw [pop_addr, bind_of_ok (s_pop_of_cons hs)]
      rfl
    have hpop' : onCtxt pop_addr (traced p c) =
        .ok (w &&& (((1 : Word) <<< 160) - 1)) { traced p c with ctxts := { c with s := d :: s :: n :: st } :: cs } := by
      rw [onCtxt_cons hpt, hpop]
    have hperf := copy_mem_performs (c := { c with s := d :: s :: n :: st }) rfl hd hs64 hn h0 hsrc Opcode.STOP.toByte
    refine outcome_of_performs (q := { traced p c with
      gs := (GlobalState.get (w &&& (((1 : Word) <<< 160) - 1)) p.gs).2
      ctxts := { c with s := d :: s :: n :: st } :: cs }) hperf rfl rfl ?_
    rw [hdispatch]
    change Processor.extcodecopy (traced p c) = _
    rw [Processor.extcodecopy, Processor.extcodecopy_by, bind_of_ok hpop']
    rfl

/-! ## Refinement -/

/-- The accesses, the oldest first, are made one after the other by instructions of the frame `c0`, whose memory is empty at
first and has become `mem`; what else the frame does in between does not touch its memory. -/
inductive MemoryRun (c0 : Context R) : List MemAccess → Bytes → Prop
  | start : MemoryRun c0 [] []
  | access {l a st c cs c' cs'} {p p' : Processor W R} (h : MemoryRun c0 l c.mem) (hp : p.ctxts = c :: cs)
      (hframe : SameFrame c0 c) (ha : Accesses p.gs c a st) (hd : dispatch p = .ok () p') (hp' : p'.ctxts = c' :: cs') :
    MemoryRun c0 (l ++ [a]) c'.mem

/-- The memory that the accesses `l` have left is the array that they make. -/
structure RefinesArray (c0 : Context R) (l : List MemAccess) (mem : Bytes) : Prop where
  length : mem.length = extent l
  contents : ∀ k, mem.getD k 0 = array l k
  accepted : ∀ (p : Processor W R) c cs a st, p.ctxts = c :: cs → c.mem = mem → Accesses p.gs c a st → a.Fits →
    ∃ q : Processor W R, q.ctxts = { c with s := st, mem := a.apply mem } :: cs ∧ dispatch p = match a.kind with
      | .write _ => .ok () q
      | .read f => onCtxt (s_push (f (bytes_at (array l) a))) q
  refused : ∀ (p : Processor W R) c cs a st, p.ctxts = c :: cs → c.mem = mem → Accesses p.gs c a st → ¬a.Fits →
    ∃ ex p1, dispatch p = .error (.exception ex) p1
  mload_mstore : ∀ l' o w, l = l' ++ [⟨o, WORD_SIZE, .write (to_big_endian w)⟩] →
    from_big_endian (bytes_at (array l) ⟨o, WORD_SIZE, .read from_big_endian⟩) = w
  msize : ∀ (p : Processor W R) c cs, p.ctxts = c :: cs → c.next_op = some .MSIZE → c.mem = mem →
    ∃ w : Word, w.toNat = words_up (extent l) ∧ dispatch p = onCtxt (s_push w) (traced p c)
  msize_le : ∀ l', words_up (extent l) ≤ words_up (extent (l ++ l'))

/-- What a sequence of accesses leaves. -/
theorem MemoryRun.state {c0 : Context R} (h : MemoryRun (W := W) c0 l mem) :
    mem.length = extent l ∧ (∀ k, mem.getD k 0 = array l k) ∧ extent l ≤ MAX_MEM_SIZE.toNat := by
  induction h with
  | start => exact ⟨rfl, fun _ => rfl, Nat.zero_le _⟩
  | access h hp hframe ha hd hp' ih =>
    rename_i l a st c cs c' cs' p p'
    obtain ⟨hlen, hget, hle⟩ := ih
    have hout := ha.outcome hp
    by_cases hf : a.Fits
    · obtain ⟨q, hq, heq⟩ := hout.fits hf
      rw [heq] at hd
      rw [mem_of_report hq hd hp', MemAccess.length_apply ha.exact, extent_append, hlen]
      refine ⟨rfl, ?_, Nat.max_le.2 ⟨hle, hf⟩⟩
      intro k
      rw [MemAccess.getD_apply ha.exact, array_append, hget]
    · obtain ⟨ex, p1, hx⟩ := hout.refused hf
      rw [hx] at hd
      cases hd

theorem dispatch_msize (hp : p.ctxts = c :: cs) (hop : c.next_op = some .MSIZE) :
    dispatch p = onCtxt (s_push (BitVec.ofNat 256 (words_up c.mem.length))) (traced p c) := by
  have hpt : (traced p c).ctxts = c :: cs := hp
  have hdispatch := dispatch_eq hp
  rw [hop] at hdispatch
  change dispatch p = onCtxt Op.msize (traced p c) at hdispatch
  rw [hdispatch, onCtxt_cons hpt, onCtxt_cons hpt]
  rfl

/-- **Memory.** Whatever has been written and read, the memory is the array: what fits is read from it and written to it,
what does not fit is refused, and `MSIZE` pushes how far it has been used, in whole words. -/
theorem memory_refines_array {c0 : Context R} (h : MemoryRun (W := W) c0 l mem) : RefinesArray (W := W) c0 l mem := by
  obtain ⟨hlen, hget, hle⟩ := h.state
  refine ⟨hlen, hget, ?_, ?_, ?_, ?_, fun l' => words_up_le (extent_le_append l l')⟩
  · rintro p c cs a st hp rfl ha hf
    obtain ⟨q, hq, heq⟩ := (ha.outcome hp).fits hf
    refine ⟨q, hq, ?_⟩
    rw [heq]
    cases hk : a.kind with
    | write bs =>
      simp only [MemAccess.report, hk]
      rw [onCtxt_cons hq, run_pure]
      cases q
      cases hq
      rfl
    | read f =>
      have hread : ((a.apply c.mem).drop a.off.toNat).take a.size.toNat = bytes_at (array l) a := by
        apply read_eq_bytes_at
        · intro k
          rw [MemAccess.getD_apply ha.exact, MemAccess.toWrite, hk, hget]
          rfl
        · rw [MemAccess.length_apply ha.exact]
          exact Nat.le_max_right _ _
      simp only [MemAccess.report, hk]
      rw [onCtxt_cons hq, onCtxt_cons hq, bind_of_ok (run_get _), hread]
  · rintro p c cs a st hp rfl ha hf
    exact (ha.outcome hp).refused hf
  · rintro l' o w rfl
    rw [bytes_at_written (BigEndian.length_toBytes 32 _)]
    exact from_to_big_endian w
  · rintro p c cs hp hop rfl
    have hmax : MAX_MEM_SIZE.toNat = 33554432 := rfl
    refine ⟨_, ?_, dispatch_msize hp hop⟩
    rw [hlen, BitVec.toNat_ofNat, Nat.mod_eq_of_lt]
    unfold words_up
    omega

omit [GlobalState W R] [Keccak]

/-- A frame whose code is `MSTORE`, `MSTORE8` and `MLOAD`. -/
def storing_frame (pc : Nat) (s : Stack) (mem : Bytes) : Context Address :=
  { pc, s, mem, as := 100, caller := 1, input := [], call_value := 0, prog := .ofCode [0x52, 0x53, 0x51], handlers := .run }

def in_frame (c : Context Address) : Processor SimpleGlobalState Address :=
  { gs := .of_accounts [], tx := { origin := 1 }, ctxts := [c] }

/-- A word is stored at the address 1, a byte in the midst of it, and a word is loaded that begins before this byte and ends
behind the stored word. -/
def overlapping : List MemAccess :=
  [⟨1, WORD_SIZE, .write (to_big_endian 0x0102030405060708)⟩, ⟨30, 1, .write [0xab]⟩, ⟨5, WORD_SIZE, .read from_big_endian⟩]

theorem memory_refines_array_mstore : ∃ mem,
    @MemoryRun SimpleGlobalState _ _ no_hash (storing_frame 0 [] []) overlapping mem ∧
      @RefinesArray SimpleGlobalState _ _ no_hash (storing_frame 0 [] []) overlapping mem ∧
      bytes_at (array overlapping) ⟨5, WORD_SIZE, .read from_big_endian⟩ =
        List.replicate 20 0 ++ [1, 2, 3, 4, 5, 0xab, 7, 8, 0, 0, 0, 0] := by
  let := no_hash
  have h0 : MemoryRun (W := SimpleGlobalState) (storing_frame 0 [] []) [] [] := .start
  have h1 := MemoryRun.access (c := storing_frame 0 [1, 0x0102030405060708, 30, 0xab, 5] []) (p := in_frame _) h0 rfl rfl
    (.mstore rfl rfl (by decide)) rfl rfl
  have h2 := MemoryRun.access (c := storing_frame 1 [30, 0xab, 5] _) (p := in_frame _) h1 rfl rfl
    (.mstore8 rfl rfl (by decide)) rfl rfl
  have h3 := MemoryRun.access (c := storing_frame 2 [5] _) (p := in_frame _) h2 rfl rfl (.mload rfl rfl (by decide)) rfl rfl
  exact ⟨_, h3, memory_refines_array h3, by decide⟩

end Processor

end EEVM

import EEVM.Instructions
import EEVM.Memory
/-!
# What an instruction changes in its context

Almost every instruction of one context is quiet: of the context it changes the stack and the memory only, and
keeps both within their limits. The exceptions are `DUPn`, which has no limit, and `PUSHn`, `JUMP` and `JUMPI`, which
move the pc. All of them throw nothing but an `eevm::Exception`, apart from `CALLDATALOAD` (`safeAdd`).
-/
namespace EEVM

open ExcState

/-- `eevm::Exception`, what the catch block of `run` catches. -/
def Thrown.Caught (e : Thrown) : Prop := ∃ ex, e = .exception ex

/-- Every one of these is caught. -/
theorem caught_exception (ex : Exception) : (Thrown.exception ex).Caught := ⟨ex, rfl⟩

/-! ## Stack -/

namespace Stack

/-- A stack within its limit stays within it. -/
def Bounded (st st' : Stack) : Prop := st.length ≤ MAX_SIZE → st'.length ≤ MAX_SIZE

instance : Std.Refl Bounded := ⟨fun _ => id⟩
instance : IsTrans Stack Bounded := ⟨fun _ _ _ h1 h2 => h2 ∘ h1⟩

/-- `m` keeps to the limit of the stack. -/
abbrev Quiet {α : Type} (m : StackM α) : Prop := Keeps Bounded (fun e _ => e.Caught) m

theorem pop_quiet : Quiet pop := by
  intro st
  cases st with
  | nil => exact ⟨id, _, rfl⟩
  | cons x st => exact fun h => by simp at h ⊢; omega

theorem pop64_quiet : Quiet pop64 :=
  pop_quiet.bind fun _ => .ite (fun _ => .throw fun _ => caught_exception _) fun _ => .pure _

/-- A full stack refuses to grow, by throwing. -/
theorem push_quiet (val : Word) : Quiet (push val) := by
  intro st
  unfold push
  by_cases h : st.length = MAX_SIZE
  · rw [if_pos h]
    exact ⟨id, _, rfl⟩
  · rw [if_neg h]
    intro h1
    simp only [List.length_cons]
    omega

/-- Two elements change places. -/
theorem swap_quiet (i : Nat) : Quiet (swap i) := by
  intro st
  unfold swap
  by_cases h : i ≥ st.length
  · rw [if_pos h]
    exact ⟨id, _, rfl⟩
  · rw [if_neg h]
    intro h1
    simpa using h1

end Stack

/-! ## Contexts -/

/-- `c'` is `c` up to its stack and its memory, and these have not left their limits. -/
structure Quiet {R : Type} (c c' : Context R) : Prop where
  eq : c' = { c with s := c'.s, mem := c'.mem }
  s_le : Stack.Bounded c.s c'.s
  mem_le : c.mem.length ≤ MAX_MEM_SIZE.toNat → c'.mem.length ≤ MAX_MEM_SIZE.toNat

namespace Quiet

variable {R α : Type} {c c' c'' : Context R}

theorem refl (c : Context R) : Quiet c c := ⟨rfl, id, id⟩

/-- Quiet steps one after the other. -/
theorem trans (h1 : Quiet c c') (h2 : Quiet c' c'') : Quiet c c'' := by
  refine ⟨?_, h2.s_le ∘ h1.s_le, h2.mem_le ∘ h1.mem_le⟩
  rw [h2.eq, h1.eq]

instance : Std.Refl (Quiet (R := R)) := ⟨refl⟩
instance : IsTrans (Context R) (Quiet (R := R)) := ⟨fun _ _ _ => trans⟩

/-- What is not the stack and not the memory is kept. -/
theorem pc (h : Quiet c c') : c'.pc = c.pc := by rw [h.eq]
theorem pc_changed (h : Quiet c c') : c'.pc_changed = c.pc_changed := by rw [h.eq]
theorem as (h : Quiet c c') : c'.as = c.as := by rw [h.eq]
theorem prog (h : Quiet c c') : c'.prog = c.prog := by rw [h.eq]
theorem handlers (h : Quiet c c') : c'.handlers = c.handlers := by rw [h.eq]

end Quiet

/-- `m` is quiet on its context and throws only what the catch block catches. -/
abbrev CtxM.Quiet {R α : Type} (m : CtxM R α) : Prop := Keeps EEVM.Quiet (fun e _ => e.Caught) m

section

variable {R α : Type}

/-- The context has no part in what is done to its stack. -/
theorem onStack_quiet {m : StackM α} (h : Stack.Quiet m) : CtxM.Quiet (R := R) (onStack m) := by
  intro c
  have h1 := h c.s
  unfold onStack
  cases hm : m c.s with
  | ok a st => rw [hm] at h1; exact ⟨rfl, h1, id⟩
  | error e st => rw [hm] at h1; exact ⟨⟨rfl, h1.1, id⟩, h1.2⟩

/-- So the stack operations of a context are quiet. -/
theorem s_pop_quiet : CtxM.Quiet (R := R) s_pop := onStack_quiet Stack.pop_quiet
theorem s_pop64_quiet : CtxM.Quiet (R := R) s_pop64 := onStack_quiet Stack.pop64_quiet
theorem s_push_quiet (val : Word) : CtxM.Quiet (R := R) (s_push val) := onStack_quiet (Stack.push_quiet val)

theorem get_quiet : CtxM.Quiet (get : CtxM R (Context R)) := .get

/-- Masking an address does not throw. -/
theorem pop_addr_quiet : CtxM.Quiet (R := R) pop_addr := s_pop_quiet.bind fun _ => .pure _

/-! ## What the pops take -/

/-- A word has been popped, and nothing else has changed. -/
theorem s_pop_eq_ok {c c' : Context R} {w : Word} (h : s_pop c = .ok w c') :
    c.s = w :: c'.s ∧ c' = { c with s := c'.s } := by
  unfold s_pop onStack Stack.pop at h
  cases hs : c.s with
  | nil => simp only [hs, reduceCtorEq] at h
  | cons x xs =>
    simp only [hs, EStateM.Result.ok.injEq] at h
    obtain ⟨rfl, rfl⟩ := h
    exact ⟨rfl, rfl⟩

theorem pop_addr_eq_ok {c c' : Context R} {a : Address} (h : pop_addr c = .ok a c') :
    ∃ w, c.s = w :: c'.s ∧ c' = { c with s := c'.s } ∧ a = w &&& (((1 : Word) <<< 160) - 1) := by
  unfold pop_addr at h
  rw [bind_eq_ok] at h
  obtain ⟨w, c1, h1, h2⟩ := h
  cases h2
  exact ⟨w, (s_pop_eq_ok h1).1, (s_pop_eq_ok h1).2, rfl⟩

/-- As `s_pop_eq_ok`, and the word had no more than 64 bits. -/
theorem s_pop64_eq_ok {c c' : Context R} {n : UInt64} (h : s_pop64 c = .ok n c') :
    ∃ w : Word, c.s = w :: c'.s ∧ c' = { c with s := c'.s } ∧ w.toNat = n.toNat := by
  unfold s_pop64 onStack Stack.pop64 at h
  cases hs : c.s with
  | nil => simp only [hs, run_bind, Stack.pop, reduceCtorEq] at h
  | cons x xs =>
    simp only [hs, run_bind, Stack.pop] at h
    by_cases hx : x > UINT64_MAX
    · simp only [if_pos hx, run_throw, reduceCtorEq] at h
    · simp only [if_neg hx, run_pure, EStateM.Result.ok.injEq] at h
      obtain ⟨rfl, rfl⟩ := h
      refine ⟨x, rfl, rfl, ?_⟩
      have hlt : x.toNat < 2 ^ 64 := by
        rw [gt_iff_lt, BitVec.lt_def, UINT64_MAX, BitVec.toNat_ofNat] at hx
        omega
      rw [Word.toUInt64, UInt64.toNat_ofNat', Nat.mod_eq_of_lt hlt]

theorem s_pop_of_cons {c : Context R} {w : Word} {s : Stack} (hs : c.s = w :: s) : s_pop c = .ok w { c with s } := by
  simp only [s_pop, onStack, Stack.pop, hs]

/-- Conversely, a word of 64 bits is popped. -/
theorem s_pop64_of_lt {c : Context R} {w : Word} {s : Stack} (hs : c.s = w :: s) (hw : w.toNat < 2 ^ 64) :
    s_pop64 c = .ok w.toUInt64 { c with s } := by
  have hle : ¬w > UINT64_MAX := by
    rw [gt_iff_lt, BitVec.lt_def, UINT64_MAX, BitVec.toNat_ofNat]
    omega
  unfold s_pop64 onStack Stack.pop64
  simp only [hs, run_bind, Stack.pop, if_neg hle, run_pure]

/-- A longer word is refused. -/
theorem s_pop64_of_le {c : Context R} {w : Word} {s : Stack} (hs : c.s = w :: s) (hw : 2 ^ 64 ≤ w.toNat) :
    ∃ ex c', s_pop64 c = .error (.exception ex) c' := by
  have hlt : w > UINT64_MAX := by
    rw [gt_iff_lt, BitVec.lt_def, UINT64_MAX, BitVec.toNat_ofNat]
    omega
  unfold s_pop64 onStack Stack.pop64
  simp only [hs, run_bind, Stack.pop, if_pos hlt, run_throw]
  exact ⟨_, _, rfl⟩

theorem toNat_toUInt64 {w : Word} (hw : w.toNat < 2 ^ 64) : w.toUInt64.toNat = w.toNat := by
  rw [Word.toUInt64, UInt64.toNat_ofNat', Nat.mod_eq_of_lt hw]

/-! ## Memory -/

/-- Unless nothing is copied, `copy_mem_raw` leaves a memory that reaches to the end of the range. -/
theorem length_copy_mem_raw {offDst offSrc size : UInt64} {dst src mem : Bytes} {pad : UInt8} (h0 : size ≠ 0)
    (h : copy_mem_raw offDst offSrc size dst src pad = .ok mem) :
    mem.length = max dst.length (offDst.toNat + size.toNat) ∧ offDst.toNat + size.toNat ≤ MAX_MEM_SIZE.toNat := by
  have hr : offDst.toNat + size.toNat ≤ MAX_MEM_SIZE.toNat := by
    by_contra hlt
    obtain ⟨ex, hx⟩ := copy_mem_raw_of_lt h0 (Nat.lt_of_not_le hlt) offSrc dst src pad
    rw [hx] at h
    cases h
  obtain ⟨bs, hbs, -, heq⟩ := copy_mem_raw_of_le h0 hr offSrc dst src pad
  rw [heq] at h
  obtain rfl := Except.ok.inj h
  have hlen := length_grow dst (offDst.toNat + size.toNat)
  refine ⟨?_, hr⟩
  rw [length_overwrite (by omega), hlen]

/-- A memory within its limit stays within it. -/
theorem copy_mem_raw_mem_le {offDst offSrc size : UInt64} {dst src mem : Bytes} {pad : UInt8}
    (h : copy_mem_raw offDst offSrc size dst src pad = .ok mem) (hd : dst.length ≤ MAX_MEM_SIZE.toNat) :
    mem.length ≤ MAX_MEM_SIZE.toNat := by
  by_cases h0 : size = 0
  · rw [copy_mem_raw, if_pos h0] at h
    rwa [← Except.ok.inj h]
  · have := length_copy_mem_raw h0 h
    omega

/-- On failure the memory is as it was. -/
theorem copy_to_mem_quiet (offDst offSrc size : UInt64) (src : Bytes) (pad : UInt8) :
    CtxM.Quiet (R := R) (copy_to_mem offDst offSrc size src pad) := by
  intro c
  unfold copy_to_mem
  cases h : copy_mem_raw offDst offSrc size c.mem src pad with
  | ok mem => exact ⟨rfl, id, copy_mem_raw_mem_le h⟩
  | error ex => exact ⟨.refl c, caught_exception ex⟩

theorem copy_mem_quiet (src : Bytes) (pad : UInt8) : CtxM.Quiet (R := R) (copy_mem src pad) :=
  s_pop64_quiet.bind fun _ => s_pop64_quiet.bind fun _ => s_pop64_quiet.bind fun _ => copy_to_mem_quiet _ _ _ _ _

/-- After a memory access has been prepared the memory reaches to the end of the range; `f` may then write to it. -/
theorem prepare_mem_access_bind_quiet {offset size : UInt64} {f : Unit → CtxM R α}
    (hf : ∀ c, offset.toNat + size.toNat ≤ c.mem.length → match f () c with
      | .ok _ c' => Quiet c c'
      | .error e c' => Quiet c c' ∧ e.Caught) :
    CtxM.Quiet (prepare_mem_access offset size >>= f) := by
  intro c
  rcases Nat.lt_or_ge MAX_MEM_SIZE.toNat (offset.toNat + size.toNat) with hlt | hle
  · obtain ⟨ex, hx⟩ := prepare_mem_access_of_lt hlt c
    rw [bind_of_error hx]
    exact ⟨.refl c, caught_exception ex⟩
  rw [bind_of_ok (prepare_mem_access_of_le hle c)]
  have hlen := length_grow c.mem (offset.toNat + size.toNat)
  have hq : Quiet c { c with mem := grow c.mem (offset.toNat + size.toNat) } := by
    refine ⟨rfl, id, fun h => ?_⟩
    rw [hlen]
    omega
  have h := hf { c with mem := grow c.mem (offset.toNat + size.toNat) } (by rw [hlen]; omega)
  cases hr : f () { c with mem := grow c.mem (offset.toNat + size.toNat) } with
  | ok a c'' => rw [hr] at h; exact hq.trans h
  | error e c'' => rw [hr] at h; exact ⟨hq.trans h.1, h.2⟩

/-- Nothing is written. -/
theorem prepare_mem_access_quiet (offset size : UInt64) : CtxM.Quiet (R := R) (prepare_mem_access offset size) := by
  have h : CtxM.Quiet (R := R) (prepare_mem_access offset size >>= pure) :=
    prepare_mem_access_bind_quiet fun c _ => .refl c
  rwa [bind_pure] at h

theorem copy_from_mem_quiet (offset size : UInt64) : CtxM.Quiet (R := R) (copy_from_mem offset size) :=
  (prepare_mem_access_quiet offset size).bind fun _ => get_quiet.bind fun _ => .pure _

/-! ## Instructions -/

namespace Op

/-- The instructions fall into a few shapes, by what they pop and push. -/
theorem push_value_quiet (f : Context R → Word) : CtxM.Quiet (push_value f) :=
  get_quiet.bind fun _ => s_push_quiet _

theorem unary_quiet (f : Word → Word) : CtxM.Quiet (R := R) (unary f) := s_pop_quiet.bind fun _ => s_push_quiet _

theorem binary_quiet (f : Word → Word → Word) : CtxM.Quiet (R := R) (binary f) :=
  s_pop_quiet.bind fun _ => s_pop_quiet.bind fun _ => s_push_quiet _

theorem ternary_quiet (f : Word → Word → Word → Word) : CtxM.Quiet (R := R) (ternary f) :=
  s_pop_quiet.bind fun _ => s_pop_quiet.bind fun _ => s_pop_quiet.bind fun _ => s_push_quiet _

theorem swap_quiet (n : Nat) : CtxM.Quiet (R := R) (swap n) := onStack_quiet (Stack.swap_quiet _)

theorem pop_quiet : CtxM.Quiet (R := R) pop := s_pop_quiet.bind fun _ => .pure _

/-- `EXP` pops its exponent as 64 bits, `SGT` swaps first, `BYTE` has an early exit. -/
theorem exp_quiet : CtxM.Quiet (R := R) exp := s_pop_quiet.bind fun _ => s_pop64_quiet.bind fun _ => s_push_quiet _

theorem sgt_quiet : CtxM.Quiet (R := R) sgt := (onStack_quiet (Stack.swap_quiet 1)).bind fun _ => binary_quiet _

theorem byte_quiet : CtxM.Quiet (R := R) byte :=
  s_pop_quiet.bind fun _ => .ite (fun _ => s_push_quiet 0) fun _ => s_pop_quiet.bind fun _ => s_push_quiet _

theorem mload_quiet : CtxM.Quiet (R := R) mload :=
  s_pop64_quiet.bind fun _ => (prepare_mem_access_quiet _ _).bind fun _ => get_quiet.bind fun _ => s_push_quiet _

/-- The word is written within the range that has been prepared. -/
theorem mstore_quiet : CtxM.Quiet (R := R) mstore := by
  refine s_pop64_quiet.bind fun offset => s_pop_quiet.bind fun word => ?_
  refine prepare_mem_access_bind_quiet fun c hc => ⟨rfl, id, fun h => ?_⟩
  rw [length_overwrite]
  · exact h
  · rw [to_big_endian, BigEndian.length_toBytes]
    exact hc

theorem mstore8_quiet : CtxM.Quiet (R := R) mstore8 := by
  refine s_pop64_quiet.bind fun offset => s_pop_quiet.bind fun word => ?_
  exact prepare_mem_access_bind_quiet fun c _ => ⟨rfl, id, fun h => by simpa using h⟩

/-- The copies differ in where they copy from. -/
theorem codecopy_quiet : CtxM.Quiet (R := R) codecopy := get_quiet.bind fun _ => copy_mem_quiet _ _

theorem calldatacopy_quiet : CtxM.Quiet (R := R) calldatacopy := get_quiet.bind fun _ => copy_mem_quiet _ _

theorem sha3_quiet [Keccak] : CtxM.Quiet (R := R) sha3 :=
  s_pop64_quiet.bind fun _ => s_pop64_quiet.bind fun _ => (prepare_mem_access_quiet _ _).bind fun _ =>
    get_quiet.bind fun _ => s_push_quiet _

/-- `CALLDATALOAD` is quiet; the window in which it throws `std::overflow_error` is that of `safeAdd`. -/
theorem calldataload_keeps :
    Keeps Quiet (fun e _ => e.Caught ∨ e = .overflow_error "integer overflow") (calldataload (R := R)) := by
  have h : ∀ {α : Type} {m : CtxM R α}, CtxM.Quiet m →
      Keeps Quiet (fun e _ => e.Caught ∨ e = .overflow_error "integer overflow") m :=
    fun h => h.mono (fun _ _ => id) fun _ _ => .inl
  refine (h s_pop64_quiet).bind fun offset => .bind ?_ fun _ => h (get_quiet.bind fun _ => s_push_quiet _)
  unfold safeAdd
  exact .ite (fun _ => .throw fun _ => .inr rfl) fun _ => .pure _

end Op

end

end EEVM

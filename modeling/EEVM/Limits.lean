import EEVM.Handlers
import EEVM.Simple
/-!
# Resource limits (processor.cpp:24-32, stack.h:20)

At most `MAX_CALL_DEPTH` contexts, at most `Stack::MAX_SIZE` words on a stack, at most `MAX_MEM_SIZE` bytes of memory.
Every instruction but one keeps them: `Stack::dup` pushes on the deque without the test of `Stack::push`
(`stack.cpp:76-83`), and `push` itself tests for `== MAX_SIZE`.
-/
namespace EEVM

open ExcState

/-- A context within its limits. -/
structure Context.Bounded {R : Type} (c : Context R) : Prop where
  s : c.s.length ≤ Stack.MAX_SIZE
  mem : c.mem.length ≤ MAX_MEM_SIZE.toNat

theorem Quiet.bounded {R : Type} {c c' : Context R} (h : Quiet c c') (hc : c.Bounded) : c'.Bounded :=
  ⟨h.s_le hc.s, h.mem_le hc.mem⟩

namespace Processor

variable {W R : Type}

structure Limits (p : Processor W R) : Prop where
  depth : p.ctxts.length ≤ MAX_CALL_DEPTH
  ctxts : ∀ c ∈ p.ctxts, c.Bounded

/-- The turn dispatches a `DUPn` in a context whose stack is full and deep enough for it. -/
def DupOverflow (p : Processor W R) : Prop :=
  ∃ c cs n, p.ctxts = c :: cs ∧ c.pc_valid = true ∧ c.next_op = some (.DUP n) ∧ c.s.length = Stack.MAX_SIZE

theorem step_bounded {c : Context R} (hc : c.Bounded) : c.step.Bounded := by
  unfold Context.step
  split <;> exact ⟨hc.s, hc.mem⟩

namespace Limits

/-- Another context in place of the one on top. -/
theorem top {p p' : Processor W R} {c c' cs} (h : Limits p) (hp : p.ctxts = c :: cs) (hp' : p'.ctxts = c' :: cs)
    (hc : c'.Bounded) : Limits p' := by
  constructor
  · have := h.depth
    rw [hp] at this
    rw [hp']
    exact this
  · rw [hp']
    rintro d (_ | ⟨_, hd⟩)
    · exact hc
    · exact h.ctxts d (by rw [hp]; exact .tail _ hd)

theorem of_ctxts {p p' : Processor W R} (h : Limits p) (hp : p'.ctxts = p.ctxts) : Limits p' :=
  ⟨hp ▸ h.depth, hp ▸ h.ctxts⟩

theorem head {p : Processor W R} {c cs} (h : Limits p) (hp : p.ctxts = c :: cs) : c.Bounded :=
  h.ctxts c (by rw [hp]; exact .head _)

variable [GlobalState W R]

theorem change {p p' : Processor W R} {op : Option Opcode} (hop : ∀ n, op ≠ some (.DUP n)) (h : Limits p)
    (hc : Change op p p') : Limits p' := by
  cases hc with
  | quiet hp hq => exact h.top hp rfl (hq.bounded (h.head hp))
  | dup _ hd => exact absurd hd (hop _)
  | goto hp => exact h.top hp rfl ⟨(h.head hp).s, (h.head hp).mem⟩
  | _ => exact h.of_ctxts rfl

theorem changes {p p' : Processor W R} {op : Option Opcode} (hop : ∀ n, op ≠ some (.DUP n)) (h : Limits p)
    (hc : Changes op p p') : Limits p' := by
  induction hc with
  | refl => exact h
  | tail _ hc ih => exact ih.change hop hc

theorem dropped {p p' : Processor W R} {k : Nat} (h : Limits p) (hd : Dropped k p p') : Limits p' := by
  have hlen : p.ctxts.length - k = p'.ctxts.length := by
    simpa using hd.ctxts.length_eq
  refine ⟨by have := h.depth; omega, fun c' hc' => ?_⟩
  obtain ⟨c, hc, hq⟩ : ∃ c ∈ p.ctxts.drop k, Quiet c c' := by
    obtain ⟨i, hi, rfl⟩ := List.getElem_of_mem hc'
    have hi' : i < (p.ctxts.drop k).length := by simpa [hlen] using hi
    exact ⟨_, List.getElem_mem hi', hd.ctxts.get hi' hi⟩
  exact hq.bounded (h.ctxts c (List.mem_of_mem_drop hc))

end Limits

section

variable [GlobalState W R] [Keccak]

/-- What `DUPn` comes to: without enough words it throws, and otherwise it puts one more on the stack. -/
theorem dispatch_dup {p : Processor W R} {c cs n} (hp : p.ctxts = c :: cs) (hop : c.next_op = some (.DUP n)) :
    dispatch p = if n ≥ c.s.length then
        .error (.exception ⟨.outOfBounds, "Dup out of range (" ++ toString n.val ++ " >= " ++ toString c.s.length ++ ")"⟩)
          (traced p c)
      else .ok () { traced p c with ctxts := { c with s := c.s.getD n 0 :: c.s } :: cs } := by
  rw [dispatch_eq hp, hop]
  simp only [exec]
  rw [onCtxt_cons (show (traced p c).ctxts = c :: cs from hp)]
  unfold Op.dup onStack Stack.dup
  by_cases h : n ≥ c.s.length
  · simp only [if_pos h]
    rw [← hp]
    rfl
  · simp only [if_neg h]

/-- The changes of an instruction keep the limits, unless a `DUPn` meets a full stack. -/
theorem Limits.instruction {p p1 : Processor W R} {c cs} (h : Limits p) (hp : p.ctxts = c :: cs)
    (hv : c.pc_valid = true) (hno : ¬DupOverflow p) (hc : Changes c.next_op p p1)
    (hd : (∃ ex, dispatch p = .error (.exception ex) p1) ∨ dispatch p = .ok () p1 ∨
      ∀ n, c.next_op ≠ some (.DUP n)) : Limits p1 := by
  by_cases hop : ∃ n, c.next_op = some (.DUP n)
  case neg => exact h.changes (fun n hn => hop ⟨n, hn⟩) hc
  obtain ⟨n, hop⟩ := hop
  have hdup := dispatch_dup hp hop
  have ht : Limits (traced p c) := h.of_ctxts rfl
  have hlt : c.s.length < Stack.MAX_SIZE :=
    Nat.lt_of_le_of_ne (h.head hp).s fun he => hno ⟨c, cs, n, hp, hv, hop, he⟩
  rcases hd with ⟨ex, hd⟩ | hd | hd
  · rw [hd] at hdup
    split at hdup
    · cases hdup
      exact ht
    · cases hdup
  · rw [hd] at hdup
    split at hdup
    · cases hdup
    · cases hdup
      exact ht.top hp rfl ⟨hlt, (h.head hp).mem⟩
  · exact absurd hop (hd n)

/-- What `dispatch` leaves is within the limits, unless it is a `DUPn` that meets a full stack. -/
theorem Limits.dispatched {p : Processor W R} {c cs} (h : Limits p) (hp : p.ctxts = c :: cs)
    (hv : c.pc_valid = true) (hno : ¬DupOverflow p) : Limits (final (dispatch p)) := by
  obtain ⟨p1, hc, ht⟩ := dispatch_cases hp
  obtain ⟨c1, h1, -⟩ := hc.top hp
  have hdup : ∀ op, c.next_op = some op → op.ends_context ∨ op.is_call → ∀ n, c.next_op ≠ some (.DUP n) := by
    rintro op hop ho n hn
    rw [hop] at hn
    cases hn
    rcases ho with ho | ho <;> cases ho
  have hend : ∀ r, Ending p1 r → (∀ n, c.next_op ≠ some (.DUP n)) → Limits (final r) := by
    intro r he hn
    obtain ⟨k, hd⟩ := he.final_dropped
    exact (h.instruction hp hv hno hc (.inr (.inr hn))).dropped hd
  generalize hr : dispatch p = r at ht
  cases ht with
  | done => exact h.instruction hp hv hno hc (.inr (.inl hr))
  | @throws e ht =>
    rcases ht with ⟨ex, rfl⟩ | ⟨hop, rfl⟩ | ⟨rfl, hnil⟩
    · exact h.instruction hp hv hno hc (.inl ⟨ex, hr⟩)
    · exact h.instruction hp hv hno hc (.inr (.inr fun n hn => by rw [hop] at hn; cases hn))
    · rw [h1] at hnil
      cases hnil
  | @opens c2 op hop hcall hf =>
    have hl := h.instruction hp hv hno hc (.inr (.inr (hdup op hop (.inr hcall))))
    unfold push_context
    rw [bind_of_ok (run_get p1)]
    by_cases hdepth : p1.get_call_depth ≥ MAX_CALL_DEPTH
    · rw [if_pos hdepth]
      exact hl
    · rw [if_neg hdepth]
      rw [get_call_depth, ge_iff_le, Nat.not_le, Nat.mod_eq_of_lt (Nat.lt_of_le_of_lt hl.depth (by decide))] at hdepth
      refine ⟨hdepth, ?_⟩
      rintro d (_ | ⟨_, hd⟩)
      · exact ⟨by simp [hf.s], by simp [hf.mem]⟩
      · exact hl.ctxts d hd
  | returns hop output => exact hend _ (.returns output) (hdup _ hop (.inl rfl))
  | stops hop => rcases hop with hop | hop <;> exact hend _ .stops (hdup _ hop (.inl rfl))

theorem Limits.turn {p p' : Processor W R} (h : Limits p) (hno : ¬DupOverflow p) (hn : iterate p = .next p') :
    Limits p' := by
  obtain ⟨c, cs, hp, hv, -⟩ := next_cases hn
  have hi : after_dispatch (dispatch p) = .next p' := by
    simpa [iterate, hp, hv] using hn
  obtain ⟨k, p1, hd, hs⟩ := after_dispatch_next hi
  obtain ⟨c1, cs1, h1, rfl⟩ := step_or_break_next hs
  have hl := (h.dispatched hp hv hno).dropped hd
  exact hl.top h1 rfl (step_bounded (hl.head h1))

omit [Keccak] in
theorem limits_start (gs : W) (tx : Transaction) (tr : Option (List TraceEvent)) (caller : Address) (callee : R)
    (input : Bytes) (call_value : Word) : Limits (start gs tx tr caller callee input call_value) := by
  refine ⟨by simp [start, MAX_CALL_DEPTH], ?_⟩
  rintro c (_ | ⟨_, hc⟩)
  · exact ⟨by simp, by simp⟩
  · cases hc

end

/-! ## Refusals -/

theorem copy_to_mem_full {offDst size : UInt64} (h0 : size ≠ 0)
    (h : MAX_MEM_SIZE.toNat < offDst.toNat + size.toNat) (offSrc : UInt64) (src : Bytes) (pad : UInt8)
    (c : Context R) : ∃ ex, copy_to_mem offDst offSrc size src pad c = .error (.exception ex) c := by
  obtain ⟨ex, hx⟩ := copy_mem_raw_of_lt h0 h offSrc c.mem src pad
  exact ⟨ex, by simp only [copy_to_mem, hx]⟩

theorem push_context_full {p : Processor W R} (h : p.ctxts.length = MAX_CALL_DEPTH) (c : Context R) :
    ∃ ex, push_context c p = .error (.exception ex) p := by
  have hd : p.get_call_depth ≥ MAX_CALL_DEPTH := by
    rw [get_call_depth, h]
    decide
  unfold push_context
  rw [bind_of_ok (run_get p), if_pos hd]
  exact ⟨_, rfl⟩

section

variable [GlobalState W R] [Keccak]

/-- The limits as invariants of the run that starts in `p0`: they hold before and after every instruction, and what
would go past one raises an `eevm::Exception`. -/
structure LimitsKept (p0 : Processor W R) : Prop where
  reachable : ∀ p, Loop.Reaches iterate p0 p → Limits p
  dispatched : ∀ p c cs, Loop.Reaches iterate p0 p → p.ctxts = c :: cs → c.pc_valid = true →
    Limits (final (dispatch p))
  push_refused : ∀ c : Context R, c.s.length = Stack.MAX_SIZE → ∀ val, ∃ ex, s_push val c = .error (.exception ex) c
  access_refused : ∀ offset size, MAX_MEM_SIZE.toNat < offset.toNat + size.toNat →
    ∀ c : Context R, ∃ ex, prepare_mem_access offset size c = .error (.exception ex) c
  copy_refused : ∀ offDst size, size ≠ 0 → MAX_MEM_SIZE.toNat < offDst.toNat + size.toNat →
    ∀ offSrc src pad, ∀ c : Context R, ∃ ex, copy_to_mem offDst offSrc size src pad c = .error (.exception ex) c
  call_refused : ∀ p : Processor W R, p.ctxts.length = MAX_CALL_DEPTH →
    ∀ c, ∃ ex, push_context c p = .error (.exception ex) p

/-- **Limits.** They are invariants of a run exactly when no `DUPn` of it meets a full stack. -/
theorem limits_iff_no_dup_overflow (gs : W) (tx : Transaction) (tr : Option (List TraceEvent)) (caller : Address)
    (callee : R) (input : Bytes) (call_value : Word) :
    LimitsKept (start gs tx tr caller callee input call_value) ↔
      ∀ p, Loop.Reaches iterate (start gs tx tr caller callee input call_value) p → ¬DupOverflow p := by
  constructor
  · rintro h p hr ⟨c, cs, n, hp, hv, hop, hfull⟩
    have hdup := dispatch_dup hp hop
    rw [if_neg (by rw [hfull]; exact Nat.not_le.2 (Nat.lt_trans n.isLt (by decide)))] at hdup
    have hl := h.dispatched p c cs hr hp hv
    rw [hdup] at hl
    have hs := (hl.head rfl).s
    rw [List.length_cons, hfull] at hs
    exact Nat.not_succ_le_self _ hs
  · intro h
    have hall : ∀ p, Loop.Reaches iterate (start gs tx tr caller callee input call_value) p → Limits p :=
      fun p hr => hr.invariant (limits_start ..) fun t t' ht hl hn => hl.turn (h t ht) hn
    refine ⟨hall, ?_, fun _ => s_push_full, fun _ _ => prepare_mem_access_of_lt, fun _ _ => copy_to_mem_full,
      fun _ => push_context_full⟩
    exact fun p c cs hr hp hv => (hall p hr).dispatched hp hv (h p hr)

end

/-! ## A run that leaves the limits -/

/-- `PUSH1 0`, and then `n` times `DUP1`. -/
def dup_code (n : Nat) : Code := 0x60 :: 0 :: List.replicate n 0x80

def dup_start (n : Nat) : Processor SimpleGlobalState Address :=
  start (.of_accounts [{ address := 100, code := dup_code n }]) { origin := 1 } none 1 100 [] 0

def dup_context (n k : Nat) : Context Address :=
  { pc := k + 2, pc_changed := false, s := List.replicate (k + 1) 0, as := 100, caller := 1, input := [],
    call_value := 0, prog := Program.ofCode (dup_code n), handlers := .run }

/-- The processor after `PUSH1 0` and `k` times `DUP1`. -/
def dup_state (n k : Nat) : Processor SimpleGlobalState Address := { dup_start n with ctxts := [dup_context n k] }

theorem dup_state_next [Keccak] {n k : Nat} (hk : k < n) :
    iterate (dup_state n k) = .next (dup_state n (k + 1)) := by
  have hp : (dup_state n k).ctxts = [dup_context n k] := rfl
  have hv : (dup_context n k).pc_valid = true := by
    simp [Context.pc_valid, dup_context, Program.ofCode, dup_code, hk]
  have hop : (dup_context n k).next_op = some (.DUP 0) := by
    have h : (0x60 :: 0 :: List.replicate n (0x80 : UInt8)).getD (k + 2) 0 = 0x80 := by
      simp [List.getD, hk]
    rw [Context.next_op]
    change Opcode.ofByte ((0x60 :: 0 :: List.replicate n (0x80 : UInt8)).getD (k + 2) 0) = _
    rw [h]
    rfl
  have hd := dispatch_dup hp hop
  rw [if_neg (by simp [dup_context])] at hd
  simp only [iterate_valid hp hv, hd, after_dispatch, step_or_break]
  rfl

set_option maxRecDepth 20000 in
theorem dup_start_next [Keccak] : iterate (dup_start 1024) = .next (dup_state 1024 0) := by
  rfl

theorem reaches_dup_state :
    ∀ k, k ≤ 1024 → @Loop.Reaches _ _ (@iterate _ _ _ no_hash) (dup_start 1024) (dup_state 1024 k)
  | 0, _ => .single (@dup_start_next no_hash)
  | k + 1, hk => (reaches_dup_state k (by omega)).tail (@dup_state_next no_hash _ k hk)

/-- The unchecked push takes the stack to 1025 words. -/
theorem limits_broken : ¬@LimitsKept _ _ _ no_hash (dup_start 1024) := by
  intro h
  have hl := @LimitsKept.reachable _ _ _ no_hash _ h _ (reaches_dup_state 1024 (Nat.le_refl _))
  have hs : (dup_context 1024 1024).s.length ≤ Stack.MAX_SIZE := (hl.head rfl).s
  rw [dup_context, List.length_replicate] at hs
  exact absurd hs (by decide)

end Processor

end EEVM

import EEVM.Calls
import EEVM.Dangling
import EEVM.Simple
import EEVM.Lib.Nesting
/-!
# Nested execution (processor.cpp:206-226)

The vector of contexts, with its handlers and its flag `pc_changed`, behaves as the call stack of a recursive
interpreter: `nest_turn` says that a turn is a step of a machine with a stack of frames (`Nesting`), and what holds of
such machines is then read off for the contexts. The invariant is `Nest`: a context that waits for the one above it
has `pc_changed` unset, so that the `step()` after the report moves it past the call, and room on its stack for the
report. That is what the source does where it is defined; the return handler of `create` is not (`EEVM.Dangling`), so that a
run behaves so just when no init code returns.
-/
namespace EEVM

open ExcState

/-- A context that has made a call. -/
structure Context.Waits {R : Type} (c : Context R) : Prop where
  pc_changed : c.pc_changed = false
  room : c.s.length + 3 ≤ Stack.MAX_SIZE

theorem copy_to_mem_of_inRange {R : Type} {off size : UInt64} (h : ¬off + size < off ∧ ¬off + size > MAX_MEM_SIZE)
    (offSrc : UInt64) (src : Bytes) (pad : UInt8) (d : Context R) :
    ∃ mem, copy_to_mem off offSrc size src pad d = .ok () { d with mem } := by
  by_cases h0 : size = 0
  · subst h0
    exact ⟨d.mem, rfl⟩
  · obtain ⟨bs, -, -, hm⟩ := copy_mem_raw_of_le h0 (in_limit_iff.1 h) offSrc d.mem src pad
    refine ⟨overwrite (grow d.mem (off.toNat + size.toNat)) off.toNat bs, ?_⟩
    simp only [copy_to_mem, hm]

namespace Processor

variable {W R : Type}

/-! ## The frames of a processor -/

/-- What an opcode that opens a context leaves of the one it is in. -/
def Calls (c c' : Context R) : Prop :=
  ∃ op, c.next_op = some op ∧ op.is_call ∧ c' = { c with s := c.s.drop op.operand_count, mem := c'.mem }

/-- What a report does to the context that waits for it, with the `step()` that follows. -/
def Resumes (d d' : Context R) : Prop := ∃ w mem, d' = { d with pc := d.pc + 1, s := w :: d.s, mem }

/-- The contexts and the handlers that have been called, as a stack of frames with its log. -/
def frames (p : Processor W R) : Nesting.State (Context R) HandlerKind := ⟨p.ctxts, p.invoked⟩

abbrev NestStep (p p' : Processor W R) : Prop := Nesting.Step SameFrame Calls Resumes p.frames p'.frames

instance : Std.Refl (SameFrame (R := R)) := ⟨.refl⟩
instance : IsTrans (Context R) SameFrame := ⟨fun _ _ _ => .trans⟩

theorem Calls.sameFrame {c c' : Context R} (h : Calls c c') : SameFrame c c' := by
  obtain ⟨op, -, -, hc⟩ := h
  rw [SameFrame, hc]

theorem Resumes.sameFrame {d d' : Context R} (h : Resumes d d') : SameFrame d d' := by
  obtain ⟨w, mem, hd⟩ := h
  rw [SameFrame, hd]

/-- Nothing is in the way of a report. -/
structure Nest (p : Processor W R) : Prop where
  shaped : Shaped p.ctxts
  top : ∀ c cs, p.ctxts = c :: cs → c.pc_changed = false ∨ c.s = []
  waits : ∀ c ∈ p.ctxts.tail, c.Waits
  window : ∀ c ∈ p.ctxts, c.handlers.InRange

variable [GlobalState W R]

/-! ## The end of a context -/

/-- A nested context that ends calls one of its handlers once, and the loop goes on with its parent. -/
theorem Ending.nested {p : Processor W R} {r c d ds} (h : Ending p r) (hp : p.ctxts = c :: d :: ds)
    (hc : c.handlers ≠ .run) (hw : c.handlers.InRange) (hd : d.Waits) :
    ∃ kind gs dangling d', Resumes d d' ∧ after_dispatch r = .next { p with
      gs, dangling, invoked := (p.ctxts.length, kind) :: p.invoked, ctxts := d' :: ds } := by
  have hroom : d.s.length ≠ Stack.MAX_SIZE := by
    have := hd.room
    omega
  have hstep : ∀ w mem, Resumes d ({ d with s := w :: d.s, mem } : Context R).step := by
    intro w mem
    exact ⟨w, mem, step_of_not_changed hd.pc_changed⟩
  cases h with
  | fails ex =>
    refine ⟨.eh, p.gs, p.dangling, _, hstep 0 d.mem, ?_⟩
    rw [after_dispatch, catch_nested hp hc, s_push_of_not_full hroom]
    rfl
  | stops =>
    refine ⟨.hh, p.gs, p.dangling, _, hstep c.handlers.hh_word d.mem, ?_⟩
    rw [stop_nested hp hc, s_push_of_not_full hroom]
    rfl
  | returns output =>
    rw [returning_nested hp hc]
    cases hh : c.handlers with
    | run => exact absurd hh hc
    | create newAcc =>
      refine ⟨.rh, set_code newAcc output p.gs, true, _,
        hstep (get_address newAcc (set_code newAcc output p.gs)) d.mem, ?_⟩
      simp only [Handlers.rh_report, s_push_of_not_full hroom]
      rfl
    | call offOut sizeOut =>
      rw [hh] at hw
      obtain ⟨mem, hmem⟩ := copy_to_mem_of_inRange hw 0 output 0 d
      refine ⟨.rh, p.gs, p.dangling, _, hstep 1 mem, ?_⟩
      have hpush : s_push 1 ({ d with mem } : Context R) = .ok () { d with s := 1 :: d.s, mem } :=
        s_push_of_not_full (show ({ d with mem } : Context R).s.length ≠ _ from hroom) 1
      simp only [Handlers.rh_report, bind_of_ok hmem, hpush]
      rfl

/-- When the outermost context ends the loop leaves. -/
theorem Ending.outer {p : Processor W R} {r c} (h : Ending p r) (hp : p.ctxts = [c]) (hc : c.handlers = .run) :
    ∃ p', after_dispatch r = .exit (.ok () p') := by
  cases h with
  | fails ex => exact ⟨_, by rw [after_dispatch, catch_outer hp hc]; rfl⟩
  | stops => exact ⟨_, by rw [stop_outer hp hc]; rfl⟩
  | returns output => exact ⟨_, by rw [returning_outer hp hc]; rfl⟩

/-! ## A turn -/

section

variable [Keccak] {p p' : Processor W R} {c : Context R} {cs : List (Context R)}

namespace Nest

omit [GlobalState W R] [Keccak]

/-- The context on top is changed by an instruction and stepped over. -/
theorem works {c1 : Context R} (h : Nest p) (hp : p.ctxts = c :: cs) (hp' : p'.ctxts = c1.step :: cs)
    (hsame : SameFrame c c1) : Nest p' := by
  have hshaped := h.shaped
  have hwaits := h.waits
  rw [hp] at hshaped hwaits
  constructor
  · rw [hp']
    exact hshaped.top (by rw [step_handlers, hsame.handlers])
  · rintro c2 cs2 h2
    rw [hp'] at h2
    obtain ⟨rfl, rfl⟩ := List.cons.inj h2
    exact .inl (Context.step_pc_changed c1)
  · rw [hp']
    exact hwaits
  · intro c2 h2
    rw [hp'] at h2
    rcases List.mem_cons.1 h2 with rfl | h2
    · rw [step_handlers, hsame.handlers]
      exact h.window c (by simp [hp])
    · exact h.window c2 (by simp [hp, h2])

/-- The context on top has opened `f`. -/
theorem opens {c1 f : Context R} (h : Nest p) (hp : p.ctxts = c :: cs) (hp' : p'.ctxts = f.step :: c1 :: cs)
    (hsame : SameFrame c c1) (hw : c1.Waits) (hf : Fresh f) (hr : f.handlers.InRange) : Nest p' := by
  have hshaped := h.shaped
  have hwaits := h.waits
  rw [hp] at hshaped hwaits
  constructor
  · rw [hp']
    exact (hshaped.top hsame.handlers).opens (by rw [step_handlers]; exact hf.handlers)
  · rintro c2 cs2 h2
    rw [hp'] at h2
    obtain ⟨rfl, rfl⟩ := List.cons.inj h2
    exact .inl (Context.step_pc_changed f)
  · intro c2 h2
    rw [hp'] at h2
    rcases List.mem_cons.1 h2 with rfl | h2
    · exact hw
    · exact hwaits c2 h2
  · intro c2 h2
    rw [hp'] at h2
    rcases List.mem_cons.1 h2 with rfl | h2
    · rw [step_handlers]
      exact hr
    rcases List.mem_cons.1 h2 with rfl | h2
    · rw [hsame.handlers]
      exact h.window c (by simp [hp])
    · exact h.window c2 (by simp [hp, h2])

/-- The context on top has ended, and the one below goes on. -/
theorem resumes {d d' : Context R} {ds} (h : Nest p) (hp : p.ctxts = c :: d :: ds) (hp' : p'.ctxts = d' :: ds)
    (hd : Resumes d d') : Nest p' := by
  have hshaped := h.shaped
  have hwaits := h.waits
  rw [hp] at hshaped hwaits
  obtain ⟨w, mem, rfl⟩ := hd
  constructor
  · rw [hp']
    exact hshaped.tail.top rfl
  · rintro c2 cs2 h2
    rw [hp'] at h2
    obtain ⟨rfl, rfl⟩ := List.cons.inj h2
    exact .inl (hwaits d (by simp)).pc_changed
  · rw [hp']
    intro c2 h2
    exact hwaits c2 (List.mem_cons_of_mem _ h2)
  · intro c2 h2
    rw [hp'] at h2
    rcases List.mem_cons.1 h2 with rfl | h2
    · exact h.window d (by simp [hp])
    · exact h.window c2 (by simp [hp, h2])

end Nest

/-- A turn works in the context on top, opens one above it, or ends it; when the outermost one ends the loop leaves. -/
theorem nest_turn (h : Nest p) (hp : p.ctxts = c :: cs) (hv : c.pc_valid = true)
    (hs : c.s.length ≤ Stack.MAX_SIZE) :
    (∃ p', iterate p = .next p' ∧ Nest p' ∧ NestStep p p') ∨
      (cs = [] ∧ ∃ p', iterate p = .exit (.ok () p')) ∨ ∃ e p', iterate p = .exit (.error e p') := by
  have hend : ∀ {p1 c1 r}, Changes c.next_op p p1 → p1.ctxts = c1 :: cs → Ending p1 r →
      (∃ p', after_dispatch r = .next p' ∧ Nest p' ∧ NestStep p p') ∨
        (cs = [] ∧ ∃ p', after_dispatch r = .exit (.ok () p')) ∨ ∃ e p', after_dispatch r = .exit (.error e p') := by
    intro p1 c1 r hc h1 he
    have hsame := hc.sameFrame hp h1
    have hshaped := h.shaped
    rw [hp] at hshaped
    rcases cs with _ | ⟨d, ds⟩
    · exact .inr (.inl ⟨rfl, he.outer h1 (hsame.handlers.trans hshaped)⟩)
    · have hw : c.handlers.InRange := h.window c (by simp [hp])
      have hd : d.Waits := h.waits d (by simp [hp])
      obtain ⟨kind, gs, dangling, d', hr, hn⟩ := he.nested h1 (hsame.handlers ▸ hshaped.1) (hsame.handlers ▸ hw) hd
      refine .inl ⟨_, hn, h.resumes hp rfl hr, ?_⟩
      have hlen : p1.ctxts.length = (c :: d :: ds).length := by simp [h1]
      simp only [NestStep, frames, hp, hlen, hc.invoked]
      exact .closes hr kind
  have hcase := iterate_cases hp hv
  generalize iterate p = t at hcase ⊢
  cases hcase with
  | @stays p1 c1 hc h1 =>
    have hsame := hc.sameFrame hp h1
    refine .inl ⟨_, rfl, h.works hp rfl hsame, ?_⟩
    simp only [NestStep, frames, hp, hc.invoked]
    exact .works (hsame.trans (step_sameFrame _))
  | @opens p1 c1 f op hc h1 hop hcall hf hdepth hd =>
    obtain ⟨hc1, hn, hf, hr⟩ := opens_eq hp hop hcall hd rfl
    have hcalls : Calls c c1 := ⟨op, hop, hcall, hc1⟩
    have hthree := op.three_le_operand_count
    have hlen : c1.s.length = c.s.length - op.operand_count := by
      rw [hc1, List.length_drop]
    have hw : c1.Waits := by
      constructor
      · rcases h.top c cs hp with hpc | hnil
        · rw [hc1]
          exact hpc
        · rw [hnil] at hn
          simp at hn
          omega
      · omega
    refine .inl ⟨_, rfl, h.opens hp rfl hcalls.sameFrame hw hf hr, ?_⟩
    simp only [NestStep, frames, hp, hc.invoked]
    exact .opens hcalls _
  | fails hc h1 => exact hend hc h1 (.fails _)
  | returns hc h1 => exact hend hc h1 (.returns _)
  | stops hc h1 => exact hend hc h1 .stops
  | escapes => exact .inr (.inr ⟨_, _, rfl⟩)

/-- A turn after which the loop goes on. -/
theorem Nest.next (h : Nest p) (hs : ∀ c ∈ p.ctxts, c.s.length ≤ Stack.MAX_SIZE) (hn : iterate p = .next p') :
    Nest p' ∧ NestStep p p' := by
  obtain ⟨c, cs, hp, hv, -⟩ := next_cases hn
  rcases nest_turn h hp hv (hs c (by simp [hp])) with ⟨q, hq, hnest, hstep⟩ | ⟨-, q, hq⟩ | ⟨e, q, hq⟩
  · cases hn.symm.trans hq
    exact ⟨hnest, hstep⟩
  · cases hn.symm.trans hq
  · cases hn.symm.trans hq

/-- The states the loop reaches from `p` while there are more than `n` contexts. -/
abbrev Above (n : Nat) : Processor W R → Processor W R → Prop :=
  Relation.ReflTransGen fun p p' => iterate p = .next p' ∧ n < p'.ctxts.length

theorem Above.reaches {n : Nat} (h : Above n p p') : Loop.Reaches iterate p p' := by
  induction h with
  | refl => exact .refl
  | tail _ h ih => exact ih.tail h.1

/-- The run that starts in `p0` does not run off the end of a nested context, and no stack gets too long. -/
structure WellEnded (p0 : Processor W R) : Prop where
  pc_valid : ∀ p c d ds, Loop.Reaches iterate p0 p → p.ctxts = c :: d :: ds → c.pc_valid = true
  s_le : ∀ p c, Loop.Reaches iterate p0 p → c ∈ p.ctxts → c.s.length ≤ Stack.MAX_SIZE

/-- The turn from `p` to `p'` is a call, and what follows is its execution: `c` opens `f` with `op` and waits as `c'`
above `cs`, until one handler of `f` is called, and `c'` goes on after the call with one word more. All of this is done
within what the source defines. -/
structure CallsAndReturns (p p' : Processor W R) (op : Opcode) (c c' f : Context R) (cs : List (Context R)) : Prop where
  caller : p.ctxts = c :: cs
  next_op : c.next_op = some op
  is_call : op.is_call
  waits : c' = { c with s := c.s.drop op.operand_count, mem := c'.mem }
  opened : p'.ctxts = f :: c' :: cs
  not_reported : p'.invoked = p.invoked
  unchanged : ∀ q, Above p.ctxts.length p' q → ∃ above f' closed, q.ctxts = above ++ f' :: c' :: cs ∧
    SameFrame f f' ∧ q.invoked = closed ++ p.invoked ∧ ∀ e ∈ closed, p.ctxts.length + 1 < e.1
  goes_on : ∀ q q', Above p.ctxts.length p' q → iterate q ≠ .exit (.ok () q')
  defined : ∀ q q', Above p.ctxts.length p' q → iterate q = .next q' → q'.dangling = false
  returns : ∀ q q', Above p.ctxts.length p' q → iterate q = .next q' → q'.ctxts.length ≤ p.ctxts.length →
    ∃ kind w mem, q'.ctxts = { c with pc := c.pc + 1, s := w :: c.s.drop op.operand_count, mem } :: cs ∧
      q'.invoked = (p.ctxts.length + 1, kind) :: q.invoked

/-- Every turn of the run that opens a context is a call that returns. -/
def NestsCalls (p0 : Processor W R) : Prop :=
  ∀ p p', Loop.Reaches iterate p0 p → iterate p = .next p' → p.ctxts.length < p'.ctxts.length →
    ∃ op c c' f cs, CallsAndReturns p p' op c c' f cs

omit [GlobalState W R] [Keccak] in
/-- Of a turn that opens a context, seen as a step of a machine with a stack of frames. -/
theorem opens_of_length_lt (h : NestStep p p') (hlt : p.ctxts.length < p'.ctxts.length) :
    ∃ c c' f cs, Calls c c' ∧ p.ctxts = c :: cs ∧ p'.ctxts = f :: c' :: cs ∧ p'.invoked = p.invoked := by
  have key : ∀ s s' : Nesting.State (Context R) HandlerKind, Nesting.Step SameFrame Calls Resumes s s' →
      s.frames.length < s'.frames.length → ∃ c c' f cs, Calls c c' ∧ s.frames = c :: cs ∧
        s'.frames = f :: c' :: cs ∧ s'.log = s.log := by
    intro s s' h hlt
    cases h with
    | works => simp at hlt
    | opens h f => exact ⟨_, _, f, _, h, rfl, rfl, rfl⟩
    | closes => simp at hlt
  exact key _ _ h hlt

/-- In a well-ended run the invariant holds in every state. -/
theorem nest_of_reaches {p0 : Processor W R} (h : WellEnded p0) (h0 : Nest p0) (hr : Loop.Reaches iterate p0 p) :
    Nest p :=
  hr.invariant (P := fun p : Processor W R => Nest p) h0 fun q _ hq hn ht => (hn.next (fun c hc => h.s_le q c hq hc) ht).1

theorem nestStep_of_reaches {p0 : Processor W R} (h : WellEnded p0) (h0 : Nest p0) (hr : Loop.Reaches iterate p0 p)
    (hn : iterate p = .next p') : NestStep p p' :=
  ((nest_of_reaches h h0 hr).next (fun c hc => h.s_le p c hr hc) hn).2

/-- With a nested context on top the loop does not come to its end. -/
theorem goes_on_of_nested {p0 q q' : Processor W R} (h : WellEnded p0) (h0 : Nest p0) (hq : Loop.Reaches iterate p0 q)
    (hlen : 1 < q.ctxts.length) : iterate q ≠ .exit (.ok () q') := by
  intro hx
  rcases hp : q.ctxts with _ | ⟨c, _ | ⟨d, ds⟩⟩
  · simp [hp] at hlen
  · simp [hp] at hlen
  · have hv := h.pc_valid q c d ds hq hp
    rcases nest_turn (nest_of_reaches h h0 hq) hp hv (h.s_le q c hq (by simp [hp])) with
      ⟨q', hn, -, -⟩ | ⟨hnil, -⟩ | ⟨e, q', he⟩
    · cases hx.symm.trans hn
    · cases hnil
    · cases hx.symm.trans he

omit [Keccak] in
theorem nest_start (gs : W) (tx : Transaction) (tr : Option (List TraceEvent)) (caller : Address) (callee : R)
    (input : Bytes) (call_value : Word) : Nest (start gs tx tr caller callee input call_value) := by
  constructor
  · exact rfl
  · rintro c cs ⟨⟩
    exact .inr rfl
  · simp [start]
  · simp [start, Handlers.InRange]

/-- In a well-ended and defined run every turn that opens a context is a call that returns as `CallsAndReturns` says. -/
theorem calls_of_defined {p0 : Processor W R} (h : WellEnded p0) (h0 : Nest p0) (hd : Defined p0)
    (hr : Loop.Reaches iterate p0 p) (hn : iterate p = .next p') (ho : p.ctxts.length < p'.ctxts.length) :
    ∃ op c c' f cs, CallsAndReturns p p' op c c' f cs := by
  -- the turn is a step that opens a frame
  obtain ⟨c, c', f, cs, hcalls, hp, hp', hinv⟩ := opens_of_length_lt (nestStep_of_reaches h h0 hr hn) ho
  obtain ⟨op, hop, hcall, hc'⟩ := id hcalls
  have hreach : ∀ {q}, Above p.ctxts.length p' q → Loop.Reaches iterate p0 q :=
    fun hq => (hr.tail hn).trans hq.reaches
  have hlen : (c' :: cs).length = p.ctxts.length := by simp [hp]
  -- the frame is open in every state above `p`
  have hopen : ∀ {q}, Above p.ctxts.length p' q → Nesting.Open SameFrame f (c' :: cs) p.invoked q.frames := by
    intro q hq
    have hstart : Nesting.Open SameFrame f (c' :: cs) p.invoked p'.frames := by
      rw [frames, hp', hinv]
      exact .refl
    refine hstart.run (fun _ _ => id) (fun _ _ => Calls.sameFrame) (fun _ _ => Resumes.sameFrame) ?_
    induction hq with
    | refl => exact .refl
    | @tail q q' hq hs ih => exact ih.tail ⟨nestStep_of_reaches h h0 (hreach hq) hs.1, by rw [hlen]; exact hs.2⟩
  refine ⟨op, c, c', f, cs, hp, hop, hcall, hc', hp', hinv, ?_, ?_, ?_, ?_⟩
  · intro q hq
    obtain ⟨above, f', closed, h1, h2, h3, h4⟩ := hopen hq
    exact ⟨above, f', closed, h1, h2, h3, by rwa [hlen] at h4⟩
  · intro q q' hq
    have hlt := (hopen hq).length_lt
    simp only [List.length_cons] at hlt
    exact goes_on_of_nested h h0 (hreach hq) (Nat.lt_of_le_of_lt (Nat.le_add_left 1 _) hlt)
  · exact fun q q' hq hs => hd.reached q' ((hreach hq).tail hs)
  · intro q q' hq hs hle
    rcases (hopen hq).step (fun _ _ => id) (fun _ _ => Calls.sameFrame) (fun _ _ => Resumes.sameFrame)
      (nestStep_of_reaches h h0 (hreach hq) hs) with hstill | ⟨d, d', ds, kind, hbase, ⟨w, mem, hd⟩, h1, h2⟩
    · have := hstill.length_lt
      rw [hlen] at this
      exact absurd hle (Nat.not_le.2 this)
    · cases hbase
      rw [hlen] at h2
      refine ⟨kind, w, mem, h1.trans ?_, h2⟩
      rw [hd, hc']

/-- Every context but the first one has been opened in a turn of the run, and has been there since. -/
theorem opening_of_reaches {p0 q : Processor W R} (h : WellEnded p0) (h0 : Nest p0) (hone : p0.ctxts.length ≤ 1)
    (hr : Loop.Reaches iterate p0 q) {k : Nat} (hk : 1 ≤ k) (hlt : k < q.ctxts.length) :
    ∃ p p', Loop.Reaches iterate p0 p ∧ iterate p = .next p' ∧ p.ctxts.length = k ∧ k < p'.ctxts.length ∧ Above k p' q := by
  induction hr with
  | refl => omega
  | @tail q q' hq hn ih =>
    by_cases hlt' : k < q.ctxts.length
    · obtain ⟨p, p', hp, hpn, hlen, hlen', habove⟩ := ih hlt'
      exact ⟨p, p', hp, hpn, hlen, hlen', habove.tail ⟨hn, hlt⟩⟩
    · -- the turn opens the context itself
      have hle : q'.ctxts.length ≤ q.ctxts.length + 1 := (nestStep_of_reaches h h0 hq hn).length_le
      exact ⟨q, q', hq, hn, by omega, hlt, .refl⟩

/-- Init code that returns ends, with the loop going on below it. -/
theorem next_of_returnsInit {q : Processor W R} (hnest : Nest q) (h : ReturnsInit q) :
    ∃ q', iterate q = .next q' ∧ q'.ctxts.length + 1 = q.ctxts.length ∧ 1 < q.ctxts.length := by
  obtain ⟨g, gs, hq, hg⟩ := h
  obtain ⟨newAcc, hinit⟩ := hg.handlers
  have hshaped := hnest.shaped
  rw [hq] at hshaped
  rcases gs with _ | ⟨d, ds⟩
  · cases hinit.symm.trans hshaped
  have hv : g.pc_valid = true := by
    by_contra hv
    cases hg.next_op.symm.trans (Context.next_op_of_off_end (by simpa using hv))
  have hcase := dispatch_return hq hg.next_op
  rw [iterate_valid hq hv]
  generalize dispatch q = r at hcase
  cases hcase with
  | refused _ hno => exact absurd hg.operands.choose_spec.choose_spec (hno _ _)
  | @returns output g' hquiet hops =>
    have hw : g'.handlers.InRange := by
      rw [hquiet.handlers]
      exact hnest.window g (by simp [hq])
    have hne : g'.handlers ≠ .run := by
      rw [hquiet.handlers]
      exact hshaped.1
    have hd : d.Waits := hnest.waits d (by simp [hq])
    obtain ⟨kind, gs', dangling, d', -, hn⟩ := (Ending.returns output).nested
      (p := { traced q g with ctxts := g' :: d :: ds }) rfl hne hw hd
    exact ⟨_, hn, by simp [hq], by simp [hq]⟩

/-- **Nesting.** In a well-ended run every turn that opens a context is a call that returns as `CallsAndReturns` says, just
when no init code returns. -/
theorem calls_and_returns_iff (gs : W) (tx : Transaction) (tr : Option (List TraceEvent)) (caller : Address) (callee : R)
    (input : Bytes) (call_value : Word) (h : WellEnded (start gs tx tr caller callee input call_value)) :
    NestsCalls (start gs tx tr caller callee input call_value) ↔
      ∀ p, Loop.Reaches iterate (start gs tx tr caller callee input call_value) p → ¬ReturnsInit p := by
  have h0 := nest_start gs tx tr caller callee input call_value
  constructor
  · intro hcalls q hr hret
    have hnest := nest_of_reaches h h0 hr
    obtain ⟨q', hn, hlen, hlt⟩ := next_of_returnsInit hnest hret
    -- the turn in which the context of the init code has been opened
    obtain ⟨p, p', hp, hpn, hk, ho, habove⟩ := opening_of_reaches h h0 (Nat.le_refl 1) hr (k := q'.ctxts.length)
      (by omega) (by omega)
    obtain ⟨op, c, c', f, cs, hcall⟩ := hcalls p p' hp hpn (hk ▸ ho)
    have hset := ((turn_dangling q).1 q' hn).2 (.inr hret)
    exact absurd ((hcall.defined q q' (hk ▸ habove) hn).symm.trans hset) nofun
  · intro hno p p' hr hn ho
    exact calls_of_defined h h0 ((defined_iff rfl).2 hno) hr hn ho

end

/-! ## A run of each kind -/

/-- The part of `WellEnded` that is about one state, as a test. -/
def well_ended_here (p : Processor W R) : Bool :=
  (p.ctxts.length ≤ 1 || p.ctxts.head?.all Context.pc_valid) && p.ctxts.all fun c => c.s.length ≤ Stack.MAX_SIZE

theorem well_ended_of_all [Keccak] {p0 : Processor W R} {fuel : Nat}
    (h : Loop.all iterate well_ended_here fuel p0 = true) : WellEnded p0 := by
  constructor
  · intro p c d ds hr hp
    have hp' := Loop.Reaches.of_all hr h
    simp [well_ended_here, hp] at hp'
    exact hp'.1
  · intro p c hr hc
    have hp' := Loop.Reaches.of_all hr h
    simp [well_ended_here] at hp'
    exact hp'.2 c hc

/-- Account 100 creates an account, whose init code stops, and then calls account 200, which returns. -/
def nested_start : Processor SimpleGlobalState Address :=
  start (.of_accounts
    [{ address := 100
       code := [0x60, 1, 0x60, 0, 0x60, 0, 0xf0, 0x60, 0, 0x60, 0, 0x60, 0, 0x60, 0, 0x60, 0, 0x60, 200, 0x60, 0, 0xf1, 0] },
      { address := 200, code := [0x60, 0, 0x60, 0, 0xf3] }]) { origin := 1 } none 1 100 [] 0

theorem calls_and_returns_nested : @NestsCalls _ _ _ no_hash nested_start :=
  (@calls_and_returns_iff _ _ _ no_hash _ _ _ _ _ _ _ (@well_ended_of_all _ _ _ no_hash nested_start 20 rfl)).2
    (@not_returnsInit_of_all _ _ _ no_hash nested_start 20 rfl)

/-- Account 100 with the code `code`. -/
def init_code_start (code : Bytes) : Processor SimpleGlobalState Address :=
  start (.of_accounts [{ address := 100, code := code }]) { origin := 1 } none 1 100 [] 0

/-- Creates an account with the init code `60 00 60 00 f3`, which returns nothing. -/
def returning_init_code : Bytes := [0x64, 0x60, 0, 0x60, 0, 0xf3, 0x60, 0, 0x52, 0x60, 5, 0x60, 27, 0x60, 0, 0xf0]

/-- The `RETURN` of its init code is the tenth turn of this run. -/
theorem not_nested_of_returning_init_code :
    @WellEnded _ _ _ no_hash (init_code_start returning_init_code) ∧
      ¬@NestsCalls _ _ _ no_hash (init_code_start returning_init_code) := by
  refine ⟨@well_ended_of_all _ _ _ no_hash _ 20 rfl, fun h => ?_⟩
  have hr : @Loop.Reaches _ _ (@iterate _ _ _ no_hash) (init_code_start returning_init_code) _ :=
    .of_steps (show @Loop.steps _ _ (@iterate _ _ _ no_hash) 6 (init_code_start returning_init_code) = some _ from rfl)
  obtain ⟨op, c, c', f, cs, hcall⟩ := h _ _ hr rfl (by decide)
  have hdefined := @CallsAndReturns.defined _ _ _ no_hash _ _ _ _ _ _ _ hcall _ _
    (.tail (.tail .refl ⟨rfl, by decide⟩) ⟨rfl, by decide⟩) rfl
  exact absurd hdefined (by decide)

end Processor

end EEVM

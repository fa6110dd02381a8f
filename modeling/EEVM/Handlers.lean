import EEVM.Turn
/-!
# How a context ends, exactly (processor.cpp:185-218, 1196-1214, 1246-1302)

`c` is the context on top. If it is the outermost one its handlers write the result; if not they report to `d`, the one
right below, by pushing a word on its stack, and for `RETURN` write the output first. The only thing that can go wrong
is that the parent's stack is full (`s_push`) or, for `RETURN` into a call's window, that the window is not within
the memory limit.
-/
namespace EEVM

open ExcState

section

variable {R : Type}

theorem Context.step_pc_changed (c : Context R) : c.step.pc_changed = false := by
  unfold Context.step
  split <;> simp_all

@[simp]
theorem Context.step_s (c : Context R) : c.step.s = c.s := by
  unfold Context.step
  split <;> rfl

theorem Context.step_mem (c : Context R) : c.step.mem = c.mem := by
  unfold Context.step
  split <;> rfl

/-- `d` has been given the word `w` as the result of its call. -/
def Context.given (d : Context R) (w : Word) : Context R := { d with s := w :: d.s }

/-- The word `hh` pushes: a `CREATE` whose init code halts has not created anything (`:1250`, `:1301`). -/
def Handlers.hh_word : Handlers R → Word
  | .create _ => 0
  | _ => 1

/-- What `rh` does to the parent; `newAddress` is the address of the new account. -/
def Handlers.rh_report (h : Handlers R) (newAddress : Address) (output : Bytes) : CtxM R Unit :=
  match h with
  | .run => pure ()
  | .create _ => s_push newAddress
  | .call offOut sizeOut => do
    copy_to_mem offOut 0 sizeOut output 0
    s_push 1

theorem Handlers.rh_report_quiet (h : Handlers R) (newAddress : Address) (output : Bytes) :
    CtxM.Quiet (h.rh_report newAddress output) := by
  cases h with
  | run => exact .pure _
  | create => exact s_push_quiet _
  | call => exact (copy_to_mem_quiet _ _ _ _ _).bind fun _ => s_push_quiet _

/-- What `return_` takes: the bytes to return. -/
def return_operands : CtxM R Bytes := do
  let offset ← s_pop64
  let size ← s_pop64
  copy_from_mem offset size

theorem return_operands_quiet : CtxM.Quiet (R := R) return_operands :=
  s_pop64_quiet.bind fun offset => s_pop64_quiet.bind fun size => copy_from_mem_quiet offset size

end

namespace Processor

variable {W R α : Type}

theorem onCtxtAt_one {m : CtxM R α} {p : Processor W R} {c d ds} (hp : p.ctxts = c :: d :: ds) :
    onCtxtAt 1 m p = match m d with
      | .ok a d' => .ok a { p with ctxts := c :: d' :: ds }
      | .error e d' => .error e { p with ctxts := c :: d' :: ds } := by
  cases h : m d <;>
    simp only [onCtxtAt, hp, h, List.getElem?_cons_succ, List.getElem?_cons_zero, List.set_cons_succ, List.set_cons_zero]

theorem s_push_of_not_full {d : Context R} (h : d.s.length ≠ Stack.MAX_SIZE) (val : Word) :
    s_push val d = .ok () { d with s := val :: d.s } := by
  simp only [s_push, onStack, Stack.push, if_neg h]

theorem s_push_full {d : Context R} (h : d.s.length = Stack.MAX_SIZE) (val : Word) :
    ∃ ex, s_push val d = .error (.exception ex) d := by
  simp only [s_push, onStack, Stack.push, h, if_true]
  exact ⟨_, rfl⟩

theorem s_push_cases (val : Word) (d : Context R) :
    (d.s.length ≠ Stack.MAX_SIZE ∧ s_push val d = .ok () (d.given val)) ∨
      d.s.length = Stack.MAX_SIZE ∧ ∃ ex, s_push val d = .error (.exception ex) d := by
  by_cases h : d.s.length = Stack.MAX_SIZE
  · exact .inr ⟨h, s_push_full h val⟩
  · exact .inl ⟨h, s_push_of_not_full h val⟩

theorem ctxt_cons {p : Processor W R} {c cs} (hp : p.ctxts = c :: cs) : ctxt p = .ok c p := by
  rw [ctxt, onCtxt_cons hp, run_get]
  simp only [← hp]

/-- `invoked`, after the handler `kind` of the context on top has been called. -/
def noted (p : Processor W R) (kind : HandlerKind) : List (Nat × HandlerKind) :=
  (p.ctxts.length, kind) :: p.invoked

variable [GlobalState W R]

/-- What `rh` does to the world: `CREATE` gives the new account its code. -/
def rh_world (h : Handlers R) (output : Bytes) (gs : W) : W :=
  match h with
  | .create newAcc => set_code newAcc output gs
  | _ => gs

/-- The flag `dangling` after `rh`: the one of `create` has used its reference. -/
def rh_dangling (h : Handlers R) (dangling : Bool) : Bool :=
  match h with
  | .create _ => true
  | _ => dangling

/-- The address `CREATE` reports. -/
def rh_address (h : Handlers R) (output : Bytes) (gs : W) : Address :=
  match h with
  | .create newAcc => get_address newAcc (set_code newAcc output gs)
  | _ => 0

section

variable {p : Processor W R} {c d : Context R} {cs ds : List (Context R)}

/-! ## An exception -/

omit [GlobalState W R] in
theorem catch_outer (hp : p.ctxts = c :: cs) (h : c.handlers = .run) (ex : Exception) :
    catch_exception ex p = .ok () { p with
      invoked := p.noted .eh, ctxts := cs
      result := { p.result with er := .threw, ex := ex.type, exmsg := ex.msg } } := by
  rw [catch_exception, bind_of_ok (ctxt_cons hp), h]
  simp only [eh, invoke, pop_context, noted, run_bind, run_modify, hp, List.tail_cons]
  rfl

omit [GlobalState W R] in
theorem catch_nested (hp : p.ctxts = c :: d :: ds) (h : c.handlers ≠ .run) (ex : Exception) :
    catch_exception ex p = match s_push 0 d with
      | .ok _ d' => .ok () { p with invoked := p.noted .eh, ctxts := d' :: ds }
      | .error e d' => .error e { p with invoked := p.noted .eh, ctxts := c :: d' :: ds } := by
  have heh : eh c.handlers 1 ex p = onCtxtAt 1 (s_push 0) { p with invoked := p.noted .eh } := by
    cases hc : c.handlers with
    | run => exact absurd hc h
    | create | call => rfl
  have hp' : ({ p with invoked := p.noted .eh } : Processor W R).ctxts = c :: d :: ds := hp
  rw [catch_exception, bind_of_ok (ctxt_cons hp), run_bind, heh, onCtxtAt_one hp']
  cases s_push 0 d <;> rfl

/-! ## `STOP` -/

omit [GlobalState W R] in
theorem stop_outer (hp : p.ctxts = c :: cs) (h : c.handlers = .run) :
    stop p = .ok () { p with invoked := p.noted .hh, ctxts := cs, result := { p.result with er := .halted } } := by
  rw [stop, bind_of_ok (ctxt_cons hp), h]
  simp only [hh, invoke, pop_context, noted, run_bind, run_modify, hp, List.tail_cons]
  rfl

omit [GlobalState W R] in
theorem stop_nested (hp : p.ctxts = c :: d :: ds) (h : c.handlers ≠ .run) :
    stop p = match s_push c.handlers.hh_word d with
      | .ok _ d' => .ok () { p with invoked := p.noted .hh, ctxts := d' :: ds }
      | .error e d' => .error e { p with invoked := p.noted .hh, ctxts := d' :: ds } := by
  have hpop : pop_context p = .ok () { p with ctxts := d :: ds } := by
    simp only [pop_context, run_modify, hp, List.tail_cons]
  have hhh : hh c.handlers 0 { p with ctxts := d :: ds } =
      onCtxt (s_push c.handlers.hh_word) { p with invoked := p.noted .hh, ctxts := d :: ds } := by
    cases hc : c.handlers with
    | run => exact absurd hc h
    | create | call => simp only [hh, invoke, noted, hp]; rfl
  have hp' : ({ p with invoked := p.noted .hh, ctxts := d :: ds } : Processor W R).ctxts = d :: ds := rfl
  rw [stop, bind_of_ok (ctxt_cons hp), bind_of_ok hpop, hhh, onCtxt_cons hp']
  cases s_push c.handlers.hh_word d <;> rfl

/-! ## `RETURN` -/

theorem returning_outer (hp : p.ctxts = c :: cs) (h : c.handlers = .run) (output : Bytes) :
    returning output p = .ok () { p with
      invoked := p.noted .rh, ctxts := cs, result := { p.result with er := .returned, output } } := by
  rw [returning, bind_of_ok (ctxt_cons hp), h]
  simp only [rh, invoke, pop_context, noted, run_bind, run_modify, hp, List.tail_cons]
  rfl

theorem returning_nested (hp : p.ctxts = c :: d :: ds) (h : c.handlers ≠ .run) (output : Bytes) :
    returning output p = match c.handlers.rh_report (rh_address c.handlers output p.gs) output d with
      | .ok _ d' => .ok () { p with
        invoked := p.noted .rh, gs := rh_world c.handlers output p.gs
        dangling := rh_dangling c.handlers p.dangling, ctxts := d' :: ds }
      | .error e d' => .error e { p with
        invoked := p.noted .rh, gs := rh_world c.handlers output p.gs
        dangling := rh_dangling c.handlers p.dangling, ctxts := c :: d' :: ds } := by
  let q : Processor W R := { p with
    invoked := p.noted .rh, gs := rh_world c.handlers output p.gs, dangling := rh_dangling c.handlers p.dangling }
  have hrh : rh c.handlers 1 output p =
      onCtxtAt 1 (c.handlers.rh_report (rh_address c.handlers output p.gs) output) q := by
    cases hc : c.handlers with
    | run => exact absurd hc h
    | create | call =>
      simp only [q, hc]
      rfl
  have hp' : q.ctxts = c :: d :: ds := hp
  rw [returning, bind_of_ok (ctxt_cons hp), run_bind, hrh, onCtxtAt_one hp']
  cases c.handlers.rh_report (rh_address c.handlers output p.gs) output d <;> rfl

inductive ReturnCase (p : Processor W R) (c : Context R) (cs : List (Context R)) :
    EStateM.Result Thrown (Processor W R) Unit → Prop
  | refused {ex c'} (hq : Quiet c c') (hops : ∀ a d, return_operands c ≠ .ok a d) :
    ReturnCase p c cs (.error (.exception ex) { p with ctxts := c' :: cs })
  | returns {output c'} (hq : Quiet c c') (hops : return_operands c = .ok output c') :
    ReturnCase p c cs (returning output { p with ctxts := c' :: cs })

theorem return_cases (hp : p.ctxts = c :: cs) : ReturnCase p c cs (return_ p) := by
  have heq : return_ (W := W) (R := R) = onCtxt return_operands >>= returning := by
    simp only [return_, return_by, return_operands, copy_from_mem, onCtxt_bind, bind_assoc]
  rw [heq]
  rcases onCtxt_quiet_cases return_operands_quiet hp with ⟨output, c1, hops, hq, hrun⟩ | ⟨ex, c1, hops, hq, hrun⟩
  · rw [bind_of_ok hrun]
    exact .returns hq hops
  · rw [bind_of_error hrun]
    exact .refused hq (by simp [hops])

theorem dispatch_return [Keccak] (hp : p.ctxts = c :: cs) (hop : c.next_op = some .RETURN) :
    ReturnCase (traced p c) c cs (dispatch p) := by
  have hd : dispatch p = return_ (traced p c) := by
    rw [dispatch_eq hp, hop]
    rfl
  rw [hd]
  exact return_cases hp

end

/-! ## What the handlers leave alone -/

/-- A relation that does not look at the contexts, at the handlers that have been called or at the result. -/
class Unseen (S : Processor W R → Processor W R → Prop) : Prop extends Std.Refl S, IsTrans (Processor W R) S where
  unseen : ∀ p ctxts invoked result, S p { p with ctxts, invoked, result }

section

variable {S : Processor W R → Processor W R → Prop} [Unseen S]

section

omit [GlobalState W R]

theorem onCtxtAt_unseen (k : Nat) (m : CtxM R α) : Keeps S (fun _ _ => True) (onCtxtAt (W := W) k m) := by
  intro p
  unfold onCtxtAt
  cases p.ctxts[k]? with
  | none => exact ⟨Std.Refl.refl p, trivial⟩
  | some c =>
    dsimp only
    cases m c with
    | ok a c' => exact Unseen.unseen p _ _ _
    | error e c' => exact ⟨Unseen.unseen p _ _ _, trivial⟩

theorem invoke_unseen (kind : HandlerKind) (k : Nat) : Keeps S (fun _ _ => True) (invoke (W := W) (R := R) kind k) :=
  .modify fun p => Unseen.unseen p _ _ _

theorem pop_context_unseen : Keeps S (fun _ _ => True) (pop_context (W := W) (R := R)) :=
  .modify fun p => Unseen.unseen p _ _ _

theorem hh_unseen (h : Handlers R) (k : Nat) : Keeps S (fun _ _ => True) (hh (W := W) h k) := by
  refine (invoke_unseen _ k).bind fun _ => ?_
  cases h with
  | run => exact .modify fun p => Unseen.unseen p _ _ _
  | create | call => exact onCtxtAt_unseen _ _

theorem eh_unseen (h : Handlers R) (k : Nat) (ex : Exception) : Keeps S (fun _ _ => True) (eh (W := W) h k ex) := by
  refine (invoke_unseen _ k).bind fun _ => ?_
  cases h with
  | run => exact .modify fun p => Unseen.unseen p _ _ _
  | create | call => exact onCtxtAt_unseen _ _

theorem catch_unseen (ex : Exception) : Keeps S (fun _ _ => True) (catch_exception (W := W) (R := R) ex) :=
  (onCtxtAt_unseen 0 get).bind fun c => (eh_unseen c.handlers 1 ex).bind fun _ => pop_context_unseen

theorem stop_unseen : Keeps S (fun _ _ => True) (stop (W := W) (R := R)) :=
  (onCtxtAt_unseen 0 get).bind fun c => pop_context_unseen.bind fun _ => hh_unseen c.handlers 0

end

/-- `RETURN` writes the code of a new account, and nothing where there is none. -/
theorem rh_unseen {h : Handlers R} (hh : ∀ newAcc, h ≠ .create newAcc) (k : Nat) (output : Bytes) :
    Keeps S (fun _ _ => True) (rh (W := W) h k output) := by
  refine (invoke_unseen _ k).bind fun _ => ?_
  cases h with
  | run => exact .modify fun p => Unseen.unseen p _ _ _
  | create newAcc => exact absurd rfl (hh newAcc)
  | call => exact onCtxtAt_unseen _ _

theorem returning_unseen {p : Processor W R} {c cs} (hp : p.ctxts = c :: cs)
    (hc : ∀ newAcc, c.handlers ≠ .create newAcc) (output : Bytes) : S p (final (returning output p)) := by
  rw [returning, bind_of_ok (ctxt_cons hp)]
  exact ((rh_unseen hc 1 output).bind fun _ => pop_context_unseen).final p

/-- In the init code of a new account, it gives this its code, through the reference of `create`. -/
theorem returning_init {p : Processor W R} {c cs newAcc} (hp : p.ctxts = c :: cs) (hc : c.handlers = .create newAcc)
    (output : Bytes) :
    S { p with gs := set_code newAcc output p.gs, dangling := true } (final (returning output p)) := by
  let rest : M W R Unit := do
    let q ← get
    onCtxtAt 1 (s_push (get_address newAcc q.gs))
    pop_context
  have hrest : Keeps S (fun _ _ => True) rest :=
    Keeps.get.bind fun q => (onCtxtAt_unseen 1 _).bind fun _ => pop_context_unseen
  let q : Processor W R := { p with gs := set_code newAcc output p.gs, dangling := true }
  have heq : returning output p = rest { q with invoked := p.noted .rh } := by
    rw [returning, bind_of_ok (ctxt_cons hp), hc]
    rfl
  rw [heq]
  exact IsTrans.trans _ _ _ (Unseen.unseen q q.ctxts (p.noted .rh) q.result) (hrest.final _)

omit [GlobalState W R] in
/-- What follows `dispatch` in a turn leaves alone what the handlers do. -/
theorem after_dispatch_unseen {r : EStateM.Result Thrown (Processor W R) Unit} :
    (∀ p', after_dispatch r = .next p' → S (final r) p') ∧
      ∀ r', after_dispatch r = .exit r' → S (final r) (final r') := by
  have hstep : ∀ p : Processor W R, (∀ p', step_or_break p = .next p' → S p p') ∧
      ∀ r', step_or_break p = .exit r' → S p (final r') := by
    intro p
    constructor
    · intro p' h
      obtain ⟨c, cs, -, rfl⟩ := step_or_break_next h
      exact Unseen.unseen p _ _ _
    · intro r' h
      obtain ⟨-, rfl⟩ := step_or_break_exit h
      exact Std.Refl.refl p
  rcases r with ⟨u, p1⟩ | ⟨ex | _ | _ | _, p1⟩
  · exact hstep p1
  · have hc := (catch_unseen (S := S) ex).final p1
    rw [after_dispatch]
    cases h : catch_exception ex p1 with
    | ok u p2 =>
      rw [h] at hc
      exact ⟨fun p' h' => IsTrans.trans _ _ _ hc ((hstep p2).1 p' h'),
        fun r' h' => IsTrans.trans _ _ _ hc ((hstep p2).2 r' h')⟩
    | error e p2 =>
      rw [h] at hc
      constructor
      · rintro p' ⟨⟩
      · rintro r' ⟨⟩
        exact hc
  all_goals
    constructor
    · rintro p' ⟨⟩
    · rintro r' ⟨⟩
      exact Std.Refl.refl p1

end

/-- The same world and the same transaction. -/
def SameWorld (p p' : Processor W R) : Prop := p'.gs = p.gs ∧ p'.tx = p.tx

instance : Unseen (SameWorld (W := W) (R := R)) where
  refl _ := ⟨rfl, rfl⟩
  trans _ _ _ h1 h2 := ⟨h2.1.trans h1.1, h2.2.trans h1.2⟩
  unseen _ _ _ _ := ⟨rfl, rfl⟩

/-- However `m` ends, it leaves world and transaction as they were. -/
abbrev KeepsWorld (m : M W R α) : Prop := Keeps SameWorld (fun _ _ => True) m

section

omit [GlobalState W R]

theorem onCtxtAt_keepsWorld (k : Nat) (m : CtxM R α) : KeepsWorld (W := W) (onCtxtAt k m) := onCtxtAt_unseen k m

theorem stop_keepsWorld : KeepsWorld (W := W) (R := R) stop := stop_unseen

theorem after_dispatch_sameWorld {r : EStateM.Result Thrown (Processor W R) Unit} :
    (∀ p', after_dispatch r = .next p' → SameWorld (final r) p') ∧
      ∀ r', after_dispatch r = .exit r' → SameWorld (final r) (final r') := after_dispatch_unseen

end

theorem returning_keepsWorld {p : Processor W R} {c cs} (hp : p.ctxts = c :: cs)
    (hc : ∀ newAcc, c.handlers ≠ .create newAcc) (output : Bytes) : SameWorld p (final (returning output p)) :=
  returning_unseen hp hc output

theorem returning_gives_code {p : Processor W R} {c cs newAcc} (hp : p.ctxts = c :: cs) (hc : c.handlers = .create newAcc)
    (output : Bytes) : SameWorld { p with gs := set_code newAcc output p.gs } (final (returning output p)) :=
  returning_init (S := SameWorld) hp hc output

/-! ## Who reports to whom -/

/-- The outermost context has the handlers of `run`, the others have those of a call or a creation. -/
def Shaped : List (Context R) → Prop
  | [] => True
  | [c] => c.handlers = .run
  | c :: d :: ds => c.handlers ≠ .run ∧ Shaped (d :: ds)

namespace Shaped

omit [GlobalState W R]

variable {c c' : Context R} {cs cs' : List (Context R)}

theorem tail (h : Shaped (c :: cs)) : Shaped cs := by
  cases cs with
  | nil => trivial
  | cons d ds => exact h.2

theorem drop {k : Nat} {l : List (Context R)} (h : Shaped l) : Shaped (l.drop k) := by
  induction k generalizing l with
  | zero => exact h
  | succ k ih =>
    cases l with
    | nil => trivial
    | cons c cs => exact ih h.tail

theorem top (h : Shaped (c :: cs)) (hc : c'.handlers = c.handlers) : Shaped (c' :: cs) := by
  cases cs with
  | nil => exact hc.trans h
  | cons d ds => exact ⟨hc ▸ h.1, h.2⟩

theorem of_quiet (h : Shaped cs) (hq : List.Forall₂ Quiet cs cs') : Shaped cs' := by
  induction hq with
  | nil => trivial
  | cons hq hqs ih =>
    cases hqs with
    | nil => exact hq.handlers.trans h
    | cons hq' hqs' => exact ⟨by rw [hq.handlers]; exact h.1, ih h.2⟩

theorem opens (h : Shaped (c :: cs)) (hc : c'.handlers ≠ .run) : Shaped (c' :: c :: cs) := ⟨hc, h⟩

end Shaped

omit [GlobalState W R] in
theorem step_sameFrame (c : Context R) : SameFrame c c.step := by
  unfold Context.step SameFrame
  split <;> rfl

omit [GlobalState W R] in
theorem step_of_not_changed {c : Context R} (h : c.pc_changed = false) : c.step = { c with pc := c.pc + 1 } := by
  simp [Context.step, h]

theorem step_handlers (c : Context R) : c.step.handlers = c.handlers := (step_sameFrame c).handlers

theorem Shaped.changes {p p' : Processor W R} {op : Option Opcode} (h : Shaped p.ctxts) (hc : Changes op p p') :
    Shaped p'.ctxts := by
  cases hp : p.ctxts with
  | nil =>
    have hnil : p'.ctxts = [] := by
      induction hc with
      | refl => exact hp
      | tail _ hc ih => cases hc <;> simp_all
    rw [hnil]
    trivial
  | cons c cs =>
    obtain ⟨c1, h1, hs⟩ := hc.top hp
    rw [h1]
    rw [hp] at h
    exact h.top hs.handlers

theorem Shaped.next [Keccak] {p p' : Processor W R} (h : Shaped p.ctxts) (hn : iterate p = .next p') :
    Shaped p'.ctxts ∧ p'.ctxts ≠ [] := by
  obtain ⟨c, cs, hp, hv, hc⟩ := next_cases hn
  cases hc with
  | stays hc h1 =>
    have hs := h.changes hc
    rw [h1] at hs
    exact ⟨hs.top (step_handlers _), nofun⟩
  | opens hc h1 _ _ hf =>
    have hs := h.changes hc
    rw [h1] at hs
    exact ⟨hs.opens (by rw [step_handlers]; exact hf.handlers), nofun⟩
  | ends hc h1 _ _ hd h2 =>
    have hs := ((h.changes hc).drop).of_quiet hd.ctxts
    rw [h2] at hs
    exact ⟨hs.top (step_handlers _), nofun⟩

/-- In a run every context but the outermost has a parent to report to, and there is always a context on top. -/
theorem shaped_of_reaches [Keccak] {gs : W} {tx : Transaction} {tr : Option (List TraceEvent)} {caller : Address}
    {callee : R} {input : Bytes} {call_value : Word} {p : Processor W R}
    (hr : Loop.Reaches iterate (start gs tx tr caller callee input call_value) p) :
    Shaped p.ctxts ∧ p.ctxts ≠ [] :=
  hr.invariant (P := fun p : Processor W R => Shaped p.ctxts ∧ p.ctxts ≠ []) ⟨rfl, nofun⟩ fun _ _ _ h hn => h.1.next hn

/-! ## The turn in which a context ends -/

section

variable {p p' : Processor W R} {c d : Context R} {cs ds : List (Context R)} {ex : Exception} {o : Bytes}

omit [GlobalState W R] in
/-- The loop does not leave when an exception reaches a nested context: it goes on, or something escapes. -/
theorem catch_nested_turn (hp : p.ctxts = c :: d :: ds) (hs : Shaped (c :: d :: ds)) (ex : Exception) :
    (d.s.length ≠ Stack.MAX_SIZE ∧ after_dispatch (.error (.exception ex) p) =
        .next { p with invoked := p.noted .eh, ctxts := (d.given 0).step :: ds }) ∨
      d.s.length = Stack.MAX_SIZE ∧ ∃ e, after_dispatch (.error (.exception ex) p) =
        .exit (.error e { p with invoked := p.noted .eh, ctxts := c :: d :: ds }) := by
  rw [after_dispatch, catch_nested hp hs.1]
  rcases s_push_cases 0 d with ⟨hroom, hr⟩ | ⟨hfull, e, hr⟩
  · rw [hr]
    exact .inl ⟨hroom, rfl⟩
  · rw [hr]
    exact .inr ⟨hfull, _, rfl⟩

omit [GlobalState W R] in
/-- After an exception the loop goes on in the parent, which is given a 0. -/
theorem catch_next (hp : p.ctxts = c :: cs) (hs : Shaped (c :: cs))
    (hn : after_dispatch (.error (.exception ex) p) = .next p') : ∃ d ds, cs = d :: ds ∧ d.s.length ≠ Stack.MAX_SIZE ∧
      p' = { p with invoked := p.noted .eh, ctxts := (d.given 0).step :: ds } := by
  cases cs with
  | nil =>
    rw [after_dispatch, catch_outer hp hs] at hn
    cases hn
  | cons d ds =>
    rcases catch_nested_turn hp hs ex with ⟨hroom, h⟩ | ⟨-, e, h⟩
    · rw [h] at hn
      cases hn
      exact ⟨d, ds, rfl, hroom, rfl⟩
    · rw [h] at hn
      cases hn

omit [GlobalState W R] in
/-- When an exception makes the loop leave, it has reached the outermost context. -/
theorem catch_exit (hx : after_dispatch (.error (.exception ex) p) = .exit (.ok () p')) (hp : p.ctxts = c :: cs)
    (hs : Shaped (c :: cs)) : cs = [] ∧ p'.ctxts = [] ∧ p'.result.er = .threw := by
  cases cs with
  | nil =>
    rw [after_dispatch, catch_outer hp hs] at hx
    obtain ⟨hnil, hx⟩ := step_or_break_exit hx
    cases hx
    exact ⟨rfl, hnil, rfl⟩
  | cons d ds =>
    rcases catch_nested_turn hp hs ex with ⟨-, h⟩ | ⟨-, e, h⟩
    · rw [h] at hx
      cases hx
    · rw [h] at hx
      cases hx

omit [GlobalState W R] in
/-- After a halt the loop goes on in the parent, or, where the parent's stack is full, in the one below it. -/
theorem stop_next (hp : p.ctxts = c :: cs) (hs : Shaped (c :: cs)) (hn : after_dispatch (stop p) = .next p') :
    ∃ d ds, cs = d :: ds ∧ ((d.s.length ≠ Stack.MAX_SIZE ∧
        p' = { p with invoked := p.noted .hh, ctxts := (d.given c.handlers.hh_word).step :: ds }) ∨
      d.s.length = Stack.MAX_SIZE ∧ ∃ e es, ds = e :: es ∧ p'.ctxts = (e.given 0).step :: es) := by
  cases cs with
  | nil =>
    rw [stop_outer hp hs] at hn
    cases hn
  | cons d ds =>
    rw [stop_nested hp hs.1] at hn
    rcases s_push_cases c.handlers.hh_word d with ⟨hroom, hr⟩ | ⟨hfull, e, hr⟩
    · rw [hr] at hn
      cases hn
      exact ⟨d, ds, rfl, .inl ⟨hroom, rfl⟩⟩
    · rw [hr] at hn
      obtain ⟨e, es, rfl, -, rfl⟩ := catch_next rfl hs.2 hn
      exact ⟨d, _, rfl, .inr ⟨hfull, e, es, rfl, rfl⟩⟩

omit [GlobalState W R] in
/-- When `STOP` makes the loop leave, the context was the outermost one, or its parent was, and failed. -/
theorem stop_exit (hp : p.ctxts = c :: cs) (hs : Shaped (c :: cs)) (hx : after_dispatch (stop p) = .exit (.ok () p')) :
    p'.ctxts = [] ∧ ((cs = [] ∧ p'.result.er = .halted ∧ stop p = .ok () p') ∨
      (p'.result.er = .threw ∧ ∃ c1 ex p1, stop p = .error (.exception ex) p1 ∧ p1.ctxts = [c1])) := by
  cases cs with
  | nil =>
    rw [stop_outer hp hs] at hx ⊢
    simp only [after_dispatch, step_or_break] at hx
    cases hx
    exact ⟨rfl, .inl ⟨rfl, rfl, rfl⟩⟩
  | cons d ds =>
    rw [stop_nested hp hs.1] at hx ⊢
    rcases s_push_cases c.handlers.hh_word d with ⟨-, hr⟩ | ⟨-, e, hr⟩
    · rw [hr] at hx
      cases hx
    · rw [hr] at hx ⊢
      obtain ⟨rfl, hnil, her⟩ := catch_exit hx rfl hs.2
      exact ⟨hnil, .inr ⟨her, d, e, _, rfl, rfl⟩⟩

/-- After a return the loop goes on in the parent, with the report, or with what the failed report has left and a 0. -/
theorem returning_next (hp : p.ctxts = c :: cs) (hs : Shaped (c :: cs)) (hn : after_dispatch (returning o p) = .next p') :
    ∃ d ds, cs = d :: ds ∧
      ((∃ d', c.handlers.rh_report (rh_address c.handlers o p.gs) o d = .ok () d' ∧ p' = { p with
          invoked := p.noted .rh, gs := rh_world c.handlers o p.gs
          dangling := rh_dangling c.handlers p.dangling, ctxts := d'.step :: ds }) ∨
        ∃ ex d', c.handlers.rh_report (rh_address c.handlers o p.gs) o d = .error (.exception ex) d' ∧
          d'.s.length ≠ Stack.MAX_SIZE ∧ p'.ctxts = (d'.given 0).step :: ds) := by
  cases cs with
  | nil =>
    rw [returning_outer hp hs] at hn
    cases hn
  | cons d ds =>
    rw [returning_nested hp hs.1] at hn
    have hq := c.handlers.rh_report_quiet (rh_address c.handlers o p.gs) o d
    cases hr : c.handlers.rh_report (rh_address c.handlers o p.gs) o d with
    | ok u d' =>
      rw [hr] at hn
      cases hn
      exact ⟨d, ds, rfl, .inl ⟨d', hr, rfl⟩⟩
    | error e d' =>
      rw [hr] at hn hq
      obtain ⟨hq, ex, rfl⟩ := hq
      have hs' : Shaped (c :: d' :: ds) := ⟨hs.1, hs.2.top hq.handlers⟩
      obtain ⟨d2, ds2, he, hroom, rfl⟩ := catch_next rfl hs' hn
      obtain ⟨rfl, rfl⟩ := List.cons.inj he
      exact ⟨d, ds, rfl, .inr ⟨ex, d', hr, hroom, rfl⟩⟩

/-- When `RETURN` makes the loop leave, the context was the outermost one. -/
theorem returning_exit (hp : p.ctxts = c :: cs) (hs : Shaped (c :: cs))
    (hx : after_dispatch (returning o p) = .exit (.ok () p')) :
    cs = [] ∧ p'.ctxts = [] ∧ p'.result.er = .returned ∧ returning o p = .ok () p' := by
  cases cs with
  | nil =>
    rw [returning_outer hp hs] at hx ⊢
    simp only [after_dispatch, step_or_break] at hx
    cases hx
    exact ⟨rfl, rfl, rfl, rfl⟩
  | cons d ds =>
    rw [returning_nested hp hs.1] at hx
    have hq := c.handlers.rh_report_quiet (rh_address c.handlers o p.gs) o d
    cases hr : c.handlers.rh_report (rh_address c.handlers o p.gs) o d with
    | ok u d' =>
      rw [hr] at hx
      cases hx
    | error e d' =>
      rw [hr] at hx hq
      obtain ⟨hq, ex, rfl⟩ := hq
      have hs' : Shaped (c :: d' :: ds) := ⟨hs.1, hs.2.top hq.handlers⟩
      cases (catch_exit hx rfl hs').1

end

end Processor

end EEVM

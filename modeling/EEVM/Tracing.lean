import EEVM.Processor
import EEVM.Lib.Commute
/-!
# Runs with and without a trace (trace.h, processor.cpp:396-402, 1345-1357)

`run` is given a trace or a null pointer, and `dispatch` adds an event to the trace if there is one. `retraced` gives the
processor another trace. Each computation does the same with it (`IgnoresTrace`), so each turn does, and so does the run.
-/
namespace EEVM.Processor

open ExcState

variable {W R α β : Type}

/-- The processor with another trace. -/
def retraced (g : Option (List TraceEvent) → Option (List TraceEvent)) (p : Processor W R) : Processor W R :=
  { p with tr := g p.tr }

/-- With the other trace `m` comes out as with the processor's own, and its trace is changed in the same way. -/
abbrev IgnoresTrace (g : Option (List TraceEvent) → Option (List TraceEvent)) (m : M W R α) : Prop :=
  Commutes (retraced g) (fun _ => True) (fun _ _ => True) (fun _ => True) m

variable {g : Option (List TraceEvent) → Option (List TraceEvent)}

/-- What does not look at the trace, nor at what it does to it. -/
theorem ignores_of_eq {m : M W R α} (h : ∀ p, m (retraced g p) = mapState (retraced g) (m p)) : IgnoresTrace g m := by
  refine ⟨fun p _ => h p, fun p _ => ?_⟩
  cases m p <;> trivial

theorem ignores_throw {e : Thrown} : IgnoresTrace g (throw e : M W R α) := .throw fun _ _ => trivial

theorem ignores_modify {f : Processor W R → Processor W R} (h : ∀ p, f (retraced g p) = retraced g (f p)) :
    IgnoresTrace g (modify f : M W R Unit) :=
  .modify (fun p _ => h p) fun _ _ => trivial

/-- A state that is read is used for what it has besides the trace. -/
theorem ignores_get {k : Processor W R → M W R α} (hk : ∀ p, k (retraced g p) = k p) (h : ∀ p, IgnoresTrace g (k p)) :
    IgnoresTrace g (get >>= k) :=
  .get_bind (fun p _ => hk p) fun p _ => h p

/-- The trace is not a part of a context. -/
theorem onCtxtAt_ignores (k : Nat) (m : CtxM R α) : IgnoresTrace g (onCtxtAt k m : M W R α) := by
  refine ignores_of_eq fun p => ?_
  have hp : (retraced g p).ctxts = p.ctxts := rfl
  unfold onCtxtAt
  rw [hp]
  cases p.ctxts[k]? with
  | none => rfl
  | some c =>
    dsimp only
    cases m c <;> rfl

theorem onCtxt_ignores (m : CtxM R α) : IgnoresTrace g (onCtxt m : M W R α) := onCtxtAt_ignores 0 m

theorem ctxt_ignores : IgnoresTrace g (ctxt : M W R (Context R)) := onCtxt_ignores get

/-- The limit on the frames is checked without the trace. -/
theorem push_context_ignores (c : Context R) : IgnoresTrace g (push_context c : M W R Unit) := by
  refine ignores_get (fun _ => rfl) fun p => .ite (fun _ => ignores_throw) fun _ => ?_
  exact ignores_modify fun _ => rfl

theorem pop_context_ignores : IgnoresTrace g (pop_context : M W R Unit) := ignores_modify fun _ => rfl

section

variable [GlobalState W R]

/-- The trace is not a part of the world either. -/
theorem gs_get_ignores (addr : Address) : IgnoresTrace g (gs_get addr : M W R R) := ignores_of_eq fun _ => rfl

theorem gs_create_ignores (addr : Address) (balance : Word) (code : Code) :
    IgnoresTrace g (gs_create addr balance code : M W R R) :=
  ignores_of_eq fun _ => rfl

omit [GlobalState W R] in
theorem update_ignores (f : W → W) : IgnoresTrace g (update f : M W R Unit) := ignores_modify fun _ => rfl

/-- A payment fails for reasons of the world only. -/
theorem pay_to_ignores (this other : R) (amount : Word) : IgnoresTrace g (pay_to this other amount : M W R Unit) := by
  refine ignores_get (fun _ => rfl) fun p => .ite (fun _ => ignores_throw) fun _ => .ite (fun _ => ignores_throw) fun _ => ?_
  exact (update_ignores _).bind fun _ => update_ignores _

/-! ## Handlers -/

omit [GlobalState W R] in
theorem invoke_ignores (kind : HandlerKind) (k : Nat) : IgnoresTrace g (invoke kind k : M W R Unit) := ignores_modify fun _ => rfl

/-- Each handler writes to a context or to the result. -/
theorem rh_ignores (h : Handlers R) (k : Nat) (output : Bytes) : IgnoresTrace g (rh h k output : M W R Unit) := by
  refine (invoke_ignores .rh k).bind fun _ => ?_
  cases h with
  | run => exact ignores_modify fun _ => rfl
  | create newAcc =>
    refine (ignores_modify (f := fun p => { p with dangling := true }) fun _ => rfl).bind fun _ =>
      (update_ignores _).bind fun _ => ?_
    exact ignores_get (fun _ => rfl) fun _ => onCtxtAt_ignores k _
  | call offOut sizeOut => exact onCtxtAt_ignores k _

omit [GlobalState W R] in
theorem hh_ignores (h : Handlers R) (k : Nat) : IgnoresTrace g (hh h k : M W R Unit) := by
  refine (invoke_ignores .hh k).bind fun _ => ?_
  cases h with
  | run => exact ignores_modify fun _ => rfl
  | create | call => exact onCtxtAt_ignores k _

omit [GlobalState W R] in
theorem eh_ignores (h : Handlers R) (k : Nat) (ex : Exception) : IgnoresTrace g (eh h k ex : M W R Unit) := by
  refine (invoke_ignores .eh k).bind fun _ => ?_
  cases h with
  | run => exact ignores_modify fun _ => rfl
  | create | call => exact onCtxtAt_ignores k _

/-! ## Instructions -/

/-- The handlers are called with the contexts as they are. -/
theorem returning_ignores (output : Bytes) : IgnoresTrace g (returning output : M W R Unit) :=
  ctxt_ignores.bind fun c => (rh_ignores c.handlers 1 output).bind fun _ => pop_context_ignores

theorem return_ignores : IgnoresTrace g (return_ : M W R Unit) :=
  (onCtxt_ignores _).bind fun _ => (onCtxt_ignores _).bind fun _ => (onCtxt_ignores _).bind returning_ignores

omit [GlobalState W R] in
theorem stop_ignores : IgnoresTrace g (stop : M W R Unit) :=
  ctxt_ignores.bind fun c => pop_context_ignores.bind fun _ => hh_ignores c.handlers 0

theorem selfdestruct_ignores : IgnoresTrace g (selfdestruct : M W R Unit) := by
  refine (onCtxt_ignores _).bind fun addr => (gs_get_ignores addr).bind fun recipient => ctxt_ignores.bind fun c => ?_
  refine ignores_get (fun _ => rfl) fun p => (pay_to_ignores _ _ _).bind fun _ => ?_
  refine ignores_get (fun _ => rfl) fun p => .bind (ignores_modify ?_) fun _ => stop_ignores
  exact fun _ => rfl

/-- Opening a frame: the operands, the account, the payment, the context. -/
theorem create_ignores [Keccak] : IgnoresTrace g (create : M W R Unit) := by
  refine (onCtxt_ignores _).bind fun ⟨contractValue, initCode⟩ => ctxt_ignores.bind fun c => ?_
  refine ignores_get (fun _ => rfl) fun p => (gs_create_ignores _ _ _).bind fun newAcc => (pay_to_ignores _ _ _).bind fun _ => ?_
  exact ignores_get (fun _ => rfl) fun p => push_context_ignores _

/-- One of the three kinds of call is carried out, and the payment comes before. -/
theorem call_ignores (op : Opcode) : IgnoresTrace g (call op : M W R Unit) := by
  refine (onCtxt_ignores _).bind fun ops => .ite (fun _ => ignores_throw) fun _ => ?_
  refine (gs_get_ignores _).bind fun callee => ctxt_ignores.bind fun c => (pay_to_ignores _ _ _).bind fun _ => ?_
  refine ignores_get (fun _ => rfl) fun p => .ite (fun _ => onCtxt_ignores _) fun _ => ?_
  refine (onCtxt_ignores _).bind fun _ => (onCtxt_ignores _).bind fun input => ?_
  dsimp only
  split
  · exact push_context_ignores _
  · exact push_context_ignores _
  · exact push_context_ignores _
  · exact ignores_throw

theorem sload_ignores : IgnoresTrace g (sload : M W R Unit) :=
  (onCtxt_ignores _).bind fun _ => ctxt_ignores.bind fun _ => ignores_get (fun _ => rfl) fun _ => onCtxt_ignores _

theorem sstore_ignores : IgnoresTrace g (sstore : M W R Unit) := by
  refine (onCtxt_ignores _).bind fun k => (onCtxt_ignores _).bind fun v => ctxt_ignores.bind fun c => ?_
  exact .ite (fun _ => update_ignores _) fun _ => update_ignores _

/-- The instructions that look up an account and push a word about it. -/
theorem push_account_ignores (f : R → W → Word) : IgnoresTrace g (push_account f : M W R Unit) :=
  (onCtxt_ignores _).bind fun addr => (gs_get_ignores addr).bind fun _ => ignores_get (fun _ => rfl) fun _ => onCtxt_ignores _

theorem extcodecopy_ignores : IgnoresTrace g (extcodecopy : M W R Unit) :=
  (onCtxt_ignores _).bind fun addr => (gs_get_ignores addr).bind fun _ => ignores_get (fun _ => rfl) fun _ => onCtxt_ignores _

omit [GlobalState W R] in
theorem push_env_ignores (f : Context R → W → Transaction → Word) : IgnoresTrace g (push_env f : M W R Unit) :=
  ctxt_ignores.bind fun _ => ignores_get (fun _ => rfl) fun _ => onCtxt_ignores _

theorem blockhash_ignores : IgnoresTrace g (blockhash : M W R Unit) := by
  refine (onCtxt_ignores _).bind fun i => ignores_get (fun _ => rfl) fun p => ?_
  exact .ite (fun _ => onCtxt_ignores _) fun _ => onCtxt_ignores _

omit [GlobalState W R] in
/-- By induction on the number of topics. -/
theorem pop_topics_ignores (n : Nat) : IgnoresTrace g (pop_topics n : M W R (List Word)) := by
  induction n with
  | zero => exact .pure fun _ _ => trivial
  | succ n ih => exact (onCtxt_ignores _).bind fun _ => ih.bind fun _ => .pure fun _ _ => trivial

/-- A log entry is not an event of the trace. -/
theorem log_ignores (n : Nat) : IgnoresTrace g (log n : M W R Unit) := by
  refine (onCtxt_ignores _).bind fun offset => (onCtxt_ignores _).bind fun size => (pop_topics_ignores n).bind fun topics => ?_
  refine ctxt_ignores.bind fun c => ignores_get (fun _ => rfl) fun p => (onCtxt_ignores _).bind fun data => ?_
  exact ignores_modify fun _ => rfl

theorem unknown_opcode_ignores [Keccak] (op : UInt8) : IgnoresTrace g (unknown_opcode op : M W R Unit) :=
  ctxt_ignores.bind fun _ => ignores_get (fun _ => rfl) fun _ => ignores_throw

/-- Those that are left work on their context alone. -/
theorem exec_ignores [Keccak] (op : Opcode) : IgnoresTrace g (exec op : M W R Unit) := by
  cases op
  case LOG n => exact log_ignores n
  case SLOAD => exact sload_ignores
  case SSTORE => exact sstore_ignores
  case EXTCODESIZE | BALANCE =>
    simp only [exec, extcodesize, balance]
    exact push_account_ignores _
  case EXTCODECOPY => exact extcodecopy_ignores
  case CODESIZE | ADDRESS | ORIGIN | GASPRICE | GAS =>
    simp only [exec, codesize, address, origin, gasprice, gas]
    exact push_env_ignores _
  case NUMBER | COINBASE | TIMESTAMP | DIFFICULTY | GASLIMIT =>
    simp only [exec, number, coinbase, timestamp, difficulty, gaslimit]
    exact push_env_ignores _
  case BLOCKHASH => exact blockhash_ignores
  case RETURN => exact return_ignores
  case SELFDESTRUCT => exact selfdestruct_ignores
  case STOP => exact stop_ignores
  case CREATE => exact create_ignores
  case CALL | CALLCODE | DELEGATECALL => exact call_ignores _
  all_goals exact onCtxt_ignores _

/-! ## Runs -/

/-- Adding an event to the trace and changing the trace make no difference to each other. -/
def KeepsAdded (g : Option (List TraceEvent) → Option (List TraceEvent)) : Prop :=
  ∀ tr (e : TraceEvent), (g tr).map (· ++ [e]) = g (tr.map (· ++ [e]))

omit [GlobalState W R] in
/-- The event that `dispatch` adds is the one place where the trace is written. -/
theorem trace_add_ignores (hg : KeepsAdded g) (op : UInt8) : IgnoresTrace g (trace_add op : M W R Unit) := by
  refine ctxt_ignores.bind fun c => ignores_modify fun p => ?_
  exact congrArg (fun tr => { p with tr }) (hg p.tr _)

theorem dispatch_ignores [Keccak] (hg : KeepsAdded g) : IgnoresTrace g (dispatch : M W R Unit) := by
  refine (onCtxt_ignores _).bind fun op => (trace_add_ignores hg op).bind fun _ => ?_
  cases Opcode.ofByte op with
  | some op => exact exec_ignores op
  | none => exact unknown_opcode_ignores op

omit [GlobalState W R] in
/-- The catch block ends a context, as a handler does. -/
theorem catch_ignores (ex : Exception) : IgnoresTrace g (catch_exception ex : M W R Unit) :=
  ctxt_ignores.bind fun c => (eh_ignores c.handlers 1 ex).bind fun _ => pop_context_ignores

omit [GlobalState W R] in
theorem step_or_break_retraced (p : Processor W R) :
    step_or_break (retraced g p) = (step_or_break p).map (retraced g) (mapState (retraced g)) := by
  have hp : (retraced g p).ctxts = p.ctxts := rfl
  unfold step_or_break
  rw [hp]
  cases p.ctxts <;> rfl

omit [GlobalState W R] in
/-- What follows on an instruction depends on what it has thrown, which is the same. -/
theorem after_dispatch_retraced (r : EStateM.Result Thrown (Processor W R) Unit) :
    after_dispatch (mapState (retraced g) r) = (after_dispatch r).map (retraced g) (mapState (retraced g)) := by
  cases r with
  | ok _ p => exact step_or_break_retraced p
  | error e p =>
    cases e with
    | exception ex =>
      rw [mapState_error]
      unfold after_dispatch
      dsimp only
      rw [(catch_ignores ex).eq p trivial]
      cases catch_exception ex p with
      | ok _ p' => exact step_or_break_retraced p'
      | error e p' => rfl
    | _ => rfl

/-- One turn. -/
theorem iterate_retraced [Keccak] (hg : KeepsAdded g) (p : Processor W R) :
    iterate (retraced g p) = (iterate p).map (retraced g) (mapState (retraced g)) := by
  have hp : (retraced g p).ctxts = p.ctxts := rfl
  unfold iterate
  rw [hp, (dispatch_ignores hg).eq p trivial, stop_ignores.eq p trivial]
  cases p.ctxts with
  | nil => rfl
  | cons c cs =>
    dsimp only
    split
    · exact after_dispatch_retraced _
    · rfl

/-- Tracing can be turned off, or a trace continued. -/
theorem keepsAdded_none : KeepsAdded fun _ => none := fun _ _ => rfl

theorem keepsAdded_append (before : List TraceEvent) : KeepsAdded (Option.map (before ++ ·)) := by
  intro tr e
  cases tr with
  | none => rfl
  | some es => exact congrArg some (List.append_assoc before es [e])

/-- **Tracing changes nothing.** A run comes out the same with every trace, within the same number of turns; and after any
number of turns it has only added to its trace, whatever was there before. -/
theorem tracing_transparent [Keccak] (gs : W) (tx : Transaction) (caller : Address) (callee : R) (input : Bytes)
    (call_value : Word) :
    (∀ fuel tr, run fuel gs tx caller callee input call_value tr = run fuel gs tx caller callee input call_value none) ∧
      ∀ n before, Loop.steps iterate n (start gs tx (some before) caller callee input call_value) =
        (Loop.steps iterate n (start gs tx (some []) caller callee input call_value)).map
          fun p => { p with tr := p.tr.map (before ++ ·) } := by
  constructor
  · intro fuel tr
    have hstart : start gs tx none caller callee input call_value =
        retraced (fun _ => none) (start gs tx tr caller callee input call_value) := rfl
    have hfinish : ∀ r : EStateM.Result Thrown (Processor W R) Unit, finish (mapState (retraced fun _ => none) r) = finish r := by
      intro r
      cases r <;> rfl
    unfold run
    rw [hstart, Loop.run_map fun p _ => iterate_retraced keepsAdded_none p, Option.map_map]
    congr 1
    funext r
    exact (hfinish r).symm
  · intro n before
    have hstart : start gs tx (some before) caller callee input call_value =
        retraced (Option.map (before ++ ·)) (start gs tx (some []) caller callee input call_value) := by
      unfold start retraced
      rw [Option.map_some, List.append_nil]
    rw [hstart]
    exact Loop.steps_map (fun p _ => iterate_retraced (keepsAdded_append before) p) n

end

end EEVM.Processor

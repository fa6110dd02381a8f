import EEVM.Processor
import EEVM.Quiet
/-!
# What an instruction changes

`Change op` lists the single changes that carrying out `op` makes to the processor: quiet ones of the context on top,
`DUPn`'s push, jumps, and those of the world and of the transaction. `dispatch_cases` says that every instruction
makes a sequence of these and then, if it does anything else, opens a context, ends the one on top by `RETURN`, `STOP`
or `SELFDESTRUCT`, or throws.
-/
namespace EEVM

open ExcState

/-- The opcode at the pc. -/
def Context.next_op {R : Type} (c : Context R) : Option Opcode := Opcode.ofByte (c.prog.code.getD c.pc 0)

namespace Processor

variable {W R α : Type}

theorem onCtxt_nil {m : CtxM R α} {p : Processor W R} (hp : p.ctxts = []) : onCtxt m p = .error .null_ctxt p := by
  simp [onCtxt, onCtxtAt, hp]

theorem onCtxt_cons {m : CtxM R α} {p : Processor W R} {c cs} (hp : p.ctxts = c :: cs) :
    onCtxt m p = match m c with
      | .ok a c' => .ok a { p with ctxts := c' :: cs }
      | .error e c' => .error e { p with ctxts := c' :: cs } := by
  cases h : m c <;> simp only [onCtxt, onCtxtAt, hp, h, List.getElem?_cons_zero, List.set_cons_zero]

/-- The two ends of a computation that leaves its context in place. -/
theorem onCtxt_quiet_cases {m : CtxM R α} (h : CtxM.Quiet m) {p : Processor W R} {c cs} (hp : p.ctxts = c :: cs) :
    (∃ a c', m c = .ok a c' ∧ Quiet c c' ∧ onCtxt m p = .ok a { p with ctxts := c' :: cs }) ∨
    ∃ ex c', m c = .error (.exception ex) c' ∧ Quiet c c' ∧
      onCtxt m p = .error (.exception ex) { p with ctxts := c' :: cs } := by
  have hc := h c
  cases hm : m c with
  | ok a c' =>
    rw [hm] at hc
    exact .inl ⟨a, c', rfl, hc, by rw [onCtxt_cons hp, hm]⟩
  | error e c' =>
    rw [hm] at hc
    obtain ⟨hq, ex, rfl⟩ := hc
    exact .inr ⟨ex, c', rfl, hq, by rw [onCtxt_cons hp, hm]⟩

variable [GlobalState W R]

/-- Where `op` may send the pc of `c`, other than to the next byte: to a jump destination, or past an immediate. -/
def Goes (op : Option Opcode) (c : Context R) (pc : Nat) : Prop :=
  ((op = some .JUMP ∨ op = some .JUMPI) ∧ pc ∈ c.prog.jump_dests) ∨
    ∃ n, op = some (.PUSH n) ∧ pc = c.pc + n + 2 ∧ pc ≤ c.prog.code.length

/-- What `pay_to` does to the balances. Both are read before either is written. -/
def transfer (this other : R) (amount : Word) (gs : W) : W :=
  set_balance other (get_balance other gs + amount) (set_balance this (get_balance this gs - amount) gs)

inductive Change (op : Option Opcode) : Processor W R → Processor W R → Prop
  | quiet {p : Processor W R} {c c' cs} (hp : p.ctxts = c :: cs) (h : Quiet c c') :
    Change op p { p with ctxts := c' :: cs }
  | dup {p : Processor W R} {c cs n} (hp : p.ctxts = c :: cs) (hop : op = some (.DUP n)) (x : Word) :
    Change op p { p with ctxts := { c with s := x :: c.s } :: cs }
  | goto {p : Processor W R} {c cs pc} (hp : p.ctxts = c :: cs) (h : Goes op c pc) :
    Change op p { p with ctxts := c.set_pc pc :: cs }
  | trace (p : Processor W R) (e : TraceEvent) : Change op p { p with tr := p.tr.map (· ++ [e]) }
  | get (p : Processor W R) (addr : Address) : Change op p { p with gs := (GlobalState.get addr p.gs).2 }
  | store (p : Processor W R) (hop : op = some .SSTORE) (acc : R) (k v : Word) :
    Change op p { p with gs := GlobalState.store acc k v p.gs }
  | remove_key (p : Processor W R) (hop : op = some .SSTORE) (acc : R) (k : Word) :
    Change op p { p with gs := GlobalState.remove_key acc k p.gs }
  | log {n} (p : Processor W R) (hop : op = some (.LOG n)) (e : LogEntry) :
    Change op p { p with tx := { p.tx with logs := p.tx.logs ++ [e] } }
  | create (p : Processor W R) (hop : op = some .CREATE) (addr : Address) (v : Word) :
    Change op p { p with gs := (GlobalState.create addr v [] p.gs).2 }
  | pay (p : Processor W R) (hop : (∃ op', op = some op' ∧ op'.is_call) ∨ op = some .SELFDESTRUCT) (this other : R)
      (amount : Word) :
    Change op p { p with gs := transfer this other amount p.gs }
  | selfdestruct (p : Processor W R) (hop : op = some .SELFDESTRUCT) (addr : Address) :
    Change op p { p with tx := { p.tx with selfdestruct_list := p.tx.selfdestruct_list ++ [addr] } }

/-- A sequence of changes. -/
abbrev Changes (op : Option Opcode) : Processor W R → Processor W R → Prop := Relation.ReflTransGen (Change op)

/-- What an instruction throws: an `eevm::Exception`, or the `std::overflow_error` of `CALLDATALOAD`. -/
def Throws (op : Option Opcode) (e : Thrown) (p : Processor W R) : Prop :=
  e.Caught ∨ (op = some .CALLDATALOAD ∧ e = .overflow_error "integer overflow") ∨ (e = .null_ctxt ∧ p.ctxts = [])

/-- `m` makes changes of `op` and throws only what `op` throws. -/
abbrev Makes (op : Option Opcode) (m : M W R α) : Prop := Keeps (Changes op) (Throws op) m

section

variable {op : Option Opcode}

/-- Without a context nothing is done; with one, what `m` does with it is looked at. -/
theorem makes_of_context {m : CtxM R α} (h : ∀ (p : Processor W R) c cs, p.ctxts = c :: cs → match m c with
    | .ok _ c' => Changes op p { p with ctxts := c' :: cs }
    | .error e c' => Changes op p { p with ctxts := c' :: cs } ∧ Throws op e { p with ctxts := c' :: cs }) :
    Makes op (onCtxt (W := W) m) := by
  intro p
  cases hp : p.ctxts with
  | nil =>
    rw [onCtxt_nil hp]
    exact ⟨.refl, .inr (.inr ⟨rfl, hp⟩)⟩
  | cons c cs =>
    rw [onCtxt_cons hp]
    have hc := h p c cs hp
    cases hm : m c with
    | ok a c' =>
      rw [hm] at hc
      exact hc
    | error e c' =>
      rw [hm] at hc
      exact hc

theorem onCtxt_makes {m : CtxM R α} (h : CtxM.Quiet m) : Makes (W := W) op (onCtxt m) := by
  apply makes_of_context
  intro p c cs hp
  have hc := h c
  cases hm : m c with
  | ok a c' =>
    rw [hm] at hc
    exact .single (.quiet hp hc)
  | error e c' =>
    rw [hm] at hc
    exact ⟨.single (.quiet hp hc.1), .inl hc.2⟩

theorem ctxt_makes : Makes (W := W) (R := R) op ctxt := onCtxt_makes get_quiet

theorem get_makes : Makes (W := W) (R := R) op get := .get

theorem gs_get_makes (addr : Address) : Makes (W := W) op (gs_get addr) := fun p => .single (.get p addr)

theorem throw_makes (ex : Exception) : Makes op (throw (.exception ex) : M W R α) :=
  .throw fun _ => .inl (caught_exception ex)

theorem push_env_makes (f : Context R → W → Transaction → Word) : Makes op (push_env f) :=
  ctxt_makes.bind fun _ => get_makes.bind fun _ => onCtxt_makes (s_push_quiet _)

theorem push_account_makes (f : R → W → Word) : Makes op (push_account f) :=
  (onCtxt_makes pop_addr_quiet).bind fun _ => (gs_get_makes _).bind fun _ => get_makes.bind fun _ =>
    onCtxt_makes (s_push_quiet _)

theorem sload_makes : Makes (W := W) op sload :=
  (onCtxt_makes s_pop_quiet).bind fun _ => ctxt_makes.bind fun _ => get_makes.bind fun _ =>
    onCtxt_makes (s_push_quiet _)

theorem sstore_makes : Makes (W := W) (some .SSTORE) sstore :=
  (onCtxt_makes s_pop_quiet).bind fun k => (onCtxt_makes s_pop_quiet).bind fun v => ctxt_makes.bind fun c =>
    .ite (fun _ => .modify fun p => .single (.remove_key p rfl c.as k))
      fun _ => .modify fun p => .single (.store p rfl c.as k v)

theorem extcodecopy_makes : Makes (W := W) op extcodecopy :=
  (onCtxt_makes pop_addr_quiet).bind fun _ => (gs_get_makes _).bind fun _ => get_makes.bind fun _ =>
    onCtxt_makes (copy_mem_quiet _ _)

theorem blockhash_makes : Makes (W := W) op blockhash :=
  (onCtxt_makes s_pop64_quiet).bind fun _ => get_makes.bind fun _ =>
    .ite (fun _ => onCtxt_makes (s_push_quiet _)) fun _ => onCtxt_makes (s_push_quiet _)

theorem pop_topics_makes : ∀ n, Makes (W := W) (R := R) op (pop_topics n)
  | 0 => .pure _
  | n + 1 => (onCtxt_makes s_pop_quiet).bind fun _ => (pop_topics_makes n).bind fun _ => .pure _

theorem log_makes {n : Nat} {i : Fin 5} (hop : op = some (.LOG i)) : Makes (W := W) op (log n) :=
  (onCtxt_makes s_pop64_quiet).bind fun _ => (onCtxt_makes s_pop64_quiet).bind fun _ =>
    (pop_topics_makes n).bind fun _ => ctxt_makes.bind fun _ => get_makes.bind fun _ =>
      (onCtxt_makes (copy_from_mem_quiet _ _)).bind fun _ => .modify fun p => .single (.log p hop _)

theorem unknown_opcode_makes [Keccak] (b : UInt8) : Makes (W := W) op (unknown_opcode b) :=
  ctxt_makes.bind fun _ => get_makes.bind fun _ => throw_makes _

/-- `pay_to` transfers, or throws and changes nothing. -/
theorem pay_to_cases (this other : R) (amount : Word) (p : Processor W R) :
    (pay_to this other amount p = .ok () { p with gs := transfer this other amount p.gs } ∧
      amount ≤ get_balance this p.gs ∧ ¬get_balance other p.gs + amount < get_balance other p.gs) ∨
    (∃ ex, pay_to this other amount p = .error (.exception ex) p) ∧
      (amount > get_balance this p.gs ∨ get_balance other p.gs + amount < get_balance other p.gs) := by
  unfold pay_to
  rw [bind_of_ok (run_get p)]
  by_cases h1 : amount > get_balance this p.gs
  · rw [if_pos h1]
    exact .inr ⟨⟨_, rfl⟩, .inl h1⟩
  by_cases h2 : get_balance other p.gs + amount < get_balance other p.gs
  · rw [if_neg h1]
    simp only [if_pos h2]
    exact .inr ⟨⟨_, rfl⟩, .inr h2⟩
  · rw [if_neg h1]
    simp only [if_neg h2]
    exact .inl ⟨rfl, BitVec.not_lt.1 h1, h2⟩

theorem pay_to_makes (hop : (∃ op', op = some op' ∧ op'.is_call) ∨ op = some .SELFDESTRUCT) (this other : R)
    (amount : Word) : Makes (W := W) op (pay_to this other amount) := by
  intro p
  rcases pay_to_cases this other amount p with ⟨h, _⟩ | ⟨⟨ex, h⟩, _⟩
  · rw [h]
    exact .single (.pay p hop this other amount)
  · rw [h]
    exact ⟨.refl, .inl (caught_exception ex)⟩

theorem push_makes (n : Fin 32) : Makes (W := W) (R := R) (some (.PUSH n)) (onCtxt (Op.push (n + 1))) := by
  apply makes_of_context
  intro p c cs hp
  unfold Op.push
  rw [bind_of_ok (run_get c)]
  by_cases h1 : c.pc + (n + 1) < c.pc
  · omega
  by_cases h2 : c.pc + (n + 1) ≥ c.prog.code.length
  · simp only [if_neg h1, if_pos h2]
    exact ⟨.single (.quiet hp (.refl c)), .inl (caught_exception _)⟩
  simp only [if_neg h1, if_neg h2]
  have hq := s_push_quiet (R := R) (Op.immediate c.prog.code (n + 1) (c.pc + 1) 0) c
  rw [run_bind]
  cases hr : s_push (Op.immediate c.prog.code (n + 1) (c.pc + 1) 0) c with
  | error e c' =>
    rw [hr] at hq
    exact ⟨.single (.quiet hp hq.1), .inl hq.2⟩
  | ok a c' =>
    rw [hr] at hq
    refine .tail (.single (.quiet hp hq)) ?_
    refine .goto (p := { p with ctxts := c' :: cs }) rfl (.inr ⟨n, rfl, ?_, ?_⟩)
    · rw [hq.pc]
      omega
    · rw [hq.prog]
      omega

theorem dup_makes (n : Fin 16) : Makes (W := W) (R := R) (some (.DUP n)) (onCtxt (Op.dup n)) := by
  apply makes_of_context
  intro p c cs hp
  unfold Op.dup onStack Stack.dup
  by_cases h : n ≥ c.s.length
  · simp only [if_pos h]
    exact ⟨.single (.quiet hp (.refl c)), .inl (caught_exception _)⟩
  · simp only [if_neg h]
    exact .single (.dup hp rfl _)

theorem jump_to_makes (hop : op = some .JUMP ∨ op = some .JUMPI) (pc : UInt64) :
    Makes (W := W) (R := R) op (onCtxt (jump_to pc)) := by
  apply makes_of_context
  intro p c cs hp
  unfold jump_to
  rw [bind_of_ok (run_get c)]
  by_cases h : pc.toNat ∉ c.prog.jump_dests
  · rw [if_pos h]
    exact ⟨.single (.quiet hp (.refl c)), .inl (caught_exception _)⟩
  · rw [if_neg h]
    exact .single (.goto hp (.inl ⟨hop, not_not.1 h⟩))

omit [GlobalState W R] in
theorem onCtxt_bind {β : Type} (m : CtxM R β) (f : β → CtxM R α) :
    onCtxt (W := W) (m >>= f) = onCtxt m >>= fun a => onCtxt (f a) := by
  funext p
  cases hp : p.ctxts with
  | nil => rw [onCtxt_nil hp, bind_of_error (onCtxt_nil hp)]
  | cons c cs =>
    rw [onCtxt_cons hp, run_bind, run_bind, onCtxt_cons hp]
    cases m c with
    | ok a c' =>
      have h : ({ p with ctxts := c' :: cs } : Processor W R).ctxts = c' :: cs := rfl
      exact (onCtxt_cons h).symm
    | error e c' => rfl

theorem jump_makes : Makes (W := W) (R := R) (some .JUMP) (onCtxt Op.jump) := by
  rw [Op.jump, onCtxt_bind]
  exact (onCtxt_makes s_pop64_quiet).bind fun _ => jump_to_makes (.inl rfl) _

theorem jumpi_makes : Makes (W := W) (R := R) (some .JUMPI) (onCtxt Op.jumpi) := by
  rw [Op.jumpi, onCtxt_bind]
  refine (onCtxt_makes s_pop64_quiet).bind fun newPc => ?_
  rw [onCtxt_bind]
  refine (onCtxt_makes s_pop_quiet).bind fun cond => ?_
  by_cases h : cond ≠ 0
  · rw [if_pos h]
    exact jump_to_makes (.inr rfl) _
  · rw [if_neg h]
    exact onCtxt_makes (.pure _)

theorem calldataload_makes : Makes (W := W) (R := R) (some .CALLDATALOAD) (onCtxt Op.calldataload) := by
  apply makes_of_context
  intro p c cs hp
  have hc := Op.calldataload_keeps c
  cases hm : Op.calldataload c with
  | ok a c' =>
    rw [hm] at hc
    exact .single (.quiet hp hc)
  | error e c' =>
    rw [hm] at hc
    exact ⟨.single (.quiet hp hc.1), hc.2.imp id fun he => .inl ⟨rfl, he⟩⟩

/-- An instruction that neither opens nor ends a context makes changes only. -/
theorem exec_makes [Keccak] (op : Opcode) (h1 : op.is_call = false) (h2 : op.ends_context = false) :
    Makes (W := W) (R := R) (some op) (exec op) := by
  cases op
  case CREATE | CALL | CALLCODE | DELEGATECALL => cases h1
  case RETURN | STOP | SELFDESTRUCT => cases h2
  case PUSH n => exact push_makes n
  case DUP n => exact dup_makes n
  case SWAP n => exact onCtxt_makes (Op.swap_quiet n)
  case POP => exact onCtxt_makes Op.pop_quiet
  case ADD | MUL | SUB | DIV | SDIV | MOD | SMOD | SIGNEXTEND | LT | GT | SLT | EQ | AND | OR | XOR =>
    exact onCtxt_makes (Op.binary_quiet _)
  case ADDMOD | MULMOD => exact onCtxt_makes (Op.ternary_quiet _)
  case ISZERO | NOT => exact onCtxt_makes (Op.unary_quiet _)
  case PC | MSIZE | CALLER | CALLVALUE | CALLDATASIZE => exact onCtxt_makes (Op.push_value_quiet _)
  case EXP => exact onCtxt_makes Op.exp_quiet
  case SGT => exact onCtxt_makes Op.sgt_quiet
  case BYTE => exact onCtxt_makes Op.byte_quiet
  case JUMP => exact jump_makes
  case JUMPI => exact jumpi_makes
  case JUMPDEST => exact onCtxt_makes (.pure _)
  case MLOAD => exact onCtxt_makes Op.mload_quiet
  case MSTORE => exact onCtxt_makes Op.mstore_quiet
  case MSTORE8 => exact onCtxt_makes Op.mstore8_quiet
  case CODECOPY => exact onCtxt_makes Op.codecopy_quiet
  case CALLDATACOPY => exact onCtxt_makes Op.calldatacopy_quiet
  case CALLDATALOAD => exact calldataload_makes
  case SHA3 => exact onCtxt_makes Op.sha3_quiet
  case SLOAD => exact sload_makes
  case SSTORE => exact sstore_makes
  case EXTCODESIZE | BALANCE =>
    simp only [exec, extcodesize, balance]
    exact push_account_makes _
  case EXTCODECOPY => exact extcodecopy_makes
  case CODESIZE | ADDRESS | ORIGIN | GASPRICE | GAS | NUMBER | COINBASE | TIMESTAMP | DIFFICULTY | GASLIMIT =>
    simp only [exec, codesize, address, origin, gasprice, gas, number, coinbase, timestamp, difficulty, gaslimit]
    exact push_env_makes _
  case BLOCKHASH => exact blockhash_makes
  case LOG n => exact log_makes rfl

/-! ## Opening and ending a context -/

/-- A context as `push_context` is given it: no stack, no memory, at pc 0, with handlers that report to a parent. -/
structure Fresh (c : Context R) : Prop where
  pc : c.pc = 0
  pc_changed : c.pc_changed = true
  s : c.s = []
  mem : c.mem = []
  handlers : c.handlers ≠ .run

/-- What an instruction does after its changes: nothing, or its last step. -/
inductive Tail (op : Option Opcode) (p : Processor W R) : EStateM.Result Thrown (Processor W R) Unit → Prop
  | done (hop : ∀ op', op = some op' → op'.ends_context = false) : Tail op p (.ok () p)
  | throws {e} (h : Throws op e p) : Tail op p (.error e p)
  | opens {c op'} (hop : op = some op') (hcall : op'.is_call) (hc : Fresh c) : Tail op p (push_context c p)
  | returns (hop : op = some .RETURN) (output : Bytes) :
    Tail op p (returning output p)
  | stops (hop : op = some .STOP ∨ op = some .SELFDESTRUCT) : Tail op p (stop p)

theorem Makes.leads {m : M W R Unit} (h : Makes op m) (hop : ∀ op', op = some op' → op'.ends_context = false) :
    Leads (Changes op) (Tail op) m :=
  .of_keeps h (fun _ _ => .done hop) fun _ _ => .throws

theorem Makes.bind_leads {β : Type} {m : M W R β} {f : β → M W R Unit} (h : Makes op m)
    (hf : ∀ b, Leads (Changes op) (Tail op) (f b)) : Leads (Changes op) (Tail op) (m >>= f) :=
  Leads.bind h (fun _ _ => .throws) hf

theorem return_leads : Leads (Changes (some .RETURN)) (Tail (some .RETURN)) (return_ (W := W) (R := R)) :=
  (onCtxt_makes s_pop64_quiet).bind_leads fun _ => (onCtxt_makes s_pop64_quiet).bind_leads fun _ =>
    (onCtxt_makes (copy_from_mem_quiet _ _)).bind_leads fun output => .here fun _ => .returns rfl output

theorem selfdestruct_leads :
    Leads (Changes (some .SELFDESTRUCT)) (Tail (some .SELFDESTRUCT)) (selfdestruct (W := W) (R := R)) :=
  (onCtxt_makes pop_addr_quiet).bind_leads fun _ => (gs_get_makes _).bind_leads fun _ =>
    ctxt_makes.bind_leads fun _ => get_makes.bind_leads fun _ => (pay_to_makes (.inr rfl) _ _ _).bind_leads fun _ =>
      get_makes.bind_leads fun _ => Makes.bind_leads (.modify fun q => .single (.selfdestruct q rfl _)) fun _ =>
        .here fun _ => .stops (.inr rfl)

theorem create_operands_quiet : CtxM.Quiet (R := R) create_operands :=
  s_pop_quiet.bind fun _ => s_pop64_quiet.bind fun _ => s_pop64_quiet.bind fun _ =>
    (copy_from_mem_quiet _ _).bind fun _ => .pure _

theorem call_value_operand_quiet (op : Opcode) : CtxM.Quiet (R := R) (call_value_operand op) :=
  .ite (fun _ => .pure _) fun _ => s_pop64_quiet

theorem call_operands_quiet (op : Opcode) : CtxM.Quiet (R := R) (call_operands op) :=
  s_pop_quiet.bind fun _ => pop_addr_quiet.bind fun _ =>
    (call_value_operand_quiet op).bind fun _ => s_pop64_quiet.bind fun _ =>
      s_pop64_quiet.bind fun _ => s_pop64_quiet.bind fun _ => s_pop64_quiet.bind fun _ => .pure _

theorem create_leads [Keccak] :
    Leads (Changes (some .CREATE)) (Tail (some .CREATE)) (create (W := W) (R := R)) :=
  (onCtxt_makes create_operands_quiet).bind_leads fun _ => ctxt_makes.bind_leads fun _ =>
    get_makes.bind_leads fun _ => Makes.bind_leads (fun p => .single (.create p rfl _ _)) fun _ =>
      (pay_to_makes (.inl ⟨_, rfl, rfl⟩) _ _ _).bind_leads fun _ => get_makes.bind_leads fun _ =>
        .here fun _ => .opens rfl rfl ⟨rfl, rfl, rfl, rfl, nofun⟩

theorem call_leads {op : Opcode} (hop : op = .CALL ∨ op = .CALLCODE ∨ op = .DELEGATECALL) :
    Leads (Changes (some op)) (Tail (some op)) (call (W := W) (R := R) op) := by
  have hcall : op.is_call = true := by rcases hop with rfl | rfl | rfl <;> rfl
  have hend : ∀ op', some op = some op' → op'.ends_context = false := by
    rintro op' ⟨⟩
    rcases hop with rfl | rfl | rfl <;> rfl
  refine (onCtxt_makes (call_operands_quiet op)).bind_leads fun args => .ite (fun _ => ?_) fun _ => ?_
  · exact (throw_makes _).leads hend
  refine (gs_get_makes _).bind_leads fun callee => ctxt_makes.bind_leads fun c =>
    (pay_to_makes (.inl ⟨_, rfl, hcall⟩) _ _ _).bind_leads fun _ => get_makes.bind_leads fun p =>
      .ite (fun _ => ?_) fun _ => ?_
  · exact (onCtxt_makes (s_push_quiet 1)).leads hend
  refine (onCtxt_makes (prepare_mem_access_quiet _ _)).bind_leads fun _ =>
    (onCtxt_makes (copy_from_mem_quiet _ _)).bind_leads fun input => ?_
  rcases hop with rfl | rfl | rfl <;> exact .here fun _ => .opens rfl rfl ⟨rfl, rfl, rfl, rfl, nofun⟩

theorem exec_leads [Keccak] (op : Opcode) :
    Leads (Changes (some op)) (Tail (some op)) (exec (W := W) (R := R) op) := by
  by_cases h1 : op.is_call = true
  · rcases Opcode.is_call_iff.1 h1 with rfl | hop
    · exact create_leads
    · have h := call_leads (W := W) (R := R) hop
      rcases hop with rfl | rfl | rfl <;> exact h
  by_cases h2 : op.ends_context = true
  · rcases Opcode.ends_context_iff.1 h2 with rfl | rfl | rfl
    · exact return_leads
    · exact .here fun _ => .stops (.inl rfl)
    · exact selfdestruct_leads
  · refine (exec_makes op (by simpa using h1) (by simpa using h2)).leads ?_
    rintro op' ⟨⟩
    simpa using h2

/-- The processor when its trace, if there is one, has been given the instruction at the pc of `c`. -/
def traced (p : Processor W R) (c : Context R) : Processor W R :=
  { p with tr := p.tr.map (· ++ [{ pc := c.pc, op := c.prog.code.getD c.pc 0, call_depth := p.get_call_depth, s := c.s }]) }

omit [GlobalState W R] in
/-- The opcode at the pc of the context on top is fetched, and traced. -/
theorem fetch_of_cons {p : Processor W R} {c cs} (hp : p.ctxts = c :: cs) (f : UInt8 → M W R α) :
    (onCtxt get_op >>= fun op => trace_add op >>= fun _ => f op) p = f (c.prog.code.getD c.pc 0) (traced p c) := by
  have hop : onCtxt get_op p = .ok (c.prog.code.getD c.pc 0) p := by
    rw [onCtxt_cons hp]
    simp only [get_op, bind_of_ok (run_get c), run_pure]
    rw [← hp]
  have hc : ctxt p = .ok c p := by
    rw [ctxt, onCtxt_cons hp, run_get]
    simp only [← hp]
  have htr : trace_add (c.prog.code.getD c.pc 0) p = .ok () (traced p c) := by
    rw [trace_add, bind_of_ok hc]
    rfl
  rw [bind_of_ok hop, bind_of_ok htr]

/-- `dispatch` carries it out. -/
theorem dispatch_eq [Keccak] {p : Processor W R} {c cs} (hp : p.ctxts = c :: cs) :
    dispatch p = (match c.next_op with
      | some op => exec op
      | none => unknown_opcode (c.prog.code.getD c.pc 0)) (traced p c) := by
  rw [dispatch, fetch_of_cons hp]
  rfl

/-- `dispatch` makes changes of the opcode at the pc, and then ends in one of the ways of `Tail`. -/
theorem dispatch_cases [Keccak] {p : Processor W R} {c cs} (hp : p.ctxts = c :: cs) :
    ∃ p', Changes c.next_op p p' ∧ Tail c.next_op p' (dispatch p) := by
  have htr : Change c.next_op p (traced p c) := .trace p _
  rw [dispatch_eq hp]
  cases hop : c.next_op with
  | none =>
    have h : Makes (W := W) (R := R) none _ := unknown_opcode_makes (c.prog.code.getD c.pc 0)
    obtain ⟨p', h1, ht⟩ := h.leads nofun (traced p c)
    exact ⟨p', .head (hop ▸ htr) h1, ht⟩
  | some op =>
    obtain ⟨p', h1, ht⟩ := exec_leads op (traced p c)
    exact ⟨p', .head (hop ▸ htr) h1, ht⟩

/-! ## What no change touches -/

/-- `c'` is `c` up to what its own instructions change: pc, stack and memory. -/
def SameFrame (c c' : Context R) : Prop :=
  c' = { c with pc := c'.pc, pc_changed := c'.pc_changed, s := c'.s, mem := c'.mem }

namespace SameFrame

variable {c c' c'' : Context R}

theorem refl (c : Context R) : SameFrame c c := rfl

theorem of_quiet (h : Quiet c c') : SameFrame c c' := by
  rw [SameFrame, h.eq]

theorem trans (h1 : SameFrame c c') (h2 : SameFrame c' c'') : SameFrame c c'' := by
  rw [SameFrame] at *
  rw [h2, h1]

theorem as (h : SameFrame c c') : c'.as = c.as := by rw [h]
theorem call_value (h : SameFrame c c') : c'.call_value = c.call_value := by rw [h]
theorem prog (h : SameFrame c c') : c'.prog = c.prog := by rw [h]
theorem handlers (h : SameFrame c c') : c'.handlers = c.handlers := by rw [h]

end SameFrame

theorem Change.top {p p' : Processor W R} {c cs} (h : Change op p p') (hp : p.ctxts = c :: cs) :
    ∃ c', p'.ctxts = c' :: cs ∧ SameFrame c c' := by
  cases h with
  | quiet hp' h | dup hp' | goto hp' =>
    obtain ⟨rfl, rfl⟩ := List.cons.inj (hp'.symm.trans hp)
    first | exact ⟨_, rfl, .of_quiet h⟩ | exact ⟨_, rfl, rfl⟩
  | _ => exact ⟨c, hp, rfl⟩

theorem Change.ctxts_nil {p p' : Processor W R} (h : Change op p p') (hp : p.ctxts = []) : p'.ctxts = [] := by
  cases h with
  | quiet hp' | dup hp' | goto hp' =>
    rw [hp] at hp'
    cases hp'
  | _ => exact hp

theorem Changes.top {p p' : Processor W R} {c cs} (h : Changes op p p') (hp : p.ctxts = c :: cs) :
    ∃ c', p'.ctxts = c' :: cs ∧ SameFrame c c' := by
  induction h with
  | refl => exact ⟨c, hp, rfl⟩
  | tail _ h ih =>
    obtain ⟨c1, h1, hs1⟩ := ih
    obtain ⟨c2, h2, hs2⟩ := h.top h1
    exact ⟨c2, h2, hs1.trans hs2⟩

theorem Changes.sameFrame {p p' : Processor W R} {c c' cs cs'} (h : Changes op p p') (hp : p.ctxts = c :: cs)
    (hp' : p'.ctxts = c' :: cs') : SameFrame c c' := by
  obtain ⟨c2, h2, hs⟩ := h.top hp
  obtain ⟨rfl, -⟩ := List.cons.inj (hp'.symm.trans h2)
  exact hs

theorem Changes.result {p p' : Processor W R} (h : Changes op p p') : p'.result = p.result := by
  induction h with
  | refl => rfl
  | tail _ h ih =>
    rw [← ih]
    cases h <;> rfl

theorem Changes.invoked {p p' : Processor W R} (h : Changes op p p') : p'.invoked = p.invoked := by
  induction h with
  | refl => rfl
  | tail _ h ih =>
    rw [← ih]
    cases h <;> rfl

end

end Processor

end EEVM

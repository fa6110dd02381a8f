import EEVM.Disassembler
import EEVM.Calls
import EEVM.Handlers
import EEVM.Simple
/-!
# The stream of instructions (processor.cpp:47-66, 120-143, 206-226, 1094-1118)

`compute_jump_dests`, `dis` and the run itself each walk over the code. They meet at the same positions: `Lands` says
where an instruction leaves the pc, and `InStream` is the invariant that the pc of every context is a position of its
sweep. One step is out of line: the outermost context is not stepped before its first instruction, as every other is
(`:224`), so its `pc_changed` is still set and a first instruction that falls through is carried out twice.
-/
namespace EEVM

open ExcState Disassembler

/-- Of the opcodes that neither jump nor end a context, those that need no word on the stack. -/
def Opcode.needs_nothing : Opcode → Bool
  | ADDRESS | ORIGIN | CALLER | CALLVALUE | CALLDATASIZE | CODESIZE | GASPRICE | COINBASE | TIMESTAMP | NUMBER
  | DIFFICULTY | GASLIMIT | PC | MSIZE | GAS | JUMPDEST => true
  | _ => false

namespace Context

variable {R : Type}

/-- The next instruction of `c` is a jump that is taken, if it succeeds. -/
def Jumps (c : Context R) : Prop :=
  c.next_op = some .JUMP ∨ c.next_op = some .JUMPI ∧ ∃ dest cond s, c.s = dest :: cond :: s ∧ cond ≠ 0

/-- The pc is at a position of the sweep, or right behind the last one. -/
def InStream (c : Context R) : Prop := Sweep.Visits (width c.prog.code) c.pc

/-- `c1` is `c` after an instruction that stays in it. -/
inductive Lands (c c1 : Context R) : Prop
  | falls (hop : ∀ n, c.next_op ≠ some (.PUSH n)) (hno : ¬c.Jumps) (hpc : c1.pc = c.pc)
      (hch : c1.pc_changed = c.pc_changed)
  | pushes {n} (hop : c.next_op = some (.PUSH n)) (hfits : c.pc + (n.val + 1) < c.prog.code.length)
      (h : c1 = { c with
        s := Op.immediate c.prog.code (n.val + 1) (c.pc + 1) 0 :: c.s, pc := c.pc + 1 + (n.val + 1), pc_changed := true })
  | jumps (hj : c.Jumps) (hpc : c1.pc ∈ c.prog.jump_dests) (hch : c1.pc_changed = true)

theorem width_of_not_push {c : Context R} (hop : ∀ n, c.next_op ≠ some (.PUSH n)) : width c.prog.code c.pc = 1 := by
  cases h : c.next_op with
  | none => exact width_of_unknown h
  | some op =>
    rw [width_of_next_op h]
    cases op <;> simp [Opcode.immediate_bytes]
    exact absurd h (hop _)

end Context

namespace Processor

variable {W R : Type} [GlobalState W R]

/-! ## Where an instruction lands -/

section

variable {p p1 : Processor W R} {c c1 : Context R} {cs : List (Context R)}

theorem Changes.pc {op : Option Opcode} (h : Changes op p p1) (hp : p.ctxts = c :: cs)
    (hpush : ∀ n, op ≠ some (.PUSH n)) (hjump : op ≠ some .JUMP) (hjumpi : op ≠ some .JUMPI) :
    ∃ c1, p1.ctxts = c1 :: cs ∧ c1.pc = c.pc ∧ c1.pc_changed = c.pc_changed := by
  induction h with
  | refl => exact ⟨c, hp, rfl, rfl⟩
  | tail _ h ih =>
    obtain ⟨c2, h2, hpc, hch⟩ := ih
    cases h with
    | quiet hp' hq =>
      obtain ⟨rfl, rfl⟩ := List.cons.inj (hp'.symm.trans h2)
      exact ⟨_, rfl, hq.pc.trans hpc, hq.pc_changed.trans hch⟩
    | dup hp' =>
      obtain ⟨rfl, rfl⟩ := List.cons.inj (hp'.symm.trans h2)
      exact ⟨_, rfl, hpc, hch⟩
    | goto _ hg =>
      rcases hg with ⟨h | h, -⟩ | ⟨n, h, -⟩
      · exact absurd h hjump
      · exact absurd h hjumpi
      · exact absurd h (hpush n)
    | _ => exact ⟨c2, h2, hpc, hch⟩

omit [GlobalState W R] in
/-- What an instruction of one context does to it, when the processor is only changed there. -/
theorem onCtxt_ok {α : Type} {m : CtxM R α} {a : α} (hp : p.ctxts = c :: cs) (h : onCtxt m p = .ok a p1)
    (h1 : p1.ctxts = c1 :: cs) : m c = .ok a c1 := by
  rw [onCtxt_cons hp] at h
  cases hm : m c with
  | ok b c' =>
    rw [hm] at h
    cases h
    cases h1
    rfl
  | error e c' =>
    rw [hm] at h
    cases h

theorem push_lands {n : Fin 32} (h : Op.push (n.val + 1) c = .ok () c1) (hop : c.next_op = some (.PUSH n)) :
    c.Lands c1 := by
  unfold Op.push at h
  rw [bind_of_ok (run_get c)] at h
  by_cases h1 : c.pc + (n.val + 1) < c.pc
  · omega
  by_cases h2 : c.pc + (n.val + 1) ≥ c.prog.code.length
  · simp only [if_neg h1, if_pos h2] at h
    cases h
  simp only [if_neg h1, if_neg h2] at h
  by_cases hfull : c.s.length = Stack.MAX_SIZE
  · obtain ⟨ex, hx⟩ := s_push_full hfull (Op.immediate c.prog.code (n.val + 1) (c.pc + 1) 0)
    rw [bind_of_error hx] at h
    cases h
  · rw [bind_of_ok (s_push_of_not_full hfull _)] at h
    cases h
    exact .pushes hop (by omega) rfl

theorem jump_to_ok {pc : UInt64} (h : jump_to pc c = .ok () c1) :
    c1.pc ∈ c.prog.jump_dests ∧ c1.pc_changed = true := by
  unfold jump_to at h
  rw [bind_of_ok (run_get c)] at h
  split at h
  · cases h
  · rename_i hd
    cases h
    exact ⟨not_not.1 hd, rfl⟩

theorem jump_lands (h : Op.jump c = .ok () c1) (hop : c.next_op = some .JUMP) : c.Lands c1 := by
  rw [Op.jump, bind_eq_ok] at h
  obtain ⟨pc, c2, h2, h⟩ := h
  obtain ⟨hpc, hch⟩ := jump_to_ok h
  rw [(s_pop64_quiet.ok h2).prog] at hpc
  exact .jumps (.inl hop) hpc hch

theorem jumpi_lands (h : Op.jumpi c = .ok () c1) (hop : c.next_op = some .JUMPI) : c.Lands c1 := by
  rw [Op.jumpi, bind_eq_ok] at h
  obtain ⟨pc, c2, h2, h⟩ := h
  rw [bind_eq_ok] at h
  obtain ⟨cond, c3, h3, h⟩ := h
  obtain ⟨dest, hs2, hc2, -⟩ := s_pop64_eq_ok h2
  obtain ⟨hs3, hc3⟩ := s_pop_eq_ok h3
  have hs : c.s = dest :: cond :: c3.s := by rw [hs2, hs3]
  split at h
  · rename_i hcond
    obtain ⟨hpc, hch⟩ := jump_to_ok h
    rw [hc3, hc2] at hpc
    exact .jumps (.inr ⟨hop, dest, cond, c3.s, hs, hcond⟩) hpc hch
  · rename_i hcond
    cases h
    refine .falls (by simp [hop]) ?_ (by rw [hc3, hc2]) (by rw [hc3, hc2])
    rintro (hj | ⟨-, dest', cond', s', hs', hne⟩)
    · rw [hop] at hj
      cases hj
    · rw [hs] at hs'
      cases hs'
      exact hcond hne

variable [Keccak]

/-- Every instruction that stays in its context lands as `Lands` says. -/
theorem stays_lands (hp : p.ctxts = c :: cs) (hd : dispatch p = .ok () p1) (h1 : p1.ctxts = c1 :: cs)
    (hc : Changes c.next_op p p1) : c.Lands c1 := by
  have hpt : (traced p c).ctxts = c :: cs := hp
  by_cases hpush : ∃ n, c.next_op = some (.PUSH n)
  · obtain ⟨n, hop⟩ := hpush
    rw [dispatch_eq hp, hop] at hd
    exact push_lands (onCtxt_ok hpt hd h1) hop
  by_cases hjump : c.next_op = some .JUMP
  · rw [dispatch_eq hp, hjump] at hd
    exact jump_lands (onCtxt_ok hpt hd h1) hjump
  by_cases hjumpi : c.next_op = some .JUMPI
  · rw [dispatch_eq hp, hjumpi] at hd
    exact jumpi_lands (onCtxt_ok hpt hd h1) hjumpi
  have hpush' : ∀ n, c.next_op ≠ some (.PUSH n) := fun n h => hpush ⟨n, h⟩
  obtain ⟨c2, h2, hpc, hch⟩ := hc.pc hp hpush' hjump hjumpi
  obtain ⟨rfl, -⟩ := List.cons.inj (h1.symm.trans h2)
  exact .falls hpush' (by rintro (h | ⟨h, -⟩) <;> contradiction) hpc hch

omit [Keccak] in
/-- An instruction that lands by falling through is stepped over, one byte, unless the pc counts as changed. -/
theorem lands_step (h : c.Lands c1) (hs : c.InStream) (hsame : SameFrame c c1) : c1.step.InStream := by
  have hprog : c1.step.prog = c.prog := by rw [(step_sameFrame c1).prog, hsame.prog]
  rw [Context.InStream, hprog]
  cases h with
  | falls hop hno hpc hch =>
    cases hchanged : c1.pc_changed with
    | true =>
      have hpc' : c1.step.pc = c.pc := by simp [Context.step, hchanged, hpc]
      rw [hpc']
      exact hs
    | false =>
      have hpc' : c1.step.pc = c.pc + width c.prog.code c.pc := by
        simp [Context.step, hchanged, hpc, Context.width_of_not_push hop]
      rw [hpc']
      exact Sweep.Visits.next hs
  | @pushes n hop hfits h =>
    have hpc' : c1.step.pc = c.pc + width c.prog.code c.pc := by
      rw [h, width_of_next_op hop, Opcode.immediate_bytes]
      simp [Context.step]
      omega
    rw [hpc']
    exact Sweep.Visits.next hs
  | jumps hj hpc hch =>
    have hpc' : c1.step.pc = c1.pc := by simp [Context.step, hch]
    rw [hpc']
    exact (visits_of_mem_jump_dests hpc).1

end

/-! ## Runs -/

/-- A context that has made a call is at it, and not past the end of its code. -/
structure AtCall (d : Context R) : Prop where
  in_stream : d.InStream
  pc_valid : d.pc_valid = true
  pc_changed : d.pc_changed = false
  calls : ∃ op, d.next_op = some op ∧ op.is_call

omit [GlobalState W R] in
theorem AtCall.of_quiet {d d' : Context R} (h : AtCall d) (hq : Quiet d d') : AtCall d' := by
  obtain ⟨h1, h2, h3, h4⟩ := h
  rw [hq.eq]
  exact ⟨h1, h2, h3, h4⟩

omit [GlobalState W R] in
theorem AtCall.width {d : Context R} (h : AtCall d) : width d.prog.code d.pc = 1 := by
  obtain ⟨op, hop, hcall⟩ := h.calls
  refine Context.width_of_not_push fun n hn => ?_
  rw [hop] at hn
  cases hn
  cases hcall

/-- The pc of every context is a position of its sweep. -/
structure InStream (p : Processor W R) : Prop where
  top : ∀ c cs, p.ctxts = c :: cs → c.InStream
  below : ∀ d ∈ p.ctxts.tail, AtCall d

section

variable [Keccak] {p p' : Processor W R}

/-- After a turn the context on top has been stepped. -/
theorem next_stepped (hn : iterate p = .next p') {c cs} (hp : p'.ctxts = c :: cs) : c.pc_changed = false := by
  obtain ⟨c0, cs0, -, -, hc⟩ := next_cases hn
  cases hc <;>
    · obtain ⟨rfl, rfl⟩ := List.cons.inj hp
      exact Context.step_pc_changed _

omit [Keccak] in
/-- What is left of the contexts below when some have ended. -/
theorem dropped_below {p1 p2 : Processor W R} {c1 x : Context R} {cs xs} {k : Nat} (hd : Dropped k p1 p2)
    (hk : 1 ≤ k) (h1 : p1.ctxts = c1 :: cs) (h2 : p2.ctxts = x :: xs) :
    ∃ d ds, cs.drop (k - 1) = d :: ds ∧ Quiet d x ∧ List.Forall₂ Quiet ds xs := by
  have hq := hd.ctxts
  change List.Forall₂ Quiet (p1.ctxts.drop k) p2.ctxts at hq
  obtain ⟨j, rfl⟩ : ∃ j, k = j + 1 := ⟨k - 1, by omega⟩
  rw [h1, h2, List.drop_succ_cons] at hq
  rw [Nat.add_sub_cancel]
  cases hdrop : cs.drop j with
  | nil =>
    rw [hdrop] at hq
    cases hq
  | cons d ds =>
    rw [hdrop] at hq
    cases hq with
    | cons h hs => exact ⟨d, ds, rfl, h, hs⟩

theorem InStream.next (h : InStream p) (hn : iterate p = .next p')
    (hflag : ∀ c cs, p.ctxts = c :: cs → c.pc_changed = false ∨ c.s = []) : InStream p' := by
  obtain ⟨c, cs, hp, hv, hc⟩ := next_cases hn
  have hbelow := h.below
  rw [hp] at hbelow
  cases hc with
  | @stays p1 c1 hc h1 hop hd =>
    have hsame := hc.sameFrame hp h1
    refine ⟨?_, hbelow⟩
    rintro c3 cs3 h3
    obtain ⟨rfl, rfl⟩ := List.cons.inj h3
    exact lands_step (stays_lands hp hd h1 hc) (h.top c cs hp) hsame
  | @opens p1 c1 f op hc h1 hop hcall hf hdepth hd =>
    obtain ⟨hc1, hle, -, -⟩ := opens_eq hp hop hcall hd rfl
    constructor
    · rintro c3 cs3 h3
      obtain ⟨rfl, rfl⟩ := List.cons.inj h3
      have hpc : f.step.pc = 0 := by simp [Context.step, hf.pc_changed, hf.pc]
      rw [Context.InStream, hpc]
    · intro d hd
      rcases List.mem_cons.1 hd with rfl | hd
      · have hchanged : c.pc_changed = false := by
          rcases hflag c cs hp with hch | hnil
          · exact hch
          · have := op.three_le_operand_count
            rw [hnil] at hle
            simp at hle
            omega
        rw [hc1]
        exact ⟨h.top c cs hp, hv, hchanged, op, hop, hcall⟩
      · exact hbelow d hd
  | @ends p1 c1 p2 k x xs hc h1 hop hk hd h2 =>
    obtain ⟨d, ds, hdrop, hq, hqs⟩ := dropped_below hd hk h1 h2
    have hmem : ∀ e ∈ d :: ds, AtCall e := fun e he => hbelow e (List.mem_of_mem_drop (hdrop ▸ he))
    have hx := (hmem d (by simp)).of_quiet hq
    constructor
    · rintro c3 cs3 h3
      obtain ⟨rfl, rfl⟩ := List.cons.inj h3
      have hstep : x.step = { x with pc := x.pc + width x.prog.code x.pc } := by
        rw [step_of_not_changed hx.pc_changed, hx.width]
      rw [Context.InStream, hstep]
      exact Sweep.Visits.next hx.in_stream
    · intro e he
      obtain ⟨i, hi, rfl⟩ := List.getElem_of_mem he
      have hi' : i < ds.length := by rw [hqs.length_eq]; exact hi
      exact (hmem ds[i] (List.mem_cons_of_mem _ (List.getElem_mem hi'))).of_quiet (hqs.get hi' hi)

variable {gs : W} {tx : Transaction} {tr : Option (List TraceEvent)} {caller : Address} {callee : R} {input : Bytes}
  {call_value : Word}

/-- Only the state in which the run enters its loop has a context on top that has not been stepped. -/
theorem stepped_of_reaches (hr : Loop.Reaches iterate (start gs tx tr caller callee input call_value) p) {c cs}
    (hp : p.ctxts = c :: cs) :
    p = start gs tx tr caller callee input call_value ∨ c.pc_changed = false := by
  rcases hr.cases_tail with h | ⟨q, -, hn⟩
  · exact .inl h
  · exact .inr (next_stepped hn hp)

theorem flag_of_reaches (hr : Loop.Reaches iterate (start gs tx tr caller callee input call_value) p) {c cs}
    (hp : p.ctxts = c :: cs) : c.pc_changed = false ∨ c.s = [] := by
  rcases stepped_of_reaches hr hp with rfl | h
  · cases hp
    exact .inr rfl
  · exact .inl h

theorem inStream_of_reaches (hr : Loop.Reaches iterate (start gs tx tr caller callee input call_value) p) :
    InStream p := by
  refine hr.invariant (P := fun p : Processor W R => InStream p) ⟨?_, ?_⟩ ?_
  · rintro c cs ⟨⟩
    exact .refl
  · simp [start]
  · intro q q' hq h hn
    exact h.next hn fun c cs hp => flag_of_reaches hq hp

end

/-! ## The first instruction -/

/-- `m` throws in the state `s`. -/
def FailsAt {σ α : Type} (m : EStateM Thrown σ α) (s : σ) : Prop := ∃ e s', m s = .error e s'

theorem FailsAt.bind {σ α β : Type} {m : EStateM Thrown σ α} {s : σ} (h : FailsAt m s) (f : α → EStateM Thrown σ β) :
    FailsAt (m >>= f) s := by
  obtain ⟨e, s', h⟩ := h
  exact ⟨e, s', bind_of_error h⟩

section

variable {p : Processor W R} {c : Context R} {cs : List (Context R)}

omit [GlobalState W R]

theorem FailsAt.onCtxt {α : Type} {m : CtxM R α} (h : FailsAt m c) (hp : p.ctxts = c :: cs) : FailsAt (onCtxt m) p := by
  obtain ⟨e, c', h⟩ := h
  exact ⟨e, _, by rw [onCtxt_cons hp, h]⟩

theorem s_pop_failsAt (h : c.s = []) : FailsAt s_pop c := by
  unfold FailsAt s_pop onStack Stack.pop
  rw [h]
  exact ⟨_, _, rfl⟩

theorem s_pop64_failsAt (h : c.s = []) : FailsAt s_pop64 c := by
  unfold FailsAt s_pop64 onStack Stack.pop64
  rw [h]
  exact ⟨_, _, rfl⟩

theorem pop_addr_failsAt (h : c.s = []) : FailsAt pop_addr c := (s_pop_failsAt h).bind _

theorem swap_failsAt (h : c.s = []) (i : Nat) : FailsAt (onStack (Stack.swap i)) c := by
  unfold FailsAt onStack Stack.swap
  rw [h]
  exact ⟨_, _, rfl⟩

theorem dup_failsAt (h : c.s = []) (n : Nat) : FailsAt (Op.dup n) c := by
  unfold FailsAt Op.dup onStack Stack.dup
  rw [h]
  exact ⟨_, _, rfl⟩

theorem copy_mem_failsAt (h : c.s = []) (src : Bytes) (pad : UInt8) : FailsAt (copy_mem src pad) c := (s_pop64_failsAt h).bind _

end

section

variable [Keccak] {p : Processor W R} {c : Context R} {cs : List (Context R)}

/-- All other instructions that neither end the context nor push an immediate need a word, or two. -/
theorem exec_failsAt (hp : p.ctxts = c :: cs) (hs : c.s = []) {op : Opcode} (hneed : op.needs_nothing = false)
    (hpush : ∀ n, op ≠ .PUSH n) (hend : op.ends_context = false) : FailsAt (exec op) p := by
  cases op
  case RETURN | STOP | SELFDESTRUCT => cases hend
  case PUSH n => exact absurd rfl (hpush n)
  case ADDRESS | ORIGIN | CALLER | CALLVALUE | CALLDATASIZE | CODESIZE | GASPRICE | COINBASE | TIMESTAMP | NUMBER |
      DIFFICULTY | GASLIMIT | PC | MSIZE | GAS | JUMPDEST => cases hneed
  case POP | ADD | MUL | SUB | DIV | SDIV | MOD | SMOD | ADDMOD | MULMOD | EXP | SIGNEXTEND | LT | GT | SLT | EQ |
      ISZERO | AND | OR | XOR | NOT | BYTE =>
    simp only [exec]
    refine FailsAt.onCtxt ?_ hp
    exact (s_pop_failsAt hs).bind _
  case JUMP | JUMPI | MLOAD | MSTORE | MSTORE8 | CALLDATALOAD | SHA3 =>
    simp only [exec]
    refine FailsAt.onCtxt ?_ hp
    exact (s_pop64_failsAt hs).bind _
  case SWAP n =>
    simp only [exec]
    exact FailsAt.onCtxt (swap_failsAt hs _) hp
  case SGT =>
    simp only [exec]
    refine FailsAt.onCtxt ?_ hp
    exact (swap_failsAt hs 1).bind _
  case DUP n =>
    simp only [exec]
    exact FailsAt.onCtxt (dup_failsAt hs _) hp
  case CODECOPY =>
    simp only [exec]
    refine FailsAt.onCtxt ?_ hp
    rw [FailsAt, show Op.codecopy c = copy_mem c.prog.code Opcode.STOP.toByte c from rfl]
    exact copy_mem_failsAt hs c.prog.code _
  case CALLDATACOPY =>
    simp only [exec]
    refine FailsAt.onCtxt ?_ hp
    rw [FailsAt, show Op.calldatacopy c = copy_mem c.input 0 c from rfl]
    exact copy_mem_failsAt hs c.input _
  case LOG n | BLOCKHASH =>
    simp only [exec]
    exact ((s_pop64_failsAt hs).onCtxt hp).bind _
  case SLOAD | SSTORE =>
    simp only [exec]
    exact ((s_pop_failsAt hs).onCtxt hp).bind _
  case EXTCODESIZE | BALANCE | EXTCODECOPY =>
    simp only [exec]
    exact ((pop_addr_failsAt hs).onCtxt hp).bind _
  case CREATE =>
    simp only [exec]
    exact (FailsAt.onCtxt (m := create_operands) ((s_pop_failsAt hs).bind _) hp).bind _
  case CALL | CALLCODE | DELEGATECALL =>
    simp only [exec]
    exact (FailsAt.onCtxt (m := call_operands _) ((s_pop_failsAt hs).bind _) hp).bind _

/-- On an empty stack a turn fails, unless its instruction is one of those two kinds. -/
theorem dispatch_failsAt_of_empty (hp : p.ctxts = c :: cs) (hs : c.s = []) (hpush : ∀ n, c.next_op ≠ some (.PUSH n))
    (hop : ∀ op, c.next_op = some op → op.needs_nothing = false ∧ op.ends_context = false) : FailsAt dispatch p := by
  have hpt : (traced p c).ctxts = c :: cs := hp
  unfold FailsAt
  rw [dispatch_eq hp]
  cases h : c.next_op with
  | none =>
    simp only [unknown_opcode, bind_of_ok (ctxt_cons hpt)]
    exact ⟨_, _, rfl⟩
  | some op =>
    obtain ⟨hneed, hend⟩ := hop op h
    refine exec_failsAt hpt hs hneed ?_ hend
    rintro n rfl
    exact hpush n h

/-- On an empty stack these succeed, and move the pc no more than a failing one would. -/
theorem exec_needs_nothing (hp : p.ctxts = c :: cs) (hs : c.s = []) {op : Opcode} (hop : op.needs_nothing = true) :
    ∃ s, exec op p = .ok () { p with ctxts := { c with s } :: cs } := by
  have hroom : c.s.length ≠ Stack.MAX_SIZE := by
    rw [hs]
    decide
  have hvalue : ∀ f : Context R → Word, ∃ s, onCtxt (Op.push_value f) p = .ok () { p with ctxts := { c with s } :: cs } := by
    intro f
    have hpush : Op.push_value f c = .ok () { c with s := f c :: c.s } := s_push_of_not_full hroom (f c)
    exact ⟨_, by rw [onCtxt_cons hp, hpush]⟩
  have henv : ∀ f : Context R → W → Transaction → Word, ∃ s,
      push_env f p = .ok () { p with ctxts := { c with s } :: cs } := by
    intro f
    have hpush := s_push_of_not_full hroom (f c p.gs p.tx)
    exact ⟨_, by rw [push_env, bind_of_ok (ctxt_cons hp), bind_of_ok (run_get p), onCtxt_cons hp, hpush]⟩
  cases op
  case ADDRESS | ORIGIN | CODESIZE | GASPRICE | COINBASE | TIMESTAMP | NUMBER | DIFFICULTY | GASLIMIT | GAS =>
    simp only [exec, codesize, address, origin, gasprice, gas, number, coinbase, timestamp, difficulty, gaslimit]
    exact henv _
  case CALLER | CALLVALUE | CALLDATASIZE | PC | MSIZE =>
    simp only [exec, Op.caller, Op.callvalue, Op.calldatasize, Op.pc, Op.msize]
    exact hvalue _
  case JUMPDEST =>
    refine ⟨c.s, ?_⟩
    change onCtxt (pure ()) p = _
    rw [onCtxt_cons hp]
    rfl
  all_goals cases hop

end

/-! ## The three streams -/

section

variable [Keccak]

/-- The interpreter, the jump table and the disassembler agree in the run that starts in `p0`. -/
structure SameStream (p0 : Processor W R) : Prop where
  swept : ∀ p c cs, Loop.Reaches iterate p0 p → p.ctxts = c :: cs → c.pc_valid = true → c.pc ∈ positions c.prog.code
  keys : ∀ code d, dis code = .ok d → d.instrs.map Prod.fst = positions code ∧
    jump_dest_keys d = compute_jump_dests code
  immediates : ∀ p p' c c' cs n d, Loop.Reaches iterate p0 p → p.ctxts = c :: cs → iterate p = .next p' →
    p'.ctxts = c' :: cs → c.next_op = some (.PUSH n) → dis c.prog.code = .ok d →
      ∃ i w, (c.pc, i) ∈ d.instrs ∧ i.get_immediate = .ok w ∧ c'.s = w :: c.s
  falls_through : ∀ p p' c c' cs d, Loop.Reaches iterate p0 p → p.ctxts = c :: cs → iterate p = .next p' →
    p'.ctxts = c' :: cs → ¬c.Jumps → dis c.prog.code = .ok d → c'.pc = next_key d c.prog.code c.pc
  resumes : ∀ p p' c cs x xs, Loop.Reaches iterate p0 p → p.ctxts = c :: cs → iterate p = .next p' →
    p'.ctxts = x :: xs → xs.length < cs.length → ∃ e es, cs.drop (cs.length - (x :: xs).length) = e :: es ∧
      x.prog = e.prog ∧ ∀ d, dis e.prog.code = .ok d → x.pc = next_key d e.prog.code e.pc

/-- The code can be disassembled and starts with an instruction that falls through on an empty stack. -/
def FirstRepeats (code : Code) : Prop :=
  (∃ d, dis code = .ok d) ∧ ∃ op, Opcode.ofByte (code.getD 0 0) = some op ∧ op.needs_nothing = true

variable {p p' : Processor W R} {c c' : Context R} {cs : List (Context R)}

/-- A turn that leaves as many contexts as it found has stayed in the one on top. -/
theorem stays_of_length (hn : iterate p = .next p') (hp : p.ctxts = c :: cs) (hp' : p'.ctxts = c' :: cs) :
    ∃ p1 c1, dispatch p = .ok () p1 ∧ p1.ctxts = c1 :: cs ∧ c.Lands c1 ∧ c' = c1.step ∧
      ∀ op, c.next_op = some op → op.ends_context = false := by
  obtain ⟨c0, cs0, hp0, hv, hc⟩ := next_cases hn
  obtain ⟨rfl, rfl⟩ := List.cons.inj (hp.symm.trans hp0)
  cases hc with
  | @stays p1 c1 hc h1 hop hd =>
    exact ⟨p1, c1, hd, h1, stays_lands hp hd h1 hc, (List.cons.inj hp').1.symm, hop⟩
  | opens =>
    have hlen := congrArg List.length hp'
    simp at hlen
  | ends hc h1 hop hk hd h2 =>
    obtain ⟨d, ds, hdrop, -, hqs⟩ := dropped_below hd hk h1 h2
    have hlen := congrArg List.length hdrop
    obtain ⟨-, rfl⟩ := List.cons.inj hp'
    have := hqs.length_eq
    simp at hlen
    omega

variable {gs : W} {tx : Transaction} {tr : Option (List TraceEvent)} {caller : Address} {callee : R} {input : Bytes}
  {call_value : Word}

/-- In a run a turn that stays in a context falls through to the next key, unless it is the repeated first one. -/
theorem falls_through_of_reaches (hr : Loop.Reaches iterate (start gs tx tr caller callee input call_value) p)
    (hp : p.ctxts = c :: cs) (hn : iterate p = .next p') (hp' : p'.ctxts = c' :: cs) (hno : ¬c.Jumps) {d : Disassembly}
    (hd : dis c.prog.code = .ok d) (hfirst : ¬FirstRepeats (get_code callee gs)) :
    c'.pc = next_key d c.prog.code c.pc := by
  obtain ⟨c0, cs0, hp0, hv, -⟩ := next_cases hn
  obtain ⟨rfl, rfl⟩ := List.cons.inj (hp.symm.trans hp0)
  obtain ⟨p1, c1, hdisp, h1, hlands, rfl, hend⟩ := stays_of_length hn hp hp'
  have hswept : Sweep.Visits (width c.prog.code) c.pc ∧ c.pc < c.prog.code.length :=
    ⟨(inStream_of_reaches hr).top c cs hp, by simpa [Context.pc_valid] using hv⟩
  rw [next_key_eq hd hswept]
  cases hlands with
  | falls hop hno hpc hch =>
    rw [Context.width_of_not_push hop]
    rcases stepped_of_reaches hr hp with rfl | hstepped
    · -- the first instruction of the outermost context: it has failed, or is one of the repeated ones
      exfalso
      cases hp
      obtain ⟨e, q, hfails⟩ := dispatch_failsAt_of_empty (p := start gs tx tr caller callee input call_value) rfl rfl hop
        fun op h => ⟨by
          cases hneed : op.needs_nothing with
          | false => rfl
          | true => exact absurd ⟨⟨d, hd⟩, op, h, hneed⟩ hfirst, hend op h⟩
      rw [hfails] at hdisp
      cases hdisp
    · rw [step_of_not_changed (hch.trans hstepped), hpc]
  | @pushes n hop hfits h =>
    rw [width_of_next_op hop, h, Opcode.immediate_bytes]
    simp [Context.step]
    omega
  | jumps hj => exact absurd hj hno

/-- An instruction that needs nothing, as the first of a run, leaves the pc where it is. -/
theorem repeats_first (gs : W) (tx : Transaction) (tr : Option (List TraceEvent)) (caller : Address) (callee : R)
    (input : Bytes) (call_value : Word) {op : Opcode} (hlen : 0 < (get_code callee gs).length)
    (hop : Opcode.ofByte ((get_code callee gs).getD 0 0) = some op) (hneed : op.needs_nothing = true) :
    ∃ c p' c', (start gs tx tr caller callee input call_value).ctxts = [c] ∧ c.next_op = some op ∧ c.pc = 0 ∧
      c.prog = Program.ofCode (get_code callee gs) ∧
      iterate (start gs tx tr caller callee input call_value) = .next p' ∧ p'.ctxts = [c'] ∧ c'.pc = 0 := by
  generalize hq : start gs tx tr caller callee input call_value = q
  obtain ⟨c, hp, hcop, hpc, hprog, hch, hnil⟩ : ∃ c, q.ctxts = [c] ∧ c.next_op = some op ∧ c.pc = 0 ∧
      c.prog = Program.ofCode (get_code callee gs) ∧ c.pc_changed = true ∧ c.s = [] := by
    subst hq
    exact ⟨_, rfl, hop, rfl, rfl, rfl, rfl⟩
  have hpt : (traced q c).ctxts = [c] := hp
  obtain ⟨s, hs⟩ := exec_needs_nothing hpt hnil hneed
  have hv : c.pc_valid = true := by
    rw [Context.pc_valid, hpc, hprog]
    exact decide_eq_true hlen
  have hn : iterate q = after_dispatch (exec op (traced q c)) := by
    rw [iterate_valid hp hv, dispatch_eq hp, hcop]
  refine ⟨c, { traced q c with ctxts := [{ c with s, pc_changed := false }] }, _, hp, hcop, hpc, hprog, ?_, rfl, hpc⟩
  rw [hn, hs]
  simp [after_dispatch, step_or_break, Context.step, hch]

/-- A `PUSH` pushes the immediate that the disassembly has at its pc. -/
theorem immediate_of_reaches (hr : Loop.Reaches iterate (start gs tx tr caller callee input call_value) p)
    (hp : p.ctxts = c :: cs) (hn : iterate p = .next p') (hp' : p'.ctxts = c' :: cs) {n : Fin 32}
    (hop : c.next_op = some (.PUSH n)) {d : Disassembly} (hd : dis c.prog.code = .ok d) :
    ∃ i w, (c.pc, i) ∈ d.instrs ∧ i.get_immediate = .ok w ∧ c'.s = w :: c.s := by
  obtain ⟨p1, c1, -, -, hlands, rfl, -⟩ := stays_of_length hn hp hp'
  cases hlands with
  | falls hno => exact absurd hop (hno n)
  | jumps hj =>
    rcases hj with hj | ⟨hj, -⟩ <;> rw [hop] at hj <;> cases hj
  | @pushes m hop' hfits h =>
    rw [hop] at hop'
    cases hop'
    -- the entry at the pc
    have hmem : c.pc ∈ positions c.prog.code :=
      mem_positions.2 ⟨(inStream_of_reaches hr).top c cs hp, by omega⟩
    obtain ⟨hkeys, hentries⟩ := dis_ok hd
    rw [← hkeys, List.mem_map] at hmem
    obtain ⟨⟨k, i⟩, hi, hk⟩ := hmem
    obtain rfl : k = c.pc := hk
    have himm : (getOp (c.prog.code.getD c.pc 0)).immediate_bytes = n.val + 1 := by
      have hw := width_of_next_op hop
      rw [width, Opcode.immediate_bytes] at hw
      omega
    have hraw := (hentries c.pc i hi).raw_imm
    rw [himm] at hraw
    have hne : i.raw_imm.isEmpty = false := by
      rw [hraw, List.isEmpty_eq_false_iff, ← List.length_pos_iff, List.length_take, List.length_drop]
      omega
    refine ⟨i, _, hi, by rw [Instr.get_immediate, hne]; rfl, ?_⟩
    rw [hraw, ← immediate_eq_from_big_endian (by omega), Context.step_s, h]

/-- A context whose call has returned goes on at the key behind the call. -/
theorem resumes_of_reaches (hr : Loop.Reaches iterate (start gs tx tr caller callee input call_value) p)
    (hp : p.ctxts = c :: cs) (hn : iterate p = .next p') {x : Context R} {xs : List (Context R)}
    (hp' : p'.ctxts = x :: xs) (hlt : xs.length < cs.length) :
    ∃ e es, cs.drop (cs.length - (x :: xs).length) = e :: es ∧ x.prog = e.prog ∧
      ∀ d, dis e.prog.code = .ok d → x.pc = next_key d e.prog.code e.pc := by
  obtain ⟨c0, cs0, hp0, hv, hc⟩ := next_cases hn
  obtain ⟨rfl, rfl⟩ := List.cons.inj (hp.symm.trans hp0)
  cases hc with
  | stays =>
    obtain ⟨-, rfl⟩ := List.cons.inj hp'
    exact absurd hlt (Nat.lt_irrefl _)
  | opens =>
    obtain ⟨-, rfl⟩ := List.cons.inj hp'
    simp at hlt
  | @ends p1 c1 p2 k x xs hc h1 hop hk hd h2 =>
    obtain ⟨rfl, rfl⟩ := List.cons.inj hp'
    obtain ⟨e, es, hdrop, hq, hqs⟩ := dropped_below hd hk h1 h2
    have hlen := congrArg List.length hdrop
    have hcount := hqs.length_eq
    simp at hlen
    have hk' : cs.length - (x.step :: xs).length = k - 1 := by
      simp
      omega
    have he : e ∈ cs := List.mem_of_mem_drop (by rw [hdrop]; exact List.mem_cons_self)
    have hcall : AtCall e := (inStream_of_reaches hr).below e (by rw [hp]; exact he)
    refine ⟨e, es, by rw [hk']; exact hdrop, by rw [(step_sameFrame _).prog, hq.prog], ?_⟩
    intro d hdis
    have hsteps : x.pc_changed = false := hq.pc_changed.trans hcall.pc_changed
    rw [next_key_eq hdis ⟨hcall.in_stream, by simpa [Context.pc_valid] using hcall.pc_valid⟩, hcall.width,
      step_of_not_changed hsteps]
    exact congrArg (· + 1) hq.pc

/-- **Streams.** They agree in a run unless its first instruction is carried out twice. -/
theorem same_stream_iff (gs : W) (tx : Transaction) (tr : Option (List TraceEvent)) (caller : Address) (callee : R)
    (input : Bytes) (call_value : Word) :
    SameStream (start gs tx tr caller callee input call_value) ↔ ¬FirstRepeats (get_code callee gs) := by
  constructor
  · rintro h ⟨⟨d, hd⟩, op, hop, hneed⟩
    have hlen : 0 < (get_code callee gs).length := by
      rw [List.length_pos_iff]
      intro hnil
      rw [hnil] at hop
      cases hop
      cases hneed
    obtain ⟨c, p', c', hp, hcop, hpc, hprog, hn, hp', hpc'⟩ :=
      repeats_first gs tx tr caller callee input call_value hlen hop hneed
    have hno : ¬c.Jumps := by
      rintro (hj | ⟨hj, -⟩) <;>
      · rw [hcop] at hj
        cases hj
        cases hneed
    have hcode : c.prog.code = get_code callee gs := by rw [hprog]; rfl
    have hnext := h.falls_through _ _ _ _ _ d .refl hp hn hp' hno (by rw [hcode]; exact hd)
    rw [hcode, hpc, hpc'] at hnext
    have hw := width_pos (get_code callee gs) 0
    have hkey := next_key_eq hd ⟨.refl, hlen⟩
    omega
  · intro hfirst
    refine ⟨?_, ?_, ?_, ?_, ?_⟩
    · intro p c cs hr hp hv
      refine mem_positions.2 ⟨(inStream_of_reaches hr).top c cs hp, ?_⟩
      simpa [Context.pc_valid] using hv
    · intro code d hd
      exact ⟨(dis_ok hd).1, jump_dest_keys_eq hd⟩
    · intro p p' c c' cs n d hr hp hn hp' hop hd
      exact immediate_of_reaches hr hp hn hp' hop hd
    · intro p p' c c' cs d hr hp hn hp' hno hd
      exact falls_through_of_reaches hr hp hn hp' hno hd hfirst
    · intro p p' c cs x xs hr hp hn hp' hlt
      exact resumes_of_reaches hr hp hn hp' hlt

end

/-- Account 100 has the code `PC; STOP`. -/
def repeating_start : Processor SimpleGlobalState Address :=
  start (.of_accounts [{ address := 100, code := [0x58, 0x00] }]) { origin := 1 } none 1 100 [] 0

/-- Its `PC` is followed by itself. -/
theorem not_same_stream : ¬@SameStream _ _ _ no_hash repeating_start := by
  intro h
  have hn : @iterate _ _ _ no_hash repeating_start = .next _ := rfl
  have hnext := @SameStream.falls_through _ _ _ no_hash _ h _ _ _ _ _ _ .refl rfl hn rfl (by
    rintro (hj | ⟨hj, -⟩)
    · exact absurd hj (by decide)
    · exact absurd hj (by decide)) rfl
  exact absurd hnext (by decide)

end Processor

end EEVM

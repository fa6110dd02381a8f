import EEVM.Turn
/-!
# `CREATE`, the calls and `SELFDESTRUCT`, exactly (processor.cpp:1216-1342)

The functions that move value take their operands from the stack, look the account up or create it, pay, and push a
context or end one. `CreateCase`, `CallCase` and `SelfdestructCase` list where they can stop on the way and what they
have done by then: nothing is undone.
-/
namespace EEVM

open ExcState

/-- How many words an instruction that may open a context takes from the stack. -/
def Opcode.operand_count : Opcode → Nat
  | .CREATE => 3
  | .DELEGATECALL => 6
  | _ => 7

theorem Opcode.three_le_operand_count (op : Opcode) : 3 ≤ op.operand_count := by
  cases op <;> simp [operand_count]

section

variable {R : Type} {c c' c'' : Context R}

/-! ## Operands -/

/-- `c'` is `c` without the `n` words on top of its stack. -/
structure Popped (n : Nat) (c c' : Context R) : Prop where
  eq : c' = { c with s := c.s.drop n }
  le : n ≤ c.s.length

theorem Popped.trans {n m : Nat} (h1 : Popped n c c') (h2 : Popped m c' c'') : Popped (n + m) c c'' := by
  have hle := h2.le
  rw [h1.eq, List.length_drop] at hle
  have hn := h1.le
  refine ⟨?_, by omega⟩
  rw [h2.eq, h1.eq, List.drop_drop]

theorem Popped.of_cons {w : Word} (hs : c.s = w :: c'.s) (he : c' = { c with s := c'.s }) : Popped 1 c c' :=
  ⟨by rw [hs]; exact he, by simp [hs]⟩

theorem popped_of_s_pop {w : Word} (h : s_pop c = .ok w c') : Popped 1 c c' :=
  .of_cons (s_pop_eq_ok h).1 (s_pop_eq_ok h).2

theorem popped_of_s_pop64 {n : UInt64} (h : s_pop64 c = .ok n c') : Popped 1 c c' := by
  obtain ⟨w, hs, he, -⟩ := s_pop64_eq_ok h
  exact .of_cons hs he

theorem popped_of_pop_addr {a : Address} (h : pop_addr c = .ok a c') : Popped 1 c c' := by
  obtain ⟨w, hs, he, -⟩ := pop_addr_eq_ok h
  exact .of_cons hs he

theorem call_operands_eq_ok {op : Opcode} {args : CallOperands} (h : call_operands op c = .ok args c')
    (hop : op = .CALL ∨ op = .CALLCODE ∨ op = .DELEGATECALL) : Popped op.operand_count c c' := by
  simp only [call_operands, bind_eq_ok] at h
  obtain ⟨_, c1, h1, _, c2, h2, _, c3, h3, _, c4, h4, _, c5, h5, _, c6, h6, _, c7, h7, ⟨⟩⟩ := h
  have h12 := (popped_of_s_pop h1).trans (popped_of_pop_addr h2)
  have h47 := (((popped_of_s_pop64 h4).trans (popped_of_s_pop64 h5)).trans (popped_of_s_pop64 h6)).trans
    (popped_of_s_pop64 h7)
  unfold call_value_operand at h3
  -- `DELEGATECALL` has no value operand
  rcases hop with rfl | rfl | rfl
  · exact (h12.trans (popped_of_s_pop64 h3)).trans h47
  · exact (h12.trans (popped_of_s_pop64 h3)).trans h47
  · cases h3
    exact h12.trans h47

theorem create_operands_eq_ok {v : Word} {code : Bytes} (h : create_operands c = .ok (v, code) c') :
    c' = { c with s := c.s.drop 3, mem := c'.mem } ∧ 3 ≤ c.s.length := by
  simp only [create_operands, create_operands_by, bind_eq_ok] at h
  obtain ⟨_, c1, h1, _, c2, h2, _, c3, h3, _, c4, h4, ⟨⟩⟩ := h
  have hp := ((popped_of_s_pop h1).trans (popped_of_s_pop64 h2)).trans (popped_of_s_pop64 h3)
  have hm := (copy_from_mem_eq_ok h4).1
  refine ⟨?_, hp.le⟩
  rw [hm, hp.eq]

end

/-- The window a call gives to its callee lies within the memory limit. -/
def Handlers.InRange {R : Type} : Handlers R → Prop
  | .call offOut sizeOut => ¬offOut + sizeOut < offOut ∧ ¬offOut + sizeOut > MAX_MEM_SIZE
  | _ => True

namespace Processor

variable {W R : Type} [GlobalState W R]

/-! ## Payment -/

/-- What `pay_to` tests. -/
def CanPay (this other : R) (amount : Word) (gs : W) : Prop :=
  amount ≤ get_balance this gs ∧ ¬get_balance other gs + amount < get_balance other gs

theorem pay_to_ok {this other : R} {amount : Word} {p : Processor W R} (h : CanPay this other amount p.gs) :
    pay_to this other amount p = .ok () { p with gs := transfer this other amount p.gs } := by
  rcases pay_to_cases this other amount p with ⟨hr, -⟩ | ⟨-, h1 | h1⟩
  · exact hr
  · exact absurd h.1 (BitVec.not_le.2 h1)
  · exact absurd h1 h.2

theorem pay_to_error {this other : R} {amount : Word} {p : Processor W R} (h : ¬CanPay this other amount p.gs) :
    ∃ ex, pay_to this other amount p = .error (.exception ex) p := by
  rcases pay_to_cases this other amount p with ⟨-, h1⟩ | ⟨hr, -⟩
  · exact absurd h1 h
  · exact hr

/-! ## `CREATE` -/

section

variable {p : Processor W R} {c : Context R} {cs : List (Context R)}

/-- What is left after the payment: `p` has paid and `n` operands have been taken. -/
inductive Paid (p : Processor W R) (c : Context R) (cs : List (Context R)) (n : Nat) :
    EStateM.Result Thrown (Processor W R) Unit → Prop
  | fails {ex c'} (hq : Quiet c c') : Paid p c cs n (.error (.exception ex) { p with ctxts := c' :: cs })
  | answers {c'} (hq : Quiet c c') : Paid p c cs n (.ok () { p with ctxts := c' :: cs })
  | opens {c' f} (hc : c' = { c with s := c.s.drop n, mem := c'.mem }) (hn : n ≤ c.s.length) (hf : Fresh f)
      (hw : f.handlers.InRange) : Paid p c cs n (.ok () { p with ctxts := f :: c' :: cs })

omit [GlobalState W R] in
theorem Paid.push_context {c' f : Context R} {n : Nat} (hq : Quiet c c')
    (hc : c' = { c with s := c.s.drop n, mem := c'.mem }) (hn : n ≤ c.s.length) (hf : Fresh f)
    (hw : f.handlers.InRange) : Paid p c cs n (push_context f { p with ctxts := c' :: cs }) := by
  unfold Processor.push_context
  rw [bind_of_ok (run_get _)]
  split
  · exact .fails hq
  · exact .opens hc hn hf hw

section

variable [Keccak]

/-- The address of the account `CREATE` creates from `c`. -/
def new_address (gs : W) (c : Context R) : Address := generate_address (get_address c.as gs) (get_nonce c.as gs)

/-- The world when the new account has been created, before the payment. -/
def created (gs : W) (c : Context R) (v : Word) : R × W := GlobalState.create (new_address gs c) v [] gs

inductive CreateCase (p : Processor W R) (c : Context R) (cs : List (Context R)) :
    EStateM.Result Thrown (Processor W R) Unit → Prop
  | refused {ex c'} (hq : Quiet c c') (hops : ∀ a d, create_operands c ≠ .ok a d) :
    CreateCase p c cs (.error (.exception ex) { p with ctxts := c' :: cs })
  | unpaid {v code c' ex} (hops : create_operands c = .ok (v, code) c')
      (hpay : ¬CanPay c.as (created p.gs c v).1 v (created p.gs c v).2) :
    CreateCase p c cs (.error (.exception ex) { p with gs := (created p.gs c v).2, ctxts := c' :: cs })
  | paid {v code c' r} (hops : create_operands c = .ok (v, code) c')
      (hpay : CanPay c.as (created p.gs c v).1 v (created p.gs c v).2)
      (h : Paid { p with gs := transfer c.as (created p.gs c v).1 v (created p.gs c v).2 } c cs 3 r) : CreateCase p c cs r

theorem create_cases (hp : p.ctxts = c :: cs) : CreateCase p c cs (create p) := by
  unfold create create_by
  rcases onCtxt_quiet_cases create_operands_quiet hp with ⟨⟨v, code⟩, c', hops, hq, hrun⟩ | ⟨ex, c', hops, hq, hrun⟩
  · have has : c'.as = c.as := hq.as
    rw [bind_of_ok hrun]
    -- the processor once the operands are taken
    have hctxt : ctxt ({ p with ctxts := c' :: cs } : Processor W R) = .ok c' { p with ctxts := c' :: cs } := rfl
    simp only [bind_of_ok hctxt, bind_of_ok (run_get _), has]
    have hgs : gs_create (generate_address (get_address c.as p.gs) (get_nonce c.as p.gs)) v []
        ({ p with ctxts := c' :: cs } : Processor W R) =
        .ok (created p.gs c v).1 { p with gs := (created p.gs c v).2, ctxts := c' :: cs } := rfl
    rw [bind_of_ok hgs]
    by_cases hpay : CanPay c.as (created p.gs c v).1 v (created p.gs c v).2
    · rw [bind_of_ok (pay_to_ok hpay), bind_of_ok (run_get _)]
      have hc := create_operands_eq_ok hops
      exact .paid hops hpay (.push_context hq hc.1 hc.2 ⟨rfl, rfl, rfl, rfl, nofun⟩ trivial)
    · obtain ⟨ex, h⟩ := pay_to_error (p := { p with gs := (created p.gs c v).2, ctxts := c' :: cs }) hpay
      rw [bind_of_error h]
      exact .unpaid hops hpay
  · rw [bind_of_error hrun]
    exact .refused hq (by simp [hops])

end

/-! ## `CALL`, `CALLCODE` and `DELEGATECALL` -/

/-- The calls of these addresses are refused. -/
def Precompiled (addr : Address) : Prop := addr ≥ 1 ∧ addr ≤ 8

/-- The callee, and the world when it has been looked up. -/
def found (gs : W) (args : CallOperands) : R × W := GlobalState.get args.addr gs

inductive CallCase (op : Opcode) (p : Processor W R) (c : Context R) (cs : List (Context R)) :
    EStateM.Result Thrown (Processor W R) Unit → Prop
  | refused {ex c'} (hq : Quiet c c') (hops : ∀ args d, call_operands op c = .ok args d → Precompiled args.addr) :
    CallCase op p c cs (.error (.exception ex) { p with ctxts := c' :: cs })
  | unpaid {args c' ex} (hops : call_operands op c = .ok args c') (hpre : ¬Precompiled args.addr)
      (hpay : ¬CanPay c.as (found p.gs args).1 (Word.ofUInt64 args.value) (found p.gs args).2) :
    CallCase op p c cs (.error (.exception ex) { p with gs := (found p.gs args).2, ctxts := c' :: cs })
  | paid {args c' r} (hops : call_operands op c = .ok args c') (hpre : ¬Precompiled args.addr)
      (hpay : CanPay c.as (found p.gs args).1 (Word.ofUInt64 args.value) (found p.gs args).2)
      (h : Paid { p with gs := transfer c.as (found p.gs args).1 (Word.ofUInt64 args.value) (found p.gs args).2 } c cs
        op.operand_count r) : CallCase op p c cs r

omit [GlobalState W R] in
/-- A call of an account without code only pushes that it has succeeded. -/
theorem Paid.push {c' : Context R} {n : Nat} (hq : Quiet c c') :
    Paid p c cs n (onCtxt (s_push 1) { p with ctxts := c' :: cs }) := by
  have hp : ({ p with ctxts := c' :: cs } : Processor W R).ctxts = c' :: cs := rfl
  rcases onCtxt_quiet_cases (s_push_quiet 1) hp with ⟨a, c2, -, hs, hrun⟩ | ⟨ex, c2, -, hs, hrun⟩
  · rw [hrun]
    exact .answers (hq.trans hs)
  · rw [hrun]
    exact .fails (hq.trans hs)

omit [GlobalState W R] in
/-- Before its context is opened, a call makes room for the output and copies the input. -/
theorem Paid.prepare {c' : Context R} {args : CallOperands} {n : Nat} {k : Bytes → M W R Unit} (hq : Quiet c c')
    (hk : ∀ input c2 c3, prepare_mem_access args.offOut args.sizeOut c' = .ok () c2 →
      copy_from_mem args.offIn args.sizeIn c2 = .ok input c3 → Quiet c c3 →
      Paid p c cs n (k input { p with ctxts := c3 :: cs })) :
    Paid p c cs n ((do
      onCtxt (prepare_mem_access args.offOut args.sizeOut)
      let input ← onCtxt (copy_from_mem args.offIn args.sizeIn)
      k input : M W R Unit) { p with ctxts := c' :: cs }) := by
  have hp : ({ p with ctxts := c' :: cs } : Processor W R).ctxts = c' :: cs := rfl
  rcases onCtxt_quiet_cases (prepare_mem_access_quiet args.offOut args.sizeOut) hp with
    ⟨u, c2, h1, hs, hrun⟩ | ⟨ex, c2, -, hs, hrun⟩
  · have hp2 : ({ p with ctxts := c2 :: cs } : Processor W R).ctxts = c2 :: cs := rfl
    rw [bind_of_ok hrun]
    rcases onCtxt_quiet_cases (copy_from_mem_quiet args.offIn args.sizeIn) hp2 with
      ⟨input, c3, h2, hs', hrun⟩ | ⟨ex, c3, -, hs', hrun⟩
    · rw [bind_of_ok hrun]
      exact hk input c2 c3 h1 h2 ((hq.trans hs).trans hs')
    · rw [bind_of_error hrun]
      exact .fails ((hq.trans hs).trans hs')
  · rw [bind_of_error hrun]
    exact .fails (hq.trans hs)

theorem call_cases {op : Opcode} (hop : op = .CALL ∨ op = .CALLCODE ∨ op = .DELEGATECALL) (hp : p.ctxts = c :: cs) :
    CallCase op p c cs (call op p) := by
  unfold call call_by
  rcases onCtxt_quiet_cases (call_operands_quiet op) hp with ⟨args, c', hops, hq, hrun⟩ | ⟨ex, c', hops, hq, hrun⟩
  case inr =>
    rw [bind_of_error hrun]
    exact .refused hq (by simp [hops])
  have has : c'.as = c.as := hq.as
  have hpop := call_operands_eq_ok hops hop
  rw [bind_of_ok hrun]
  by_cases hpre : args.addr ≥ 1 ∧ args.addr ≤ 8
  · simp only [if_pos hpre]
    refine .refused hq fun args' d h => ?_
    rw [hops] at h
    cases h
    exact hpre
  simp only [if_neg hpre]
  have hgs : gs_get args.addr ({ p with ctxts := c' :: cs } : Processor W R) =
      .ok (found p.gs args).1 { p with gs := (found p.gs args).2, ctxts := c' :: cs } := rfl
  have hctxt : ctxt ({ p with gs := (found p.gs args).2, ctxts := c' :: cs } : Processor W R) =
      .ok c' { p with gs := (found p.gs args).2, ctxts := c' :: cs } := rfl
  rw [bind_of_ok hgs, bind_of_ok hctxt, has]
  by_cases hpay : CanPay c.as (found p.gs args).1 (Word.ofUInt64 args.value) (found p.gs args).2
  case neg =>
    obtain ⟨ex, h⟩ := pay_to_error (p := { p with gs := (found p.gs args).2, ctxts := c' :: cs }) hpay
    rw [bind_of_error h]
    exact .unpaid hops hpre hpay
  rw [bind_of_ok (pay_to_ok hpay), bind_of_ok (run_get _)]
  refine .paid hops hpre hpay ?_
  generalize transfer c.as (found p.gs args).1 (Word.ofUInt64 args.value) (found p.gs args).2 = gs
  split
  · -- no code: the call has succeeded
    exact .push hq
  · refine .prepare hq fun input c2 c3 h1 h2 hq3 => ?_
    obtain ⟨hm1, hrange⟩ := prepare_mem_access_eq_ok h1
    have hw := in_limit_iff.2 hrange
    have hm2 := (copy_from_mem_eq_ok h2).1
    have hc : c3 = { c with s := c.s.drop op.operand_count, mem := c3.mem } := by
      rw [hm2, hm1, hpop.eq]
    rcases hop with rfl | rfl | rfl
    · exact .push_context hq3 hc hpop.le ⟨rfl, rfl, rfl, rfl, nofun⟩ hw
    · exact .push_context hq3 hc hpop.le ⟨rfl, rfl, rfl, rfl, nofun⟩ hw
    · exact .push_context hq3 hc hpop.le ⟨rfl, rfl, rfl, rfl, nofun⟩ hw

/-! ## `SELFDESTRUCT` -/

/-- The recipient, and the world when it has been looked up. -/
def recipient (gs : W) (addr : Address) : R × W := GlobalState.get addr gs

inductive SelfdestructCase (p : Processor W R) (c : Context R) (cs : List (Context R)) :
    EStateM.Result Thrown (Processor W R) Unit → Prop
  | refused {ex c'} (hq : Quiet c c') (hops : ∀ a d, pop_addr c ≠ .ok a d) :
    SelfdestructCase p c cs (.error (.exception ex) { p with ctxts := c' :: cs })
  | unpaid {addr c' ex} (hops : pop_addr c = .ok addr c')
      (hpay : ¬CanPay c.as (recipient p.gs addr).1 (get_balance c.as (recipient p.gs addr).2) (recipient p.gs addr).2) :
    SelfdestructCase p c cs (.error (.exception ex) { p with gs := (recipient p.gs addr).2, ctxts := c' :: cs })
  | paid {addr c' gs} (hops : pop_addr c = .ok addr c')
      (hpay : CanPay c.as (recipient p.gs addr).1 (get_balance c.as (recipient p.gs addr).2) (recipient p.gs addr).2)
      (hgs : gs = transfer c.as (recipient p.gs addr).1 (get_balance c.as (recipient p.gs addr).2) (recipient p.gs addr).2) :
    SelfdestructCase p c cs (stop { p with
      gs, tx := { p.tx with selfdestruct_list := p.tx.selfdestruct_list ++ [get_address c.as gs] }, ctxts := c' :: cs })

theorem selfdestruct_cases (hp : p.ctxts = c :: cs) : SelfdestructCase p c cs (selfdestruct p) := by
  unfold selfdestruct
  rcases onCtxt_quiet_cases pop_addr_quiet hp with ⟨addr, c', hops, hq, hrun⟩ | ⟨ex, c', hops, hq, hrun⟩
  · have has : c'.as = c.as := hq.as
    rw [bind_of_ok hrun]
    have hgs : gs_get addr ({ p with ctxts := c' :: cs } : Processor W R) =
        .ok (recipient p.gs addr).1 { p with gs := (recipient p.gs addr).2, ctxts := c' :: cs } := rfl
    have hctxt : ctxt ({ p with gs := (recipient p.gs addr).2, ctxts := c' :: cs } : Processor W R) =
        .ok c' { p with gs := (recipient p.gs addr).2, ctxts := c' :: cs } := rfl
    rw [bind_of_ok hgs, bind_of_ok hctxt, bind_of_ok (run_get _)]
    simp only [has]
    by_cases hpay : CanPay c.as (recipient p.gs addr).1 (get_balance c.as (recipient p.gs addr).2) (recipient p.gs addr).2
    · rw [bind_of_ok (pay_to_ok hpay), bind_of_ok (run_get _)]
      exact .paid hops hpay rfl
    · obtain ⟨ex, h⟩ := pay_to_error (p := { p with gs := (recipient p.gs addr).2, ctxts := c' :: cs }) hpay
      rw [bind_of_error h]
      exact .unpaid hops hpay
  · rw [bind_of_error hrun]
    exact .refused hq (by simp [hops])

end

/-! ## The turn's instruction -/

theorem dispatch_selfdestruct [Keccak] {p : Processor W R} {c : Context R} {cs} (hp : p.ctxts = c :: cs)
    (hop : c.next_op = some .SELFDESTRUCT) : SelfdestructCase (traced p c) c cs (dispatch p) := by
  have hd : dispatch p = selfdestruct (traced p c) := by
    rw [dispatch_eq hp, hop]
    rfl
  rw [hd]
  exact selfdestruct_cases hp

theorem dispatch_create [Keccak] {p : Processor W R} {c : Context R} {cs} (hp : p.ctxts = c :: cs)
    (hop : c.next_op = some .CREATE) : CreateCase (traced p c) c cs (dispatch p) := by
  have hd : dispatch p = create (traced p c) := by
    rw [dispatch_eq hp, hop]
    rfl
  rw [hd]
  exact create_cases hp

theorem dispatch_call [Keccak] {p : Processor W R} {c : Context R} {cs op} (hp : p.ctxts = c :: cs)
    (hop : c.next_op = some op) (hcall : op = .CALL ∨ op = .CALLCODE ∨ op = .DELEGATECALL) :
    CallCase op (traced p c) c cs (dispatch p) := by
  have hd : dispatch p = call op (traced p c) := by
    rw [dispatch_eq hp, hop]
    rcases hcall with rfl | rfl | rfl <;> rfl
  rw [hd]
  exact call_cases hcall hp

/-- A context that is opened is fresh, and the one it is opened from waits with its operands gone. -/
theorem opens_eq [Keccak] {p p' : Processor W R} {c c' f : Context R} {cs op} (hp : p.ctxts = c :: cs)
    (hop : c.next_op = some op) (hcall : op.is_call) (hd : dispatch p = .ok () p') (hp' : p'.ctxts = f :: c' :: cs) :
    c' = { c with s := c.s.drop op.operand_count, mem := c'.mem } ∧ op.operand_count ≤ c.s.length ∧ Fresh f ∧
      f.handlers.InRange := by
  have hpaid : ∀ {q : Processor W R} {n}, Paid q c cs n (.ok () p') →
      c' = { c with s := c.s.drop n, mem := c'.mem } ∧ n ≤ c.s.length ∧ Fresh f ∧ f.handlers.InRange := by
    intro q n h
    cases h with
    | answers =>
      have hlen := congrArg List.length hp'
      simp at hlen
    | opens hc hn hf hw =>
      cases hp'
      exact ⟨hc, hn, hf, hw⟩
  rcases Opcode.is_call_iff.1 hcall with rfl | hop'
  · have h := dispatch_create hp hop
    rw [hd] at h
    cases h with
    | paid _ _ h => exact hpaid h
  · have h := dispatch_call hp hop hop'
    rw [hd] at h
    cases h with
    | paid _ _ _ h => exact hpaid h

end Processor

end EEVM

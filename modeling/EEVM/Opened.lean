import EEVM.Calls
import EEVM.Handlers
/-!
# What `CREATE` and the calls leave when they succeed (processor.cpp:1224-1342)

The context they open is an `init_frame` or a `callee_frame`; its program and its account come from different places: init
code runs as the new account, the code of the callee as the callee (`CALL`) or as the caller (`CALLCODE`, `DELEGATECALL`).
-/
namespace EEVM

open ExcState

namespace Processor

variable {W R : Type} [GlobalState W R] {p p' : Processor W R} {c : Context R} {cs : List (Context R)} {op : Opcode}

/-- The context of the init code `code` of `newAcc`, when `c` creates it. -/
def init_frame (gs : W) (c : Context R) (newAcc : R) (code : Code) : Context R where
  as := newAcc
  caller := get_address c.as gs
  input := []
  call_value := 0
  prog := Program.ofCode code
  handlers := .create newAcc

/-- The context that `op` in `c` opens for the code of `callee`. -/
def callee_frame (op : Opcode) (gs : W) (c : Context R) (callee : R) (args : CallOperands) (input : Bytes) : Context R where
  as := if op = .CALL then callee else c.as
  caller := if op = .DELEGATECALL then c.caller else get_address c.as gs
  input := input
  call_value := if op = .DELEGATECALL then c.call_value else Word.ofUInt64 args.value
  prog := Program.ofCode (get_code callee gs)
  handlers := .call args.offOut args.sizeOut

omit [GlobalState W R] in
theorem push_context_eq_ok {f : Context R} {u : Unit} (h : push_context f p = .ok u p') :
    p' = { p with ctxts := f :: p.ctxts } := by
  rw [push_context, bind_of_ok (run_get p)] at h
  split at h
  · cases h
  · cases h
    rfl

theorem pay_to_eq_ok {this other : R} {amount : Word} {u : Unit} (h : pay_to this other amount p = .ok u p') :
    CanPay this other amount p.gs ∧ p' = { p with gs := transfer this other amount p.gs } := by
  by_cases hpay : CanPay this other amount p.gs
  · rw [pay_to_ok hpay] at h
    cases h
    exact ⟨hpay, rfl⟩
  · obtain ⟨ex, he⟩ := pay_to_error hpay
    rw [he] at h
    cases h

omit [GlobalState W R] in
theorem onCtxt_eq_ok {α : Type} {m : CtxM R α} {a : α} (hp : p.ctxts = c :: cs) (h : onCtxt m p = .ok a p') :
    ∃ d, m c = .ok a d ∧ p' = { p with ctxts := d :: cs } := by
  rw [onCtxt_cons hp] at h
  cases hm : m c with
  | ok b d =>
    rw [hm] at h
    cases h
    exact ⟨d, rfl, rfl⟩
  | error e d =>
    rw [hm] at h
    cases h

/-- The world when the new account has been created and endowed. -/
def endowed [Keccak] (gs : W) (c : Context R) (v : Word) : W := transfer c.as (created gs c v).1 v (created gs c v).2

theorem create_eq_ok [Keccak] (hp : p.ctxts = c :: cs) (h : create p = .ok () p') :
    ∃ v code d, create_operands c = .ok (v, code) d ∧ CanPay c.as (created p.gs c v).1 v (created p.gs c v).2 ∧
      p' = { p with
        gs := endowed p.gs c v
        ctxts := init_frame (endowed p.gs c v) c (created p.gs c v).1 code :: d :: cs } := by
  rw [create, create_by, bind_eq_ok] at h
  obtain ⟨⟨v, code⟩, p1, hops, h⟩ := h
  obtain ⟨d, hd, rfl⟩ := onCtxt_eq_ok hp hops
  have has : d.as = c.as := by rw [(create_operands_eq_ok hd).1]
  have hctxt : ctxt ({ p with ctxts := d :: cs } : Processor W R) = .ok d { p with ctxts := d :: cs } := rfl
  have hgs : gs_create (generate_address (get_address c.as p.gs) (get_nonce c.as p.gs)) v [] ({ p with ctxts := d :: cs } : Processor W R) =
      .ok (created p.gs c v).1 { p with gs := (created p.gs c v).2, ctxts := d :: cs } := rfl
  simp only [bind_of_ok hctxt, bind_of_ok (run_get _), has] at h
  rw [bind_of_ok hgs, bind_eq_ok] at h
  obtain ⟨_, p2, hpaid, h⟩ := h
  obtain ⟨hpay, rfl⟩ := pay_to_eq_ok hpaid
  rw [bind_of_ok (run_get _)] at h
  exact ⟨v, code, d, hd, hpay, push_context_eq_ok h⟩

/-- The world when the callee has been looked up and paid. -/
def called (gs : W) (c : Context R) (args : CallOperands) : W :=
  transfer c.as (found gs args).1 (Word.ofUInt64 args.value) (found gs args).2

/-- A call of an account with code opens its context, one of an account without code answers. -/
inductive Called (op : Opcode) (p : Processor W R) (c : Context R) (cs : List (Context R)) (args : CallOperands)
    (d : Context R) : Processor W R → Prop
  | answers (hcode : has_code (found p.gs args).1 (called p.gs c args) = false) (hroom : d.s.length ≠ Stack.MAX_SIZE) :
    Called op p c cs args d { p with gs := called p.gs c args, ctxts := { d with s := 1 :: d.s } :: cs }
  | opens {c2 c3 input} (hcode : has_code (found p.gs args).1 (called p.gs c args) = true)
      (hout : prepare_mem_access args.offOut args.sizeOut d = .ok () c2)
      (hin : copy_from_mem args.offIn args.sizeIn c2 = .ok input c3) :
    Called op p c cs args d { p with
      gs := called p.gs c args
      ctxts := callee_frame op (called p.gs c args) c (found p.gs args).1 args input :: c3 :: cs }

theorem call_eq_ok (hp : p.ctxts = c :: cs) (hcall : op = .CALL ∨ op = .CALLCODE ∨ op = .DELEGATECALL)
    (h : call op p = .ok () p') :
    ∃ args d, call_operands op c = .ok args d ∧ ¬Precompiled args.addr ∧
      CanPay c.as (found p.gs args).1 (Word.ofUInt64 args.value) (found p.gs args).2 ∧ Called op p c cs args d p' := by
  rw [call, call_by, bind_eq_ok] at h
  obtain ⟨args, p1, hops, h⟩ := h
  obtain ⟨d, hd, rfl⟩ := onCtxt_eq_ok hp hops
  have hpop := (call_operands_eq_ok hd hcall).eq
  have has : d.as = c.as := by rw [hpop]
  by_cases hpre : args.addr ≥ 1 ∧ args.addr ≤ 8
  · simp only [if_pos hpre] at h
    cases h
  simp only [if_neg hpre] at h
  have hgs : gs_get args.addr ({ p with ctxts := d :: cs } : Processor W R) =
      .ok (found p.gs args).1 { p with gs := (found p.gs args).2, ctxts := d :: cs } := rfl
  have hctxt : ctxt ({ p with gs := (found p.gs args).2, ctxts := d :: cs } : Processor W R) =
      .ok d { p with gs := (found p.gs args).2, ctxts := d :: cs } := rfl
  rw [bind_of_ok hgs, bind_of_ok hctxt, has, bind_eq_ok] at h
  obtain ⟨_, p2, hpaid, h⟩ := h
  obtain ⟨hpay, rfl⟩ := pay_to_eq_ok hpaid
  rw [bind_of_ok (run_get _)] at h
  refine ⟨args, d, hd, hpre, hpay, ?_⟩
  cases hcode : has_code (found p.gs args).1 (called p.gs c args) with
  | false =>
    have hcode' : has_code (found p.gs args).1
        (transfer c.as (found p.gs args).1 (Word.ofUInt64 args.value) (found p.gs args).2) = false := hcode
    simp only [hcode', Bool.not_false, if_true] at h
    obtain ⟨e, hpush, rfl⟩ := onCtxt_eq_ok rfl h
    rcases s_push_cases 1 d with ⟨hroom, hr⟩ | ⟨-, ex, hr⟩
    all_goals
      rw [hr] at hpush
      cases hpush
    exact .answers hcode hroom
  | true =>
    have hcode' : has_code (found p.gs args).1
        (transfer c.as (found p.gs args).1 (Word.ofUInt64 args.value) (found p.gs args).2) = true := hcode
    simp only [hcode', Bool.not_true, Bool.false_eq_true, if_false] at h
    rw [bind_eq_ok] at h
    obtain ⟨_, p3, hp3, h⟩ := h
    obtain ⟨c2, hout, rfl⟩ := onCtxt_eq_ok rfl hp3
    rw [bind_eq_ok] at h
    obtain ⟨input, p4, hp4, h⟩ := h
    obtain ⟨c3, hin, rfl⟩ := onCtxt_eq_ok rfl hp4
    have hopened : p' = { p with
        gs := called p.gs c args
        ctxts := callee_frame op (called p.gs c args) c (found p.gs args).1 args input :: c3 :: cs } := by
      have hd' : d.caller = c.caller ∧ d.call_value = c.call_value := by
        rw [hpop]
        exact ⟨rfl, rfl⟩
      rcases hcall with rfl | rfl | rfl
      · exact push_context_eq_ok h
      · exact push_context_eq_ok h
      · rw [push_context_eq_ok h, hd'.1, hd'.2]
        rfl
    rw [hopened]
    exact .opens hcode hout hin

end Processor

end EEVM

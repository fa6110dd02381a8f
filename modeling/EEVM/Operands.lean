import EEVM.Opened
/-!
# Operands that are in order (processor.cpp:344-367, 1224-1342)

With the words of its operands on the stack, small enough and its memory within the limit, an instruction that opens a
context gets as far as its payment. `call_paid` says what it does from there on.
-/
namespace EEVM

open ExcState

section

variable {R : Type} {c : Context R} {st : Stack}

/-! ## `CREATE` -/

theorem create_operands_of_words {v offset size : Word} (hs : c.s = v :: offset :: size :: st)
    (hr : offset.toNat + size.toNat ≤ MAX_MEM_SIZE.toNat) :
    ∃ code mem, create_operands c = .ok (v, code) { c with s := st, mem } := by
  have hmax : MAX_MEM_SIZE.toNat = 33554432 := rfl
  have ho : offset.toNat < 2 ^ 64 := by omega
  have hz : size.toNat < 2 ^ 64 := by omega
  have h2 : ({ c with s := offset :: size :: st } : Context R).s = offset :: size :: st := rfl
  have h3 : ({ c with s := size :: st } : Context R).s = size :: st := rfl
  have hr' : offset.toUInt64.toNat + size.toUInt64.toNat ≤ MAX_MEM_SIZE.toNat := by
    rwa [toNat_toUInt64 ho, toNat_toUInt64 hz]
  rw [create_operands, create_operands_by, bind_of_ok (s_pop_of_cons hs), bind_of_ok (s_pop64_of_lt h2 ho), bind_of_ok (s_pop64_of_lt h3 hz),
    bind_of_ok (copy_from_mem_of_le hr' _)]
  exact ⟨_, _, rfl⟩

end

/-! ## The calls -/

/-- The words `CALL` and `CALLCODE` take from the stack; `DELEGATECALL` takes all but the value. -/
structure CallWords where
  gas : Word
  addr : Word
  value : Word
  offIn : Word
  sizeIn : Word
  offOut : Word
  sizeOut : Word

namespace CallWords

def stack (op : Opcode) (w : CallWords) (st : Stack) : Stack :=
  w.gas :: w.addr :: ((if op = .DELEGATECALL then [] else [w.value]) ++ w.offIn :: w.sizeIn :: w.offOut :: w.sizeOut :: st)

/-- The low 160 bits of the address. -/
def callee (w : CallWords) : Address := w.addr &&& (((1 : Word) <<< 160) - 1)

/-- What `op` pays. -/
def paid (op : Opcode) (w : CallWords) : Word := if op = .DELEGATECALL then 0 else w.value

/-- The memory ranges are within the limit. -/
structure InRange (w : CallWords) : Prop where
  input : w.offIn.toNat + w.sizeIn.toNat ≤ MAX_MEM_SIZE.toNat
  output : w.offOut.toNat + w.sizeOut.toNat ≤ MAX_MEM_SIZE.toNat

def operands (op : Opcode) (w : CallWords) : CallOperands where
  addr := w.callee
  value := (w.paid op).toUInt64
  offIn := w.offIn.toUInt64
  sizeIn := w.sizeIn.toUInt64
  offOut := w.offOut.toUInt64
  sizeOut := w.sizeOut.toUInt64

variable {R : Type} {c : Context R} {st : Stack} {op : Opcode} {w : CallWords}

theorem pop_addr_of_cons (hs : c.s = w.addr :: st) : pop_addr c = .ok w.callee { c with s := st } := by
  rw [pop_addr, bind_of_ok (s_pop_of_cons hs)]
  rfl

theorem InRange.lt (h : w.InRange) :
    w.offIn.toNat < 2 ^ 64 ∧ w.sizeIn.toNat < 2 ^ 64 ∧ w.offOut.toNat < 2 ^ 64 ∧ w.sizeOut.toNat < 2 ^ 64 := by
  have hmax : MAX_MEM_SIZE.toNat = 33554432 := rfl
  have h1 := h.input
  have h2 := h.output
  omega

theorem call_operands (hs : c.s = w.stack op st) (hv : (w.paid op).toNat < 2 ^ 64) (hr : w.InRange) :
    EEVM.call_operands op c = .ok (w.operands op) { c with s := st } := by
  obtain ⟨h1, h2, h3, h4⟩ := hr.lt
  have hcons : ∀ s : Stack, ({ c with s } : Context R).s = s := fun _ => rfl
  have hvalue : call_value_operand op ({ c with
      s := (if op = .DELEGATECALL then [] else [w.value]) ++ w.offIn :: w.sizeIn :: w.offOut :: w.sizeOut :: st } : Context R) =
      .ok (w.paid op).toUInt64 { c with s := w.offIn :: w.sizeIn :: w.offOut :: w.sizeOut :: st } := by
    unfold call_value_operand paid at *
    by_cases hop : op = .DELEGATECALL
    · simp only [if_pos hop]
      rfl
    · simp only [if_neg hop] at hv ⊢
      exact s_pop64_of_lt rfl hv
  rw [EEVM.call_operands, bind_of_ok (s_pop_of_cons hs), bind_of_ok (pop_addr_of_cons (hcons _)), bind_of_ok hvalue,
    bind_of_ok (s_pop64_of_lt (hcons _) h1), bind_of_ok (s_pop64_of_lt (hcons _) h2),
    bind_of_ok (s_pop64_of_lt (hcons _) h3), bind_of_ok (s_pop64_of_lt (hcons _) h4)]
  rfl

/-- A value that does not fit into 64 bits cannot be popped. -/
theorem call_operands_of_le (hs : c.s = w.stack op st) (hop : op ≠ .DELEGATECALL) (hv : 2 ^ 64 ≤ w.value.toNat) :
    ∃ ex c', EEVM.call_operands op c = .error (.exception ex) c' := by
  have hcons : ∀ s : Stack, ({ c with s } : Context R).s = s := fun _ => rfl
  simp only [stack, if_neg hop, List.singleton_append] at hs
  obtain ⟨ex, c', hx⟩ := s_pop64_of_le (hcons (w.value :: w.offIn :: w.sizeIn :: w.offOut :: w.sizeOut :: st)) hv
  have hvalue : call_value_operand op ({ c with
      s := w.value :: w.offIn :: w.sizeIn :: w.offOut :: w.sizeOut :: st } : Context R) = .error (.exception ex) c' := by
    rw [call_value_operand, if_neg hop]
    exact hx
  rw [EEVM.call_operands, bind_of_ok (s_pop_of_cons hs), bind_of_ok (pop_addr_of_cons (hcons _)), bind_of_error hvalue]
  exact ⟨ex, c', rfl⟩

end CallWords

theorem ofUInt64_toUInt64 {v : Word} (h : v.toNat < 2 ^ 64) : Word.ofUInt64 v.toUInt64 = v := by
  rw [Word.ofUInt64, toNat_toUInt64 h]
  exact BitVec.ofNat_toNat _ v |>.trans (BitVec.setWidth_eq v)

namespace Processor

variable {W R : Type} [GlobalState W R] {p : Processor W R} {c : Context R} {cs : List (Context R)} {st : Stack}
  {op : Opcode} {w : CallWords}

omit [GlobalState W R] in
theorem push_context_of_lt {f : Context R} (h : p.get_call_depth < MAX_CALL_DEPTH) :
    push_context f p = .ok () { p with ctxts := f :: p.ctxts } := by
  rw [push_context, bind_of_ok (run_get p), if_neg (Nat.not_le.2 h)]
  rfl

omit [GlobalState W R] in
theorem get_call_depth_of_cons {q : Processor W R} {c' : Context R} (hp : p.ctxts = c :: cs) (hq : q.ctxts = c' :: cs) :
    q.get_call_depth = p.get_call_depth := by
  rw [get_call_depth, get_call_depth, hp, hq]
  rfl

/-- With its operands in order and its payment made, `CREATE` opens the context of the init code. -/
theorem create_paid [Keccak] {v offset size : Word} (hp : p.ctxts = c :: cs) (hs : c.s = v :: offset :: size :: st)
    (hr : offset.toNat + size.toNat ≤ MAX_MEM_SIZE.toNat)
    (hpay : CanPay c.as (created p.gs c v).1 v (created p.gs c v).2) :
    ∃ mem f, create p = push_context f { p with
      gs := transfer c.as (created p.gs c v).1 v (created p.gs c v).2, ctxts := { c with s := st, mem } :: cs } ∧
      f.call_value = 0 := by
  obtain ⟨code, mem, hops⟩ := create_operands_of_words hs hr
  have hrun : onCtxt create_operands p = .ok (v, code) { p with ctxts := { c with s := st, mem } :: cs } := by
    rw [onCtxt_cons hp, hops]
  have hctxt : ctxt ({ p with ctxts := { c with s := st, mem } :: cs } : Processor W R) =
      .ok { c with s := st, mem } { p with ctxts := { c with s := st, mem } :: cs } := rfl
  have hgs : gs_create (generate_address (get_address c.as p.gs) (get_nonce c.as p.gs)) v []
      ({ p with ctxts := { c with s := st, mem } :: cs } : Processor W R) =
      .ok (created p.gs c v).1 { p with gs := (created p.gs c v).2, ctxts := { c with s := st, mem } :: cs } := rfl
  have hpaid : pay_to c.as (created p.gs c v).1 v
      ({ p with gs := (created p.gs c v).2, ctxts := { c with s := st, mem } :: cs } : Processor W R) =
      .ok () { p with
        gs := transfer c.as (created p.gs c v).1 v (created p.gs c v).2, ctxts := { c with s := st, mem } :: cs } :=
    pay_to_ok hpay
  rw [create, create_by, bind_of_ok hrun]
  simp only [bind_of_ok hctxt, bind_of_ok (run_get _)]
  rw [bind_of_ok hgs, bind_of_ok hpaid, bind_of_ok (run_get _)]
  exact ⟨mem, _, rfl, rfl⟩

/-- `op` is a call whose operands are in order: it gets as far as its payment. -/
structure CallReady (op : Opcode) (c : Context R) (w : CallWords) (st : Stack) : Prop where
  is_call : op = .CALL ∨ op = .CALLCODE ∨ op = .DELEGATECALL
  stack : c.s = w.stack op st
  value : (w.paid op).toNat < 2 ^ 64
  range : w.InRange
  callee : ¬Precompiled w.callee

/-- The callee, and the world when it has been looked up. -/
def looked_up (gs : W) (w : CallWords) : R × W := GlobalState.get w.callee gs

/-- The world when the call has been paid for. -/
def paid_world (op : Opcode) (gs : W) (c : Context R) (w : CallWords) : W :=
  transfer c.as (looked_up gs w).1 (w.paid op) (looked_up gs w).2

/-- How a call comes out whose operands are in order. -/
inductive ReadyCase (op : Opcode) (p : Processor W R) (c : Context R) (cs : List (Context R)) (w : CallWords) (st : Stack) :
    EStateM.Result Thrown (Processor W R) Unit → Prop
  | unpaid {ex} (hpay : ¬CanPay c.as (looked_up p.gs w).1 (w.paid op) (looked_up p.gs w).2) :
    ReadyCase op p c cs w st
      (.error (.exception ex) { p with gs := (looked_up p.gs w).2, ctxts := { c with s := st } :: cs })
  | no_code (hpay : CanPay c.as (looked_up p.gs w).1 (w.paid op) (looked_up p.gs w).2)
      (hcode : has_code (looked_up p.gs w).1 (paid_world op p.gs c w) = false) :
    ReadyCase op p c cs w st
      (onCtxt (s_push 1) { p with gs := paid_world op p.gs c w, ctxts := { c with s := st } :: cs })
  | has_code {mem f} (hpay : CanPay c.as (looked_up p.gs w).1 (w.paid op) (looked_up p.gs w).2)
      (hcode : has_code (looked_up p.gs w).1 (paid_world op p.gs c w) = true)
      (hf : op = .CALL → f.call_value = w.paid op) :
    ReadyCase op p c cs w st
      (push_context f { p with gs := paid_world op p.gs c w, ctxts := { c with s := st, mem } :: cs })

theorem CallReady.cases (h : CallReady op c w st) (hp : p.ctxts = c :: cs) : ReadyCase op p c cs w st (call op p) := by
  have hops : onCtxt (call_operands op) p = .ok (w.operands op) { p with ctxts := { c with s := st } :: cs } := by
    rw [onCtxt_cons hp, w.call_operands h.stack h.value h.range]
  have hpre : ¬((w.operands op).addr ≥ 1 ∧ (w.operands op).addr ≤ 8) := h.callee
  have hgs : gs_get (w.operands op).addr ({ p with ctxts := { c with s := st } :: cs } : Processor W R) =
      .ok (looked_up p.gs w).1 { p with gs := (looked_up p.gs w).2, ctxts := { c with s := st } :: cs } := rfl
  have hctxt : ctxt ({ p with gs := (looked_up p.gs w).2, ctxts := { c with s := st } :: cs } : Processor W R) =
      .ok { c with s := st } { p with gs := (looked_up p.gs w).2, ctxts := { c with s := st } :: cs } := rfl
  have hvalue : Word.ofUInt64 (w.operands op).value = w.paid op := ofUInt64_toUInt64 h.value
  rw [call, call_by, bind_of_ok hops]
  simp only [if_neg hpre]
  rw [bind_of_ok hgs, bind_of_ok hctxt, hvalue]
  by_cases hpay : CanPay c.as (looked_up p.gs w).1 (w.paid op) (looked_up p.gs w).2
  case neg =>
    obtain ⟨ex, hx⟩ := pay_to_error (p := { p with gs := (looked_up p.gs w).2, ctxts := { c with s := st } :: cs }) hpay
    rw [bind_of_error hx]
    exact .unpaid hpay
  have hpaid : pay_to c.as (looked_up p.gs w).1 (w.paid op)
      ({ p with gs := (looked_up p.gs w).2, ctxts := { c with s := st } :: cs } : Processor W R) =
      .ok () { p with gs := paid_world op p.gs c w, ctxts := { c with s := st } :: cs } := pay_to_ok hpay
  rw [bind_of_ok hpaid, bind_of_ok (run_get _)]
  cases hcode : has_code (looked_up p.gs w).1 (paid_world op p.gs c w) with
  | false => exact .no_code hpay hcode
  | true =>
    obtain ⟨h1, h2, h3, h4⟩ := h.range.lt
    -- room for the output, then the input
    have hout : onCtxt (prepare_mem_access (w.operands op).offOut (w.operands op).sizeOut)
        ({ p with gs := paid_world op p.gs c w, ctxts := { c with s := st } :: cs } : Processor W R) =
        .ok () { p with
          gs := paid_world op p.gs c w
          ctxts := { c with s := st, mem := grow c.mem (w.offOut.toNat + w.sizeOut.toNat) } :: cs } := by
      rw [onCtxt_cons rfl, prepare_mem_access_of_le]
      · simp only [CallWords.operands, toNat_toUInt64 h3, toNat_toUInt64 h4]
      · simpa only [CallWords.operands, toNat_toUInt64 h3, toNat_toUInt64 h4] using h.range.output
    have hin : ∀ mem, ∃ input mem', onCtxt (copy_from_mem (w.operands op).offIn (w.operands op).sizeIn)
        ({ p with gs := paid_world op p.gs c w, ctxts := { c with s := st, mem } :: cs } : Processor W R) =
        .ok input { p with gs := paid_world op p.gs c w, ctxts := { c with s := st, mem := mem' } :: cs } := by
      intro mem
      rw [onCtxt_cons rfl, copy_from_mem_of_le]
      · exact ⟨_, _, rfl⟩
      · simpa only [CallWords.operands, toNat_toUInt64 h1, toNat_toUInt64 h2] using h.range.input
    obtain ⟨input, mem', hin⟩ := hin (grow c.mem (w.offOut.toNat + w.sizeOut.toNat))
    rw [if_neg (by simp), bind_of_ok hout, bind_of_ok hin]
    rcases h.is_call with rfl | rfl | rfl
    · exact .has_code hpay hcode fun _ => rfl
    · refine .has_code hpay hcode ?_
      rintro ⟨⟩
    · refine .has_code hpay hcode ?_
      rintro ⟨⟩

end Processor

end EEVM

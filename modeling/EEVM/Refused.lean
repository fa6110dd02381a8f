import EEVM.Exceptional
import EEVM.Values
/-!
# Instructions that fail (processor.cpp:206-262, 344-367, 1196-1342, account.h:32-59)

An exception ends the context on top, whatever has thrown it: while a call is being set up that is still the caller. And an
instruction that throws may have written to the world before: a payment is made before the memory is prepared and the
context is opened, the code of a new account is set before its address is pushed.
-/
namespace EEVM

open Std ExcState

namespace Processor

open SimpleGlobalState

variable {p p' p1 : Processor SimpleGlobalState Address} {c c1 : Context Address} {cs : List (Context Address)} {st : Stack}
  {op : Opcode} {w : CallWords} {ex : Exception}

/-! ## Calls that cannot be made -/

section

variable [Keccak]

/-- The loop goes on in the caller, at its next instruction, with a 0 as the call's result; no balance has changed. -/
structure GoesOn (p : Processor SimpleGlobalState Address) (c : Context Address) (cs : List (Context Address)) (st : Stack)
    (p' : Processor SimpleGlobalState Address) : Prop where
  next : iterate p = .next p'
  caller : ∃ c', p'.ctxts = c' :: cs ∧ c'.pc = c.pc + 1 ∧ c'.s = 0 :: st
  balances : ∀ a, get_balance a p'.gs = get_balance a p.gs

/-- After an exception the context that has thrown it is gone. -/
theorem length_next_of_throws (hd : dispatch p = .error (.exception ex) p1) (h1 : p1.ctxts = c1 :: cs)
    (hn : iterate p = .next p') : p'.ctxts.length ≤ cs.length := by
  obtain ⟨c, ds, hp, hv, -⟩ := next_cases hn
  rw [iterate_valid hp hv, hd] at hn
  obtain ⟨k, p2, hk, hdropped, hs⟩ := (Ending.fails ex).turn.1 p' hn
  obtain ⟨x, xs, h2, rfl⟩ := step_or_break_next hs
  have hlen := hdropped.ctxts.length_eq
  simp only [h1, h2, List.length_drop, List.length_cons] at hlen ⊢
  omega

/-- **Refused calls.** A call whose operands are in order never goes on with a 0 because of its value or the depth. -/
theorem refused_call (hp : p.ctxts = c :: cs) (hop : c.next_op = some op) (h : CallReady op c w st)
    (hno : get_balance c.as p.gs < w.paid op ∨ p.ctxts.length = MAX_CALL_DEPTH) : ¬∃ p', GoesOn p c cs st p' := by
  rintro ⟨p', hgo⟩
  obtain ⟨c', hp', -, hstack⟩ := hgo.caller
  have hthrows : ∀ {ex p1 c1}, dispatch p = .error (.exception ex) p1 → p1.ctxts = c1 :: cs → False := by
    intro ex p1 c1 hd h1
    have hlen := length_next_of_throws hd h1 hgo.next
    rw [hp'] at hlen
    simp at hlen
  have hd : dispatch p = call op (traced p c) := by
    rw [dispatch_eq hp, hop]
    rcases h.is_call with rfl | rfl | rfl <;> rfl
  have hcase := h.cases (p := traced p c) hp
  rw [← hd] at hcase
  generalize hr : dispatch p = r at hcase
  cases hcase with
  | unpaid => exact hthrows hr rfl
  | no_code =>
    by_cases hfull : st.length = Stack.MAX_SIZE
    · obtain ⟨ex, hx⟩ := s_push_full (d := { c with s := st }) hfull 1
      rw [onCtxt_cons rfl, hx] at hr
      exact hthrows hr rfl
    · -- the callee is paid, and the result is a 1
      rw [onCtxt_cons rfl, s_push_of_not_full (d := { c with s := st }) hfull] at hr
      obtain ⟨c2, cs2, hp2, hv, -⟩ := next_cases hgo.next
      have hn := hgo.next
      rw [iterate_valid hp2 hv, hr] at hn
      cases hn
      obtain ⟨rfl, -⟩ := List.cons.inj hp'
      unfold Context.step at hstack
      split at hstack <;> simp at hstack
  | has_code hpay =>
    rcases hno with hno | hdepth
    · have hbal := hpay.1
      rw [looked_up, balance_get] at hbal
      exact absurd hbal (BitVec.not_le.2 hno)
    · obtain ⟨ex, hx⟩ := push_context_full (p := { traced p c with
        gs := paid_world op (traced p c).gs c w, ctxts := { c with s := st, mem := _ } :: cs })
        (by rw [hp] at hdepth; exact hdepth) _
      exact hthrows (hr.trans hx) rfl

end

/-- Account 100, which has nothing, calls account 9 with a value of 1. -/
def refused_start : Processor SimpleGlobalState Address :=
  start (.of_accounts [{ address := 100, code := [0x60, 0, 0x60, 0, 0x60, 0, 0x60, 0, 0x60, 1, 0x60, 9, 0x60, 0, 0xf1] }])
    { origin := 1 } none 1 100 [] 0

theorem refused_call_of_nothing : ∃ p c, @Loop.Reaches _ _ (@iterate _ _ _ no_hash) refused_start p ∧ p.ctxts = [c] ∧
    ¬∃ p', @GoesOn no_hash p c [] [] p' := by
  have hr : @Loop.Reaches _ _ (@iterate _ _ _ no_hash) refused_start _ :=
    .of_steps (show @Loop.steps _ _ (@iterate _ _ _ no_hash) 7 refused_start = some _ from rfl)
  have key := fun p c (_ : @Loop.Reaches _ _ (@iterate _ _ _ no_hash) refused_start p) hp hop h hno =>
    @refused_call p c [] [] .CALL ⟨0, 9, 1, 0, 0, 0, 0⟩ no_hash hp hop h hno
  exact ⟨_, _, hr, rfl, key _ _ hr rfl rfl
    ⟨.inl rfl, rfl, by decide, ⟨by decide, by decide⟩, by unfold Precompiled; decide⟩ (.inl (by decide))⟩

/-- The run is over instead. -/
theorem refused_call_ends_run : ∃ p c, @Loop.Reaches _ _ (@iterate _ _ _ no_hash) refused_start p ∧ p.ctxts = [c] ∧
    c.next_op = some .CALL ∧ CallReady .CALL c ⟨0, 9, 1, 0, 0, 0, 0⟩ [] ∧ get_balance c.as p.gs < 1 ∧
    ¬∃ p', @GoesOn no_hash p c [] [] p' := by
  have hr : @Loop.Reaches _ _ (@iterate _ _ _ no_hash) refused_start _ :=
    .of_steps (show @Loop.steps _ _ (@iterate _ _ _ no_hash) 7 refused_start = some _ from rfl)
  refine ⟨_, _, hr, rfl, rfl, ⟨.inl rfl, rfl, by decide, ⟨by decide, by decide⟩, by unfold Precompiled; decide⟩,
    by decide, ?_⟩
  rintro ⟨p', hgo⟩
  have hn := @GoesOn.next no_hash _ _ _ _ _ hgo
  cases hn

/-! ## Failed instructions -/

/-- The account has something other than zeros. -/
def Occupied (gs : SimpleGlobalState) (a : Address) : Prop :=
  get_balance a gs ≠ 0 ∨ get_code a gs ≠ [] ∨ get_nonce a gs ≠ 0 ∨ ∃ k, GlobalState.load a k gs ≠ 0

/-- World and transaction are the same, where an account that is not there counts as zero-initialised. -/
structure NoSideEffect (p p' : Processor SimpleGlobalState Address) : Prop where
  accounts : SameAccounts p.gs p'.gs
  occupied : ∀ a, Occupied p'.gs a ↔ Occupied p.gs a
  selfdestruct_list : p'.tx.selfdestruct_list = p.tx.selfdestruct_list
  logs : p'.tx.logs = p.tx.logs

theorem entry_congr {gs gs' : SimpleGlobalState} {a : Address} {β : Type} (f : StateEntry → β)
    (hf : ∀ x : StateEntry, f ({ x.1 with address := 0 }, x.2) = f x) (h : look a gs' = look a gs) :
    f (gs'.entry a) = f (gs.entry a) := by
  have key : ∀ g : SimpleGlobalState, f (g.entry a) = f (look a g) := by
    intro g
    rw [entry_eq, look]
    cases g.accounts[a]? with
    | none => exact hf ({ address := a }, ∅)
    | some e => rfl
  rw [key, key, h]

theorem SameAccounts.balance {gs gs' : SimpleGlobalState} (h : SameAccounts gs gs') (a : Address) :
    get_balance a gs' = get_balance a gs := entry_congr (fun e => e.1.balance) (fun _ => rfl) (h a)

theorem SameAccounts.code {gs gs' : SimpleGlobalState} (h : SameAccounts gs gs') (a : Address) :
    get_code a gs' = get_code a gs := entry_congr (fun e => e.1.code) (fun _ => rfl) (h a)

theorem SameAccounts.occupied {gs gs' : SimpleGlobalState} (h : SameAccounts gs gs') (a : Address) :
    Occupied gs' a ↔ Occupied gs a := by
  have hnonce : get_nonce a gs' = get_nonce a gs := entry_congr (fun e => e.1.nonce) (fun _ => rfl) (h a)
  have hload : ∀ k, GlobalState.load a k gs' = GlobalState.load a k gs :=
    fun k => entry_congr (fun e => e.2.load k) (fun _ => rfl) (h a)
  simp only [Occupied, h.balance, h.code, hnonce, hload]

theorem NoSideEffect.of_sameAccounts (h : SameAccounts p.gs p'.gs) (htx : p'.tx = p.tx) : NoSideEffect p p' :=
  ⟨h, h.occupied, by rw [htx], by rw [htx]⟩

theorem NoSideEffect.of_sameEffects (h : SameEffects p p') : NoSideEffect p p' :=
  .of_sameAccounts (sameAccounts_of_touched h.1) h.2

theorem NoSideEffect.of_sameWorld (h : SameWorld p p') : NoSideEffect p p' := .of_sameEffects h.sameEffects

/-! ### Storage and log -/

theorem sstore_throws {e} (h : sstore p = .error e p') : SameWorld p p' := by
  have hsstore : KeepsOnThrow SameWorld (sstore (W := SimpleGlobalState) (R := Address)) :=
    .bind (onCtxtAt_keepsWorld 0 s_pop) fun k => .bind (onCtxtAt_keepsWorld 0 s_pop) fun v =>
      .bind (onCtxtAt_keepsWorld 0 get) fun c => .ite .modify .modify
  exact hsstore p e p' h

theorem log_throws {n : Nat} {e} (h : log n p = .error e p') : SameWorld p p' := by
  have hlog : KeepsOnThrow SameWorld (log (W := SimpleGlobalState) (R := Address) n) :=
    .bind (onCtxtAt_keepsWorld 0 s_pop64) fun offset => .bind (onCtxtAt_keepsWorld 0 s_pop64) fun size =>
      .bind (pop_topics_keepsWorld n) fun topics => .bind (onCtxtAt_keepsWorld 0 get) fun c =>
        .bind (Keeps.get (E := fun _ _ => True)) fun q => .bind (onCtxtAt_keepsWorld 0 (copy_from_mem offset size)) fun data => .modify
  exact hlog p e p' h

/-! ### What is written before the last check -/

section

variable [Keccak]

/-- The instruction of `c` writes to the world or to the transaction before it has made all its checks: it endows a new
account or pays one, it notes the account for removal, or it gives a new account other code. -/
inductive Writes (gs : SimpleGlobalState) (c : Context Address) : Prop
  | endows {v code d} (hop : c.next_op = some .CREATE) (hops : create_operands c = .ok (v, code) d) (hv : v ≠ 0)
    (hpay : new_address gs c ∈ gs.accounts → CanPay c.as (new_address gs c) v gs)
  | pays {op args d} (hop : c.next_op = some op) (hcall : op = .CALL ∨ op = .CALLCODE ∨ op = .DELEGATECALL)
    (hops : call_operands op c = .ok args d) (hpre : ¬Precompiled args.addr) (hv : Word.ofUInt64 args.value ≠ 0)
    (hpay : CanPay c.as args.addr (Word.ofUInt64 args.value) gs)
  | destructs {addr d} (hop : c.next_op = some .SELFDESTRUCT) (hops : pop_addr c = .ok addr d)
    (hpay : CanPay c.as addr (get_balance c.as gs) gs)
  | gives_code {newAcc output d} (hop : c.next_op = some .RETURN) (h : c.handlers = .create newAcc)
    (hops : return_operands c = .ok output d) (hmem : newAcc ∈ gs.accounts) (hcode : output ≠ get_code newAcc gs)

namespace Writes

variable {gs : SimpleGlobalState}

theorem create_iff (hop : c.next_op = some .CREATE) : Writes gs c ↔ ∃ v code d, create_operands c = .ok (v, code) d ∧ v ≠ 0 ∧
    (new_address gs c ∈ gs.accounts → CanPay c.as (new_address gs c) v gs) := by
  constructor
  · rintro (⟨-, hops, hv, hpay⟩ | ⟨hop', hcall⟩ | ⟨hop'⟩ | ⟨hop'⟩)
    · exact ⟨_, _, _, hops, hv, hpay⟩
    · rw [hop] at hop'
      cases hop'
      simp at hcall
    all_goals simp [hop] at hop'
  · rintro ⟨v, code, d, hops, hv, hpay⟩
    exact .endows hop hops hv hpay

theorem call_iff (hop : c.next_op = some op) (hcall : op = .CALL ∨ op = .CALLCODE ∨ op = .DELEGATECALL) :
    Writes gs c ↔ ∃ args d, call_operands op c = .ok args d ∧ ¬Precompiled args.addr ∧ Word.ofUInt64 args.value ≠ 0 ∧
      CanPay c.as args.addr (Word.ofUInt64 args.value) gs := by
  constructor
  · intro h
    rcases h with ⟨hop'⟩ | ⟨hop', -, hops, hpre, hv, hpay⟩ | ⟨hop'⟩ | ⟨hop'⟩
    case pays =>
      rw [hop] at hop'
      cases hop'
      exact ⟨_, _, hops, hpre, hv, hpay⟩
    all_goals
      rw [hop] at hop'
      cases hop'
      simp at hcall
  · rintro ⟨args, d, hops, hpre, hv, hpay⟩
    exact .pays hop hcall hops hpre hv hpay

theorem selfdestruct_iff (hop : c.next_op = some .SELFDESTRUCT) : Writes gs c ↔ ∃ addr d, pop_addr c = .ok addr d ∧
    CanPay c.as addr (get_balance c.as gs) gs := by
  constructor
  · intro h
    rcases h with ⟨hop'⟩ | ⟨hop', hcall⟩ | ⟨-, hops, hpay⟩ | ⟨hop'⟩
    case pays =>
      rw [hop] at hop'
      cases hop'
      simp at hcall
    case destructs => exact ⟨_, _, hops, hpay⟩
    all_goals simp [hop] at hop'
  · rintro ⟨addr, d, hops, hpay⟩
    exact .destructs hop hops hpay

theorem return_iff (hop : c.next_op = some .RETURN) : Writes gs c ↔ ∃ newAcc output d, c.handlers = .create newAcc ∧
    return_operands c = .ok output d ∧ newAcc ∈ gs.accounts ∧ output ≠ get_code newAcc gs := by
  constructor
  · intro h
    rcases h with ⟨hop'⟩ | ⟨hop', hcall⟩ | ⟨hop'⟩ | ⟨-, hc, hops, hmem, hcode⟩
    case pays =>
      rw [hop] at hop'
      cases hop'
      simp at hcall
    case gives_code => exact ⟨_, _, _, hc, hops, hmem, hcode⟩
    all_goals simp [hop] at hop'
  · rintro ⟨newAcc, output, d, hc, hops, hmem, hcode⟩
    exact .gives_code hop hc hops hmem hcode

/-- The instructions that may write before their last check. -/
theorem next_op (h : Writes gs c) : ∃ op, c.next_op = some op ∧ (op.is_call ∨ op = .SELFDESTRUCT ∨ op = .RETURN) := by
  rcases h with ⟨hop⟩ | ⟨hop, hcall⟩ | ⟨hop⟩ | ⟨hop⟩
  · exact ⟨_, hop, .inl rfl⟩
  · exact ⟨_, hop, .inl (Opcode.is_call_iff.2 (.inr hcall))⟩
  · exact ⟨_, hop, .inr (.inl rfl)⟩
  · exact ⟨_, hop, .inr (.inr rfl)⟩

end Writes

omit [Keccak] in
theorem canPay_congr {gs gs' : SimpleGlobalState} {a b : Address} {v : Word} (h : gs'.ledger = gs.ledger) :
    CanPay a b v gs' ↔ CanPay a b v gs := by
  rw [canPay_iff, canPay_iff, h]

theorem look_created_of_mem {gs : SimpleGlobalState} {v : Word} (h : new_address gs c ∈ gs.accounts) :
    SameAccounts gs (created gs c v).2 := by
  intro a
  have hacc := getElem?_insert ({ address := new_address gs c, balance := v }, ∅) a gs
  have hno : ¬(new_address gs c = a ∧ a ∉ gs.accounts) := fun ha => ha.2 (ha.1 ▸ h)
  rw [if_neg hno] at hacc
  exact congrArg (fun e : Option StateEntry => e.getD ({ address := a }, ∅)) hacc

omit [Keccak] in
theorem SameAccounts.ledger {gs gs' : SimpleGlobalState} (h : SameAccounts gs gs') : gs'.ledger = gs.ledger :=
  funext fun a => congrArg BitVec.toNat (h.balance a)

theorem create_writes {r} {v : Word} {code d} (h : CreateCase p c cs r) (hops : create_operands c = .ok (v, code) d)
    (hv : v ≠ 0) (hpay : new_address p.gs c ∈ p.gs.accounts → CanPay c.as (new_address p.gs c) v p.gs) :
    ∃ a, get_balance a (final r).gs ≠ get_balance a p.gs := by
  have hpos : v.toNat ≠ 0 := fun h0 => hv (BitVec.eq_of_toNat_eq (by simpa using h0))
  by_cases hnew : new_address p.gs c ∈ p.gs.accounts
  · -- there is nothing to create, and the payment is made
    have hsame := look_created_of_mem (v := v) hnew
    have hpay' : CanPay c.as (created p.gs c v).1 v (created p.gs c v).2 := (canPay_congr hsame.ledger).2 (hpay hnew)
    cases h with
    | refused _ hno => exact absurd hops (hno _ _)
    | unpaid hops' hno =>
      rw [hops] at hops'
      cases hops'
      exact absurd hpay' hno
    | paid hops' _ h =>
      rw [hops] at hops'
      cases hops'
      have hmem : (created p.gs c v).1 ∈ (created p.gs c v).2.accounts := (mem_create _ v [] p.gs).2
      by_contra hall
      push Not at hall
      rw [h.sameList.1] at hall
      exact hv ((balance_transfer_eq_iff hmem hpay').1 fun a => (hall a).trans (hsame.balance a).symm)
  · refine ⟨new_address p.gs c, ?_⟩
    rw [balance_of_not_mem hnew]
    have hl := congrFun (ledger_created hnew v) (new_address p.gs c)
    rw [Function.update_self] at hl
    intro h0
    have h0' : (final r).gs.ledger (new_address p.gs c) = 0 := congrArg BitVec.toNat h0
    cases h with
    | refused _ hno => exact absurd hops (hno _ _)
    | unpaid hops' =>
      rw [hops] at hops'
      cases hops'
      exact hpos (hl.symm.trans h0')
    | paid hops' hpay' h =>
      rw [hops] at hops'
      cases hops'
      have hmem := mem_create (new_address p.gs c) v [] p.gs
      rw [h.sameList.1] at h0'
      have ht := congrFun (ledger_transfer (mem_of_canPay hpay' hv) hmem.2 hpay') (new_address p.gs c)
      have hlast : _ = _ + v.toNat := ht.trans (Function.update_self _ _ _)
      have : _ + v.toNat = 0 := hlast.symm.trans h0'
      omega

theorem create_failed_iff (h : CreateCase p c cs (.error (.exception ex) p1)) (hop : c.next_op = some .CREATE) :
    NoSideEffect p p1 ↔ ¬Writes p.gs c := by
  rw [Writes.create_iff hop]
  constructor
  · rintro hsame ⟨v, code, d, hops, hv, hpay⟩
    obtain ⟨a, ha⟩ := create_writes h hops hv hpay
    exact ha (hsame.accounts.balance a)
  · intro hno
    have hwrites : ∀ {v code d}, create_operands c = .ok (v, code) d →
        v = 0 ∨ new_address p.gs c ∈ p.gs.accounts ∧ ¬CanPay c.as (new_address p.gs c) v p.gs := by
      intro v code d hops
      by_contra hw
      push Not at hw
      exact hno ⟨v, code, d, hops, hw.1, hw.2⟩
    cases h with
    | refused => exact .of_sameWorld ⟨rfl, rfl⟩
    | unpaid hops =>
      rcases hwrites hops with rfl | ⟨hmem, -⟩
      · exact .of_sameEffects ⟨.single (.create _ _), rfl⟩
      · exact .of_sameAccounts (look_created_of_mem hmem) rfl
    | @paid v _ _ _ hops hpay h =>
      rcases hwrites hops with rfl | ⟨hmem, hno⟩
      · have hpaid : SameEffects p { p with gs := transfer c.as (created p.gs c 0).1 0 (created p.gs c 0).2 } :=
          ⟨.tail (.single (.create _ _)) (.pay _ _ _), rfl⟩
        exact .of_sameEffects (hpaid.trans h.sameEffects)
      · have hpay' : CanPay c.as (created p.gs c v).1 v (created p.gs c v).2 := hpay
        exact absurd ((canPay_congr (look_created_of_mem hmem).ledger).1 hpay') hno

theorem call_failed_iff (h : CallCase op p c cs (.error (.exception ex) p1)) (hop : c.next_op = some op)
    (hcall : op = .CALL ∨ op = .CALLCODE ∨ op = .DELEGATECALL) : NoSideEffect p p1 ↔ ¬Writes p.gs c := by
  have hpays : ∀ args : CallOperands, CanPay c.as (found p.gs args).1 (Word.ofUInt64 args.value) (found p.gs args).2 ↔
      CanPay c.as args.addr (Word.ofUInt64 args.value) p.gs := by
    intro args
    rw [found, canPay_congr (ledger_get args.addr p.gs), (mem_get args.addr p.gs).1]
  rw [Writes.call_iff hop hcall]
  cases h with
  | refused _ hops =>
    refine iff_of_true (.of_sameWorld ⟨rfl, rfl⟩) ?_
    rintro ⟨args, d, hops', hpre, -⟩
    exact hpre (hops args d hops')
  | @unpaid args _ _ hops _ hno =>
    refine iff_of_true (.of_sameEffects ⟨.single (.get _ _), rfl⟩) ?_
    rintro ⟨args', d, hops', -, -, hpay⟩
    rw [hops] at hops'
    cases hops'
    exact hno ((hpays args).2 hpay)
  | @paid args _ _ hops hpre hpay h =>
    have hmem : (found p.gs args).1 ∈ (found p.gs args).2.accounts := by
      obtain ⟨hcallee, hmem⟩ := mem_get args.addr p.gs
      rw [found, hcallee]
      exact hmem
    have hzero := balance_transfer_eq_iff hmem hpay
    constructor
    · rintro hsame ⟨args', d, hops', -, hv, -⟩
      rw [hops] at hops'
      cases hops'
      refine hv (hzero.1 fun a => ?_)
      have hb := hsame.accounts.balance a
      rw [show p1.gs = _ from h.sameList.1] at hb
      rw [hb, found, balance_get]
    · intro hno
      have hv : Word.ofUInt64 args.value = 0 := by
        by_contra hv
        exact hno ⟨args, _, hops, hpre, hv, (hpays args).1 hpay⟩
      have hpaid : SameEffects p { p with
          gs := transfer c.as (found p.gs args).1 (Word.ofUInt64 args.value) (found p.gs args).2 } := by
        rw [hv]
        exact ⟨.tail (.single (.get _ _)) (.pay _ _ _), rfl⟩
      exact .of_sameEffects (hpaid.trans h.sameEffects)

omit [Keccak] in
theorem selfdestruct_list_ne {q : Processor SimpleGlobalState Address} {l : List Address} {a : Address}
    (hq : q.tx.selfdestruct_list = l ++ [a]) : (final (stop q)).tx.selfdestruct_list ≠ l := by
  rw [(stop_keepsWorld.final q).2, hq]
  simp

theorem selfdestruct_failed_iff {r} (h : SelfdestructCase p c cs r) (hr : r = .error (.exception ex) p1)
    (hop : c.next_op = some .SELFDESTRUCT) : NoSideEffect p p1 ↔ ¬Writes p.gs c := by
  rw [Writes.selfdestruct_iff hop]
  have hpays : ∀ addr, CanPay c.as (recipient p.gs addr).1 (get_balance c.as (recipient p.gs addr).2) (recipient p.gs addr).2 ↔
      CanPay c.as addr (get_balance c.as p.gs) p.gs := by
    intro addr
    rw [recipient, canPay_congr (ledger_get addr p.gs), (mem_get addr p.gs).1, balance_get]
  cases h with
  | refused _ hops =>
    cases hr
    refine iff_of_true (.of_sameWorld ⟨rfl, rfl⟩) ?_
    rintro ⟨addr, d, hops', -⟩
    exact hops addr d hops'
  | @unpaid addr _ _ hops hno =>
    cases hr
    refine iff_of_true (.of_sameEffects ⟨.single (.get _ _), rfl⟩) ?_
    rintro ⟨addr', d, hops', hpay⟩
    rw [hops] at hops'
    cases hops'
    exact hno ((hpays addr).2 hpay)
  | @paid addr c' gs hops hpay =>
    refine iff_of_false (fun hsame => ?_) fun hno => hno ⟨addr, c', hops, (hpays addr).1 hpay⟩
    have hlist := hsame.selfdestruct_list
    have hp1 := congrArg final hr
    rw [final_error] at hp1
    rw [← hp1] at hlist
    exact selfdestruct_list_ne rfl hlist

omit [Keccak] in
theorem code_set_code {gs : SimpleGlobalState} {a : Address} (h : a ∈ gs.accounts) (code : Code) :
    get_code a (set_code a code gs) = code := by
  change (entry a (gs.set_account a _)).1.code = code
  rw [entry_eq, getElem?_set_account, if_pos rfl]
  obtain ⟨e, he⟩ := ExtTreeMap.mem_iff_isSome_getElem?.1 h |> Option.isSome_iff_exists.1
  rw [he]
  rfl

omit [Keccak] in
/-- Giving an account the code it has changes nothing. -/
theorem look_set_code {gs : SimpleGlobalState} {a : Address} {code : Code} (h : a ∈ gs.accounts → code = get_code a gs) :
    SameAccounts gs (set_code a code gs) := by
  intro k
  change look k (gs.set_account a _) = _
  rw [look, look, getElem?_set_account]
  by_cases hk : a = k
  · subst hk
    rw [if_pos rfl]
    cases he : gs.accounts[a]? with
    | none => rfl
    | some e =>
      have hcode : code = (gs.entry a).1.code := h (ExtTreeMap.mem_iff_isSome_getElem?.2 (by rw [he]; rfl))
      rw [hcode, entry_eq, he]
      rfl
  · rw [if_neg hk]

theorem return_failed_iff {r} (h : ReturnCase p c cs r) (hr : r = .error (.exception ex) p1)
    (hop : c.next_op = some .RETURN) : NoSideEffect p p1 ↔ ¬Writes p.gs c := by
  rw [Writes.return_iff hop]
  cases h with
  | refused _ hops =>
    cases hr
    refine iff_of_true (.of_sameWorld ⟨rfl, rfl⟩) ?_
    rintro ⟨newAcc, output, d, -, hops', -⟩
    exact hops output d hops'
  | @returns output c' hq hops =>
    have hfinal := congrArg final hr
    rw [final_error] at hfinal
    by_cases hc : ∃ newAcc, c.handlers = .create newAcc
    · obtain ⟨newAcc, hc⟩ := hc
      have hgives : SameWorld { p with gs := set_code newAcc output p.gs } p1 := by
        rw [← hfinal]
        exact returning_gives_code (p := { p with ctxts := c' :: cs }) rfl (hq.handlers.trans hc) output
      constructor
      · rintro hsame ⟨newAcc', output', d, hc', hops', hmem, hcode⟩
        rw [hc] at hc'
        cases hc'
        rw [hops] at hops'
        cases hops'
        refine hcode ?_
        rw [← hsame.accounts.code newAcc, hgives.1, code_set_code hmem]
      · intro hno
        refine .of_sameAccounts ?_ hgives.2
        rw [hgives.1]
        refine look_set_code fun hmem => ?_
        by_contra hcode
        exact hno ⟨newAcc, output, c', hc, hops, hmem, hcode⟩
    · have hc' : ∀ newAcc, c'.handlers ≠ .create newAcc := fun newAcc h => hc ⟨newAcc, hq.handlers.symm.trans h⟩
      have hsame : SameWorld { p with ctxts := c' :: cs } p1 := by
        rw [← hfinal]
        exact returning_keepsWorld rfl hc' output
      refine iff_of_true (.of_sameWorld hsame) ?_
      rintro ⟨newAcc, -, -, h, -⟩
      exact hc ⟨newAcc, h⟩

/-- **Failed instructions.** An instruction that throws leaves the world and the transaction alone, unless it writes before
its last check. -/
theorem no_side_effect_iff (hp : p.ctxts = c :: cs) (hd : dispatch p = .error (.exception ex) p1) :
    NoSideEffect p p1 ↔ ¬Writes p.gs c := by
  have htraced : (NoSideEffect (traced p c) p1 ↔ ¬Writes p.gs c) → (NoSideEffect p p1 ↔ ¬Writes p.gs c) :=
    Iff.trans ⟨fun h => ⟨h.1, h.2, h.3, h.4⟩, fun h => ⟨h.1, h.2, h.3, h.4⟩⟩
  by_cases hcreate : c.next_op = some .CREATE
  · have h := dispatch_create hp hcreate
    rw [hd] at h
    exact htraced (create_failed_iff h hcreate)
  by_cases hcall : ∃ op, c.next_op = some op ∧ (op = .CALL ∨ op = .CALLCODE ∨ op = .DELEGATECALL)
  · obtain ⟨op, hop, hcall⟩ := hcall
    have h := dispatch_call hp hop hcall
    rw [hd] at h
    exact htraced (call_failed_iff h hop hcall)
  by_cases hdestruct : c.next_op = some .SELFDESTRUCT
  · exact htraced (selfdestruct_failed_iff (dispatch_selfdestruct hp hdestruct) hd hdestruct)
  by_cases hreturn : c.next_op = some .RETURN
  · exact htraced (return_failed_iff (dispatch_return hp hreturn) hd hreturn)
  have hno : ¬Writes p.gs c := by
    intro h
    obtain ⟨op, hop, hop'⟩ := h.next_op
    rcases hop' with hop' | rfl | rfl
    · rcases Opcode.is_call_iff.1 hop' with rfl | hop'
      · exact hcreate hop
      · exact hcall ⟨op, hop, hop'⟩
    · exact hdestruct hop
    · exact hreturn hop
  refine iff_of_true ?_ hno
  by_cases hsstore : c.next_op = some .SSTORE
  · rw [dispatch_eq hp, hsstore] at hd
    obtain ⟨hworld, htx⟩ := sstore_throws (p := traced p c) hd
    exact .of_sameWorld ⟨hworld, htx⟩
  by_cases hlog : ∃ n, c.next_op = some (.LOG n)
  · obtain ⟨n, hlog⟩ := hlog
    rw [dispatch_eq hp, hlog] at hd
    obtain ⟨hworld, htx⟩ := log_throws (p := traced p c) hd
    exact .of_sameWorld ⟨hworld, htx⟩
  have he : c.Effectless := by
    refine ⟨hsstore, fun n h => hlog ⟨n, h⟩, hdestruct, fun h => absurd h hreturn, fun h => absurd h hcreate, ?_⟩
    exact fun op hop h => absurd ⟨op, hop, h⟩ hcall
  have hsame := dispatch_sameEffects hp he
  rw [hd] at hsame
  exact .of_sameEffects hsame

end

/-- Account 100, with a balance of 1, calls account 200 with a value of `v` and an input of 2 ^ 56 bytes. -/
def writing_start (v : UInt8) : Processor SimpleGlobalState Address :=
  start (.of_accounts [{ address := 100, balance := 1, code :=
      [0x60, 0, 0x60, 0, 0x67, 1, 0, 0, 0, 0, 0, 0, 0, 0x60, 0, 0x60, v, 0x60, 200, 0x60, 0, 0xf1] },
    { address := 200, code := [0x00] }]) { origin := 1 } none 1 100 [] 0

theorem no_side_effect_without_value : ∃ p p1 c ex, @Loop.Reaches _ _ (@iterate _ _ _ no_hash) (writing_start 0) p ∧
    p.ctxts = [c] ∧ @dispatch _ _ _ no_hash p = .error (.exception ex) p1 ∧
    (NoSideEffect p p1 ↔ ¬@Writes no_hash p.gs c) := by
  have hr : @Loop.Reaches _ _ (@iterate _ _ _ no_hash) (writing_start 0) _ :=
    .of_steps (show @Loop.steps _ _ (@iterate _ _ _ no_hash) 7 (writing_start 0) = some _ from rfl)
  have key := fun p p1 c ex (_ : @Loop.Reaches _ _ (@iterate _ _ _ no_hash) (writing_start 0) p) hp hd =>
    @no_side_effect_iff p p1 c [] ex no_hash hp hd
  exact ⟨_, _, _, _, hr, rfl, rfl, key _ _ _ _ hr rfl rfl⟩

/-- Account 200 has been paid for a call that is not made. -/
theorem side_effect_of_value : ∃ p p1 c ex, @Loop.Reaches _ _ (@iterate _ _ _ no_hash) (writing_start 1) p ∧
    p.ctxts = [c] ∧ @dispatch _ _ _ no_hash p = .error (.exception ex) p1 ∧ ¬NoSideEffect p p1 := by
  have hr : @Loop.Reaches _ _ (@iterate _ _ _ no_hash) (writing_start 1) _ :=
    .of_steps (show @Loop.steps _ _ (@iterate _ _ _ no_hash) 7 (writing_start 1) = some _ from rfl)
  refine ⟨_, _, _, _, hr, rfl, rfl, fun h => ?_⟩
  have h200 := congrArg (fun e : StateEntry => e.1.balance) (h.accounts 200)
  exact absurd h200 (by decide)

end Processor

end EEVM

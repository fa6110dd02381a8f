import EEVM.Limits
import EEVM.Operands
import EEVM.Payment
import EEVM.World
import EEVM.Accounts
/-!
# What moves with `CREATE` and the calls (processor.cpp:1224-1342, account.h:32-59)

`CREATE` endows the new account twice, once in `create` and once by `pay_to`, and its init code is told a value of 0. `CALL`
pops the value as a 64-bit integer. `CALLCODE` pays the account whose code it runs. Each of the three does what it should
just where these do not show.
-/
namespace EEVM

open Std ExcState

namespace SimpleGlobalState

variable {gs : SimpleGlobalState} {acc other addr : Address} {v : Word}

/-! ## Payments -/

theorem ledger_get (addr : Address) (gs : SimpleGlobalState) : ledger (GlobalState.get addr gs).2 = gs.ledger := by
  funext a
  rw [ledger_apply, ledger_apply, balance_get]

/-- Who has something has an account. -/
theorem mem_of_balance_ne (h : get_balance acc gs ≠ 0) : acc ∈ gs.accounts := by
  by_contra hno
  exact h (balance_of_not_mem hno)

theorem mem_of_canPay (h : Processor.CanPay acc other v gs) (hv : v ≠ 0) : acc ∈ gs.accounts := by
  refine mem_of_balance_ne fun h0 => hv ?_
  have hle := h.1
  rw [h0, BitVec.le_def] at hle
  exact BitVec.eq_of_toNat_eq (by simpa using hle)

/-- A payment of nothing is no payment. -/
theorem ledger_transfer_zero (acc other : Address) (gs : SimpleGlobalState) :
    ledger (Processor.transfer acc other 0 gs) = gs.ledger := by
  have hsame : ∀ (a : Address) (b : Word) (g : SimpleGlobalState), b = get_balance a g → ledger (set_balance a b g) = g.ledger := by
    intro a b g hb
    by_cases ha : a ∈ g.accounts
    · rw [ledger_set_balance ha, hb, ← ledger_apply, Function.update_eq_self]
    · rw [set_balance_of_not_mem ha]
  have hthis := hsame acc (get_balance acc gs - 0) gs (by simp)
  have hother : get_balance other (set_balance acc (get_balance acc gs - 0) gs) = get_balance other gs :=
    BitVec.eq_of_toNat_eq (congrFun hthis other)
  rw [Processor.transfer, hsame other _ _ (by rw [hother]; simp), hthis]

/-- Between two accounts a payment that can be made is a transfer, whether or not the payer is in the map. -/
theorem ledger_transfer_eq (hother : other ∈ gs.accounts) (hne : acc ≠ other) (h : Processor.CanPay acc other v gs) :
    ledger (Processor.transfer acc other v gs) = gs.ledger.transfer acc other v.toNat := by
  by_cases hv : v = 0
  · subst hv
    rw [ledger_transfer_zero]
    simp [Ledger.transfer, Ledger.withdraw, Ledger.deposit]
  · exact ledger_transfer_of_ne (mem_of_canPay h hv) hother hne h

/-- A payment that is made leaves all balances alone only if it is one of nothing. -/
theorem balance_transfer_eq_iff (hother : other ∈ gs.accounts) (h : Processor.CanPay acc other v gs) :
    (∀ a, get_balance a (Processor.transfer acc other v gs) = get_balance a gs) ↔ v = 0 := by
  constructor
  · intro hsame
    by_contra hv
    have hacc := mem_of_canPay h hv
    have hle := BitVec.le_def.1 h.1
    have hl : ∀ a, ledger (Processor.transfer acc other v gs) a = gs.ledger a := fun a => congrArg BitVec.toNat (hsame a)
    have hpos : v.toNat ≠ 0 := fun h0 => hv (BitVec.eq_of_toNat_eq (by simpa using h0))
    rw [ledger_transfer hacc hother h] at hl
    by_cases he : acc = other
    · subst he
      have := hl acc
      rw [Function.update_self] at this
      omega
    · have := hl acc
      rw [Function.update_of_ne he, Function.update_self, ledger_apply] at this
      omega
  · rintro rfl a
    exact BitVec.eq_of_toNat_eq (congrFun (ledger_transfer_zero acc other gs) a)

end SimpleGlobalState

namespace Processor

open SimpleGlobalState

variable {p p' : Processor SimpleGlobalState Address} {c : Context Address} {cs : List (Context Address)} {st : Stack}
  {v offset size : Word} {op : Opcode} {w : CallWords}

/-- In the frame `f`, now and later, `CALLVALUE` pushes `v`. -/
def IsToldValue (f : Context Address) (v : Word) : Prop := ∀ g, SameFrame f g → Op.callvalue g = s_push v g

theorem isToldValue_of_eq {f : Context Address} (h : f.call_value = v) : IsToldValue f v := by
  intro g hg
  rw [Op.callvalue, Op.push_value, bind_of_ok (run_get g), hg.call_value, h]

/-! ## `CREATE` -/

section

variable [Keccak]

/-- What `CREATE` with value `v` is for: `c` gives `v` to the new account and to nobody else, and the init code is told. -/
structure Endows (p : Processor SimpleGlobalState Address) (c : Context Address) (cs : List (Context Address)) (v : Word)
    (p' : Processor SimpleGlobalState Address) : Prop where
  creator : p'.gs.ledger c.as + v.toNat = p.gs.ledger c.as
  endowed : p'.gs.ledger (new_address p.gs c) = v.toNat
  others : ∀ a, a ≠ c.as → a ≠ new_address p.gs c → p'.gs.ledger a = p.gs.ledger a
  told : ∃ f d, p'.ctxts = f :: d :: cs ∧ IsToldValue f v

theorem ledger_created (hnew : new_address p.gs c ∉ p.gs.accounts) (v : Word) :
    (created p.gs c v).2.ledger = Function.update p.gs.ledger (new_address p.gs c) v.toNat := by
  have hacc : ∀ a : Address, (created p.gs c v).2.accounts[a]? =
      if new_address p.gs c = a ∧ a ∉ p.gs.accounts then some ({ address := new_address p.gs c, balance := v }, ∅)
      else p.gs.accounts[a]? := fun a => getElem?_insert ({ address := new_address p.gs c, balance := v }, ∅) a p.gs
  funext a
  change ((created p.gs c v).2.entry a).1.balance.toNat = _
  rw [entry_eq, hacc]
  by_cases ha : a = new_address p.gs c
  · subst ha
    simp [hnew]
  · rw [if_neg fun h => ha h.1.symm, Function.update_of_ne ha, ledger_apply]
    change _ = (p.gs.entry a).1.balance.toNat
    rw [entry_eq]

/-- The new account has been endowed by `create` when `pay_to` pays it. -/
theorem zero_of_endows (hp : p.ctxts = c :: cs) (hop : c.next_op = some .CREATE) (hs : c.s = v :: offset :: size :: st)
    (hv : v ≤ get_balance c.as p.gs) (hr : offset.toNat + size.toNat ≤ MAX_MEM_SIZE.toNat)
    (hnew : new_address p.gs c ∉ p.gs.accounts) (hd : dispatch p = .ok () p') (he : Endows p c cs v p') : v = 0 := by
  by_contra hne
  have hcase := dispatch_create hp hop
  rw [hd] at hcase
  obtain ⟨_, _, hops⟩ := create_operands_of_words hs hr
  cases hcase with
  | paid hops' hpay h =>
    rw [hops] at hops'
    cases hops'
    have hcreator : c.as ∈ p.gs.accounts := by
      refine mem_of_balance_ne fun h0 => hne (BitVec.eq_of_toNat_eq ?_)
      rw [h0, BitVec.le_def] at hv
      simpa using hv
    have hmem := mem_create (new_address p.gs c) v [] p.gs
    have hl := ledger_transfer ((mem_create_iff _ v [] p.gs).2 (.inr hcreator)) hmem.2 hpay
    have hgs : p'.gs = transfer c.as (created p.gs c v).1 v (created p.gs c v).2 := h.sameList.1
    have htwice := he.endowed
    rw [hgs] at htwice
    have hlast := congrFun hl (new_address p.gs c)
    rw [Function.update_self] at hlast
    have hfirst := congrFun (ledger_created hnew v) (new_address p.gs c)
    rw [Function.update_self] at hfirst
    have hpos : v.toNat ≠ 0 := fun h0 => hne (BitVec.eq_of_toNat_eq (by simpa using h0))
    have htwo : v.toNat = v.toNat + v.toNat := htwice.symm.trans (hlast.trans (congrArg (· + v.toNat) hfirst))
    omega

theorem endows_zero (hp : p.ctxts = c :: cs) (hop : c.next_op = some .CREATE) (hs : c.s = 0 :: offset :: size :: st)
    (hr : offset.toNat + size.toNat ≤ MAX_MEM_SIZE.toNat) (hdepth : p.get_call_depth < MAX_CALL_DEPTH)
    (hnew : new_address p.gs c ∉ p.gs.accounts) : ∃ p', dispatch p = .ok () p' ∧ Endows p c cs 0 p' := by
  have hzero : (created p.gs c 0).2.ledger = p.gs.ledger := by
    rw [ledger_created hnew]
    exact Function.update_eq_self_iff.2 (by rw [ledger_apply, balance_of_not_mem hnew])
  have hpay : CanPay c.as (created p.gs c 0).1 0 (created p.gs c 0).2 :=
    canPay_iff.2 ⟨Nat.zero_le _, BitVec.isLt _⟩
  obtain ⟨mem, f, hd, hf⟩ := create_paid (p := traced p c) hp hs hr hpay
  have hop' : dispatch p = create (traced p c) := by
    rw [dispatch_eq hp, hop]
    rfl
  refine ⟨_, hop'.trans (hd.trans (push_context_of_lt (by rwa [get_call_depth_of_cons hp rfl]))), ?_⟩
  have hl : ledger (transfer c.as (created p.gs c 0).1 0 (created p.gs c 0).2) = p.gs.ledger := by
    rw [ledger_transfer_zero, hzero]
  constructor
  · exact congrFun hl c.as
  · have h := congrFun hl (new_address p.gs c)
    rw [ledger_apply _ p.gs, balance_of_not_mem hnew] at h
    exact h
  · exact fun a _ _ => congrFun hl a
  · exact ⟨f, _, rfl, isToldValue_of_eq hf⟩

/-- **Endowment.** Where nothing is in its way, `CREATE` endows the new account with its value just when that is 0. -/
theorem endows_iff (hp : p.ctxts = c :: cs) (hop : c.next_op = some .CREATE) (hs : c.s = v :: offset :: size :: st)
    (hv : v ≤ get_balance c.as p.gs) (hr : offset.toNat + size.toNat ≤ MAX_MEM_SIZE.toNat)
    (hdepth : p.get_call_depth < MAX_CALL_DEPTH) (hnew : new_address p.gs c ∉ p.gs.accounts) :
    (∃ p', dispatch p = .ok () p' ∧ Endows p c cs v p') ↔ v = 0 := by
  constructor
  · rintro ⟨p', hd, he⟩
    exact zero_of_endows hp hop hs hv hr hnew hd he
  · rintro rfl
    exact endows_zero hp hop hs hr hdepth hnew

end

/-- Account 100, with a balance of 5, creates an account with value `v`. -/
def endow_start (v : UInt8) : Processor SimpleGlobalState Address :=
  start (.of_accounts [{ address := 100, balance := 5, code := [0x60, 0, 0x60, 0, 0x60, v, 0xf0] }]) { origin := 1 } none 1
    100 [] 0

theorem endows_nothing : ∃ p c, @Loop.Reaches _ _ (@iterate _ _ _ no_hash) (endow_start 0) p ∧ p.ctxts = [c] ∧
    ((∃ p', @dispatch _ _ _ no_hash p = .ok () p' ∧ @Endows no_hash p c [] 0 p') ↔ (0 : Word) = 0) := by
  have hr : @Loop.Reaches _ _ (@iterate _ _ _ no_hash) (endow_start 0) _ :=
    .of_steps (show @Loop.steps _ _ (@iterate _ _ _ no_hash) 3 (endow_start 0) = some _ from rfl)
  have key := fun p c (_ : @Loop.Reaches _ _ (@iterate _ _ _ no_hash) (endow_start 0) p) hp hop hs hv hr =>
    @endows_iff p c [] [] 0 0 0 no_hash hp hop hs hv hr
  exact ⟨_, _, hr, rfl, key _ _ hr rfl rfl rfl (by decide) (by decide) (by decide) (by decide)⟩

/-- A value of 1 makes a balance of 2. -/
theorem endows_twice : ∃ p c, @Loop.Reaches _ _ (@iterate _ _ _ no_hash) (endow_start 1) p ∧ p.ctxts = [c] ∧
    c.next_op = some .CREATE ∧ c.s = [1, 0, 0] ∧ 1 ≤ get_balance c.as p.gs ∧ p.get_call_depth < MAX_CALL_DEPTH ∧
    @new_address _ _ _ no_hash p.gs c ∉ p.gs.accounts ∧
    ¬∃ p', @dispatch _ _ _ no_hash p = .ok () p' ∧ @Endows no_hash p c [] 1 p' := by
  have hr : @Loop.Reaches _ _ (@iterate _ _ _ no_hash) (endow_start 1) _ :=
    .of_steps (show @Loop.steps _ _ (@iterate _ _ _ no_hash) 3 (endow_start 1) = some _ from rfl)
  refine ⟨_, _, hr, rfl, rfl, rfl, by decide, by decide, by decide, ?_⟩
  rintro ⟨p', hd, he⟩
  have hl := @Endows.endowed no_hash _ _ _ _ _ he
  cases hd
  exact absurd hl (by decide)

/-! ## `CALL` -/

/-- What `CALL` with the operands `w` is for: the value moves to the callee, and its frame, if there is one, is told. -/
structure MovesWhole (p : Processor SimpleGlobalState Address) (c : Context Address) (cs : List (Context Address))
    (w : CallWords) (p' : Processor SimpleGlobalState Address) : Prop where
  moves : p'.gs.ledger = p.gs.ledger.transfer c.as w.callee w.value.toNat
  told : ∀ f d, p'.ctxts = f :: d :: cs → IsToldValue f w.value

theorem looked_up_mem (gs : SimpleGlobalState) (w : CallWords) :
    (looked_up gs w).1 = w.callee ∧ w.callee ∈ (looked_up gs w).2.accounts := mem_get w.callee gs

/-- Whether a call finds code does not depend on its payment. -/
theorem has_code_paid_world (gs : SimpleGlobalState) (op : Opcode) (c : Context Address) (w : CallWords) :
    has_code (looked_up gs w).1 (paid_world op gs c w) = has_code w.callee gs := by
  rw [has_code, paid_world, get_code_transfer, looked_up, get_code_get, (mem_get w.callee gs).1, has_code]

theorem canPay_looked_up (gs : SimpleGlobalState) (c : Context Address) (w : CallWords) :
    CanPay c.as (looked_up gs w).1 v (looked_up gs w).2 ↔
      v.toNat ≤ gs.ledger c.as ∧ gs.ledger w.callee + v.toNat < 2 ^ 256 := by
  rw [canPay_iff, looked_up, ledger_get, (mem_get w.callee gs).1]

theorem ledger_paid_world {gs : SimpleGlobalState} (hne : c.as ≠ w.callee)
    (hpay : CanPay c.as (looked_up gs w).1 (w.paid op) (looked_up gs w).2) :
    (paid_world op gs c w).ledger = gs.ledger.transfer c.as w.callee (w.paid op).toNat := by
  obtain ⟨hcallee, hmem⟩ := looked_up_mem gs w
  rw [hcallee] at hpay
  rw [paid_world, hcallee, ledger_transfer_eq hmem hne hpay, looked_up, ledger_get]

section

variable [Keccak]

/-- **Calls with value.** Where nothing else is in its way, `CALL` moves its value just when that fits into 64 bits; a callee
without code has to leave room for the result on the stack as well. -/
theorem moves_whole_iff (hp : p.ctxts = c :: cs) (hop : c.next_op = some .CALL) (hs : c.s = w.stack .CALL st)
    (hcallee : ¬Precompiled w.callee) (hne : c.as ≠ w.callee) (hv : w.value ≤ get_balance c.as p.gs)
    (hroom : (get_balance w.callee p.gs).toNat + w.value.toNat < 2 ^ 256) (hr : w.InRange)
    (hdepth : p.get_call_depth < MAX_CALL_DEPTH) :
    (∃ p', dispatch p = .ok () p' ∧ MovesWhole p c cs w p') ↔
      w.value.toNat < 2 ^ 64 ∧ (has_code w.callee p.gs ∨ st.length ≠ Stack.MAX_SIZE) := by
  have hd : dispatch p = call .CALL (traced p c) := by
    rw [dispatch_eq hp, hop]
    rfl
  have hcall : Opcode.CALL = .CALL ∨ Opcode.CALL = .CALLCODE ∨ Opcode.CALL = .DELEGATECALL := .inl rfl
  by_cases h64 : w.value.toNat < 2 ^ 64
  case neg =>
    -- the value cannot be popped
    have hno : ¬∃ p', dispatch p = .ok () p' ∧ MovesWhole p c cs w p' := by
      rintro ⟨p', hd', -⟩
      obtain ⟨ex, c', hx⟩ := w.call_operands_of_le hs nofun (Nat.not_lt.1 h64)
      have hcase := dispatch_call hp hop hcall
      rw [hd'] at hcase
      cases hcase with
      | paid hops =>
        rw [hx] at hops
        cases hops
    exact iff_of_false hno fun h => h64 h.1
  have hready : CallReady .CALL c w st := ⟨hcall, hs, h64, hr, hcallee⟩
  have hpay : CanPay c.as (looked_up p.gs w).1 (w.paid .CALL) (looked_up p.gs w).2 :=
    (canPay_looked_up p.gs c w).2 ⟨BitVec.le_def.1 hv, hroom⟩
  have hmoves : ledger (paid_world .CALL p.gs c w) = p.gs.ledger.transfer c.as w.callee w.value.toNat :=
    ledger_paid_world hne hpay
  have hcase := hready.cases (p := traced p c) hp
  rw [← hd] at hcase
  have hcode := has_code_paid_world p.gs .CALL c w
  generalize dispatch p = r at hcase
  cases hcase with
  | unpaid hno => exact absurd hpay hno
  | no_code _ hno =>
    have hno' : has_code w.callee p.gs = false := hcode.symm.trans hno
    simp only [h64, hno', Bool.false_eq_true, false_or, true_and]
    by_cases hfull : st.length = Stack.MAX_SIZE
    · obtain ⟨ex, hx⟩ := s_push_full (d := { c with s := st }) hfull 1
      rw [onCtxt_cons rfl, hx]
      exact iff_of_false (fun h => nomatch h) fun h => h hfull
    · rw [onCtxt_cons rfl, s_push_of_not_full (d := { c with s := st }) hfull]
      refine iff_of_true ⟨_, rfl, hmoves, ?_⟩ hfull
      intro f d hctxts
      have hlen := congrArg List.length hctxts
      simp at hlen
  | @has_code mem f _ hyes hf =>
    have hyes' : has_code w.callee p.gs = true := hcode.symm.trans hyes
    refine iff_of_true ⟨_, push_context_of_lt (by rwa [get_call_depth_of_cons hp rfl]), hmoves, ?_⟩ ⟨h64, .inl hyes'⟩
    rintro f' d hctxts
    obtain ⟨rfl, -⟩ := List.cons.inj hctxts
    exact isToldValue_of_eq (hf rfl)

end

/-- Account 100, with a balance of 2 ^ 64, calls account 9, which there is not, with the `n + 1` bytes `v` as the value. -/
def value_start (n : UInt8) (v : Bytes) : Processor SimpleGlobalState Address :=
  start (.of_accounts [{ address := 100, balance := 18446744073709551616, code :=
    [0x60, 0, 0x60, 0, 0x60, 0, 0x60, 0, 0x60 + n] ++ v ++ [0x60, 9, 0x60, 0, 0xf1] }]) { origin := 1 } none 1 100 [] 0

theorem moves_one : ∃ p c, @Loop.Reaches _ _ (@iterate _ _ _ no_hash) (value_start 0 [1]) p ∧ p.ctxts = [c] ∧
    ((∃ p', @dispatch _ _ _ no_hash p = .ok () p' ∧ MovesWhole p c [] ⟨0, 9, 1, 0, 0, 0, 0⟩ p') ↔
      (1 : Word).toNat < 2 ^ 64 ∧ (has_code 9 p.gs ∨ ([] : Stack).length ≠ Stack.MAX_SIZE)) := by
  have hr : @Loop.Reaches _ _ (@iterate _ _ _ no_hash) (value_start 0 [1]) _ :=
    .of_steps (show @Loop.steps _ _ (@iterate _ _ _ no_hash) 7 (value_start 0 [1]) = some _ from rfl)
  have key := fun p c (_ : @Loop.Reaches _ _ (@iterate _ _ _ no_hash) (value_start 0 [1]) p) hp hop hs hcallee hne hv hroom
    hr hdepth => @moves_whole_iff p c [] [] ⟨0, 9, 1, 0, 0, 0, 0⟩ no_hash hp hop hs hcallee hne hv hroom hr hdepth
  exact ⟨_, _, hr, rfl, key _ _ hr rfl rfl rfl (by unfold Precompiled; decide) (by decide) (by decide) (by decide)
    ⟨by decide, by decide⟩ (by decide)⟩

/-- A value of 2 ^ 64, which the caller has, is not moved. -/
theorem large_value_fails : ∃ p c, @Loop.Reaches _ _ (@iterate _ _ _ no_hash) (value_start 8 [1, 0, 0, 0, 0, 0, 0, 0, 0]) p ∧
    p.ctxts = [c] ∧ c.next_op = some .CALL ∧ c.s = CallWords.stack .CALL ⟨0, 9, 18446744073709551616, 0, 0, 0, 0⟩ [] ∧
    ¬Precompiled 9 ∧ c.as ≠ 9 ∧ 18446744073709551616 ≤ get_balance c.as p.gs ∧
    (get_balance 9 p.gs).toNat + (18446744073709551616 : Word).toNat < 2 ^ 256 ∧ p.get_call_depth < MAX_CALL_DEPTH ∧
    ¬∃ p', @dispatch _ _ _ no_hash p = .ok () p' ∧ MovesWhole p c [] ⟨0, 9, 18446744073709551616, 0, 0, 0, 0⟩ p' := by
  have hr : @Loop.Reaches _ _ (@iterate _ _ _ no_hash) (value_start 8 [1, 0, 0, 0, 0, 0, 0, 0, 0]) _ :=
    .of_steps (show @Loop.steps _ _ (@iterate _ _ _ no_hash) 7 (value_start 8 [1, 0, 0, 0, 0, 0, 0, 0, 0]) = some _ from rfl)
  refine ⟨_, _, hr, rfl, rfl, rfl, by unfold Precompiled; decide, by decide, by decide, by decide, by decide, ?_⟩
  rintro ⟨p', hd, -⟩
  cases hd

/-! ## `CALLCODE` and `DELEGATECALL` -/

/-- The value a call pays is the third word of its operands; `DELEGATECALL` has none. -/
theorem call_operands_value {d : Context Address} {args : CallOperands} (h : call_operands op c = .ok args d) :
    Word.ofUInt64 args.value = if op = .DELEGATECALL then 0 else c.s.getD 2 0 := by
  simp only [call_operands, bind_eq_ok] at h
  obtain ⟨gas, c1, h1, addr, c2, h2, value, c3, h3, _, _, _, _, _, _, _, _, _, _, _, _, ⟨⟩⟩ := h
  unfold call_value_operand at h3
  split at h3
  case isTrue hop =>
    cases h3
    simp only [if_pos hop]
    rfl
  case isFalse hop =>
    obtain ⟨w, hs3, -, hw⟩ := s_pop64_eq_ok h3
    obtain ⟨hs1, -⟩ := s_pop_eq_ok h1
    obtain ⟨_, hs2, -, -⟩ := pop_addr_eq_ok h2
    simp only [if_neg hop]
    rw [hs1, hs2, hs3, Word.ofUInt64, ← hw]
    exact BitVec.ofNat_toNat _ w |>.trans (BitVec.setWidth_eq w)

section

variable [Keccak]

/-- **Calls into this account.** `CALLCODE` and `DELEGATECALL` move nothing just when no value is given. -/
theorem moves_nothing_iff (hp : p.ctxts = c :: cs) (hop : c.next_op = some op) (hcall : op = .CALLCODE ∨ op = .DELEGATECALL)
    (hd : dispatch p = .ok () p') :
    (∀ a, get_balance a p'.gs = get_balance a p.gs) ↔ op = .DELEGATECALL ∨ c.s.getD 2 0 = 0 := by
  have hcase := dispatch_call hp hop (.inr hcall)
  rw [hd] at hcase
  cases hcase with
  | @paid args _ _ hops _ hpay h =>
    have hgs : p'.gs = transfer c.as (found p.gs args).1 (Word.ofUInt64 args.value) (found p.gs args).2 := h.sameList.1
    obtain ⟨hcallee, hmem⟩ := mem_get args.addr p.gs
    have hpay' : CanPay c.as (found p.gs args).1 (Word.ofUInt64 args.value) (found p.gs args).2 := hpay
    have hfound : (found p.gs args).1 ∈ (found p.gs args).2.accounts := by
      rw [found, hcallee]
      exact hmem
    have hzero := balance_transfer_eq_iff hfound hpay'
    simp only [found, balance_get] at hzero
    rw [hgs, found, hzero, call_operands_value hops]
    by_cases hdel : op = .DELEGATECALL
    · simp [hdel]
    · simp [hdel]

end

/-- Account 100, with a balance of 1, runs the code of account 9, which there is not, with a value of `v`. -/
def callcode_start (v : UInt8) : Processor SimpleGlobalState Address :=
  start (.of_accounts [{ address := 100, balance := 1, code :=
    [0x60, 0, 0x60, 0, 0x60, 0, 0x60, 0, 0x60, v, 0x60, 9, 0x60, 0, 0xf2] }]) { origin := 1 } none 1 100 [] 0

theorem callcode_moves_nothing : ∃ p p' c, @Loop.Reaches _ _ (@iterate _ _ _ no_hash) (callcode_start 0) p ∧ p.ctxts = [c] ∧
    @dispatch _ _ _ no_hash p = .ok () p' ∧
    ((∀ a, get_balance a p'.gs = get_balance a p.gs) ↔ Opcode.CALLCODE = .DELEGATECALL ∨ c.s.getD 2 0 = 0) := by
  have hr : @Loop.Reaches _ _ (@iterate _ _ _ no_hash) (callcode_start 0) _ :=
    .of_steps (show @Loop.steps _ _ (@iterate _ _ _ no_hash) 7 (callcode_start 0) = some _ from rfl)
  have key := fun p p' c (_ : @Loop.Reaches _ _ (@iterate _ _ _ no_hash) (callcode_start 0) p) hp hop hcall hd =>
    @moves_nothing_iff p p' c [] .CALLCODE no_hash hp hop hcall hd
  exact ⟨_, _, _, hr, rfl, rfl, key _ _ _ hr rfl rfl (.inl rfl) rfl⟩

/-- `CALLCODE` pays the account whose code it runs. -/
theorem callcode_pays : ∃ p p' c, @Loop.Reaches _ _ (@iterate _ _ _ no_hash) (callcode_start 1) p ∧ p.ctxts = [c] ∧
    c.next_op = some .CALLCODE ∧ @dispatch _ _ _ no_hash p = .ok () p' ∧ get_balance 9 p.gs = 0 ∧ get_balance 9 p'.gs = 1 := by
  have hr : @Loop.Reaches _ _ (@iterate _ _ _ no_hash) (callcode_start 1) _ :=
    .of_steps (show @Loop.steps _ _ (@iterate _ _ _ no_hash) 7 (callcode_start 1) = some _ from rfl)
  exact ⟨_, _, _, hr, rfl, rfl, rfl, by decide, by decide⟩

end Processor

end EEVM

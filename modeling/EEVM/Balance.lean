import EEVM.Calls
import EEVM.Simple
/-!
# The sum of the balances (account.h:32-59, simple/simpleglobalstate.cpp:8-28)

`total` adds up the balances of all accounts. A payment between two accounts keeps it. A payment of an account to
itself does not: `pay_to` reads both balances before it writes either (`account.h:36-57`), so the second write
overrules the first. And `create` brings the balance it is given into the world.
-/
namespace EEVM

open Std

namespace SimpleGlobalState

/-- The sum of the balances of all accounts. -/
def total (gs : SimpleGlobalState) : Nat := MapSum.sum (fun e => e.1.balance.toNat) gs.accounts

variable {gs : SimpleGlobalState} {acc other addr : Address} {v : Word}

theorem entry_eq (acc : Address) (gs : SimpleGlobalState) : gs.entry acc = gs.accounts[acc]?.getD ({}, ∅) := rfl

theorem mem_iff_exists : acc ∈ gs.accounts ↔ ∃ e, gs.accounts[acc]? = some e := by
  rw [ExtTreeMap.mem_iff_isSome_getElem?, Option.isSome_iff_exists]

theorem balance_of_not_mem (h : acc ∉ gs.accounts) : get_balance acc gs = 0 := by
  change (gs.entry acc).1.balance = 0
  rw [entry_eq, ExtTreeMap.getElem?_eq_none h]
  rfl

/-! ## Each method of the world -/

theorem total_insert (e : StateEntry) (gs : SimpleGlobalState) :
    (gs.insert e).total = gs.total + if e.1.address ∈ gs.accounts then 0 else e.1.balance.toNat := by
  unfold insert total
  by_cases h : e.1.address ∈ gs.accounts
  · simp [h]
  · simp only [if_neg h]
    rw [MapSum.sum_insert_of_none _ _ (ExtTreeMap.getElem?_eq_none h), Nat.add_comm]

theorem total_create (addr : Address) (v : Word) (code : Code) (gs : SimpleGlobalState) :
    (GlobalState.create addr v code gs).2.total = gs.total + if addr ∈ gs.accounts then 0 else v.toNat :=
  total_insert _ gs

theorem total_get (addr : Address) (gs : SimpleGlobalState) : (GlobalState.get addr gs).2.total = gs.total := by
  change (get addr gs).2.total = gs.total
  unfold get
  split
  · rfl
  · rw [create, total_insert]
    simp

theorem total_set_account (acc : Address) {f : SimpleAccount → SimpleAccount} (hf : ∀ a, (f a).balance = a.balance)
    (gs : SimpleGlobalState) : (gs.set_account acc f).total = gs.total := by
  refine MapSum.sum_modify_of_eq _ _ _ fun e => ?_
  simp [hf]

theorem total_set_code (acc : Address) (code : Code) (gs : SimpleGlobalState) : (set_code acc code gs).total = gs.total :=
  total_set_account acc (f := fun a => { a with code }) (fun _ => rfl) gs

theorem total_set_storage (acc : Address) (f : SimpleStorage → SimpleStorage) (gs : SimpleGlobalState) :
    (gs.set_storage acc f).total = gs.total :=
  MapSum.sum_modify_of_eq _ _ _ fun _ => rfl

theorem total_remove (addr : Address) (gs : SimpleGlobalState) :
    (gs.remove addr).total + (get_balance addr gs).toNat = gs.total := by
  have h := MapSum.sum_erase (fun e : StateEntry => e.1.balance.toNat) gs.accounts addr
  have hb : (get_balance addr gs).toNat = (gs.accounts[addr]?.map fun e => e.1.balance.toNat).getD 0 := by
    change (gs.entry addr).1.balance.toNat = _
    rw [entry_eq]
    cases gs.accounts[addr]? <;> rfl
  rw [hb]
  exact h

/-! ## Payments -/

theorem total_set_balance (h : acc ∈ gs.accounts) (b : Word) :
    (set_balance acc b gs).total + (get_balance acc gs).toNat = gs.total + b.toNat := by
  obtain ⟨e, he⟩ := mem_iff_exists.1 h
  have hb : get_balance acc gs = e.1.balance := by
    change (gs.entry acc).1.balance = _
    rw [entry_eq, he]
    rfl
  rw [hb]
  exact MapSum.sum_modify (fun e : StateEntry => e.1.balance.toNat) (fun e => ({ e.1 with balance := b }, e.2)) he

theorem set_balance_of_not_mem (h : acc ∉ gs.accounts) (b : Word) : set_balance acc b gs = gs := by
  change gs.set_account acc _ = gs
  rw [set_account, MapSum.modify_of_getElem?_eq_none _ (ExtTreeMap.getElem?_eq_none h)]

theorem mem_set_balance {b : Word} : other ∈ (set_balance acc b gs).accounts ↔ other ∈ gs.accounts := by
  change other ∈ (gs.accounts.modify acc _) ↔ _
  rw [ExtTreeMap.mem_modify]

theorem balance_set_balance_of_ne (hne : acc ≠ other) (b : Word) :
    get_balance other (set_balance acc b gs) = get_balance other gs := by
  change (entry other (gs.set_account acc _)).1.balance = (gs.entry other).1.balance
  rw [entry_eq, entry_eq, set_account, ExtTreeMap.getElem?_modify]
  simp [hne]

theorem balance_set_balance (h : acc ∈ gs.accounts) (b : Word) : get_balance acc (set_balance acc b gs) = b := by
  obtain ⟨e, he⟩ := mem_iff_exists.1 h
  change (entry acc (gs.set_account acc _)).1.balance = b
  rw [entry_eq, set_account, ExtTreeMap.getElem?_modify_self, he]
  rfl

/-- The two new balances, as unbounded integers. -/
theorem toNat_of_canPay (h : Processor.CanPay acc other v gs) :
    (get_balance acc gs - v).toNat + v.toNat = (get_balance acc gs).toNat ∧
      (get_balance other gs + v).toNat = (get_balance other gs).toNat + v.toNat := by
  have h1 := h.1
  have h2 := h.2
  rw [BitVec.le_def] at h1
  rw [BitVec.not_lt, BitVec.le_def, BitVec.toNat_add] at h2
  have hv := v.isLt
  have ho := (get_balance other gs).isLt
  constructor
  · rw [BitVec.toNat_sub_of_le h.1]
    omega
  · rw [BitVec.toNat_add]
    omega

/-- A payment to another account keeps the sum. -/
theorem total_transfer_of_ne (hne : acc ≠ other) (hother : other ∈ gs.accounts)
    (h : Processor.CanPay acc other v gs) : (Processor.transfer acc other v gs).total = gs.total := by
  obtain ⟨h1, h2⟩ := toNat_of_canPay h
  unfold Processor.transfer
  have hb : get_balance other (set_balance acc (get_balance acc gs - v) gs) = get_balance other gs :=
    balance_set_balance_of_ne hne _
  have hmem : other ∈ (set_balance acc (get_balance acc gs - v) gs).accounts := mem_set_balance.2 hother
  have ht := total_set_balance hmem (get_balance other gs + v)
  rw [hb] at ht
  by_cases hacc : acc ∈ gs.accounts
  · have hp := total_set_balance hacc (get_balance acc gs - v)
    omega
  · rw [set_balance_of_not_mem hacc] at ht ⊢
    rw [balance_of_not_mem hacc] at h1
    simp at h1
    omega

/-- A payment of an account to itself adds what is paid. -/
theorem total_transfer_self (h : Processor.CanPay acc acc v gs) :
    (Processor.transfer acc acc v gs).total = gs.total + v.toNat := by
  obtain ⟨h1, h2⟩ := toNat_of_canPay h
  unfold Processor.transfer
  by_cases hacc : acc ∈ gs.accounts
  · have hp := total_set_balance hacc (get_balance acc gs - v)
    have hmem : acc ∈ (set_balance acc (get_balance acc gs - v) gs).accounts := mem_set_balance.2 hacc
    have ht := total_set_balance hmem (get_balance acc gs + v)
    rw [balance_set_balance hacc] at ht
    omega
  · rw [set_balance_of_not_mem hacc, set_balance_of_not_mem hacc]
    rw [balance_of_not_mem hacc] at h1
    simp at h1
    omega

/-- What a payment adds to the sum. -/
theorem total_transfer (hother : other ∈ gs.accounts) (h : Processor.CanPay acc other v gs) :
    (Processor.transfer acc other v gs).total = gs.total + if other = acc then v.toNat else 0 := by
  by_cases heq : other = acc
  · subst heq
    rw [if_pos rfl, total_transfer_self h]
  · rw [if_neg heq, total_transfer_of_ne (fun h => heq h.symm) hother h, Nat.add_zero]

theorem mem_get (addr : Address) (gs : SimpleGlobalState) :
    (GlobalState.get addr gs).1 = addr ∧ addr ∈ (GlobalState.get addr gs).2.accounts := by
  change (get addr gs).1 = addr ∧ addr ∈ (get addr gs).2.accounts
  unfold get
  split
  · exact ⟨rfl, ‹_›⟩
  · rename_i h
    simp [create, insert, h]

theorem mem_create (addr : Address) (v : Word) (code : Code) (gs : SimpleGlobalState) :
    (GlobalState.create addr v code gs).1 = addr ∧ addr ∈ (GlobalState.create addr v code gs).2.accounts := by
  change (create addr v code gs).1 = addr ∧ addr ∈ (create addr v code gs).2.accounts
  unfold create insert
  split
  · exact ⟨rfl, ‹_›⟩
  · simp

/-- Where there is an account already, `create` gives it nothing. -/
theorem balance_create_of_mem (h : addr ∈ gs.accounts) (acc : Address) (v : Word) (code : Code) :
    get_balance acc (GlobalState.create addr v code gs).2 = get_balance acc gs := by
  change (entry acc (create addr v code gs).2).1.balance = (gs.entry acc).1.balance
  simp [create, insert, h, entry_eq]

theorem balance_get (addr acc : Address) (gs : SimpleGlobalState) :
    get_balance acc (GlobalState.get addr gs).2 = get_balance acc gs := by
  change (entry acc (get addr gs).2).1.balance = (gs.entry acc).1.balance
  unfold get
  split
  · rfl
  · rename_i h
    simp only [create, insert, if_neg h, entry_eq, ExtTreeMap.getElem?_insert]
    by_cases he : addr = acc
    · subst he
      simp [ExtTreeMap.getElem?_eq_none h]
    · simp [he]

theorem canPay_get {this other addr : Address} :
    Processor.CanPay this other v (GlobalState.get addr gs).2 ↔ Processor.CanPay this other v gs := by
  unfold Processor.CanPay
  rw [balance_get, balance_get]

end SimpleGlobalState

end EEVM

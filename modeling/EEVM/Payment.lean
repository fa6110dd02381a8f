import EEVM.Balance
import Mathlib.Logic.Function.Basic
/-!
# Payments (account.h:32-59, simple/simpleaccount.cpp:20-28)

`Ledger.transfer` is what a payment is for: the amount leaves the payer and arrives at the payee, so that nothing
changes where they are one account. `pay_to` gets there by two writes of sums it has computed before the first one.
-/
namespace EEVM

open Std

/-- Who has how much. -/
abbrev Ledger (ι : Type) := ι → Nat

namespace Ledger

variable {ι : Type} [DecidableEq ι] {payer payee other : ι} {n : Nat} {l : Ledger ι}

def withdraw (payer : ι) (n : Nat) (l : Ledger ι) : Ledger ι := Function.update l payer (l payer - n)
def deposit (payee : ι) (n : Nat) (l : Ledger ι) : Ledger ι := Function.update l payee (l payee + n)
def transfer (payer payee : ι) (n : Nat) (l : Ledger ι) : Ledger ι := (l.withdraw payer n).deposit payee n

theorem transfer_self (h : n ≤ l payer) : l.transfer payer payer n = l := by
  simp [transfer, withdraw, deposit, Nat.sub_add_cancel h]

theorem transfer_of_ne (hne : payer ≠ payee) :
    l.transfer payer payee n = Function.update (Function.update l payer (l payer - n)) payee (l payee + n) := by
  simp [transfer, withdraw, deposit, Function.update_of_ne hne.symm]

end Ledger

namespace SimpleGlobalState

variable {gs : SimpleGlobalState} {acc other addr : Address} {v : Word}

/-- The balances of a world; an address without an account has nothing. -/
def ledger (gs : SimpleGlobalState) : Ledger Address := fun acc => (get_balance acc gs).toNat

theorem ledger_apply (acc : Address) (gs : SimpleGlobalState) : gs.ledger acc = (get_balance acc gs).toNat := rfl

theorem ledger_set_balance (h : acc ∈ gs.accounts) (b : Word) :
    ledger (set_balance acc b gs) = Function.update gs.ledger acc b.toNat := by
  funext other
  by_cases heq : other = acc
  · subst heq
    rw [Function.update_self, ledger_apply, balance_set_balance h]
  · rw [Function.update_of_ne heq, ledger_apply, balance_set_balance_of_ne (fun h => heq h.symm), ledger_apply]

/-- The two writes of `pay_to`: the second one puts down what the payee had before the first. -/
theorem ledger_transfer (hacc : acc ∈ gs.accounts) (hother : other ∈ gs.accounts)
    (h : Processor.CanPay acc other v gs) :
    ledger (Processor.transfer acc other v gs) =
      Function.update (Function.update gs.ledger acc (gs.ledger acc - v.toNat)) other
        (gs.ledger other + v.toNat) := by
  obtain ⟨h1, h2⟩ := toNat_of_canPay h
  unfold Processor.transfer
  rw [ledger_set_balance (mem_set_balance.2 hother), ledger_set_balance hacc, h2]
  rw [show (get_balance acc gs - v).toNat = gs.ledger acc - v.toNat by rw [ledger_apply]; omega]
  rfl

/-- Between two accounts this is a transfer. -/
theorem ledger_transfer_of_ne (hacc : acc ∈ gs.accounts) (hother : other ∈ gs.accounts) (hne : acc ≠ other)
    (h : Processor.CanPay acc other v gs) :
    ledger (Processor.transfer acc other v gs) = gs.ledger.transfer acc other v.toNat := by
  rw [ledger_transfer hacc hother h, Ledger.transfer_of_ne hne]

/-- An account that pays itself has gained the amount. -/
theorem ledger_transfer_self (hacc : acc ∈ gs.accounts) (h : Processor.CanPay acc acc v gs) :
    ledger (Processor.transfer acc acc v gs) = gs.ledger.deposit acc v.toNat := by
  rw [ledger_transfer hacc hacc h, Function.update_idem]
  rfl

end SimpleGlobalState

namespace Processor

open SimpleGlobalState

variable {p : Processor SimpleGlobalState Address} {payer payee : Address} {amount : Word}

/-- The payer does not have the amount, or a payee other than the payer has no room for it. -/
def Refused (payer payee : Address) (amount : Word) (l : Ledger Address) : Prop :=
  l payer < amount.toNat ∨ payer ≠ payee ∧ 2 ^ 256 ≤ l payee + amount.toNat

instance (payer payee : Address) (amount : Word) (l : Ledger Address) : Decidable (Refused payer payee amount l) :=
  inferInstanceAs (Decidable (_ ∨ _))

/-- `pay_to` carries out the transfer, or refuses it and leaves all balances alone. -/
def AtomicTransfer (payer payee : Address) (amount : Word) (p : Processor SimpleGlobalState Address) : Prop :=
  if Refused payer payee amount p.gs.ledger then
    ∃ e q, pay_to payer payee amount p = .error e q ∧ q.gs.ledger = p.gs.ledger
  else
    ∃ q, pay_to payer payee amount p = .ok () q ∧ q.gs.ledger = p.gs.ledger.transfer payer payee amount.toNat

theorem canPay_iff {gs : SimpleGlobalState} :
    CanPay payer payee amount gs ↔
      amount.toNat ≤ gs.ledger payer ∧ gs.ledger payee + amount.toNat < 2 ^ 256 := by
  have hp := (get_balance payee gs).isLt
  have ha := amount.isLt
  rw [CanPay, BitVec.le_def, BitVec.not_lt, BitVec.le_def, BitVec.toNat_add, ledger_apply, ledger_apply]
  constructor
  · rintro ⟨h1, h2⟩
    exact ⟨h1, by omega⟩
  · rintro ⟨h1, h2⟩
    exact ⟨h1, by omega⟩

/-- Between two accounts, `pay_to` refuses just what it should. -/
theorem refused_iff_of_ne (hne : payer ≠ payee) {gs : SimpleGlobalState} :
    Refused payer payee amount gs.ledger ↔ ¬CanPay payer payee amount gs := by
  rw [canPay_iff, not_and_or, Nat.not_le, Nat.not_lt, Refused]
  simp only [hne, ne_eq, not_false_eq_true, true_and]

theorem refused_self_iff {l : Ledger Address} : Refused payer payer amount l ↔ l payer < amount.toNat := by
  simp [Refused]

theorem AtomicTransfer.of_refused (h : Refused payer payee amount p.gs.ledger)
    (hpay : ¬CanPay payer payee amount p.gs) : AtomicTransfer payer payee amount p := by
  obtain ⟨ex, hr⟩ := pay_to_error hpay
  rw [AtomicTransfer, if_pos h]
  exact ⟨_, _, hr, rfl⟩

theorem AtomicTransfer.of_not_refused (h : ¬Refused payer payee amount p.gs.ledger)
    (hpay : CanPay payer payee amount p.gs)
    (hl : ledger (transfer payer payee amount p.gs) = p.gs.ledger.transfer payer payee amount.toNat) :
    AtomicTransfer payer payee amount p := by
  rw [AtomicTransfer, if_neg h]
  exact ⟨_, pay_to_ok hpay, hl⟩

theorem atomic_of_ne (hpayer : payer ∈ p.gs.accounts) (hpayee : payee ∈ p.gs.accounts) (hne : payer ≠ payee)
    (amount : Word) : AtomicTransfer payer payee amount p := by
  by_cases hpay : CanPay payer payee amount p.gs
  · have h : ¬Refused payer payee amount p.gs.ledger := by
      rw [refused_iff_of_ne hne]
      exact not_not.2 hpay
    exact .of_not_refused h hpay (ledger_transfer_of_ne hpayer hpayee hne hpay)
  · exact .of_refused ((refused_iff_of_ne hne).2 hpay) hpay

/-- Paying itself, an account may be refused only for what it does not have; what it has, it must keep. -/
theorem atomic_self_iff (hpayer : payer ∈ p.gs.accounts) :
    AtomicTransfer payer payer amount p ↔ amount = 0 ∨ get_balance payer p.gs < amount := by
  by_cases hlt : get_balance payer p.gs < amount
  · have h : Refused payer payer amount p.gs.ledger := refused_self_iff.2 (BitVec.lt_def.1 hlt)
    have hpay : ¬CanPay payer payer amount p.gs := fun hpay => BitVec.not_lt.2 hpay.1 hlt
    exact iff_of_true (.of_refused h hpay) (.inr hlt)
  have hle : amount.toNat ≤ p.gs.ledger payer := BitVec.le_def.1 (BitVec.not_lt.1 hlt)
  have h : ¬Refused payer payer amount p.gs.ledger := fun h => Nat.not_lt.2 hle (refused_self_iff.1 h)
  constructor
  · intro hat
    rw [AtomicTransfer, if_neg h, Ledger.transfer_self hle] at hat
    obtain ⟨q, hr, hq⟩ := hat
    by_cases hpay : CanPay payer payer amount p.gs
    · rw [pay_to_ok hpay] at hr
      obtain rfl := (EStateM.Result.ok.inj hr).2
      -- the balance has risen by the amount
      have hrise := congrFun ((ledger_transfer_self hpayer hpay).symm.trans hq) payer
      rw [Ledger.deposit, Function.update_self] at hrise
      exact .inl (BitVec.eq_of_toNat_eq (by simpa using hrise))
    · obtain ⟨ex, he⟩ := pay_to_error hpay
      rw [he] at hr
      cases hr
  · rintro (rfl | hlt')
    · have hpay : CanPay payer payer 0 p.gs := 
        canPay_iff.2 ⟨hle, by simpa [ledger_apply] using (get_balance payer p.gs).isLt⟩
      refine .of_not_refused h hpay ?_
      rw [ledger_transfer_self hpayer hpay, Ledger.transfer_self hle]
      simp [Ledger.deposit]
    · exact absurd hlt' hlt

/-- `pay_to` is an atomic transfer but for the payments of an account to itself that it could make. -/
theorem atomic_transfer_iff (hpayer : payer ∈ p.gs.accounts) (hpayee : payee ∈ p.gs.accounts) (amount : Word) :
    AtomicTransfer payer payee amount p ↔ payer ≠ payee ∨ amount = 0 ∨ get_balance payer p.gs < amount := by
  by_cases hne : payer = payee
  · subst hne
    rw [atomic_self_iff hpayer]
    simp
  · exact iff_of_true (atomic_of_ne hpayer hpayee hne amount) (.inl hne)

/-- A world of one account, which has 5. -/
def rich : Processor SimpleGlobalState Address :=
  { gs := .of_accounts [{ address := 100, balance := 5 }], tx := { origin := 0 } }

theorem atomic_transfer_rich : AtomicTransfer 100 100 6 rich ↔ (100 : Address) ≠ 100 ∨ (6 : Word) = 0 ∨
    get_balance (100 : Address) rich.gs < 6 :=
  atomic_transfer_iff (by decide) (by decide) 6

theorem self_payment_not_atomic :
    (100 : Address) ∈ rich.gs.accounts ∧ ¬AtomicTransfer 100 100 1 rich := by
  refine ⟨by decide, ?_⟩
  rw [atomic_self_iff (by decide)]
  decide

end Processor

end EEVM

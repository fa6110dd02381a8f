import EEVM.Absent
import EEVM.World
/-!
# An account without a frame (processor.cpp:206-233, 998-1012, 1216-1342)

An instruction writes the storage of the account of the context on top, takes from its balance and puts it on the
selfdestruct_list. So where no context is of an account, that account keeps its storage, is not taken from and is not
removed, whoever runs its code.
-/
namespace EEVM

open Std ExcState

namespace SimpleGlobalState

variable {acc a k addr : Address} {gs gs' : SimpleGlobalState}

/-- Each account is at its own address. -/
structure Keyed (gs : SimpleGlobalState) : Prop where
  address_eq : ∀ (k : Address) (e : StateEntry), gs.accounts[k]? = some e → e.1.address = k

theorem Keyed.address (h : Keyed gs) (hk : k ∈ gs.accounts) : get_address k gs = k := by
  obtain ⟨e, he⟩ := mem_iff_exists.1 hk
  change (gs.entry k).1.address = k
  rw [entry_eq, he]
  exact h.address_eq k e he

theorem Keyed.insert {e : StateEntry} (h : Keyed gs) : Keyed (gs.insert e) := by
  constructor
  intro k e' hk
  rw [getElem?_insert] at hk
  split at hk
  · rename_i heq
    cases hk
    exact heq.1
  · exact h.address_eq k e' hk

theorem Keyed.get (h : Keyed gs) (addr : Address) : Keyed (GlobalState.get addr gs).2 := by
  constructor
  intro k e hk
  rw [getElem?_get] at hk
  split at hk
  · rename_i heq
    cases hk
    exact heq.1
  · exact h.address_eq k e hk

theorem Keyed.set_account {f : SimpleAccount → SimpleAccount} (h : Keyed gs) (hf : ∀ x, (f x).address = x.address) :
    Keyed (gs.set_account a f) := by
  constructor
  intro k e hk
  rw [getElem?_set_account] at hk
  split at hk
  · obtain ⟨e', he, rfl⟩ := Option.map_eq_some_iff.1 hk
    rw [hf]
    exact h.address_eq k e' he
  · exact h.address_eq k e hk

theorem Keyed.set_balance (h : Keyed gs) (a : Address) (b : Word) : Keyed (set_balance a b gs) :=
  h.set_account (f := fun x => { x with balance := b }) fun _ => rfl

theorem Keyed.set_storage {f : SimpleStorage → SimpleStorage} (h : Keyed gs) : Keyed (gs.set_storage a f) := by
  constructor
  intro k e hk
  rw [getElem?_set_storage] at hk
  split at hk
  · obtain ⟨e', he, rfl⟩ := Option.map_eq_some_iff.1 hk
    exact h.address_eq k e' he
  · exact h.address_eq k e hk

/-! ## What an account keeps -/

/-- The storage of the account is the same, it is there if it was, and its balance is no smaller. -/
structure Intact (acc : Address) (gs gs' : SimpleGlobalState) : Prop where
  storage : (gs'.entry acc).2 = (gs.entry acc).2
  present : acc ∈ gs.accounts → acc ∈ gs'.accounts
  balance : get_balance acc gs ≤ get_balance acc gs'

namespace Intact

theorem refl (acc : Address) (gs : SimpleGlobalState) : Intact acc gs gs := ⟨rfl, id, BitVec.le_refl _⟩

theorem trans {gs'' : SimpleGlobalState} (h : Intact acc gs gs') (h' : Intact acc gs' gs'') : Intact acc gs gs'' :=
  ⟨h'.storage.trans h.storage, h'.present ∘ h.present, BitVec.le_trans h.balance h'.balance⟩

/-- What is at the address is the same. -/
theorem of_getElem?_eq (h : gs'.accounts[acc]? = gs.accounts[acc]?) : Intact acc gs gs' := by
  have he : gs'.entry acc = gs.entry acc := by
    rw [entry_eq, entry_eq, h]
  refine ⟨congrArg Prod.snd he, ?_, ?_⟩
  · rw [mem_iff_exists, mem_iff_exists, h]
    exact id
  · change (gs.entry acc).1.balance ≤ (gs'.entry acc).1.balance
    rw [he]
    exact BitVec.le_refl _

/-- An account that is inserted where there is none has an empty storage. -/
theorem insert (account : SimpleAccount) (gs : SimpleGlobalState) : Intact acc gs (gs.insert (account, ∅)) := by
  by_cases h : account.address = acc ∧ acc ∉ gs.accounts
  · have hat := getElem?_insert (account, ∅) acc gs
    rw [if_pos h] at hat
    have hnone : gs.accounts[acc]? = none := ExtTreeMap.getElem?_eq_none h.2
    refine ⟨?_, fun hin => absurd hin h.2, ?_⟩
    · rw [entry_eq, entry_eq, hat, hnone]
      rfl
    · rw [balance_of_not_mem h.2]
      exact BitVec.le_def.2 (Nat.zero_le _)
  · apply of_getElem?_eq
    rw [getElem?_insert, if_neg h]

theorem get (addr : Address) (gs : SimpleGlobalState) : Intact acc gs (GlobalState.get addr gs).2 := by
  by_cases h : addr ∈ gs.accounts
  · rw [get_of_mem h]
    exact refl acc gs
  · have hi := @Intact.insert acc { address := addr } gs
    rw [insert_of_not_mem (show (({ address := addr }, ∅) : StateEntry).1.address ∉ gs.accounts from h)] at hi
    rw [get_of_not_mem h]
    exact hi

theorem create (addr : Address) (v : Word) (code : Code) (gs : SimpleGlobalState) :
    Intact acc gs (GlobalState.create addr v code gs).2 := insert _ gs

theorem set_storage (hne : a ≠ acc) (f : SimpleStorage → SimpleStorage) : Intact acc gs (gs.set_storage a f) := by
  apply of_getElem?_eq
  rw [getElem?_set_storage, if_neg hne]

theorem set_code (a : Address) (code : Code) (gs : SimpleGlobalState) : Intact acc gs (set_code a code gs) := by
  refine ⟨snd_entry_set_account a acc _ gs, (mem_set_account _).2, ?_⟩
  have hb : get_balance acc (GlobalState.set_code a code gs) = get_balance acc gs :=
    field_entry_set_account a acc (fun x => { x with code }) SimpleAccount.balance (fun _ => rfl) gs
  rw [hb]
  exact BitVec.le_refl _

theorem transfer {this other : Address} {amount : Word} (hne : this ≠ acc)
    (hpay : Processor.CanPay this other amount gs) : Intact acc gs (Processor.transfer this other amount gs) := by
  unfold Processor.transfer
  refine ⟨?_, ?_, ?_⟩
  · exact (snd_entry_set_account other acc _ _).trans (snd_entry_set_account this acc _ _)
  · intro h
    exact mem_set_balance.2 (mem_set_balance.2 h)
  · by_cases ho : other = acc
    · -- the account is paid, and not more than it can be
      subst ho
      by_cases hin : other ∈ gs.accounts
      · rw [balance_set_balance (mem_set_balance.2 hin)]
        exact BitVec.not_lt.1 hpay.2
      · rw [balance_of_not_mem hin]
        exact BitVec.le_def.2 (Nat.zero_le _)
    · rw [balance_set_balance_of_ne ho, balance_set_balance_of_ne hne]
      exact BitVec.le_refl _

theorem remove (hne : addr ≠ acc) : Intact acc gs (gs.remove addr) := by
  apply of_getElem?_eq
  simp [SimpleGlobalState.remove, ExtTreeMap.getElem?_erase, hne]

end Intact

end SimpleGlobalState

namespace Processor

open SimpleGlobalState

variable {acc callee caller : Address} {gs gs' : SimpleGlobalState} {tx tx' : Transaction}
  {tr : Option (List TraceEvent)} {input : Bytes} {call_value : Word}

section

variable [Keccak]

/-! ## An instruction -/

/-- The instructions of another account's context keep the account, and the addresses of all. -/
theorem WorldCase.intact {c : Context Address} (h : WorldCase gs c gs') (hne : c.as ≠ acc) : Intact acc gs gs' := by
  cases h with
  | same => exact .refl acc gs
  | stores => exact .set_storage hne _
  | removes => exact .set_storage hne _
  | looks => exact .get _ gs
  | pays _ hpay => exact (Intact.get _ gs).trans (.transfer hne hpay)
  | creates => exact .create _ _ _ gs
  | endows _ _ hpay => exact (Intact.create _ _ _ gs).trans (.transfer hne hpay)
  | gives_code => exact .set_code _ _ gs

omit [Keccak] in
theorem keyed_transfer (h : Keyed gs) (this other : Address) (amount : Word) : Keyed (transfer this other amount gs) :=
  (h.set_balance this _).set_balance other _

theorem WorldCase.keyed {c : Context Address} (h : WorldCase gs c gs') (hk : Keyed gs) : Keyed gs' := by
  cases h with
  | same => exact hk
  | stores | removes => exact hk.set_storage
  | looks => exact hk.get _
  | pays => exact keyed_transfer (hk.get _) ..
  | creates => exact hk.insert
  | endows => exact keyed_transfer hk.insert ..
  | gives_code => exact hk.set_account fun _ => rfl

theorem WorldCase.mem {c : Context Address} {k : Address} (h : WorldCase gs c gs') (hk : k ∈ gs.accounts) :
    k ∈ gs'.accounts := by
  have htransfer : ∀ {this other amount} {g : SimpleGlobalState}, k ∈ g.accounts →
      k ∈ (transfer this other amount g).accounts := fun h => mem_set_balance.2 (mem_set_balance.2 h)
  cases h with
  | same => exact hk
  | stores | removes => exact (mem_set_storage _).2 hk
  | looks => exact (mem_get_iff _ gs).2 (.inr hk)
  | pays => exact htransfer ((mem_get_iff _ gs).2 (.inr hk))
  | creates => exact (mem_create_iff _ _ _ gs).2 (.inr hk)
  | endows => exact htransfer ((mem_create_iff _ _ _ gs).2 (.inr hk))
  | gives_code => exact (mem_set_account _).2 hk

/-! ## A run -/

/-- What a run without a frame of the account keeps of the world it began with. -/
structure Isolated (acc : Address) (gs : SimpleGlobalState) (p : Processor SimpleGlobalState Address) : Prop where
  keyed : Keyed p.gs
  intact : Intact acc gs p.gs
  list : acc ∉ p.tx.selfdestruct_list

theorem Isolated.effect {p p' : Processor SimpleGlobalState Address} {c : Context Address} (h : Isolated acc gs p)
    (he : Effect c p p') (hne : c.as ≠ acc) (hmem : c.as ∈ p.gs.accounts) : Isolated acc gs p' := by
  have hkeyed := he.world.keyed h.keyed
  refine ⟨hkeyed, h.intact.trans (he.world.intact hne), ?_⟩
  cases he.list with
  | same hl =>
    rw [hl]
    exact h.list
  | destructs hl =>
    rw [hl, hkeyed.address (he.world.mem hmem)]
    simp [h.list, hne.symm]

/-- The account of a context is in the world. -/
theorem mem_of_reaches (hcallee : callee ∈ gs.accounts) {p : Processor SimpleGlobalState Address}
    (hr : Loop.Reaches iterate (start gs tx tr caller callee input call_value) p) {c : Context Address}
    (hc : c ∈ p.ctxts) : c.as ∈ p.gs.accounts := by
  have hblind : ∀ q : Processor SimpleGlobalState Address, (absent_veil []).Blind q := by
    intro q
    refine ⟨fun _ _ _ => trivial, ?_⟩
    intro _ _ _ _ _ _ _ _ hnil
    cases hnil
  exact (((safe_start hcallee).reaches (fun q _ => hblind q) hr).ctxts c hc).as

/-- **Write isolation.** A run that returns, and in which no context is of the account, leaves the account its storage, does
not remove it and takes nothing from it. -/
theorem write_isolation (hkeyed : Keyed gs) (hcallee : callee ∈ gs.accounts) (htx : tx.selfdestruct_list = [])
    (hframe : ∀ p, Loop.Reaches iterate (start gs tx tr caller callee input call_value) p → ∀ c ∈ p.ctxts, c.as ≠ acc)
    {fuel : Nat} {result : ExecResult}
    (hrun : run fuel gs tx caller callee input call_value tr = some (.returns result gs' tx')) : Intact acc gs gs' := by
  obtain ⟨r, hends, hfinish⟩ := exists_run_iff.1 ⟨fuel, hrun⟩
  have hstart : Isolated acc gs (start gs tx tr caller callee input call_value) :=
    ⟨hkeyed, .refl acc gs, by rw [show (start gs tx tr caller callee input call_value).tx = tx from rfl, htx]; simp⟩
  have hfinal : Isolated acc gs (final r) := by
    refine (run_effect hstart ?_).2 r hends
    intro p c cs p' hr hp h he
    have hc : c ∈ p.ctxts := by simp [hp]
    exact h.effect he (hframe p hr c hc) (mem_of_reaches hcallee hr hc)
  cases r with
  | error e p => cases hfinish
  | ok u p =>
    cases hfinish
    refine List.foldlRecOn p.tx.selfdestruct_list _ hfinal.intact ?_
    intro g hg addr haddr
    have hne : addr ≠ acc := by
      rintro rfl
      exact hfinal.list haddr
    exact hg.trans (.remove hne)

end

/-- Account 100 runs the code of account 200, which stores a 1 at key 0, and then destructs itself in its favour. -/
def borrowing_world : SimpleGlobalState := .of_accounts
  [{ address := 100, balance := 5
     code := [0x60, 0, 0x60, 0, 0x60, 0, 0x60, 0, 0x60, 200, 0x60, 0, 0xf4, 0x60, 200, 0xff] },
    { address := 200, balance := 3, code := [0x60, 1, 0x60, 0, 0x55, 0x00] }]

theorem keyed_of_accounts (accs : List SimpleAccount) : Keyed (.of_accounts accs) := by
  refine List.foldlRecOn accs _ ⟨?_⟩ fun gs h _ _ => h.insert
  intro k e hk
  simp at hk

theorem write_isolation_selfdestruct : ∃ result gs' tx',
    @run _ _ _ no_hash 30 borrowing_world { origin := 1 } 1 100 [] 0 none = some (.returns result gs' tx') ∧
      Intact 200 borrowing_world gs' := by
  refine ⟨_, _, _, rfl, ?_⟩
  refine @write_isolation 200 100 1 borrowing_world _ { origin := 1 } _ none [] 0 no_hash (keyed_of_accounts _)
    (by decide) rfl ?_ 30 _ rfl
  intro p hr c hc
  have hall := @Loop.Reaches.of_all _ _ (@iterate _ _ _ no_hash) (fun p => p.ctxts.all (·.as ≠ 200)) 30 _ _ hr rfl
  simpa using List.all_eq_true.1 hall c hc

end Processor

end EEVM

import EEVM.Accounts
import EEVM.Exceptional
import EEVM.Veil
/-!
# Accounts that are absent (simple/simpleglobalstate.cpp:8-55, processor.cpp:1216-1243)

`SimpleGlobalState::get` makes a zero-initialised account of one that is absent. A run does not notice whether that has
been done before, with one exception: `CREATE` inserts an account with its endowment where there is none, and where there
is one `insert` fails its assertion and the endowment is lost. So a world with more zero-initialised accounts is behind a
veil as long as nothing is created at their addresses (`absent_unobservable`).
-/
namespace EEVM

open Std ExcState

namespace SimpleGlobalState

/-- The world with a zero-initialised account at each of the addresses, where it has none. -/
def with_absent (addrs : List Address) (gs : SimpleGlobalState) : SimpleGlobalState :=
  { gs with accounts := addrs.foldl (fun m addr => m.insertIfNew addr ({ address := addr }, ∅)) gs.accounts }

variable {addrs : List Address} {a addr k : Address} {gs : SimpleGlobalState}

theorem getElem?_with_absent (addrs : List Address) (k : Address) (gs : SimpleGlobalState) :
    (gs.with_absent addrs).accounts[k]? =
      if k ∈ addrs ∧ k ∉ gs.accounts then some ({ address := k }, ∅) else gs.accounts[k]? := by
  unfold with_absent
  dsimp only
  generalize gs.accounts = m
  induction addrs generalizing m with
  | nil => simp
  | cons addr addrs ih =>
    rw [List.foldl_cons, ih]
    simp only [ExtTreeMap.mem_insertIfNew, ExtTreeMap.getElem?_insertIfNew, LawfulEqOrd.compare_eq_iff_eq, List.mem_cons]
    by_cases hk : addr = k
    · subst hk
      by_cases hm : addr ∈ m
      · simp [hm]
      · simp [hm]
    · have hk' : ¬k = addr := fun h => hk h.symm
      simp [hk, hk']

theorem mem_with_absent : k ∈ (gs.with_absent addrs).accounts ↔ k ∈ addrs ∨ k ∈ gs.accounts := by
  have hk := getElem?_with_absent addrs k gs
  by_cases hm : k ∈ gs.accounts
  · have hs : gs.accounts[k]?.isSome = true := ExtTreeMap.mem_iff_isSome_getElem?.1 hm
    simp [ExtTreeMap.mem_iff_isSome_getElem? (a := k), hk, hs]
  · simp [ExtTreeMap.mem_iff_isSome_getElem? (a := k) (t := (with_absent addrs gs).accounts), hk, hm]

theorem getElem?_with_absent_of_mem (h : k ∈ gs.accounts) : (gs.with_absent addrs).accounts[k]? = gs.accounts[k]? := by
  simp [getElem?_with_absent, h]

theorem entry_with_absent (h : k ∈ gs.accounts) : entry k (gs.with_absent addrs) = gs.entry k := by
  rw [entry_eq, entry_eq, getElem?_with_absent_of_mem h]

/-- An account that is there is changed in the same way. -/
theorem set_account_with_absent (h : a ∈ gs.accounts) (f : SimpleAccount → SimpleAccount) :
    (gs.with_absent addrs).set_account a f = (gs.set_account a f).with_absent addrs := by
  refine ext_accounts rfl rfl fun k => ?_
  simp only [getElem?_set_account, getElem?_with_absent, mem_set_account]
  by_cases hk : a = k
  · subst hk
    simp [h]
  · simp [hk]

theorem set_storage_with_absent (h : a ∈ gs.accounts) (f : SimpleStorage → SimpleStorage) :
    (gs.with_absent addrs).set_storage a f = (gs.set_storage a f).with_absent addrs := by
  refine ext_accounts rfl rfl fun k => ?_
  simp only [getElem?_set_storage, getElem?_with_absent, mem_set_storage]
  by_cases hk : a = k
  · subst hk
    simp [h]
  · simp [hk]

/-- What is inserted is inserted in the same way, unless the veil has it already. -/
theorem insert_with_absent {e : StateEntry} (h : e.1.address ∈ addrs → e.1.address ∈ gs.accounts) :
    insert e (gs.with_absent addrs) = (gs.insert e).with_absent addrs := by
  by_cases hin : e.1.address ∈ gs.accounts
  · rw [insert_of_mem hin, insert_of_mem (mem_with_absent.2 (.inr hin))]
    rfl
  · have hnot : e.1.address ∉ (gs.with_absent addrs).accounts := by
      rw [mem_with_absent]
      exact fun h' => h'.elim (fun h' => hin (h h')) hin
    have hnot' : e.1.address ∉ addrs := fun h' => hin (h h')
    rw [insert_of_not_mem hin, insert_of_not_mem hnot]
    refine ext_accounts rfl rfl fun k => ?_
    simp only [getElem?_with_absent, ExtTreeMap.getElem?_insert, ExtTreeMap.mem_insert, LawfulEqOrd.compare_eq_iff_eq]
    by_cases hk : e.1.address = k
    · subst hk
      simp [hnot']
    · simp [hk]

theorem get_with_absent (addr : Address) (gs : SimpleGlobalState) :
    GlobalState.get addr (gs.with_absent addrs) = (addr, (GlobalState.get addr gs).2.with_absent addrs) := by
  by_cases hin : addr ∈ gs.accounts
  · rw [get_of_mem hin, get_of_mem (mem_with_absent.2 (.inr hin))]
  by_cases haddrs : addr ∈ addrs
  · -- the account that is made is the one that is there under the veil
    rw [get_of_not_mem hin, get_of_mem (mem_with_absent.2 (.inl haddrs))]
    refine Prod.ext rfl (ext_accounts rfl rfl fun k => ?_)
    simp only [getElem?_with_absent, ExtTreeMap.getElem?_insert, ExtTreeMap.mem_insert, LawfulEqOrd.compare_eq_iff_eq]
    by_cases hk : addr = k
    · subst hk
      simp [haddrs, hin]
    · simp [hk]
  · have hi : insert ({ address := addr }, ∅) (gs.with_absent addrs) = (gs.insert ({ address := addr }, ∅)).with_absent addrs :=
      insert_with_absent fun h => absurd h haddrs
    have hnot : addr ∉ (gs.with_absent addrs).accounts := by simp [mem_with_absent, haddrs, hin]
    rw [insert_of_not_mem (show (({ address := addr }, ∅) : StateEntry).1.address ∉ gs.accounts from hin),
      insert_of_not_mem hnot] at hi
    rw [get_of_not_mem hin, get_of_not_mem hnot, hi]

/-! ## The veil -/

/-- Behind it are the zero-initialised accounts at the addresses; references are to accounts that are there. -/
def absent_veil (addrs : List Address) : Veil SimpleGlobalState Address where
  cover := with_absent addrs
  inv _ := True
  ok acc gs := acc ∈ gs.accounts
  own _ := True
  free addr gs := addr ∈ addrs → addr ∈ gs.accounts
  cover_block _ := rfl
  cover_block_hash _ _ := rfl
  cover_address h := congrArg (·.1.address) (entry_with_absent h)
  cover_balance h := congrArg (·.1.balance) (entry_with_absent h)
  cover_nonce h := congrArg (·.1.nonce) (entry_with_absent h)
  cover_code h := congrArg (·.1.code) (entry_with_absent h)
  cover_load k h _ := congrArg (SimpleStorage.load k ·.2) (entry_with_absent h)
  cover_set_balance b h := set_account_with_absent h _
  cover_set_code code h := set_account_with_absent h _
  cover_store k v h _ := set_storage_with_absent h _
  cover_remove_key k h _ := set_storage_with_absent h _
  cover_get addr _ := by rw [get_with_absent, (mem_get addr _).1]
  cover_create addr b code _ hfree := congrArg (Prod.mk addr) (insert_with_absent (e := ({ address := addr, balance := b, code }, ∅)) hfree)
  grows_set_balance a b gs := ⟨id, fun _ => (mem_set_account _).2⟩
  grows_set_code a code gs := ⟨id, fun _ => (mem_set_account _).2⟩
  grows_store a k v gs := ⟨id, fun _ => (mem_set_storage _).2⟩
  grows_remove_key a k gs := ⟨id, fun _ => (mem_set_storage _).2⟩
  grows_get addr gs := ⟨id, fun _ h => (mem_get_iff addr gs).2 (.inr h)⟩
  grows_create addr b code gs := ⟨id, fun _ h => (mem_create_iff addr b code gs).2 (.inr h)⟩
  ok_get addr gs := by
    rw [(mem_get addr gs).1]
    exact (mem_get addr gs).2
  ok_create addr b code gs := by
    rw [(mem_create addr b code gs).1]
    exact (mem_create addr b code gs).2

end SimpleGlobalState

namespace Processor

open SimpleGlobalState

variable {addrs : List Address} {gs gs' : SimpleGlobalState} {tx : Transaction} {tr : Option (List TraceEvent)}
  {caller callee : Address} {input : Bytes} {call_value : Word}

theorem start_with_absent (h : callee ∈ gs.accounts) :
    start (gs.with_absent addrs) tx tr caller callee input call_value =
      (absent_veil addrs).covered (start gs tx tr caller callee input call_value) := by
  have hcode : get_code callee (gs.with_absent addrs) = get_code callee gs := (absent_veil addrs).cover_code h
  unfold start Veil.covered
  rw [hcode]
  rfl

theorem safe_start (h : callee ∈ gs.accounts) :
    (absent_veil addrs).Safe (start gs tx tr caller callee input call_value) := by
  refine ⟨trivial, ?_⟩
  intro c hc
  obtain rfl := List.mem_singleton.1 hc
  exact ⟨h, nofun⟩

/-! ## Outcomes that agree -/

/-- The same block, the same accounts up to zero-initialised ones, and in both or in neither has the assertion failed. -/
structure SameState (gs gs' : SimpleGlobalState) : Prop where
  block : gs'.currentBlock = gs.currentBlock
  assert_failed : gs'.assert_failed = gs.assert_failed
  accounts : SameAccounts gs gs'

/-- The same result, the same transaction with its logs and its selfdestruct_list, and the same state. -/
inductive Agrees : Outcome SimpleGlobalState → Outcome SimpleGlobalState → Prop
  | returns {result gs gs' tx} (h : SameState gs gs') : Agrees (.returns result gs tx) (.returns result gs' tx)
  | throws {e gs gs' tx} (h : SameState gs gs') : Agrees (.throws e gs tx) (.throws e gs' tx)

theorem Agrees.balance {o o' : Option (Outcome SimpleGlobalState)} (h : Option.Rel Agrees o o') (addr : Address) :
    (o'.map fun o => (look addr o.gs).1.balance) = o.map fun o => (look addr o.gs).1.balance := by
  cases h with
  | none => rfl
  | some h =>
    cases h with
    | returns h | throws h => exact congrArg (some ·.1.balance) (h.accounts addr)

theorem look_with_absent (addrs : List Address) (k : Address) (gs : SimpleGlobalState) :
    look k (gs.with_absent addrs) = look k gs := by
  unfold look
  rw [getElem?_with_absent]
  by_cases h : k ∈ gs.accounts
  · simp [h]
  · simp only [h, not_false_eq_true, and_true, ExtTreeMap.getElem?_eq_none h]
    split <;> rfl

theorem sameState_with_absent (addrs : List Address) (gs : SimpleGlobalState) : SameState gs (gs.with_absent addrs) :=
  ⟨rfl, rfl, fun k => look_with_absent addrs k gs⟩

theorem SameState.remove (h : SameState gs gs') (addr : Address) : SameState (gs.remove addr) (gs'.remove addr) := by
  refine ⟨h.block, h.assert_failed, ?_⟩
  intro k
  have hk := h.accounts k
  unfold look at hk ⊢
  simp only [SimpleGlobalState.remove, ExtTreeMap.getElem?_erase, LawfulEqOrd.compare_eq_iff_eq]
  by_cases he : addr = k
  · simp [he]
  · rw [if_neg he, if_neg he]
    exact hk

theorem agrees_finish (r : EStateM.Result Thrown (Processor SimpleGlobalState Address) Unit) :
    Agrees (finish r) (finish (mapState (absent_veil addrs).covered r)) := by
  cases r with
  | error e p => exact .throws (sameState_with_absent addrs p.gs)
  | ok u p =>
    refine .returns ?_
    exact List.foldl_rel (sameState_with_absent addrs p.gs) fun addr _ gs gs' h => h.remove addr

section

variable [Keccak]

/-- The instruction about to be carried out creates an account at one of the addresses, where there is none. -/
def CreatesAt (addrs : List Address) (p : Processor SimpleGlobalState Address) : Prop :=
  ∃ c cs v code c', p.ctxts = c :: cs ∧ c.next_op = some .CREATE ∧ create_operands c = .ok (v, code) c' ∧
    new_address p.gs c ∈ addrs ∧ new_address p.gs c ∉ p.gs.accounts

theorem blind_of_not_createsAt {p : Processor SimpleGlobalState Address} (h : ¬CreatesAt addrs p) :
    (absent_veil addrs).Blind p := by
  refine ⟨fun _ _ _ => trivial, ?_⟩
  intro c cs hp hop v code c' hops haddrs
  by_contra hnot
  exact h ⟨c, cs, v, code, c', hp, hop, hops, haddrs, hnot⟩

/-- **Absent accounts.** A run that creates nothing at the addresses does not see whether they are absent or have
zero-initialised accounts: it takes the same steps, with the same outcome. -/
theorem absent_unobservable (addrs : List Address) (hcallee : callee ∈ gs.accounts)
    (hcreates : ∀ p, Loop.Reaches iterate (start gs tx tr caller callee input call_value) p → ¬CreatesAt addrs p) :
    (∀ n, Loop.steps iterate n (start (gs.with_absent addrs) tx tr caller callee input call_value) =
      (Loop.steps iterate n (start gs tx tr caller callee input call_value)).map
        fun p => { p with gs := p.gs.with_absent addrs }) ∧
    ∀ fuel, Option.Rel Agrees (run fuel gs tx caller callee input call_value tr)
      (run fuel (gs.with_absent addrs) tx caller callee input call_value tr) := by
  obtain ⟨hsteps, hruns⟩ := Veil.runs_covered (@safe_start addrs _ _ _ _ _ _ _ hcallee)
    fun p hr => blind_of_not_createsAt (hcreates p hr)
  constructor
  · intro n
    rw [start_with_absent hcallee]
    exact hsteps n
  · intro fuel
    rw [run, run, start_with_absent hcallee, hruns, Option.map_map]
    cases Loop.run iterate fuel (start gs tx tr caller callee input call_value) with
    | none => exact .none
    | some r => exact .some (agrees_finish r)

end

/-- Account 100 asks for the balance of account 300, which is absent, and stores it. -/
def asking_world : SimpleGlobalState := .of_accounts [{ address := 100, code := [0x61, 1, 44, 0x31, 0x60, 0, 0x55] }]

theorem absent_unobservable_balance : Option.Rel Agrees
    (@run _ _ _ no_hash 10 asking_world { origin := 1 } 1 100 [] 0 none)
    (@run _ _ _ no_hash 10 (asking_world.with_absent [0, 300]) { origin := 1 } 1 100 [] 0 none) := by
  refine (@absent_unobservable _ _ _ _ _ _ _ no_hash [0, 300] (by decide) ?_).2 10
  rintro p hr ⟨c, cs, -, -, -, hp, hop, -⟩
  have hall := @Loop.Reaches.of_all _ _ (@iterate _ _ _ no_hash)
    (fun p => p.ctxts.all (·.next_op ≠ some .CREATE)) 10 _ _ hr rfl
  have hc := List.all_eq_true.1 hall c (by simp [hp])
  simp [hop] at hc

/-- Account 100, with a balance of 1, creates an account and endows it with 1. -/
def endowing_world : SimpleGlobalState :=
  .of_accounts [{ address := 100, balance := 1, code := [0x60, 1, 0x60, 0, 0x60, 1, 0xf0, 0x00] }]

/-- The new account has a balance of 2 where there was none at its address, and of 1 where there was a zero-initialised
one, with which the insertion fails its assertion. -/
theorem absent_observable : 0 ∉ endowing_world.accounts ∧ 100 ∈ endowing_world.accounts ∧ ¬Option.Rel Agrees
    (@run _ _ _ no_hash 10 endowing_world { origin := 1 } 1 100 [] 0 none)
    (@run _ _ _ no_hash 10 (endowing_world.with_absent [0]) { origin := 1 } 1 100 [] 0 none) := by
  refine ⟨by decide, by decide, ?_⟩
  intro h
  have hb := Agrees.balance h 0
  exact absurd hb (by decide)

end Processor

end EEVM

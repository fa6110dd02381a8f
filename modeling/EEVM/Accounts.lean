import EEVM.Balance
/-!
# What is at an address (simple/simpleglobalstate.cpp:8-55)

For each method of `SimpleGlobalState`, and each method of an account or storage that changes it, what is at the key `k`
of the map afterwards. Two worlds are the same when block, flag and all keys agree (`ext_accounts`).
-/
namespace EEVM

open Std

namespace SimpleGlobalState

variable {gs gs' : SimpleGlobalState} {acc addr a k : Address}

theorem ext_accounts (hb : gs.currentBlock = gs'.currentBlock) (hf : gs.assert_failed = gs'.assert_failed)
    (h : ∀ k : Address, gs.accounts[k]? = gs'.accounts[k]?) : gs = gs' := by
  obtain ⟨block, accounts, failed⟩ := gs
  obtain ⟨block', accounts', failed'⟩ := gs'
  obtain rfl : block = block' := hb
  obtain rfl : failed = failed' := hf
  obtain rfl : accounts = accounts' := ExtTreeMap.ext_getElem? fun {k} => h k
  rfl

/-! ## `insert`, `create`, `get` -/

/-- `insert` asserts that the account is new. -/
theorem insert_of_mem {e : StateEntry} (h : e.1.address ∈ gs.accounts) : gs.insert e = { gs with assert_failed := true } := by
  simp [insert, h]

theorem insert_of_not_mem {e : StateEntry} (h : e.1.address ∉ gs.accounts) :
    gs.insert e = { gs with accounts := gs.accounts.insert e.1.address e } := by
  simp [insert, h]

theorem getElem?_insert (e : StateEntry) (k : Address) (gs : SimpleGlobalState) : (gs.insert e).accounts[k]? =
    if e.1.address = k ∧ k ∉ gs.accounts then some e else gs.accounts[k]? := by
  by_cases h : e.1.address ∈ gs.accounts
  · rw [insert_of_mem h]
    by_cases hk : e.1.address = k
    · subst hk
      simp [h]
    · simp [hk]
  · rw [insert_of_not_mem h, ExtTreeMap.getElem?_insert]
    by_cases hk : e.1.address = k
    · subst hk
      simp [h]
    · simp [hk]

/-- `get` inserts a zero-initialised account where there is none; the assertion does not fail in it. -/
theorem get_of_mem (h : addr ∈ gs.accounts) : GlobalState.get addr gs = (addr, gs) := by
  change get addr gs = _
  simp [get, h]

theorem get_of_not_mem (h : addr ∉ gs.accounts) :
    GlobalState.get addr gs = (addr, { gs with accounts := gs.accounts.insert addr ({ address := addr }, ∅) }) := by
  change get addr gs = _
  simp [get, create, insert, h]

/-- What is found after a look-up: the account itself is there from then on. -/
theorem getElem?_get (addr k : Address) (gs : SimpleGlobalState) : (GlobalState.get addr gs).2.accounts[k]? =
    if addr = k ∧ k ∉ gs.accounts then some ({ address := addr }, ∅) else gs.accounts[k]? := by
  by_cases h : addr ∈ gs.accounts
  · rw [get_of_mem h]
    by_cases hk : addr = k
    · subst hk
      simp [h]
    · simp [hk]
  · rw [get_of_not_mem h, ExtTreeMap.getElem?_insert]
    by_cases hk : addr = k
    · subst hk
      simp [h]
    · simp [hk]

/-- A look-up makes the account it is for, and no other. -/
theorem mem_get_iff (addr : Address) (gs : SimpleGlobalState) :
    k ∈ (GlobalState.get addr gs).2.accounts ↔ k = addr ∨ k ∈ gs.accounts := by
  by_cases h : addr ∈ gs.accounts
  · rw [get_of_mem h]
    constructor
    · exact .inr
    · rintro (rfl | hk)
      · exact h
      · exact hk
  · rw [get_of_not_mem h, ExtTreeMap.mem_insert, LawfulEqOrd.compare_eq_iff_eq, eq_comm]

/-- `create` makes the account it is for, and no other. -/
theorem mem_create_iff (addr : Address) (b : Word) (code : Code) (gs : SimpleGlobalState) :
    k ∈ (GlobalState.create addr b code gs).2.accounts ↔ k = addr ∨ k ∈ gs.accounts := by
  change k ∈ (gs.insert ({ address := addr, balance := b, code }, ∅)).accounts ↔ _
  by_cases h : addr ∈ gs.accounts
  · rw [insert_of_mem h]
    constructor
    · exact .inr
    · rintro (rfl | hk)
      · exact h
      · exact hk
  · rw [insert_of_not_mem h, ExtTreeMap.mem_insert, LawfulEqOrd.compare_eq_iff_eq, eq_comm]

/-! ## Changes of one entry -/

/-- A change of one account leaves the others alone. -/
theorem getElem?_set_account (acc k : Address) (f : SimpleAccount → SimpleAccount) (gs : SimpleGlobalState) :
    (gs.set_account acc f).accounts[k]? =
      if acc = k then gs.accounts[k]?.map fun e => (f e.1, e.2) else gs.accounts[k]? := by
  rw [set_account, ExtTreeMap.getElem?_modify]
  by_cases h : acc = k
  · subst h
    simp
  · simp [h]

theorem getElem?_set_storage (acc k : Address) (f : SimpleStorage → SimpleStorage) (gs : SimpleGlobalState) :
    (gs.set_storage acc f).accounts[k]? =
      if acc = k then gs.accounts[k]?.map fun e => (e.1, f e.2) else gs.accounts[k]? := by
  rw [set_storage, ExtTreeMap.getElem?_modify]
  by_cases h : acc = k
  · subst h
    simp
  · simp [h]

theorem mem_set_account (f : SimpleAccount → SimpleAccount) : k ∈ (gs.set_account acc f).accounts ↔ k ∈ gs.accounts := by
  rw [set_account, ExtTreeMap.mem_modify]

theorem mem_set_storage (f : SimpleStorage → SimpleStorage) : k ∈ (gs.set_storage acc f).accounts ↔ k ∈ gs.accounts := by
  rw [set_storage, ExtTreeMap.mem_modify]

/-- Changes of the account and of the storage do not meet. -/
theorem set_account_set_storage (acc acc' : Address) (f : SimpleAccount → SimpleAccount)
    (g : SimpleStorage → SimpleStorage) (gs : SimpleGlobalState) :
    (gs.set_storage acc' g).set_account acc f = (gs.set_account acc f).set_storage acc' g := by
  refine ext_accounts rfl rfl fun k => ?_
  simp only [getElem?_set_account, getElem?_set_storage]
  by_cases h : acc = k
  · by_cases h' : acc' = k
    · simp only [if_pos h, if_pos h', Option.map_map]
      rfl
    · simp only [if_pos h, if_neg h']
  · by_cases h' : acc' = k
    · simp only [if_neg h, if_pos h']
    · simp only [if_neg h, if_neg h']

/-- Changes of different storages can be made in either order. -/
theorem set_storage_comm {acc acc' : Address} (hne : acc ≠ acc') (f g : SimpleStorage → SimpleStorage)
    (gs : SimpleGlobalState) : (gs.set_storage acc' g).set_storage acc f = (gs.set_storage acc f).set_storage acc' g := by
  refine ext_accounts rfl rfl fun k => ?_
  simp only [getElem?_set_storage]
  by_cases h : acc = k
  · have h' : acc' ≠ k := fun h' => hne (h.trans h'.symm)
    simp only [if_pos h, if_neg h']
  · simp only [if_neg h]

/-! ## Entries -/

theorem fst_entry_set_storage (a acc : Address) (f : SimpleStorage → SimpleStorage) (gs : SimpleGlobalState) :
    (entry a (gs.set_storage acc f)).1 = (gs.entry a).1 := by
  rw [entry_eq, entry_eq, getElem?_set_storage]
  by_cases h : acc = a
  · rw [if_pos h]
    cases gs.accounts[a]? <;> rfl
  · rw [if_neg h]

theorem entry_set_storage_of_ne (h : a ≠ acc) (f : SimpleStorage → SimpleStorage) (gs : SimpleGlobalState) :
    entry a (gs.set_storage acc f) = gs.entry a := by
  rw [entry_eq, entry_eq, getElem?_set_storage, if_neg fun h' => h h'.symm]

theorem snd_entry_set_account (a acc : Address) (f : SimpleAccount → SimpleAccount) (gs : SimpleGlobalState) :
    (entry acc (gs.set_account a f)).2 = (gs.entry acc).2 := by
  rw [entry_eq, entry_eq, getElem?_set_account]
  split
  · cases gs.accounts[acc]? <;> rfl
  · rfl

/-- A field that the change leaves alone. -/
theorem field_entry_set_account {β : Type} (a acc : Address) (f : SimpleAccount → SimpleAccount) (g : SimpleAccount → β)
    (hf : ∀ x, g (f x) = g x) (gs : SimpleGlobalState) : g (entry acc (gs.set_account a f)).1 = g (gs.entry acc).1 := by
  rw [entry_eq, entry_eq, getElem?_set_account]
  split
  · cases gs.accounts[acc]? with
    | none => rfl
    | some e => exact hf e.1
  · rfl

/-- A field of an account that does not see its balance. -/
theorem field_entry_transfer {β : Type} (f : SimpleAccount → β) (hf : ∀ x b, f { x with balance := b } = f x)
    (this other : Address) (amount : Word) (gs : SimpleGlobalState) (k : Address) :
    f (entry k (Processor.transfer this other amount gs)).1 = f (gs.entry k).1 :=
  (field_entry_set_account other k _ f (fun x => hf x _) _).trans
    (field_entry_set_account this k _ f (fun x => hf x _) gs)

/-! ## Code -/

/-- An account that is not there has no code. -/
theorem get_code_of_not_mem (h : k ∉ gs.accounts) : get_code k gs = [] := by
  change (gs.entry k).1.code = []
  rw [entry_eq, ExtTreeMap.getElem?_eq_none h]
  rfl

/-- A look-up does not change the code of any account. -/
theorem get_code_get (addr : Address) (gs : SimpleGlobalState) (k : Address) :
    get_code k (GlobalState.get addr gs : Address × _).2 = get_code k gs := by
  change (entry k (GlobalState.get addr gs).2).1.code = (gs.entry k).1.code
  rw [entry_eq, entry_eq, getElem?_get]
  split
  · rename_i h
    rw [ExtTreeMap.getElem?_eq_none h.2]
    rfl
  · rfl

theorem get_code_transfer (this other : Address) (amount : Word) (gs : SimpleGlobalState) (k : Address) :
    get_code k (Processor.transfer this other amount gs) = get_code k gs :=
  field_entry_transfer SimpleAccount.code (fun _ _ => rfl) this other amount gs k

end SimpleGlobalState

end EEVM

import EEVM.Accounts
import EEVM.Veil
/-!
# The storage of an account without a frame (processor.cpp:998-1028, 1265-1342, simple/simplestorage.cpp:21-46)

`SLOAD` and `SSTORE` work on the storage of the account of the context on top, also where that context executes the code
of another account. No other instruction sees a storage. So the storage of an account that no context is of is behind a
veil: the run from a world with another storage for it is the same run (`storage_confidential`).
-/
namespace EEVM

open Std ExcState

namespace SimpleGlobalState

/-- The world with this storage for the account. -/
def with_storage (acc : Address) (storage : SimpleStorage) (gs : SimpleGlobalState) : SimpleGlobalState :=
  gs.set_storage acc fun _ => storage

/-- Two worlds that differ in the storage of one account, if in anything. -/
structure DifferInStorage (acc : Address) (gs gs' : SimpleGlobalState) : Prop where
  block : gs'.currentBlock = gs.currentBlock
  assert_failed : gs'.assert_failed = gs.assert_failed
  account : gs'.accounts[acc]?.map Prod.fst = gs.accounts[acc]?.map Prod.fst
  others : ∀ k : Address, k ≠ acc → gs'.accounts[k]? = gs.accounts[k]?

variable {acc a k : Address} {storage : SimpleStorage} {gs gs' : SimpleGlobalState}

theorem DifferInStorage.eq (h : DifferInStorage acc gs gs') : gs' = gs.with_storage acc (gs'.entry acc).2 := by
  refine ext_accounts h.block h.assert_failed fun k => ?_
  rw [with_storage, getElem?_set_storage, entry_eq]
  by_cases hk : acc = k
  · subst hk
    have ha := h.account
    rw [if_pos rfl]
    cases hg : gs.accounts[acc]? with
    | none => simpa [hg] using ha
    | some e =>
      cases hg' : gs'.accounts[acc]? with
      | none => simp [hg, hg'] at ha
      | some e' =>
        have hfst : e'.1 = e.1 := by simpa [hg, hg'] using ha
        simp [← hfst]
  · rw [if_neg hk, h.others k fun h => hk h.symm]

/-- An account that is absent in both worlds has no storage in either. -/
theorem DifferInStorage.mem_or_empty (h : DifferInStorage acc gs gs') : acc ∈ gs.accounts ∨ (gs'.entry acc).2 = ∅ := by
  by_cases hin : acc ∈ gs.accounts
  · exact .inl hin
  · have ha := h.account
    rw [ExtTreeMap.getElem?_eq_none hin] at ha
    rw [entry_eq, Option.map_eq_none_iff.1 ha]
    exact .inr rfl

/-! ## What the methods see -/

/-- The storage of an account that is inserted is the empty one. -/
theorem insert_with_storage (h : acc ∈ gs.accounts ∨ storage = ∅) (account : SimpleAccount) :
    insert (account, ∅) (gs.with_storage acc storage) = (gs.insert (account, ∅)).with_storage acc storage := by
  have hmem : account.address ∈ (gs.with_storage acc storage).accounts ↔ account.address ∈ gs.accounts := mem_set_storage _
  by_cases hin : account.address ∈ gs.accounts
  · rw [insert_of_mem (e := (account, ∅)) hin, insert_of_mem (e := (account, ∅)) (hmem.2 hin)]
    rfl
  · rw [insert_of_not_mem (e := (account, ∅)) hin, insert_of_not_mem (e := (account, ∅)) (mt hmem.1 hin)]
    refine ext_accounts rfl rfl fun k => ?_
    simp only [with_storage, getElem?_set_storage, ExtTreeMap.getElem?_insert, LawfulEqOrd.compare_eq_iff_eq]
    by_cases hk : account.address = k
    · by_cases hacc : acc = k
      · obtain rfl : storage = ∅ := h.resolve_left (by rw [hacc, ← hk]; exact hin)
        simp [hk, hacc]
      · simp [hk, hacc]
    · simp [hk]

theorem get_with_storage (h : acc ∈ gs.accounts ∨ storage = ∅) (addr : Address) :
    GlobalState.get addr (gs.with_storage acc storage) =
      (addr, (GlobalState.get addr gs).2.with_storage acc storage) := by
  have hmem : addr ∈ (gs.with_storage acc storage).accounts ↔ addr ∈ gs.accounts := mem_set_storage _
  by_cases hin : addr ∈ gs.accounts
  · rw [get_of_mem hin, get_of_mem (hmem.2 hin)]
  · have hi := insert_with_storage h { address := addr }
    rw [insert_of_not_mem (e := ({ address := addr }, ∅)) hin,
      insert_of_not_mem (e := ({ address := addr }, ∅)) (mt hmem.1 hin)] at hi
    rw [get_of_not_mem hin, get_of_not_mem (mt hmem.1 hin), hi]

theorem remove_with_storage (addr : Address) (gs : SimpleGlobalState) :
    remove addr (gs.with_storage acc storage) = (gs.remove addr).with_storage acc storage := by
  refine ext_accounts rfl rfl fun k => ?_
  simp only [with_storage, getElem?_set_storage, remove, ExtTreeMap.getElem?_erase, LawfulEqOrd.compare_eq_iff_eq]
  by_cases hk : addr = k
  · simp [hk]
  · simp [hk]

/-! ## The veil -/

/-- Behind it is the storage of `acc`. -/
def storage_veil (acc : Address) (storage : SimpleStorage) : Veil SimpleGlobalState Address where
  cover := with_storage acc storage
  -- or an account might be made with a storage that is not the one behind the veil
  inv gs := acc ∈ gs.accounts ∨ storage = ∅
  ok _ _ := True
  own a := a ≠ acc
  free _ _ := True
  cover_block _ := rfl
  cover_block_hash _ _ := rfl
  cover_address _ := congrArg SimpleAccount.address (fst_entry_set_storage ..)
  cover_balance _ := congrArg SimpleAccount.balance (fst_entry_set_storage ..)
  cover_nonce _ := congrArg SimpleAccount.nonce (fst_entry_set_storage ..)
  cover_code _ := congrArg SimpleAccount.code (fst_entry_set_storage ..)
  cover_load k _ h := congrArg (SimpleStorage.load k ·.2) (entry_set_storage_of_ne h _ _)
  cover_set_balance b _ := set_account_set_storage ..
  cover_set_code code _ := set_account_set_storage ..
  cover_store k v _ h := set_storage_comm h ..
  cover_remove_key k _ h := set_storage_comm h ..
  cover_get addr h := by
    rw [get_with_storage h, (mem_get addr _).1]
  cover_create addr b code h _ := by
    have hi := insert_with_storage h { address := addr, balance := b, code }
    exact congrArg (Prod.mk addr) hi
  grows_set_balance a b gs := ⟨Or.imp_left (mem_set_account _).2, fun _ => id⟩
  grows_set_code a code gs := ⟨Or.imp_left (mem_set_account _).2, fun _ => id⟩
  grows_store a k v gs := ⟨Or.imp_left (mem_set_storage _).2, fun _ => id⟩
  grows_remove_key a k gs := ⟨Or.imp_left (mem_set_storage _).2, fun _ => id⟩
  grows_get addr gs := ⟨Or.imp_left fun h => (mem_get_iff addr gs).2 (.inr h), fun _ => id⟩
  grows_create addr b code gs := ⟨Or.imp_left fun h => (mem_create_iff addr b code gs).2 (.inr h), fun _ => id⟩
  ok_get _ _ := trivial
  ok_create _ _ _ _ := trivial

end SimpleGlobalState

namespace Processor

open SimpleGlobalState

/-- The outcome with another world in it. -/
def Outcome.map {W : Type} (f : W → W) : Outcome W → Outcome W
  | .returns result gs tx => .returns result (f gs) tx
  | .throws e gs tx => .throws e (f gs) tx

variable {acc : Address} {storage : SimpleStorage} {gs gs' : SimpleGlobalState}

theorem start_with_storage (tx : Transaction) (tr : Option (List TraceEvent)) (caller callee : Address) (input : Bytes)
    (call_value : Word) : start (gs.with_storage acc storage) tx tr caller callee input call_value =
      (storage_veil acc storage).covered (start gs tx tr caller callee input call_value) := by
  have hcode : get_code callee (gs.with_storage acc storage) = get_code callee gs :=
    (storage_veil acc storage).cover_code trivial
  unfold start Veil.covered
  rw [hcode]
  rfl

theorem finish_covered (r : EStateM.Result Thrown (Processor SimpleGlobalState Address) Unit) :
    finish (mapState (storage_veil acc storage).covered r) = (finish r).map (with_storage acc storage) := by
  cases r with
  | error e p => rfl
  | ok u p =>
    have hworld : clean_up ((storage_veil acc storage).covered p) = p.clean_up.with_storage acc storage :=
      List.foldl_hom (with_storage acc storage) fun gs addr => remove_with_storage addr gs
    simp only [mapState_ok, finish, Outcome.map, hworld]
    rfl

/-- **Confidentiality.** In a run without a frame of `acc`, its storage makes no difference, and stays what it was. -/
theorem storage_confidential [Keccak] (hd : DifferInStorage acc gs gs') (tx : Transaction)
    (tr : Option (List TraceEvent)) (caller callee : Address) (input : Bytes) (call_value : Word)
    (hframe : ∀ p, Loop.Reaches iterate (start gs tx tr caller callee input call_value) p →
      ∀ c ∈ p.ctxts, c.as ≠ acc) :
    (∀ n, Loop.steps iterate n (start gs' tx tr caller callee input call_value) =
      (Loop.steps iterate n (start gs tx tr caller callee input call_value)).map
        fun p => { p with gs := p.gs.with_storage acc (gs'.entry acc).2 }) ∧
    ∀ fuel, run fuel gs' tx caller callee input call_value tr =
      (run fuel gs tx caller callee input call_value tr).map (.map (with_storage acc (gs'.entry acc).2)) := by
  obtain ⟨storage, hstorage⟩ : ∃ storage, storage = (gs'.entry acc).2 := ⟨_, rfl⟩
  have hstart : start gs' tx tr caller callee input call_value =
      (storage_veil acc storage).covered (start gs tx tr caller callee input call_value) := by
    rw [hd.eq, ← hstorage, start_with_storage]
  have hinv : acc ∈ gs.accounts ∨ storage = ∅ := hstorage ▸ hd.mem_or_empty
  have h0 : (storage_veil acc storage).Safe (start gs tx tr caller callee input call_value) :=
    ⟨hinv, fun _ _ => ⟨trivial, fun _ _ => trivial⟩⟩
  have hblind : ∀ p, Loop.Reaches iterate (start gs tx tr caller callee input call_value) p →
      (storage_veil acc storage).Blind p := by
    intro p hr
    refine ⟨?_, fun _ _ _ _ _ _ _ _ => trivial⟩
    intro c cs hp
    exact hframe p hr c (by simp [hp])
  obtain ⟨hsteps, hruns⟩ := Veil.runs_covered h0 hblind
  rw [← hstorage]
  constructor
  · intro n
    rw [hstart]
    exact hsteps n
  · intro fuel
    rw [run, run, hstart, hruns, Option.map_map, Option.map_map]
    congr 1
    funext r
    exact finish_covered r

theorem differ_with_storage (acc : Address) (storage : SimpleStorage) (gs : SimpleGlobalState) :
    DifferInStorage acc gs (gs.with_storage acc storage) := by
  refine ⟨rfl, rfl, ?_, ?_⟩
  · rw [with_storage, getElem?_set_storage, if_pos rfl, Option.map_map]
    rfl
  · intro k hk
    rw [with_storage, getElem?_set_storage, if_neg fun h => hk h.symm]

/-- Account 100 calls account 200 with `DELEGATECALL`; account 200 stores a 1 at key 0, in the storage of account 100. -/
def delegating_world : SimpleGlobalState := .of_accounts
  [{ address := 100, code := [0x60, 0, 0x60, 0, 0x60, 0, 0x60, 0, 0x60, 200, 0x60, 0, 0xf4, 0x00] },
    { address := 200, code := [0x60, 1, 0x60, 0, 0x55] }]

/-- The same world, where account 200 has a 7 at that key. -/
def delegating_world' : SimpleGlobalState := delegating_world.with_storage 200 (SimpleStorage.store 0 7 ∅)

/-- What account 200 has stored does not matter to that run, and is left alone by it. -/
theorem storage_confidential_delegatecall :
    @run _ _ _ no_hash 20 delegating_world' { origin := 1 } 1 100 [] 0 none =
      (@run _ _ _ no_hash 20 delegating_world { origin := 1 } 1 100 [] 0 none).map
        (.map (with_storage 200 (delegating_world'.entry 200).2)) := by
  refine (@storage_confidential _ _ _ no_hash (differ_with_storage 200 _ delegating_world) _ _ _ _ _ _ ?_).2 20
  intro p hr c hc
  have hall := @Loop.Reaches.of_all _ _ (@iterate _ _ _ no_hash) (fun p => p.ctxts.all (·.as ≠ 200)) 20 _ _ hr rfl
  simpa using List.all_eq_true.1 hall c hc

end Processor

end EEVM

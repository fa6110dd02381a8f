import EEVM.Change
import EEVM.Isolation
import EEVM.Json
import EEVM.Lib.Writes
/-!
# Storage (processor.cpp:998-1012, simple/simplestorage.cpp:21-51)

`sstore` takes a key out of the map when it is given the value zero, so that a storage has one map for each content and
`operator==`, which compares the maps, compares the contents.
-/
namespace EEVM

open Std ExcState Writes

namespace SimpleStorage

variable {s t : SimpleStorage} {k v : Word}

/-- No entry holds zero. -/
def Canonical (s : SimpleStorage) : Prop := ∀ k : Word, s[k]? ≠ some 0

/-- What `SSTORE` does. -/
def set (k v : Word) (s : SimpleStorage) : SimpleStorage := if v = 0 then s.remove k else s.store k v

theorem Canonical.set (h : s.Canonical) (k v : Word) : (s.set k v).Canonical := by
  intro j
  unfold SimpleStorage.set
  split
  · rw [remove, ExtTreeMap.getElem?_erase]
    split
    · simp
    · exact h j
  · rename_i hv
    rw [store, ExtTreeMap.getElem?_insert]
    split
    · simpa using hv
    · exact h j

theorem load_set (s : SimpleStorage) (k v j : Word) : (s.set k v).load j = (single k v j).getD (s.load j) := by
  unfold SimpleStorage.set single load
  by_cases hj : j = k
  · subst hj
    by_cases hv : v = 0
    · subst hv
      simp [remove]
    · rw [if_neg hv]
      simp [store]
  · have hne : ¬k = j := fun h => hj h.symm
    by_cases hv : v = 0
    · rw [if_pos hv]
      simp [hj, hne, remove, ExtTreeMap.getElem?_erase]
    · rw [if_neg hv]
      simp [hj, hne, store, ExtTreeMap.getElem?_insert]

theorem eq_iff : SimpleStorage.eq s t = true ↔ s = t := by
  rw [SimpleStorage.eq, beq_iff_eq, ExtTreeMap.toList_inj]

theorem Canonical.getElem? (h : s.Canonical) (k : Word) : s[k]? = if s.load k = 0 then none else some (s.load k) := by
  unfold load
  cases hk : s[k]? with
  | none => rfl
  | some v =>
    have hv : v ≠ 0 := by
      rintro rfl
      exact h k hk
    rw [Option.getD_some, if_neg hv]

/-- Canonical storages are equal when they load the same values. -/
theorem Canonical.eq_iff_load (hs : s.Canonical) (ht : t.Canonical) :
    SimpleStorage.eq s t = true ↔ ∀ k, s.load k = t.load k := by
  rw [eq_iff]
  constructor
  · rintro rfl k
    rfl
  · intro h
    apply ExtTreeMap.ext_getElem?
    intro k
    rw [hs.getElem?, ht.getElem?, h]

end SimpleStorage

namespace Processor

open SimpleGlobalState SimpleStorage

variable [Keccak] {p : Processor SimpleGlobalState Address} {c : Context Address} {cs : List (Context Address)}
  {k v w : Word} {st : Stack} {s s' t t' : SimpleStorage}

/-! ## The two instructions -/

theorem dispatch_sstore (hp : p.ctxts = c :: cs) (hop : c.next_op = some .SSTORE) (hs : c.s = k :: v :: st) :
    dispatch p = .ok () { traced p c with
      gs := p.gs.set_storage c.as (SimpleStorage.set k v), ctxts := { c with s := st } :: cs } := by
  have hpop : onCtxt s_pop (traced p c) = .ok k { traced p c with ctxts := { c with s := v :: st } :: cs } := by
    rw [onCtxt_cons (p := traced p c) hp, s_pop_of_cons hs]
  have hpop' : onCtxt s_pop ({ traced p c with ctxts := { c with s := v :: st } :: cs } : Processor SimpleGlobalState Address) =
      .ok v { traced p c with ctxts := { c with s := st } :: cs } := by
    rw [onCtxt_cons rfl, s_pop_of_cons rfl]
  rw [dispatch_eq hp, hop]
  change sstore (traced p c) = _
  rw [sstore, bind_of_ok hpop, bind_of_ok hpop', bind_of_ok (ctxt_cons rfl)]
  by_cases hv : v = 0
  · rw [if_pos hv]
    have hset : SimpleStorage.set k v = SimpleStorage.remove k := by
      funext s
      rw [SimpleStorage.set, if_pos hv]
    rw [hset]
    rfl
  · rw [if_neg hv]
    have hset : SimpleStorage.set k v = SimpleStorage.store k v := by
      funext s
      rw [SimpleStorage.set, if_neg hv]
    rw [hset]
    rfl

theorem dispatch_sload (hp : p.ctxts = c :: cs) (hop : c.next_op = some .SLOAD) (hs : c.s = k :: st) :
    dispatch p = onCtxt (s_push ((p.gs.entry c.as).2.load k)) { traced p c with ctxts := { c with s := st } :: cs } := by
  have hpop : onCtxt s_pop (traced p c) = .ok k { traced p c with ctxts := { c with s := st } :: cs } := by
    rw [onCtxt_cons (p := traced p c) hp, s_pop_of_cons hs]
  rw [dispatch_eq hp, hop]
  change sload (traced p c) = _
  rw [sload, bind_of_ok hpop, bind_of_ok (ctxt_cons rfl), bind_of_ok (run_get _)]
  rfl

/-! ## Histories -/

/-- `SSTORE` of a value at a key, and `SLOAD` of a key. -/
inductive Access
  | sstore (k v : Word)
  | sload (k : Word)

/-- What the access writes. -/
def Access.write : Access → Write Word Word
  | sstore k v => single k v
  | sload _ => fun _ => none

/-- An instruction of some processor carries out the access on the storage `s` of the current account and leaves another. -/
inductive CarriesOut (s : SimpleStorage) : Access → SimpleStorage → Prop
  | sstore {p p' : Processor SimpleGlobalState Address} {c cs k v st} (hp : p.ctxts = c :: cs)
      (hop : c.next_op = some .SSTORE) (hs : c.s = k :: v :: st) (hin : c.as ∈ p.gs.accounts)
      (hbefore : (entry c.as p.gs).2 = s) (hd : dispatch p = .ok () p') : CarriesOut s (.sstore k v) (entry c.as p'.gs).2
  | sload {p p' : Processor SimpleGlobalState Address} {c cs k st} (hp : p.ctxts = c :: cs)
      (hop : c.next_op = some .SLOAD) (hs : c.s = k :: st) (hbefore : (entry c.as p.gs).2 = s)
      (hd : dispatch p = .ok () p') : CarriesOut s (.sload k) (entry c.as p'.gs).2

/-- The accesses, the oldest first, are carried out one after the other on a storage that is `s` at first. -/
inductive History (s : SimpleStorage) : List Access → SimpleStorage → Prop
  | start : History s [] s
  | access {l a} {t t' : SimpleStorage} (h : History s l t) (ha : CarriesOut t a t') : History s (l ++ [a]) t'

/-- On the storage `t` a `SLOAD` of `k` pops it and pushes `w`. -/
def Loads (t : SimpleStorage) (k w : Word) : Prop :=
  ∀ (p : Processor SimpleGlobalState Address) c cs st, p.ctxts = c :: cs → c.next_op = some .SLOAD → c.s = k :: st →
    (entry c.as p.gs).2 = t → dispatch p = onCtxt (s_push w) { traced p c with ctxts := { c with s := st } :: cs }

theorem loads_load (t : SimpleStorage) (k : Word) : Loads t k (t.load k) := by
  rintro p c cs st hp hop hs rfl
  exact dispatch_sload hp hop hs

theorem CarriesOut.of_sstore (h : CarriesOut s (.sstore k v) t) : t = s.set k v := by
  cases h with
  | @sstore p p' c cs _ _ st hp hop hs hin hbefore hd =>
    rw [dispatch_sstore hp hop hs] at hd
    cases hd
    obtain ⟨e, he⟩ := mem_iff_exists.1 hin
    have hat := getElem?_set_storage c.as c.as (SimpleStorage.set k v) p.gs
    rw [if_pos rfl, he] at hat
    rw [entry_eq, he] at hbefore
    rw [entry_eq, hat, ← hbefore]
    rfl

theorem CarriesOut.of_sload (h : CarriesOut s (.sload k) t) : t = s := by
  cases h with
  | @sload p p' c cs _ st hp hop hs hbefore hd =>
    have hd' := loads_load s k p c cs st hp hop hs hbefore
    rw [hd, eq_comm] at hd'
    have hgs : p'.gs = p.gs := ((onCtxtAt_keepsWorld 0 _).ok hd').1
    rw [hgs, hbefore]

/-- Each access keeps the storage canonical and writes what it writes. -/
theorem CarriesOut.step {a : Access} (h : CarriesOut s a t) (hs : s.Canonical) :
    t.Canonical ∧ ∀ k, t.load k = (a.write k).getD (s.load k) := by
  cases a with
  | sstore k v =>
    obtain rfl := h.of_sstore
    exact ⟨hs.set k v, load_set s k v⟩
  | sload k =>
    obtain rfl := h.of_sload
    exact ⟨hs, fun _ => rfl⟩

/-- So does a history. -/
theorem History.refines {l : List Access} (h : History s l t) (hs : s.Canonical) :
    t.Canonical ∧ ∀ k, t.load k = value (fun k => s.load k) (l.map Access.write) k := by
  induction h with
  | start => exact ⟨hs, fun _ => rfl⟩
  | access _ ha ih =>
    obtain ⟨hcanonical, hload⟩ := ha.step ih.1
    refine ⟨hcanonical, ?_⟩
    intro k
    rw [hload, ih.2, List.map_append, List.map_singleton, value_append]

/-- **Storage.** Whatever has been stored and loaded, no entry holds zero, a load pushes the value stored last, else the
initial one, and `operator==` compares what is loaded. -/
theorem storage_refines_map {l l' : List Access} (hs : s.Canonical) (h : History s l t) (hs' : s'.Canonical)
    (h' : History s' l' t') :
    t.Canonical ∧ (∀ k, Loads t k (value (fun k => s.load k) (l.map Access.write) k)) ∧
      (SimpleStorage.eq t t' = true ↔ ∀ k, t.load k = t'.load k) := by
  obtain ⟨hcanonical, hload⟩ := h.refines hs
  refine ⟨hcanonical, ?_, hcanonical.eq_iff_load (h'.refines hs').1⟩
  intro k
  rw [← hload]
  exact loads_load t k

/-- A processor at the `SSTORE` of the code of account 100, with the operands `k` and `v`. -/
def storing (k v : Word) (s : SimpleStorage) : Processor SimpleGlobalState Address where
  gs := set_storage 100 (fun _ => s) (.of_accounts [{ address := 100, code := [0x55] }])
  tx := { origin := 1 }
  ctxts := [{ as := 100, caller := 1, input := [], call_value := 0, prog := .ofCode [0x55], handlers := .run, s := [k, v] }]

theorem carriesOut_storing (k v : Word) (s : SimpleStorage) : CarriesOut s (.sstore k v) (s.set k v) := by
  have hat : (storing k v s).gs.accounts[(100 : Address)]? = some ({ address := 100, code := [0x55] }, s) := by
    simp [storing, getElem?_set_storage, SimpleGlobalState.of_accounts, SimpleGlobalState.insert]
  have hd := @dispatch_sstore _ (storing k v s) _ [] k v [] rfl rfl rfl
  have h := CarriesOut.sstore (s := s) rfl rfl rfl (mem_iff_exists.2 ⟨_, hat⟩) (by rw [entry_eq, hat]; rfl) hd
  rwa [h.of_sstore] at h

omit [Keccak] in
theorem canonical_empty : Canonical ∅ := by
  intro k
  simp

omit [Keccak] in
/-- A value is stored and taken back. -/
theorem storage_refines_map_zero : ∃ t, @History no_hash ∅ [.sstore 1 7, .sstore 1 0] t ∧ t.Canonical ∧
    @Loads no_hash t 1 0 ∧ (SimpleStorage.eq t ∅ = true ↔ ∀ k, t.load k = SimpleStorage.load k ∅) := by
  have hist : @History no_hash ∅ [.sstore 1 7, .sstore 1 0] (SimpleStorage.set 1 0 (SimpleStorage.set 1 7 ∅)) :=
    @History.access no_hash _ [.sstore 1 7] _ _ _ (@History.access no_hash _ [] _ _ _ (@History.start no_hash _)
      (@carriesOut_storing no_hash 1 7 ∅)) (@carriesOut_storing no_hash 1 0 _)
  have h := @storage_refines_map no_hash ∅ ∅ _ ∅ _ [] canonical_empty hist canonical_empty (@History.start no_hash _)
  exact ⟨_, hist, h.1, h.2.1 1, h.2.2⟩

end Processor

end EEVM

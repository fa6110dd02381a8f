import EEVM.Codes
/-!
# Accounts persist (processor.cpp:224-233, 1216-1263, simple/simpleglobalstate.cpp:8-55, simple/simpleaccount.cpp:45-58)

Accounts leave the world in the clean-up behind the loop only. It removes the addresses in the selfdestruct_list, where a
`SELFDESTRUCT` puts the one of its account when it has transferred the balance.

A code is only set when a context returns whose handlers `create` has made. As long as the assertion of `insert` does not
fail, `create` makes them for an account that has not been there before, so that they are made once; and they are gone
when the context is (`Closed`). But that handler sets the code through a reference that dangles (`EEVM.Dangling`), so that
what the source does is defined just when no code is set at all.
-/
namespace EEVM

open Std ExcState

namespace Processor

open SimpleGlobalState

variable [Keccak] {gs gs' : SimpleGlobalState} {c d f : Context Address} {cs : List (Context Address)}
  {p p' q : Processor SimpleGlobalState Address} {k newAcc : Address} {o : Code}

/-- The `SELFDESTRUCT` that `c` is about to carry out gets past its transfer. -/
structure Destructs (gs : SimpleGlobalState) (c : Context Address) : Prop where
  next_op : c.next_op = some .SELFDESTRUCT
  pays : ∃ addr d, pop_addr c = .ok addr d ∧
    CanPay c.as (recipient gs addr).1 (get_balance c.as (recipient gs addr).2) (recipient gs addr).2

/-- Such an instruction is carried out in this turn, in a context of `k`. -/
def DestructsIn (k : Address) (p : Processor SimpleGlobalState Address) : Prop :=
  ∃ c cs, p.ctxts = c :: cs ∧ c.pc_valid = true ∧ c.as = k ∧ Destructs p.gs c

/-! ## The selfdestruct_list -/

omit [Keccak] in
theorem Changes.same_list {op : Option Opcode} (h : Changes op p q) (hop : op ≠ some .SELFDESTRUCT) :
    q.tx.selfdestruct_list = p.tx.selfdestruct_list := by
  induction h with
  | refl => rfl
  | tail _ hc ih =>
    rw [← ih]
    cases hc with
    | selfdestruct _ hop' => exact absurd hop' hop
    | _ => rfl

/-- The list is only changed by a `SELFDESTRUCT` that gets past its transfer. -/
theorem list_of_not_destructs (hp : p.ctxts = c :: cs) (h : ¬Destructs p.gs c) :
    (final (dispatch p)).tx.selfdestruct_list = p.tx.selfdestruct_list := by
  by_cases hop : c.next_op = some .SELFDESTRUCT
  · have hcase := dispatch_selfdestruct hp hop
    generalize dispatch p = r at hcase
    cases hcase with
    | refused => rfl
    | unpaid => rfl
    | paid hops hpay => exact absurd ⟨hop, _, _, hops, hpay⟩ h
  · obtain ⟨p1, hc, ht⟩ := dispatch_cases hp
    have hlist := hc.same_list hop
    have hend : ∀ {r}, Ending p1 r → (final r).tx.selfdestruct_list = p.tx.selfdestruct_list := by
      intro r he
      obtain ⟨n, hd⟩ := he.final_dropped
      rw [hd.tx, ← hlist]
    generalize dispatch p = r at ht
    cases ht with
    | done => exact hlist
    | throws => exact hlist
    | @opens f op hop' hcall hf =>
      unfold push_context
      rw [bind_of_ok (run_get p1)]
      split <;> exact hlist
    | returns hop' output => exact hend (.returns output)
    | stops => exact hend .stops

/-- And then by the address of its account. -/
theorem list_of_destructs (hp : p.ctxts = c :: cs) (h : Destructs p.gs c) : (final (dispatch p)).tx.selfdestruct_list =
    p.tx.selfdestruct_list ++ [get_address c.as (final (dispatch p)).gs] := by
  obtain ⟨addr, d, hops, hpay⟩ := h.pays
  have hcase := dispatch_selfdestruct hp h.next_op
  generalize dispatch p = r at hcase
  cases hcase with
  | refused _ hno => exact absurd hops (hno addr d)
  | unpaid hops' hno =>
    cases hops.symm.trans hops'
    exact absurd hpay hno
  | @paid addr' d' gs1 hops' hpay' hgs =>
    obtain ⟨hworld, htx⟩ := stop_keepsWorld.final { traced p c with
      gs := gs1, tx := { p.tx with selfdestruct_list := p.tx.selfdestruct_list ++ [get_address c.as gs1] }, ctxts := d' :: cs }
    have haddress := congrArg (fun g => p.tx.selfdestruct_list ++ [get_address c.as g]) hworld.symm
    exact (congrArg Transaction.selfdestruct_list htx).trans haddress

/-! ## A turn -/

/-- A turn puts the account into the list just when it destructs it. -/
theorem Turned.mem_list_iff (hq : Turned p c q) (hp : p.ctxts = c :: cs) (hkeyed : Keyed p.gs) (hmem : c.as ∈ p.gs.accounts) :
    k ∈ q.tx.selfdestruct_list ↔ k ∈ p.tx.selfdestruct_list ∨ DestructsIn k p := by
  have hin : DestructsIn k p ↔ c.pc_valid = true ∧ c.as = k ∧ Destructs p.gs c := by
    constructor
    · rintro ⟨c', cs', hp', h⟩
      obtain ⟨rfl, rfl⟩ := List.cons.inj (hp.symm.trans hp')
      exact h
    · exact fun h => ⟨c, cs, hp, h⟩
  rw [hin]
  rcases hq with ⟨⟨-, htx⟩, hv⟩ | ⟨⟨-, htx⟩, hv⟩
  · have hworld := (dispatch_effect hp).world
    by_cases hd : Destructs p.gs c
    · have haddress : get_address c.as (final (dispatch p)).gs = c.as :=
        (hworld.keyed hkeyed).address (hworld.mem hmem)
      rw [htx, list_of_destructs hp hd, haddress]
      simp [hv, hd, eq_comm]
    · rw [htx, list_of_not_destructs hp hd]
      simp [hd]
  · rw [htx]
    simp [hv]

/-! ## New accounts -/

omit [Keccak] in
theorem created_failed {gs : SimpleGlobalState} {addr : Address} (h : addr ∈ gs.accounts) (v : Word) :
    (GlobalState.create addr v [] gs : Address × SimpleGlobalState).2.assert_failed = true := by
  have hi := insert_of_mem (e := ({ address := addr, balance := v, code := [] }, ∅)) h
  change (SimpleGlobalState.insert ({ address := addr, balance := v, code := [] }, ∅) gs).assert_failed = true
  rw [hi]

/-- A creation at an address that is taken fails the assertion. -/
theorem CreateCase.fresh {r} (h : CreateCase p c cs r) (hc : Creating c) (hf : (final r).gs.assert_failed = false) :
    new_address p.gs c ∉ p.gs.accounts := by
  intro hmem
  obtain ⟨v, code, c', hops⟩ := hc.operands
  have hfailed : ∀ v, (created p.gs c v).2.assert_failed = true := created_failed hmem
  cases h with
  | refused _ hno => exact hno _ _ hops
  | unpaid => exact Bool.false_ne_true (hf.symm.trans (hfailed _))
  | paid _ _ h =>
    rw [h.sameList.1] at hf
    exact Bool.false_ne_true (hf.symm.trans (hfailed _))

theorem fresh_of_next (hp : p.ctxts = c :: cs) (hc : Creating c) (hn : iterate p = .next p')
    (hf : p'.gs.assert_failed = false) : new_address p.gs c ∉ p.gs.accounts := by
  rw [world_of_next hp hn] at hf
  exact (dispatch_create hp hc.op).fresh hc hf

/-- An assertion that has failed stays failed. -/
theorem WorldCase.failed (h : WorldCase gs c gs') (hf : gs.assert_failed = true) : gs'.assert_failed = true := by
  have hinsert : ∀ e, (gs.insert e).assert_failed = true := by
    intro e
    by_cases he : e.1.address ∈ gs.accounts
    · rw [insert_of_mem he]
    · rw [insert_of_not_mem he]
      exact hf
  have hget : ∀ addr, (GlobalState.get addr gs : Address × _).2.assert_failed = true := by
    intro addr
    by_cases h : addr ∈ gs.accounts
    · rw [get_of_mem h]
      exact hf
    · rw [get_of_not_mem h]
      exact hf
  cases h with
  | same | stores | removes | gives_code => exact hf
  | looks => exact hget _
  | pays => exact hget _
  | creates => exact hinsert _
  | endows => exact hinsert _

/-- `k` is in the world, and no open context is running its init code. -/
structure Closed (k : Address) (p : Processor SimpleGlobalState Address) : Prop where
  mem : k ∈ p.gs.accounts
  handlers : ∀ c ∈ p.ctxts, c.handlers ≠ .create k

theorem Closed.next (h : Closed k p) (hs : Shaped p.ctxts) (hn : iterate p = .next p') (hf : p'.gs.assert_failed = false) :
    Closed k p' := by
  obtain ⟨c, cs, hp, -, -⟩ := next_cases hn
  refine ⟨((turn_effect hp).1 p' hn).world.mem h.mem, ?_⟩
  intro f hfm
  rcases (moves_of_next hs hn).mem hfm with ⟨d, hd, hsame⟩ | ⟨c0, c', cs0, h0, hp', -⟩
  · rw [hsame.handlers]
    exact h.handlers d hd
  · cases opens_of_next h0 hn hp' with
    | init hop hops hf' =>
      rw [hf', step_handlers]
      rintro ⟨⟩
      exact fresh_of_next h0 ⟨hop, _, _, _, hops⟩ hn hf h.mem
    | call hop hcall hops hin hf' =>
      rw [hf', step_handlers]
      exact nofun

/-- The code of a closed account does not change. -/
theorem Closed.code (h : Closed k p) (hnew : NewInWorld p) (hp : p.ctxts = c :: cs) (hq : Turned p c q) :
    get_code k q.gs = get_code k p.gs := by
  have hc : c ∈ p.ctxts := by simp [hp]
  rcases hq.code hp with hsame | ⟨newAcc, o, hd, hworld⟩
  · exact hsame k
  · have hne : k ≠ newAcc := by
      rintro rfl
      exact h.handlers c hc hd.handlers
    rw [hworld, get_code_set_code (hnew c hc newAcc hd.handlers), if_neg hne]

/-- No account has two contexts that are running its init code. -/
def InitOnce (p : Processor SimpleGlobalState Address) : Prop :=
  p.ctxts.Pairwise fun c d => ∀ newAcc, c.handlers = .create newAcc → d.handlers ≠ .create newAcc

theorem InitOnce.next (h : InitOnce p) (hnew : NewInWorld p) (hs : Shaped p.ctxts) (hn : iterate p = .next p')
    (hf : p'.gs.assert_failed = false) : InitOnce p' := by
  refine (moves_of_next hs hn).pairwise h ?_ ?_
  · intro c c' d hsame hcd newAcc hc'
    exact hcd newAcc (hsame.handlers.symm.trans hc')
  · intro f c c' cs hp hp' hsame d hd newAcc hfh hdh
    cases opens_of_next hp hn hp' with
    | init hop hops hf' =>
      rw [hf', step_handlers] at hfh
      cases hfh
      -- the accounts that are being created already are in the world
      have hmem : new_address p.gs c ∈ p.gs.accounts := by
        rcases List.mem_cons.1 hd with rfl | hd
        · exact hnew c (by simp [hp]) _ (hsame.handlers.symm.trans hdh)
        · exact hnew d (by simp [hp, hd]) _ hdh
      exact fresh_of_next hp ⟨hop, _, _, _, hops⟩ hn hf hmem
    | call hop hcall hops hin hf' =>
      rw [hf', step_handlers] at hfh
      cases hfh

/-- When the context of the init code has returned, the account is closed. -/
theorem closed_of_deploys (h : InitOnce p) (hnew : NewInWorld p) (hs : Shaped p.ctxts) (hp : p.ctxts = c :: cs)
    (hd : Deploys c k o) (hn : iterate p = .next p') : Closed k p' := by
  have hmem := hnew c (by simp [hp]) k hd.handlers
  refine ⟨((turn_effect hp).1 p' hn).world.mem hmem, ?_⟩
  obtain ⟨d, d', ds, rfl, hp', hsame⟩ := deploys_next hs hp hd hn
  rw [InitOnce, hp, List.pairwise_cons] at h
  rw [hp']
  intro f hf
  rcases List.mem_cons.1 hf with rfl | hf
  · rw [hsame.handlers]
    exact h.1 d List.mem_cons_self k hd.handlers
  · exact h.1 f (List.mem_cons_of_mem d hf) k hd.handlers

/-- Init code runs as the account that is being created. -/
def InitAsNew (p : Processor SimpleGlobalState Address) : Prop :=
  ∀ c ∈ p.ctxts, ∀ newAcc, c.handlers = .create newAcc → c.as = newAcc

theorem InitAsNew.next (h : InitAsNew p) (hs : Shaped p.ctxts) (hn : iterate p = .next p') : InitAsNew p' := by
  intro f hf newAcc hh
  rcases (moves_of_next hs hn).mem hf with ⟨d, hd, hsame⟩ | ⟨c, c', cs, hp, hp', -⟩
  · rw [hsame.as]
    exact h d hd newAcc (hsame.handlers.symm.trans hh)
  · cases opens_of_next hp hn hp' with
    | init hop hops hf' =>
      rw [hf', step_handlers] at hh
      cases hh
      rw [hf', (step_sameFrame _).as]
      rfl
    | call hop hcall hops hin hf' =>
      rw [hf', step_handlers] at hh
      cases hh

/-! ## The clean-up -/

omit [Keccak] in
theorem getElem?_removed (l : List Address) (gs : SimpleGlobalState) (k : Address) :
    (l.foldl (fun gs addr => GlobalState.remove addr gs) gs).accounts[k]? = if k ∈ l then none else gs.accounts[k]? := by
  induction l generalizing gs with
  | nil => simp
  | cons addr l ih =>
    have herase : (GlobalState.remove addr gs).accounts[k]? = if addr = k then none else gs.accounts[k]? := by
      change (gs.accounts.erase addr)[k]? = _
      simp [ExtTreeMap.getElem?_erase]
    rw [List.foldl_cons, ih, herase]
    by_cases hk : k ∈ l
    · simp [hk]
    · simp [hk, eq_comm]

omit [Keccak] in
theorem removed_failed (l : List Address) (gs : SimpleGlobalState) :
    (l.foldl (fun gs addr => GlobalState.remove addr gs) gs).assert_failed = gs.assert_failed := by
  induction l generalizing gs with
  | nil => rfl
  | cons addr l ih =>
    rw [List.foldl_cons, ih]
    rfl

omit [Keccak] in
theorem mem_clean_up : k ∈ p.clean_up.accounts ↔ k ∈ p.gs.accounts ∧ k ∉ p.tx.selfdestruct_list := by
  have h := getElem?_removed p.tx.selfdestruct_list p.gs k
  rw [mem_iff_exists, mem_iff_exists, clean_up, h]
  by_cases hk : k ∈ p.tx.selfdestruct_list <;> simp [hk]

/-! ## A run -/

/-- A state of the run that starts in `p0`, the last one included. -/
def RunState (p0 p : Processor SimpleGlobalState Address) : Prop :=
  Loop.Reaches iterate p0 p ∨ Loop.Ends iterate p0 (.ok () p)

/-- What becomes of the accounts in a run that starts in `p0` in the world `gs` and leaves the world `gs'` and the
selfdestruct_list `list`, all of it within what the source defines. -/
structure Persists (gs : SimpleGlobalState) (p0 : Processor SimpleGlobalState Address) (gs' : SimpleGlobalState)
    (list : List Address) : Prop where
  defined : Defined p0
  same_code : ∀ k ∈ gs.accounts, ∀ p, RunState p0 p → get_code k p.gs = get_code k gs
  code_after : ∀ k ∈ gs.accounts, k ∈ gs'.accounts → get_code k gs' = get_code k gs
  present_iff : ∀ k ∈ gs.accounts, k ∈ gs'.accounts ↔ ¬∃ p, Loop.Reaches iterate p0 p ∧ DestructsIn k p
  gives_code : ∀ p c cs q, Loop.Reaches iterate p0 p → p.ctxts = c :: cs → TurnsTo p q →
    (∀ k, get_code k q.gs = get_code k p.gs) ∨
      ∃ k o, Deploys c k o ∧ c.as = k ∧ k ∉ gs.accounts ∧ q.gs = set_code k o p.gs
  once : ∀ p q c d cs ds k o o', Loop.Reaches iterate p0 p → Later p q → p.ctxts = c :: cs → q.ctxts = d :: ds →
    Deploys c k o → ¬Deploys d k o'
  removed : ∀ k ∈ list, k ∉ gs'.accounts

/-- What holds of the contexts of a run whose assertion does not fail. -/
structure Orderly (p : Processor SimpleGlobalState Address) : Prop where
  shaped : Shaped p.ctxts
  new_in_world : NewInWorld p
  init_once : InitOnce p
  init_as_new : InitAsNew p

theorem Orderly.next (h : Orderly p) (hn : iterate p = .next p') (hf : p'.gs.assert_failed = false) : Orderly p' :=
  ⟨(h.shaped.next hn).1, h.new_in_world.next h.shaped hn, h.init_once.next h.new_in_world h.shaped hn hf,
    h.init_as_new.next h.shaped hn⟩

/-- In a run that ends without a failed assertion, it has not failed before. -/
theorem unfailed_of_ends {p0 : Processor SimpleGlobalState Address} {r} (he : Loop.Ends iterate p0 r)
    (hf : (final r).gs.assert_failed = false) (hr : Loop.Reaches iterate p0 p) : p.gs.assert_failed = false := by
  by_contra hp
  have hfailed := (run_effect (P := fun q : Processor SimpleGlobalState Address => q.gs.assert_failed = true)
    (by simpa using hp) fun _ _ _ _ _ _ h he => he.world.failed h).2 r (he.of_reaches hr)
  exact Bool.false_ne_true (hf.symm.trans hfailed)

section

variable {p0 : Processor SimpleGlobalState Address} {r : EStateM.Result Thrown (Processor SimpleGlobalState Address) Unit}

theorem orderly_of_reaches (h0 : Orderly p0) (hok : ∀ p, Loop.Reaches iterate p0 p → p.gs.assert_failed = false)
    (hr : Loop.Reaches iterate p0 p) : Orderly p := by
  refine hr.invariant h0 ?_
  intro t t' ht h hn
  exact h.next hn (hok t' (ht.tail hn))

theorem closed_of_reaches (h0 : Orderly p0) (hok : ∀ p, Loop.Reaches iterate p0 p → p.gs.assert_failed = false)
    (hc : Closed k p0) (hr : Loop.Reaches iterate p0 p) : Closed k p := by
  refine hr.invariant hc ?_
  intro t t' ht h hn
  exact h.next (orderly_of_reaches h0 hok ht).shaped hn (hok t' (ht.tail hn))

/-- The code of an account that is closed at the start is the same in every state, to the last one. -/
theorem code_of_closed (h0 : Orderly p0) (hok : ∀ p, Loop.Reaches iterate p0 p → p.gs.assert_failed = false)
    (hc : Closed k p0) : (∀ p, Loop.Reaches iterate p0 p → get_code k p.gs = get_code k p0.gs) ∧
      ∀ r, Loop.Ends iterate p0 r → get_code k (final r).gs = get_code k p0.gs := by
  refine run_invariant (P := fun q => get_code k q.gs = get_code k p0.gs) rfl ?_
  intro p c cs hr hp h
  have hkept : ∀ q, Turned p c q → get_code k q.gs = get_code k p0.gs := by
    intro q hq
    rw [(closed_of_reaches h0 hok hc hr).code (orderly_of_reaches h0 hok hr).new_in_world hp hq, h]
  exact ⟨fun p' hn => hkept p' ((turned hp).1 p' hn), fun r hx => hkept _ ((turned hp).2 r hx)⟩

/-- A code that changes is that of an account the run has made, whose init code returns. -/
theorem code_given (h0 : Orderly p0) (hok : ∀ p, Loop.Reaches iterate p0 p → p.gs.assert_failed = false)
    (hclosed : ∀ k ∈ gs.accounts, Closed k p0) (hr : Loop.Reaches iterate p0 p) (hp : p.ctxts = c :: cs) (hq : Turned p c q) :
    (∀ k, get_code k q.gs = get_code k p.gs) ∨
      ∃ k o, Deploys c k o ∧ c.as = k ∧ k ∉ gs.accounts ∧ q.gs = set_code k o p.gs := by
  have hc : c ∈ p.ctxts := by simp [hp]
  rcases hq.code hp with hsame | ⟨k, o, hd, hset⟩
  · exact .inl hsame
  · have hnew : k ∉ gs.accounts := by
      intro hk
      exact (closed_of_reaches h0 hok (hclosed k hk) hr).handlers c hc hd.handlers
    exact .inr ⟨k, o, hd, (orderly_of_reaches h0 hok hr).init_as_new c hc k hd.handlers, hnew, hset⟩

/-- Init code returns once. -/
theorem deploys_once (h0 : Orderly p0) (hok : ∀ p, Loop.Reaches iterate p0 p → p.gs.assert_failed = false)
    {ds : List (Context Address)} {o' : Code} (hr : Loop.Reaches iterate p0 p) (hl : Later p q) (hp : p.ctxts = c :: cs)
    (hq : q.ctxts = d :: ds) (hd : Deploys c k o) : ¬Deploys d k o' := by
  intro hd'
  obtain ⟨p', hn, hr'⟩ := Relation.TransGen.head'_iff.1 hl
  have horderly := orderly_of_reaches h0 hok hr
  have hclosed := closed_of_deploys horderly.init_once horderly.new_in_world horderly.shaped hp hd hn
  have hreached := hr.tail hn
  have hlater := closed_of_reaches (orderly_of_reaches h0 hok hreached) (fun t ht => hok t (hreached.trans ht)) hclosed hr'
  exact hlater.handlers d (by simp [hq]) hd'.handlers

/-- The selfdestruct_list at the end has the accounts that have been destructed. -/
theorem mem_list_iff_destructed (hlist : p0.tx.selfdestruct_list = [])
    (hkeyed : ∀ p, Loop.Reaches iterate p0 p → Keyed p.gs)
    (hmem : ∀ p, Loop.Reaches iterate p0 p → ∀ c ∈ p.ctxts, c.as ∈ p.gs.accounts) (he : Loop.Ends iterate p0 r) :
    k ∈ (final r).tx.selfdestruct_list ↔ ∃ p, Loop.Reaches iterate p0 p ∧ DestructsIn k p := by
  have hturn : ∀ p c cs q, Loop.Reaches iterate p0 p → p.ctxts = c :: cs → Turned p c q →
      (k ∈ q.tx.selfdestruct_list ↔ k ∈ p.tx.selfdestruct_list ∨ DestructsIn k p) := by
    intro p c cs q hr hp hq
    exact hq.mem_list_iff hp (hkeyed p hr) (hmem p hr c (by simp [hp]))
  constructor
  · refine (run_invariant (P := fun q => k ∈ q.tx.selfdestruct_list →
      ∃ p, Loop.Reaches iterate p0 p ∧ DestructsIn k p) (by simp [hlist]) ?_).2 r he
    intro p c cs hr hp h
    have hnew : ∀ q, Turned p c q → k ∈ q.tx.selfdestruct_list → ∃ p, Loop.Reaches iterate p0 p ∧ DestructsIn k p := by
      intro q hq hk
      rcases (hturn p c cs q hr hp hq).1 hk with hk | hd
      · exact h hk
      · exact ⟨p, hr, hd⟩
    exact ⟨fun p' hn => hnew p' ((turned hp).1 p' hn), fun r hx => hnew _ ((turned hp).2 r hx)⟩
  · rintro ⟨p, hr, hd⟩
    obtain ⟨c, cs, hp, -⟩ := id hd
    obtain ⟨s, hs, hx⟩ := he.of_reaches hr
    rcases Relation.ReflTransGen.cases_head hs with rfl | ⟨p', hn, hs⟩
    · exact (hturn p c cs _ hr hp ((turned hp).2 r hx)).2 (.inr hd)
    · have hk := (hturn p c cs p' hr hp ((turned hp).1 p' hn)).2 (.inr hd)
      refine (run_invariant (P := fun q => k ∈ q.tx.selfdestruct_list) hk ?_).2 r ⟨s, hs, hx⟩
      -- what is in the list stays there
      intro t d ds ht htd h
      have ht0 := (hr.tail hn).trans ht
      exact ⟨fun t' hn' => (hturn t d ds t' ht0 htd ((turned htd).1 t' hn')).2 (.inl h),
        fun r' hx' => (hturn t d ds _ ht0 htd ((turned htd).2 r' hx')).2 (.inl h)⟩

end

section

variable {tx tx' : Transaction} {tr : Option (List TraceEvent)} {caller callee : Address} {input : Bytes} {call_value : Word}

omit [Keccak] in
theorem orderly_start (gs : SimpleGlobalState) : Orderly (start gs tx tr caller callee input call_value) :=
  ⟨rfl, newInWorld_start, List.pairwise_singleton _ _, fun _ hc newAcc hh => absurd hh (start_handlers hc newAcc)⟩

/-- **Persistence.** In a run that returns without a failed assertion, the codes and the accounts of the world it started
with stay, but for the accounts that have destructed themselves, and a new account gets its code once, from its init code:
just when no init code returns, so that there is no new code. -/
theorem accounts_persist_iff (hkeyed : Keyed gs) (hcallee : callee ∈ gs.accounts) (htx : tx.selfdestruct_list = [])
    {fuel : Nat} {result : ExecResult}
    (hrun : run fuel gs tx caller callee input call_value tr = some (.returns result gs' tx'))
    (hassert : gs'.assert_failed = false) :
    Persists gs (start gs tx tr caller callee input call_value) gs' tx'.selfdestruct_list ↔
      ∀ p, Loop.Reaches iterate (start gs tx tr caller callee input call_value) p → ¬ReturnsInit p := by
  refine ⟨fun h => (defined_iff rfl).1 h.defined, fun hno => ?_⟩
  obtain ⟨r, hends, hfinish⟩ := exists_run_iff.1 ⟨fuel, hrun⟩
  cases r with
  | error e p => cases hfinish
  | ok u e =>
    cases hfinish
    have hok : ∀ p, Loop.Reaches iterate (start gs tx tr caller callee input call_value) p → p.gs.assert_failed = false :=
      fun p hr => unfailed_of_ends hends ((removed_failed _ _).symm.trans hassert) hr
    have hclosed : ∀ k ∈ gs.accounts, Closed k (start gs tx tr caller callee input call_value) :=
      fun k hk => ⟨hk, fun c hc => start_handlers hc k⟩
    have hkept : ∀ k ∈ gs.accounts, get_code k e.gs = get_code k gs :=
      fun k hk => (code_of_closed (orderly_start gs) hok (hclosed k hk)).2 _ hends
    have hkeyed' : ∀ p, Loop.Reaches iterate (start gs tx tr caller callee input call_value) p → Keyed p.gs :=
      (run_effect (P := fun q : Processor SimpleGlobalState Address => Keyed q.gs) hkeyed
        fun _ _ _ _ _ _ h he => he.world.keyed h).1
    have hstays : ∀ k ∈ gs.accounts, k ∈ e.gs.accounts := fun k hk =>
      (run_effect (P := fun q : Processor SimpleGlobalState Address => k ∈ q.gs.accounts) hk
        fun _ _ _ _ _ _ h he => he.world.mem h).2 _ hends
    refine ⟨(defined_iff rfl).2 hno, ?_, ?_, ?_, ?_, ?_, ?_⟩
    · rintro k hk p (hr | he)
      · exact (code_of_closed (orderly_start gs) hok (hclosed k hk)).1 p hr
      · exact (code_of_closed (orderly_start gs) hok (hclosed k hk)).2 _ he
    · intro k hk hk'
      rw [← hkept k hk]
      change (entry k e.clean_up).1.code = (entry k e.gs).1.code
      rw [entry_eq, entry_eq, clean_up, getElem?_removed, if_neg (mem_clean_up.1 hk').2]
    · intro k hk
      rw [mem_clean_up, ← mem_list_iff_destructed htx hkeyed' (fun p hr c hc => mem_of_reaches hcallee hr hc) hends]
      exact and_iff_right (hstays k hk)
    · intro p c cs q hr hp hq
      refine code_given (orderly_start gs) hok hclosed hr hp ?_
      rcases hq with hn | hx
      · exact (turned hp).1 q hn
      · exact (turned hp).2 _ hx
    · intro p q c d cs ds k o o' hr hl hp hq hd
      exact deploys_once (orderly_start gs) hok hr hl hp hq hd
    · intro k hk hk'
      exact (mem_clean_up.1 hk').2 hk

end

/-- Account 100 creates an account, whose init code stops, and then destructs itself in favour of account 200. -/
def stopping_world : SimpleGlobalState := .of_accounts
  [{ address := 100, balance := 5, code := [0x60, 1, 0x60, 0, 0x60, 0, 0xf0, 0x60, 200, 0xff] },
    { address := 200, code := [0x00] }]

omit [Keccak] in
theorem accounts_persist_stopping : ∃ result gs' tx',
    @run _ _ _ no_hash 40 stopping_world { origin := 1 } 1 100 [] 0 none = some (.returns result gs' tx') ∧
      @Persists no_hash stopping_world (start stopping_world { origin := 1 } none 1 100 [] 0) gs' tx'.selfdestruct_list := by
  refine ⟨_, _, _, rfl, ?_⟩
  exact (@accounts_persist_iff no_hash stopping_world _ { origin := 1 } _ none 1 100 [] 0 (keyed_of_accounts _)
    (by decide) rfl 40 _ rfl rfl).2 (@not_returnsInit_of_all _ _ _ no_hash _ 20 rfl)

/-- Account 100 creates an account, whose init code returns a byte, and then destructs itself in favour of account 200. -/
def leaving_world : SimpleGlobalState := .of_accounts
  [{ address := 100, balance := 5
     code := [0x64, 0x60, 1, 0x60, 0, 0xf3, 0x60, 0, 0x52, 0x60, 5, 0x60, 27, 0x60, 0, 0xf0, 0x60, 200, 0xff] },
    { address := 200, code := [0x00] }]

omit [Keccak] in
/-- The return handler of `create` is called in the tenth turn. -/
theorem not_persists_leaving : Keyed leaving_world ∧ 100 ∈ leaving_world.accounts ∧ ∃ result gs' tx',
    @run _ _ _ no_hash 40 leaving_world { origin := 1 } 1 100 [] 0 none = some (.returns result gs' tx') ∧
      gs'.assert_failed = false ∧
      ¬@Persists no_hash leaving_world (start leaving_world { origin := 1 } none 1 100 [] 0) gs' tx'.selfdestruct_list := by
  refine ⟨keyed_of_accounts _, by decide, _, _, _, rfl, rfl, fun h => ?_⟩
  have hr : @Loop.Reaches _ _ (@iterate _ _ _ no_hash) (start leaving_world { origin := 1 } none 1 100 [] 0) _ :=
    .of_steps (show @Loop.steps _ _ (@iterate _ _ _ no_hash) 10 (start leaving_world { origin := 1 } none 1 100 [] 0) =
      some _ from rfl)
  have hdefined := @Defined.reached _ _ _ no_hash _ (@Persists.defined no_hash _ _ _ _ h) _ hr
  exact absurd hdefined (by decide)

end Processor

end EEVM

import EEVM.Nested
import EEVM.Balance
/-!
# Exceptional halts (processor.cpp:206-232)

The catch block of `run` calls the exception handler and drops the context. It restores nothing, and no snapshot is
taken when a context is opened: what the instructions of a context have written stays written when it ends in an
exception, and so does the value it was called with. World and transaction are as before the call only where nothing
has been written since.
-/
namespace EEVM

open ExcState

/-- The next instruction of `c` writes neither to the world nor to the transaction: it stores, logs, destructs and
moves no value, and it is not the `RETURN` of init code. -/
structure Context.Effectless {R : Type} (c : Context R) : Prop where
  sstore : c.next_op ≠ some .SSTORE
  log : ∀ n, c.next_op ≠ some (.LOG n)
  selfdestruct : c.next_op ≠ some .SELFDESTRUCT
  return_ : c.next_op = some .RETURN → ∀ newAcc, c.handlers ≠ .create newAcc
  create : c.next_op = some .CREATE → ∀ v code c', create_operands c = .ok (v, code) c' → v = 0
  call : ∀ op, c.next_op = some op → op = .CALL ∨ op = .CALLCODE ∨ op = .DELEGATECALL →
    ∀ args c', call_operands op c = .ok args c' → Word.ofUInt64 args.value = 0

namespace Processor

variable {W R : Type} [GlobalState W R]

/-- What is left to do to the world: to look an account up or create one, without value, and to pay nothing. -/
inductive Touch : W → W → Prop
  | get (addr : Address) (gs : W) : Touch gs (GlobalState.get addr gs).2
  | create (addr : Address) (gs : W) : Touch gs (GlobalState.create addr 0 [] gs).2
  | pay (this other : R) (gs : W) : Touch gs (transfer this other 0 gs)

abbrev Touched : W → W → Prop := Relation.ReflTransGen Touch

/-- `p'` has the world of `p` up to `Touched`, and its transaction. -/
def SameEffects (p p' : Processor W R) : Prop := Touched p.gs p'.gs ∧ p'.tx = p.tx

theorem SameEffects.refl (p : Processor W R) : SameEffects p p := ⟨.refl, rfl⟩

theorem SameEffects.trans {p p' p'' : Processor W R} (h1 : SameEffects p p') (h2 : SameEffects p' p'') :
    SameEffects p p'' :=
  ⟨Relation.ReflTransGen.trans h1.1 h2.1, h2.2.trans h1.2⟩

theorem SameWorld.sameEffects {p p' : Processor W R} (h : SameWorld p p') : SameEffects p p' := by
  refine ⟨?_, h.2⟩
  rw [h.1]

/-! ## An instruction without effects -/

section

variable [Keccak] {p p' : Processor W R} {c : Context R} {cs : List (Context R)}

omit [Keccak] in
theorem Changes.sameEffects {op : Option Opcode} (h : Changes op p p') (hstore : op ≠ some .SSTORE)
    (hlog : ∀ n, op ≠ some (.LOG n)) (hsd : op ≠ some .SELFDESTRUCT)
    (hcall : ∀ o, op = some o → o.is_call = false) : SameEffects p p' := by
  induction h with
  | refl => exact .refl p
  | tail _ h ih =>
    refine ih.trans ?_
    cases h with
    | quiet | dup | goto | trace => exact ⟨.refl, rfl⟩
    | get _ addr => exact ⟨.single (.get addr _), rfl⟩
    | store _ ho | remove_key _ ho => exact absurd ho hstore
    | log _ ho => exact absurd ho (hlog _)
    | selfdestruct _ ho => exact absurd ho hsd
    | create _ ho => exact absurd (hcall _ ho) (by simp [Opcode.is_call])
    | pay _ ho =>
      rcases ho with ⟨o, ho, ho'⟩ | ho
      · exact absurd (hcall _ ho) (by simp [ho'])
      · exact absurd ho hsd

omit [Keccak] in
theorem Paid.sameEffects {n : Nat} {r} (h : Paid p c cs n r) : SameEffects p (final r) := by
  cases h <;> exact ⟨.refl, rfl⟩

theorem create_sameEffects {r} (h : CreateCase p c cs r) (he : c.Effectless) (hop : c.next_op = some .CREATE) :
    SameEffects p (final r) := by
  cases h with
  | refused => exact ⟨.refl, rfl⟩
  | unpaid hops =>
    obtain rfl := he.create hop _ _ _ hops
    exact ⟨.single (.create _ _), rfl⟩
  | paid hops _ hpaid =>
    obtain rfl := he.create hop _ _ _ hops
    refine SameEffects.trans ?_ hpaid.sameEffects
    exact ⟨.tail (.single (.create _ _)) (.pay _ _ _), rfl⟩

omit [Keccak] in
theorem call_sameEffects {op : Opcode} {r} (h : CallCase op p c cs r) (he : c.Effectless)
    (hop : c.next_op = some op) (hcall : op = .CALL ∨ op = .CALLCODE ∨ op = .DELEGATECALL) :
    SameEffects p (final r) := by
  cases h with
  | refused => exact ⟨.refl, rfl⟩
  | unpaid => exact ⟨.single (.get _ _), rfl⟩
  | paid hops _ _ hpaid =>
    have hv := he.call op hop hcall _ _ hops
    refine SameEffects.trans ?_ hpaid.sameEffects
    rw [hv]
    exact ⟨.tail (.single (.get _ _)) (.pay _ _ _), rfl⟩

theorem dispatch_sameEffects (hp : p.ctxts = c :: cs) (he : c.Effectless) : SameEffects p (final (dispatch p)) := by
  by_cases hcall : ∃ op, c.next_op = some op ∧ op.is_call
  · obtain ⟨op, hop, hcall⟩ := hcall
    rcases Opcode.is_call_iff.1 hcall with rfl | hcall
    · have h : SameEffects (traced p c) _ := create_sameEffects (dispatch_create hp hop) he hop
      exact h
    · have h : SameEffects (traced p c) _ := call_sameEffects (dispatch_call hp hop hcall) he hop hcall
      exact h
  have hop : ∀ o, c.next_op = some o → o.is_call = false := by
    intro o ho
    by_contra h
    exact hcall ⟨o, ho, by simpa using h⟩
  obtain ⟨p1, hc, ht⟩ := dispatch_cases hp
  have h1 := hc.sameEffects he.sstore he.log he.selfdestruct hop
  obtain ⟨c1, hp1, hsame⟩ := hc.top hp
  generalize dispatch p = r at ht
  refine h1.trans ?_
  cases ht with
  | done | throws => exact .refl _
  | opens ho hcall' => exact absurd hcall' (by simp [hop _ ho])
  | returns ho output =>
    have hh := he.return_ ho
    rw [← hsame.handlers] at hh
    exact (returning_keepsWorld hp1 hh output).sameEffects
  | stops => exact (stop_keepsWorld.final p1).sameEffects

/-! ## Runs -/

/-- Every instruction from `p` up to that of `q` is without effects. -/
def EffectlessUntil (p q : Processor W R) : Prop :=
  ∀ s c cs, Loop.Reaches iterate p s → Loop.Reaches iterate s q → s.ctxts = c :: cs → c.Effectless

theorem next_sameEffects (h : iterate p = .next p') (he : ∀ c cs, p.ctxts = c :: cs → c.Effectless) :
    SameEffects p p' := by
  obtain ⟨c, cs, hp, hv, -⟩ := next_cases h
  have hi : after_dispatch (dispatch p) = .next p' := by
    simpa [iterate, hp, hv] using h
  exact (dispatch_sameEffects hp (he c cs hp)).trans (after_dispatch_sameWorld.1 p' hi).sameEffects

theorem sameEffects_of_effectlessUntil (hr : Loop.Reaches iterate p p') (h : EffectlessUntil p p') :
    SameEffects p p' := by
  -- by induction on the states in between
  have key : ∀ s, Loop.Reaches iterate p s → Loop.Reaches iterate s p' → SameEffects p s := by
    intro s hs
    induction hs with
    | refl => exact fun _ => .refl p
    | @tail s t hs hn ih =>
      intro ht
      have hst : Loop.Reaches iterate s p' := .of_next hn ht
      exact (ih hst).trans (next_sameEffects hn fun c cs hc => h s c cs hs hst hc)
  exact key p' hr .refl

/-- The instruction of `q` ends in the exception `ex`, in the state `q1`. -/
structure Raises (q q1 : Processor W R) (ex : Exception) : Prop where
  valid : ∃ c cs, q.ctxts = c :: cs ∧ c.pc_valid = true
  throws : dispatch q = .error (.exception ex) q1

theorem Raises.iterate_eq {q q1 : Processor W R} {ex : Exception} (h : Raises q q1 ex) :
    iterate q = after_dispatch (.error (.exception ex) q1) := by
  obtain ⟨c, cs, hq, hv⟩ := h.valid
  rw [iterate_valid hq hv, h.throws]

/-- The context opened by the turn from `p` to `p'` has been carried out up to `q`, where it ends in `ex`, in the
state `q1`, and its parent goes on in `q'`. -/
structure NestedHalt (p p' q q1 q' : Processor W R) (ex : Exception) : Prop where
  opens : iterate p = .next p'
  deeper : p.ctxts.length < p'.ctxts.length
  above : Above p.ctxts.length p' q
  raises : Raises q q1 ex
  on_top : q1.ctxts.length = p.ctxts.length + 1
  resumes : iterate q = .next q'

/-- The outermost context ends in `ex` at `q`, in the state `q1`, and the loop leaves with `q'`. -/
structure OutermostHalt (q q1 q' : Processor W R) (ex : Exception) : Prop where
  raises : Raises q q1 ex
  on_top : q1.ctxts.length = 1
  leaves : iterate q = .exit (.ok () q')

/-- In the run that starts in `p0` an exception takes nothing back: the parent, or the caller of `run`, finds world and
transaction as the failing instruction has left them. They are as before the call, or before the run, if no
instruction since then has had an effect. -/
structure NothingUndone (p0 : Processor W R) : Prop where
  nested : ∀ p p' q q1 q' ex, Loop.Reaches iterate p0 p → NestedHalt p p' q q1 q' ex →
    (∃ c d d' ds, q1.ctxts = c :: d :: ds ∧ q'.ctxts = d' :: ds ∧ d'.s = 0 :: d.s) ∧ SameWorld q1 q' ∧
      (EffectlessUntil p q → SameEffects p q')
  outermost : ∀ q q1 q' ex, Loop.Reaches iterate p0 q → OutermostHalt q q1 q' ex →
    q'.result.er = .threw ∧ SameWorld q1 q' ∧ (EffectlessUntil p0 q → SameEffects p0 q')

/-- Where an instruction throws, each context but the outermost still has a parent to report to. -/
theorem shaped_of_throws {q1 : Processor W R} {e} (hs : Shaped p.ctxts) (hp : p.ctxts = c :: cs)
    (hd : dispatch p = .error e q1) : Shaped q1.ctxts := by
  obtain ⟨p1, hc, ht⟩ := dispatch_cases hp
  have hs1 := hs.changes hc
  have hend : ∀ {r}, Ending p1 r → r = .error e q1 → Shaped q1.ctxts := by
    intro r he hr
    obtain ⟨k, hk⟩ := he.dropped.2 e q1 hr
    exact (hs1.drop (k := k)).of_quiet hk.ctxts
  rw [hd] at ht
  generalize hr : EStateM.Result.error e q1 = r at ht
  cases ht with
  | done => cases hr
  | throws =>
    cases hr
    exact hs1
  | opens =>
    unfold push_context at hr
    rw [bind_of_ok (run_get p1)] at hr
    split at hr
    · cases hr
      exact hs1
    · cases hr
  | returns _ output => exact hend (.returns output) hr.symm
  | stops => exact hend .stops hr.symm

theorem nothing_undone (gs : W) (tx : Transaction) (tr : Option (List TraceEvent)) (caller : Address) (callee : R)
    (input : Bytes) (call_value : Word) : NothingUndone (start gs tx tr caller callee input call_value) := by
  -- what the failing instruction leaves, and what has been done to the state since `p`
  have hleft : ∀ {p q q1 ex}, Loop.Reaches iterate (start gs tx tr caller callee input call_value) q →
      Raises q q1 ex → Loop.Reaches iterate p q →
      Shaped q1.ctxts ∧ (EffectlessUntil p q → SameEffects p q1) := by
    intro p q q1 ex hr hx hpq
    obtain ⟨c, cs, hq, -⟩ := hx.valid
    refine ⟨shaped_of_throws (shaped_of_reaches hr).1 hq hx.throws, fun he => ?_⟩
    have hd := dispatch_sameEffects hq (he q c cs hpq .refl hq)
    rw [hx.throws] at hd
    exact (sameEffects_of_effectlessUntil hpq he).trans hd
  constructor
  · intro p p' q q1 q' ex hr h
    have hpq : Loop.Reaches iterate p q := .of_next h.opens h.above.reaches
    obtain ⟨hshaped, heff⟩ := hleft (hr.trans hpq) h.raises hpq
    have hi := h.resumes
    rw [h.raises.iterate_eq] at hi
    have hsame : SameWorld q1 q' := after_dispatch_sameWorld.1 q' hi
    refine ⟨?_, hsame, fun he => (heff he).trans hsame.sameEffects⟩
    cases hq1 : q1.ctxts with
    | nil =>
      have := h.on_top
      simp [hq1] at this
    | cons c cs =>
      rw [hq1] at hshaped
      obtain ⟨d, ds, rfl, -, rfl⟩ := catch_next hq1 hshaped hi
      exact ⟨c, d, _, ds, rfl, rfl, Context.step_s _⟩
  · intro q q1 q' ex hr h
    obtain ⟨hshaped, heff⟩ := hleft hr h.raises hr
    have hi := h.leaves
    rw [h.raises.iterate_eq] at hi
    have hsame : SameWorld q1 q' := after_dispatch_sameWorld.2 _ hi
    refine ⟨?_, hsame, fun he => (heff he).trans hsame.sameEffects⟩
    cases hq1 : q1.ctxts with
    | nil =>
      have := h.on_top
      simp [hq1] at this
    | cons c cs =>
      rw [hq1] at hshaped
      exact (catch_exit hi hq1 hshaped).2.2

end

/-! ## Accounts -/

open Std SimpleGlobalState

/-- The entry at `addr`, where one that is not there counts as zero-initialised. -/
def look (addr : Address) (gs : SimpleGlobalState) : StateEntry := gs.accounts[addr]?.getD ({ address := addr }, ∅)

/-- The same accounts, up to zero-initialised ones. -/
def SameAccounts (gs gs' : SimpleGlobalState) : Prop := ∀ addr, look addr gs' = look addr gs

theorem look_create (addr acc : Address) (gs : SimpleGlobalState) :
    look acc (GlobalState.create addr 0 [] gs).2 = look acc gs := by
  change look acc (gs.insert ({ address := addr }, ∅)) = _
  unfold look SimpleGlobalState.insert
  by_cases h : addr ∈ gs.accounts
  · simp [h]
  · simp only [if_neg h, ExtTreeMap.getElem?_insert]
    by_cases he : addr = acc
    · subst he
      simp [ExtTreeMap.getElem?_eq_none h]
    · simp [he]

theorem look_get (addr acc : Address) (gs : SimpleGlobalState) :
    look acc (GlobalState.get addr gs).2 = look acc gs := by
  change look acc (SimpleGlobalState.get addr gs).2 = _
  unfold SimpleGlobalState.get
  split
  · rfl
  · exact look_create addr acc gs

theorem look_set_balance {this acc : Address} {b : Word} {gs : SimpleGlobalState} (h : b = get_balance this gs) :
    look acc (set_balance this b gs) = look acc gs := by
  change look acc (gs.set_account this _) = _
  unfold look set_account
  rw [ExtTreeMap.getElem?_modify]
  by_cases he : this = acc
  · subst he
    have hb : b = (gs.entry this).1.balance := h
    rw [entry_eq] at hb
    cases hg : gs.accounts[this]? with
    | none => simp
    | some e => simp [hb, hg]
  · simp [he]

theorem sameAccounts_of_touched {gs gs' : SimpleGlobalState} (h : Touched gs gs') : SameAccounts gs gs' := by
  intro addr
  induction h with
  | refl => rfl
  | @tail gs _ _ h ih =>
    rw [← ih]
    cases h with
    | get a => exact look_get a addr _
    | create a => exact look_create a addr _
    | pay this other =>
      have h1 : get_balance other (set_balance this (get_balance this gs - 0) gs) = get_balance other gs := by
        by_cases he : this = other
        · subst he
          by_cases hm : this ∈ gs.accounts
          · simp [balance_set_balance hm]
          · simp [set_balance_of_not_mem hm]
        · exact balance_set_balance_of_ne he _
      unfold transfer
      rw [look_set_balance (by simpa using h1.symm), look_set_balance (by simp)]

/-- **Exceptional halts.** An exception undoes nothing, in a run in any world; and where no instruction has had an
effect, the accounts of the simple implementation are as they were. -/
theorem exceptional_halt :
    (∀ (W R : Type) [GlobalState W R] [Keccak] (gs : W) (tx : Transaction) (tr : Option (List TraceEvent))
      (caller : Address) (callee : R) (input : Bytes) (call_value : Word),
      NothingUndone (start gs tx tr caller callee input call_value)) ∧
    ∀ gs gs' : SimpleGlobalState, Touched gs gs' → SameAccounts gs gs' := by
  constructor
  · intro W R _ _ gs tx tr caller callee input call_value
    exact nothing_undone ..
  · intro gs gs' h
    exact sameAccounts_of_touched h

/-! ## A call that fails -/

/-- After an exception everything is as it was when the context was about to be opened, or when `run` was called. -/
structure Atomic [Keccak] (p0 : Processor SimpleGlobalState Address) : Prop where
  nested : ∀ p p' q q1 q' ex, Loop.Reaches iterate p0 p → NestedHalt p p' q q1 q' ex →
    SameAccounts p.gs q'.gs ∧ q'.tx.selfdestruct_list = p.tx.selfdestruct_list ∧ q'.tx.logs = p.tx.logs
  outermost : ∀ q q1 q' ex, Loop.Reaches iterate p0 q → OutermostHalt q q1 q' ex →
    SameAccounts p0.gs q'.clean_up ∧ q'.tx.selfdestruct_list = p0.tx.selfdestruct_list ∧ q'.tx.logs = p0.tx.logs

/-- Account 100, with a balance of 5, calls account 200 with a value of 1; account 200 pops from its empty stack. -/
def failing_start : Processor SimpleGlobalState Address :=
  start (.of_accounts
    [{ address := 100, balance := 5,
        code := [0x60, 0, 0x60, 0, 0x60, 0, 0x60, 0, 0x60, 1, 0x60, 200, 0x60, 0, 0xf1, 0x00] },
      { address := 200, code := [0x50] }]) { origin := 1 } none 1 100 [] 0

/-- Account 200 still has what it was paid when the caller goes on. -/
theorem not_atomic : ¬@Atomic no_hash failing_start := by
  intro h
  have hr : @Loop.Reaches _ _ (@iterate _ _ _ no_hash) failing_start _ :=
    .of_steps (show @Loop.steps _ _ (@iterate _ _ _ no_hash) 7 failing_start = some _ from rfl)
  have hn := (@Atomic.nested no_hash _ h _ _ _ _ _ _ hr (@NestedHalt.mk _ _ _ no_hash _ _ _ _ _ _ rfl (by decide)
    .refl (@Raises.mk _ _ _ no_hash _ _ _ ⟨_, _, rfl, rfl⟩ rfl) rfl rfl)).1
  have h200 := congrArg (fun e : StateEntry => e.1.balance) (hn 200)
  exact absurd h200 (by decide)

end Processor

end EEVM

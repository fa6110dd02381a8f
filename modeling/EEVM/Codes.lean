import EEVM.Creation
import EEVM.Frames
import EEVM.Opened
/-!
# Whose code changes when (processor.cpp:1197-1204, 1246-1249, simple/simpleaccount.cpp:45-58)

An account comes into the world without code, and its code only changes when a context with its handlers of `create`
returns (`Deploys`). That is at the address `create` has made, which is in the world from then on.
-/
namespace EEVM

open Std ExcState

namespace Processor

open SimpleGlobalState

variable [Keccak] {gs gs' : SimpleGlobalState} {c c' d f : Context Address} {cs : List (Context Address)}
  {p p' q s : Processor SimpleGlobalState Address} {k newAcc : Address} {o : Code}

/-! ## Other instructions -/

omit [Keccak] in
/-- An account that is inserted without code does not change any code. -/
theorem get_code_insert {a : SimpleAccount} (ha : a.code = []) (gs : SimpleGlobalState) (k : Address) :
    get_code k (gs.insert (a, ∅)) = get_code k gs := by
  change (entry k (gs.insert (a, ∅))).1.code = (gs.entry k).1.code
  rw [entry_eq, entry_eq, getElem?_insert]
  split
  · rename_i h
    rw [ExtTreeMap.getElem?_eq_none h.2]
    exact ha
  · rfl

omit [Keccak] in
theorem get_code_set_code {newAcc : Address} {o : Code} (h : newAcc ∈ gs.accounts) (k : Address) :
    get_code k (set_code newAcc o gs) = if k = newAcc then o else get_code k gs := by
  obtain ⟨e, he⟩ := mem_iff_exists.1 h
  change (entry k (gs.set_account newAcc fun a => { a with code := o })).1.code = _
  rw [entry_eq, getElem?_set_account]
  by_cases hk : newAcc = k
  · subst hk
    rw [if_pos rfl, if_pos rfl, he]
    rfl
  · rw [if_neg hk, if_neg (Ne.symm hk)]
    rfl

/-- No instruction but a `RETURN` changes a code. -/
theorem WorldCase.code_same (h : WorldCase gs c gs') (hop : c.next_op ≠ some .RETURN) (k : Address) :
    get_code k gs' = get_code k gs := by
  cases h with
  | same => rfl
  | stores | removes => exact congrArg SimpleAccount.code (fst_entry_set_storage k _ _ gs)
  | looks => exact get_code_get _ gs k
  | pays => exact (get_code_transfer _ _ _ _ k).trans (get_code_get _ gs k)
  | creates => exact get_code_insert rfl gs k
  | endows => exact (get_code_transfer _ _ _ _ k).trans (get_code_insert rfl gs k)
  | gives_code hop' => exact absurd hop' hop

/-! ## `RETURN` -/

/-- `c` is about to return `o` as the code of `newAcc`. -/
structure Deploys (c : Context Address) (newAcc : Address) (o : Code) : Prop where
  next_op : c.next_op = some .RETURN
  handlers : c.handlers = .create newAcc
  output : ∃ d, return_operands c = .ok o d

omit [Keccak] in
theorem Deploys.unique {a : Address} {o' : Code} (h : Deploys c newAcc o) (h' : Deploys c a o') : newAcc = a ∧ o = o' := by
  obtain ⟨d, ho⟩ := h.output
  obtain ⟨d', ho'⟩ := h'.output
  exact ⟨Handlers.create.inj (h.handlers.symm.trans h'.handlers), (EStateM.Result.ok.inj (ho.symm.trans ho')).1⟩

/-- The world after a turn. -/
theorem world_of_next (hp : p.ctxts = c :: cs) (hn : iterate p = .next p') : p'.gs = (final (dispatch p)).gs := by
  obtain ⟨c0, cs0, h0, hv, -⟩ := next_cases hn
  obtain ⟨rfl, rfl⟩ := List.cons.inj (hp.symm.trans h0)
  rw [iterate_valid hp hv] at hn
  exact (after_dispatch_sameWorld.1 p' hn).1

theorem world_of_deploys (hp : p.ctxts = c :: cs) (h : Deploys c newAcc o) :
    (final (dispatch p)).gs = set_code newAcc o p.gs := by
  obtain ⟨d, ho⟩ := h.output
  have hcase := dispatch_return hp h.next_op
  generalize dispatch p = r at hcase
  cases hcase with
  | refused _ hno => exact absurd ho (hno o d)
  | returns hq hops =>
    cases hops.symm.trans ho
    exact (returning_gives_code rfl (hq.handlers.trans h.handlers) o).1

theorem code_of_not_deploys (hp : p.ctxts = c :: cs) (h : ∀ newAcc o, ¬Deploys c newAcc o) (k : Address) :
    get_code k (final (dispatch p)).gs = get_code k p.gs := by
  by_cases hop : c.next_op = some .RETURN
  case neg => exact (dispatch_effect hp).world.code_same hop k
  have hcase := dispatch_return hp hop
  generalize dispatch p = r at hcase
  cases hcase with
  | refused => rfl
  | @returns output c1 hq hops =>
    have hnot : ∀ newAcc, c1.handlers ≠ .create newAcc := fun newAcc hh => h newAcc output ⟨hop, hq.handlers.symm.trans hh, c1, hops⟩
    rw [(returning_keepsWorld rfl hnot output).1]
    rfl

/-! ## Any turn -/

/-- A turn of `c` has led to `q`, with the world and the transaction as its instruction leaves them. -/
def Turned (p : Processor SimpleGlobalState Address) (c : Context Address) (q : Processor SimpleGlobalState Address) : Prop :=
  SameWorld (final (dispatch p)) q ∧ c.pc_valid = true ∨ SameWorld p q ∧ c.pc_valid = false

theorem turned (hp : p.ctxts = c :: cs) :
    (∀ q, iterate p = .next q → Turned p c q) ∧ ∀ r, iterate p = .exit r → Turned p c (final r) := by
  cases hv : c.pc_valid with
  | true =>
    rw [iterate_valid hp hv]
    exact ⟨fun q h => .inl ⟨after_dispatch_sameWorld.1 q h, hv⟩, fun r h => .inl ⟨after_dispatch_sameWorld.2 r h, hv⟩⟩
  | false =>
    rw [iterate_off_end hp hv]
    refine ⟨nofun, ?_⟩
    rintro r ⟨⟩
    exact .inr ⟨stop_keepsWorld.final p, hv⟩

/-- The code of an account is set by a turn that deploys it, and no other code changes. -/
theorem Turned.code (hq : Turned p c q) (hp : p.ctxts = c :: cs) :
    (∀ k, get_code k q.gs = get_code k p.gs) ∨ ∃ k o, Deploys c k o ∧ q.gs = set_code k o p.gs := by
  rcases hq with ⟨⟨hworld, -⟩, -⟩ | ⟨⟨hworld, -⟩, -⟩
  · by_cases hd : ∃ newAcc o, Deploys c newAcc o
    · obtain ⟨newAcc, o, hd⟩ := hd
      exact .inr ⟨newAcc, o, hd, by rw [hworld, world_of_deploys hp hd]⟩
    · refine .inl fun k => ?_
      rw [hworld, code_of_not_deploys hp (fun newAcc o h => hd ⟨newAcc, o, h⟩)]
  · exact .inl fun k => by rw [hworld]

/-- Where codes change, the reference of `create` is used. -/
theorem Turned.code_same (hq : Turned p c q) (hp : p.ctxts = c :: cs) (h : ¬ReturnsInit p) (k : Address) :
    get_code k q.gs = get_code k p.gs := by
  rcases hq.code hp with hsame | ⟨a, o, hd, -⟩
  · exact hsame k
  · exact absurd ⟨c, cs, hp, hd.next_op, ⟨a, hd.handlers⟩, o, hd.output⟩ h

theorem code_of_reaches (hr : Loop.Reaches iterate p q)
    (h : ∀ t, Loop.Reaches iterate p t → Loop.Reaches iterate t q → ¬ReturnsInit t) (k : Address) :
    get_code k q.gs = get_code k p.gs := by
  induction hr with
  | refl => rfl
  | @tail t t' ht hn ih =>
    obtain ⟨c, cs, hp, -, -⟩ := next_cases hn
    rw [((turned hp).1 t' hn).code_same hp (h t ht (.single hn)) k]
    exact ih fun u hu hut => h u hu (hut.tail hn)

/-! ## The new accounts -/

/-- What a turn that opens a context has opened. -/
inductive Opens (p p' : Processor SimpleGlobalState Address) (c f : Context Address) : Prop
  | init {v code d} (hop : c.next_op = some .CREATE) (hops : create_operands c = .ok (v, code) d)
    (hf : f = (init_frame p'.gs c (new_address p.gs c) code).step) (hin : new_address p.gs c ∈ p'.gs.accounts) : Opens p p' c f
  | call {op args d input} (hop : c.next_op = some op) (hcall : op = .CALL ∨ op = .CALLCODE ∨ op = .DELEGATECALL)
    (hops : call_operands op c = .ok args d) (hin : args.addr ∈ p'.gs.accounts)
    (hf : f = (callee_frame op p'.gs c args.addr args input).step) : Opens p p' c f

theorem opens_of_next (hp : p.ctxts = c :: cs) (hn : iterate p = .next p') (hp' : p'.ctxts = f :: c' :: cs) : Opens p p' c f := by
  obtain ⟨p1, g, op, hop, hcall, hd, h1, rfl, hworld⟩ := opened_of_next hp hn hp'
  have hgs : p'.gs = p1.gs := hworld.1
  rcases Opcode.is_call_iff.1 hcall with rfl | hcall
  · have hd' : create (traced p c) = .ok () p1 := by
      rw [← hd, dispatch_eq hp, hop]
      rfl
    obtain ⟨v, code, d, hops, -, rfl⟩ := create_eq_ok (p := traced p c) hp hd'
    cases h1
    refine .init hop hops (by rw [hgs]; rfl) ?_
    rw [hgs]
    exact mem_set_balance.2 (mem_set_balance.2 (mem_create (new_address p.gs c) v [] p.gs).2)
  · have hd' : call op (traced p c) = .ok () p1 := by
      rw [← hd, dispatch_eq hp, hop]
      rcases hcall with rfl | rfl | rfl <;> rfl
    obtain ⟨args, d, hops, -, -, hcalled⟩ := call_eq_ok (p := traced p c) hp hcall hd'
    have hfound : (found p.gs args).1 = args.addr := (mem_get args.addr p.gs).1
    cases hcalled with
    | answers => simp at h1
    | @opens c2 c3 input hcode hout hin =>
      cases h1
      have hf : callee_frame op (called p.gs c args) c (found p.gs args).1 args input =
          callee_frame op p'.gs c args.addr args input := by
        rw [hgs, hfound]
        rfl
      refine .call hop hcall hops ?_ (congrArg Context.step hf)
      rw [hgs]
      exact mem_set_balance.2 (mem_set_balance.2 (mem_get args.addr p.gs).2)

/-- A turn that returns the code of an account goes on in the context below. -/
theorem deploys_next {newAcc : Address} {o : Code} (hs : Shaped p.ctxts) (hp : p.ctxts = c :: cs) (h : Deploys c newAcc o)
    (hn : iterate p = .next p') : ∃ d d' ds, cs = d :: ds ∧ p'.ctxts = d' :: ds ∧ SameFrame d d' := by
  obtain ⟨c0, cs0, h0, hv, -⟩ := next_cases hn
  obtain ⟨rfl, rfl⟩ := List.cons.inj (hp.symm.trans h0)
  rw [iterate_valid hp hv] at hn
  obtain ⟨d, ho⟩ := h.output
  have hcase := dispatch_return hp h.next_op
  generalize dispatch p = r at hcase hn
  cases hcase with
  | refused _ hno => exact absurd ho (hno o d)
  | @returns output c1 hq hops =>
    rw [hp] at hs
    obtain ⟨e, es, he, ⟨e', hr, rfl⟩ | ⟨ex, e', hr, -, hp'⟩⟩ := returning_next rfl (hs.top hq.handlers) hn
    all_goals
      have hqe := c1.handlers.rh_report_quiet (rh_address c1.handlers output p.gs) output e
      rw [show (rh_address c1.handlers output p.gs) = rh_address c1.handlers output (traced p c).gs from rfl, hr] at hqe
    · exact ⟨e, _, es, he, rfl, (SameFrame.of_quiet hqe).trans (step_sameFrame e')⟩
    · have hgiven : SameFrame e' (e'.given 0) := rfl
      exact ⟨e, _, es, he, hp', ((SameFrame.of_quiet hqe.1).trans hgiven).trans (step_sameFrame _)⟩

/-- The accounts that are being created are in the world. -/
def NewInWorld (p : Processor SimpleGlobalState Address) : Prop :=
  ∀ c ∈ p.ctxts, ∀ newAcc, c.handlers = .create newAcc → newAcc ∈ p.gs.accounts

theorem NewInWorld.next (h : NewInWorld p) (hs : Shaped p.ctxts) (hn : iterate p = .next p') : NewInWorld p' := by
  obtain ⟨c, cs, hp, -, -⟩ := next_cases hn
  have hworld := ((turn_effect hp).1 p' hn).world
  have hkept : ∀ d ∈ p.ctxts, ∀ d', SameFrame d d' → ∀ newAcc, d'.handlers = .create newAcc → newAcc ∈ p'.gs.accounts :=
    fun d hd d' hsame newAcc hh => hworld.mem (h d hd newAcc (hsame.handlers.symm.trans hh))
  intro e he newAcc hh
  rcases (moves_of_next hs hn).mem he with ⟨d, hd, hsame⟩ | ⟨c0, c', cs0, h0, hp', -⟩
  · exact hkept d hd e hsame newAcc hh
  · cases opens_of_next h0 hn hp' with
    | init hop hops hf hin =>
      rw [hf, step_handlers] at hh
      cases hh
      exact hin
    | call hop hcall hops hin hf =>
      rw [hf, step_handlers] at hh
      cases hh

section

variable {tx : Transaction} {tr : Option (List TraceEvent)} {caller callee : Address} {input : Bytes} {call_value : Word}

omit [Keccak] in
/-- The first context does not run init code. -/
theorem start_handlers (hc : c ∈ (start gs tx tr caller callee input call_value).ctxts) (newAcc : Address) :
    c.handlers ≠ .create newAcc := by
  simp only [start, List.mem_singleton] at hc
  rw [hc]
  rintro ⟨⟩

omit [Keccak] in
theorem newInWorld_start : NewInWorld (start gs tx tr caller callee input call_value) :=
  fun _ hc newAcc hh => absurd hh (start_handlers hc newAcc)

theorem newInWorld_of_reaches (hr : Loop.Reaches iterate (start gs tx tr caller callee input call_value) p) : NewInWorld p := by
  have hboth := hr.invariant (P := fun p => Shaped p.ctxts ∧ NewInWorld p) ⟨?_, newInWorld_start⟩ ?_
  · exact hboth.2
  · exact rfl
  · exact fun _ _ _ h hn => ⟨(h.1.next hn).1, h.2.next h.1 hn⟩

end

end Processor

end EEVM

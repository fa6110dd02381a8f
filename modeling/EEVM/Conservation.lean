import Mathlib.Algebra.BigOperators.Group.Finset.Basic
import EEVM.Balance
import EEVM.Handlers
/-!
# Conservation of balances (processor.cpp:177-233, 1216-1342)

What an instruction does to the sum of all balances. Only three kinds of turn can change it, and all three raise it
(`Mints`): `CREATE` with a value, because the new account is created with that value and then paid it as well; a `CALL`
or `CALLCODE` with a value, or a `SELFDESTRUCT` with a balance, that an account addresses to itself.
-/
namespace EEVM

open ExcState Std

namespace Processor

variable {p p' p1 : Processor SimpleGlobalState Address} {c c1 : Context Address} {cs : List (Context Address)}

/-! ## What keeps the sum -/

theorem Dropped.total {k : Nat} (h : Dropped k p p') : p'.gs.total = p.gs.total := by
  have hgs := h.gs
  change Relation.ReflTransGen _ p.gs p'.gs at hgs
  generalize p.gs = gs, p'.gs = gs' at hgs
  induction hgs with
  | refl => rfl
  | tail _ h ih =>
    obtain ⟨acc, code, rfl⟩ := h
    rw [SimpleGlobalState.total_set_code, ih]

theorem Ending.total {r} (h : Ending p r) : (final r).gs.total = p.gs.total := by
  obtain ⟨k, hd⟩ := h.final_dropped
  exact hd.total

theorem Paid.total {n : Nat} {r} (h : Paid p c cs n r) : (final r).gs.total = p.gs.total := by
  cases h <;> rfl

/-- The changes of an instruction that neither opens a context nor destructs one. -/
theorem Changes.total {op : Option Opcode} (h : Changes op p p')
    (hop : ∀ o, op = some o → o.is_call = false ∧ o ≠ .SELFDESTRUCT) : p'.gs.total = p.gs.total := by
  induction h with
  | refl => rfl
  | tail _ h ih =>
    rw [← ih]
    cases h with
    | quiet | dup | goto | trace | log | selfdestruct => rfl
    | get => exact SimpleGlobalState.total_get _ _
    | store _ hs acc k v => exact SimpleGlobalState.total_set_storage acc _ _
    | remove_key _ hs acc k => exact SimpleGlobalState.total_set_storage acc _ _
    | create _ hc => exact absurd (hop _ hc).1 (by simp [Opcode.is_call])
    | pay _ hc =>
      rcases hc with ⟨o, rfl, ho⟩ | hc
      · exact absurd (hop _ rfl).1 (by simp [ho])
      · exact absurd rfl (hop _ hc).2

/-! ## What does not -/

section

variable [Keccak] {gs : SimpleGlobalState}

/-- The instruction of `c` is about to raise the sum. The last case of `create` and the other two are payments of an
account to itself. -/
inductive Mints (gs : SimpleGlobalState) (c : Context Address) : Prop
  | create {v code c'} (hop : c.next_op = some .CREATE) (hops : create_operands c = .ok (v, code) c') (hv : v ≠ 0)
      (h : new_address gs c ∉ gs.accounts ∨ new_address gs c = c.as ∧ CanPay c.as c.as v gs)
  | call {op args c'} (hop : c.next_op = some op) (hcall : op = .CALL ∨ op = .CALLCODE ∨ op = .DELEGATECALL)
      (hops : call_operands op c = .ok args c') (hpre : ¬Precompiled args.addr) (hself : args.addr = c.as)
      (hv : Word.ofUInt64 args.value ≠ 0) (hpay : CanPay c.as c.as (Word.ofUInt64 args.value) gs)
  | selfdestruct {addr c'} (hop : c.next_op = some .SELFDESTRUCT) (hops : pop_addr c = .ok addr c')
      (hself : addr = c.as) (hv : get_balance c.as gs ≠ 0) (hpay : CanPay c.as c.as (get_balance c.as gs) gs)

/-! ### When it does, in terms of the operands -/

theorem Mints.of_create (h : Mints gs c) (hop : c.next_op = some .CREATE) :
    ∃ v code c', create_operands c = .ok (v, code) c' ∧ v ≠ 0 ∧
      (new_address gs c ∉ gs.accounts ∨ new_address gs c = c.as ∧ CanPay c.as c.as v gs) := by
  cases h with
  | create _ hops hv h => exact ⟨_, _, _, hops, hv, h⟩
  | call hop' hcall =>
    rw [hop] at hop'
    rcases hcall with rfl | rfl | rfl <;> cases hop'
  | selfdestruct hop' =>
    rw [hop] at hop'
    cases hop'

theorem Mints.of_call {op : Opcode} (h : Mints gs c) (hop : c.next_op = some op)
    (hcall : op = .CALL ∨ op = .CALLCODE ∨ op = .DELEGATECALL) :
    ∃ args c', call_operands op c = .ok args c' ∧ ¬Precompiled args.addr ∧ args.addr = c.as ∧
      Word.ofUInt64 args.value ≠ 0 ∧ CanPay c.as c.as (Word.ofUInt64 args.value) gs := by
  cases h with
  | call hop' _ hops hpre hself hv hpay =>
    rw [hop] at hop'
    cases hop'
    exact ⟨_, _, hops, hpre, hself, hv, hpay⟩
  | create hop' | selfdestruct hop' =>
    rw [hop] at hop'
    rcases hcall with rfl | rfl | rfl <;> cases hop'

theorem Mints.of_selfdestruct (h : Mints gs c) (hop : c.next_op = some .SELFDESTRUCT) :
    ∃ addr c', pop_addr c = .ok addr c' ∧ addr = c.as ∧ get_balance c.as gs ≠ 0 ∧
      CanPay c.as c.as (get_balance c.as gs) gs := by
  cases h with
  | selfdestruct _ hops hself hv hpay => exact ⟨_, _, hops, hself, hv, hpay⟩
  | create hop' =>
    rw [hop] at hop'
    cases hop'
  | call hop' hcall =>
    rw [hop] at hop'
    rcases hcall with rfl | rfl | rfl <;> cases hop'

theorem mints_create_iff {v : Word} {code : Bytes} {c' : Context Address} (hop : c.next_op = some .CREATE)
    (hops : create_operands c = .ok (v, code) c') :
    Mints gs c ↔ v ≠ 0 ∧ (new_address gs c ∉ gs.accounts ∨ new_address gs c = c.as ∧ CanPay c.as c.as v gs) := by
  constructor
  · intro h
    obtain ⟨v', code', c'', hops', hv, h⟩ := h.of_create hop
    rw [hops] at hops'
    cases hops'
    exact ⟨hv, h⟩
  · rintro ⟨hv, h⟩
    exact .create hop hops hv h

theorem mints_call_iff {op : Opcode} {args : CallOperands} {c' : Context Address} (hop : c.next_op = some op)
    (hcall : op = .CALL ∨ op = .CALLCODE ∨ op = .DELEGATECALL) (hops : call_operands op c = .ok args c')
    (hpre : ¬Precompiled args.addr) :
    Mints gs c ↔ args.addr = c.as ∧ Word.ofUInt64 args.value ≠ 0 ∧
      CanPay c.as c.as (Word.ofUInt64 args.value) gs := by
  constructor
  · intro h
    obtain ⟨args', c'', hops', -, h⟩ := h.of_call hop hcall
    rw [hops] at hops'
    cases hops'
    exact h
  · rintro ⟨hself, hv, hpay⟩
    exact .call hop hcall hops hpre hself hv hpay

theorem mints_selfdestruct_iff {addr : Address} {c' : Context Address} (hop : c.next_op = some .SELFDESTRUCT)
    (hops : pop_addr c = .ok addr c') :
    Mints gs c ↔ addr = c.as ∧ get_balance c.as gs ≠ 0 ∧ CanPay c.as c.as (get_balance c.as gs) gs := by
  constructor
  · intro h
    obtain ⟨addr', c'', hops', h⟩ := h.of_selfdestruct hop
    rw [hops] at hops'
    cases hops'
    exact h
  · rintro ⟨hself, hv, hpay⟩
    exact .selfdestruct hop hops hself hv hpay

theorem not_mints {op : Option Opcode} (hop : c.next_op = op)
    (h : ∀ o, op = some o → o.is_call = false ∧ o ≠ .SELFDESTRUCT) : ¬Mints gs c := by
  intro hm
  cases hm with
  | create hop' =>
    have := (h _ (hop.symm.trans hop')).1
    simp [Opcode.is_call] at this
  | call hop' hcall =>
    have := (h _ (hop.symm.trans hop')).1
    rcases hcall with rfl | rfl | rfl <;> simp [Opcode.is_call] at this
  | selfdestruct hop' => exact (h _ (hop.symm.trans hop')).2 rfl

/-! ### By how much -/

/-- Either `c` does not mint and the sum is as it was, or it does and the sum is larger. -/
def Adds (gs : SimpleGlobalState) (c : Context Address) (total : Nat) : Prop :=
  (¬Mints gs c ∧ total = gs.total) ∨ (Mints gs c ∧ gs.total < total)

omit [Keccak] in
theorem toNat_pos_iff {v : Word} : 0 < v.toNat ↔ v ≠ 0 := by
  rw [Nat.pos_iff_ne_zero, ne_eq, ne_eq, ← BitVec.toNat_inj]
  rfl

theorem Adds.of_eq_add {total n : Nat} (ht : total = gs.total + n) (hm : Mints gs c ↔ 0 < n) : Adds gs c total := by
  by_cases hn : n = 0
  · exact .inl ⟨fun h => by have := hm.1 h; omega, by omega⟩
  · exact .inr ⟨hm.2 (by omega), by omega⟩

/-- What `gs.create` and the payment together add, where the payment goes through. -/
theorem create_adds_iff {v : Word} {code : Bytes} {c' : Context Address} (hop : c.next_op = some .CREATE)
    (hops : create_operands c = .ok (v, code) c')
    (hpay : CanPay c.as (new_address gs c) v (created gs c v).2) :
    Mints gs c ↔ 0 < (if new_address gs c ∈ gs.accounts then 0 else v.toNat) +
      if new_address gs c = c.as then v.toNat else 0 := by
  rw [mints_create_iff hop hops]
  by_cases hin : new_address gs c ∈ gs.accounts
  · rw [if_pos hin, Nat.zero_add]
    by_cases hself : new_address gs c = c.as
    · -- an account that is there already has the balance it had
      have hcan : CanPay c.as c.as v gs := by
        rw [hself] at hpay
        unfold CanPay created at hpay
        rwa [SimpleGlobalState.balance_create_of_mem hin] at hpay
      rw [if_pos hself, toNat_pos_iff]
      exact ⟨fun h => h.1, fun h => ⟨h, .inr ⟨hself, hcan⟩⟩⟩
    · simp [hin, hself]
  · rw [if_neg hin]
    constructor
    · rintro ⟨hv, -⟩
      exact Nat.lt_of_lt_of_le (toNat_pos_iff.2 hv) (Nat.le_add_right _ _)
    · intro h
      refine ⟨?_, .inl hin⟩
      rintro rfl
      simp at h

theorem create_adds {r} (h : CreateCase p c cs r) (hop : c.next_op = some .CREATE) :
    Adds p.gs c (final r).gs.total := by
  have hcreated : ∀ v, (created p.gs c v).1 = new_address p.gs c := fun v => (SimpleGlobalState.mem_create ..).1
  have htotal : ∀ v, (created p.gs c v).2.total =
      p.gs.total + if new_address p.gs c ∈ p.gs.accounts then 0 else v.toNat :=
    fun v => SimpleGlobalState.total_create _ _ _ _
  cases h with
  | refused _ hops =>
    refine .inl ⟨fun hm => ?_, rfl⟩
    obtain ⟨v, code, c', hops', -⟩ := hm.of_create hop
    exact hops (v, code) c' hops'
  | @unpaid v code c' ex hops hpay =>
    rw [hcreated] at hpay
    refine .of_eq_add (htotal v) ((mints_create_iff hop hops).trans ?_)
    by_cases hin : new_address p.gs c ∈ p.gs.accounts
    · -- a payment to itself that would go through has gone through
      rw [if_pos hin]
      refine ⟨?_, fun h => absurd h (Nat.lt_irrefl 0)⟩
      rintro ⟨-, hnot | ⟨hself, hp⟩⟩
      · exact absurd hin hnot
      · refine absurd ?_ hpay
        rw [hself]
        unfold CanPay created
        rwa [SimpleGlobalState.balance_create_of_mem hin]
    · rw [if_neg hin, toNat_pos_iff]
      exact ⟨fun h => h.1, fun h => ⟨h, .inl hin⟩⟩
  | @paid v code c' r hops hpay hpaid =>
    have hfinal := hpaid.total
    rw [hcreated] at hpay hfinal
    change (final r).gs.total = (transfer c.as (new_address p.gs c) v (created p.gs c v).2).total at hfinal
    have hmem : new_address p.gs c ∈ (created p.gs c v).2.accounts := (SimpleGlobalState.mem_create ..).2
    rw [SimpleGlobalState.total_transfer hmem hpay, htotal, Nat.add_assoc] at hfinal
    exact .of_eq_add hfinal (create_adds_iff hop hops hpay)

theorem call_adds {op : Opcode} {r} (h : CallCase op p c cs r) (hop : c.next_op = some op)
    (hcall : op = .CALL ∨ op = .CALLCODE ∨ op = .DELEGATECALL) : Adds p.gs c (final r).gs.total := by
  have htotal : ∀ args, (found p.gs args).2.total = p.gs.total := fun args => SimpleGlobalState.total_get _ _
  have hfound : ∀ args, (found p.gs args).1 = args.addr := fun args => (SimpleGlobalState.mem_get ..).1
  cases h with
  | refused _ hops =>
    refine .inl ⟨fun hm => ?_, rfl⟩
    obtain ⟨args, c', hops', hpre, -⟩ := hm.of_call hop hcall
    exact hpre (hops args c' hops')
  | @unpaid args c' ex hops hpre hpay =>
    rw [hfound, found, SimpleGlobalState.canPay_get] at hpay
    rw [Adds, mints_call_iff hop hcall hops hpre]
    refine .inl ⟨?_, htotal args⟩
    rintro ⟨hself, -, hp⟩
    rw [hself] at hpay
    exact hpay hp
  | @paid args c' r hops hpre hpay hpaid =>
    have hfinal := hpaid.total
    rw [hfound] at hpay hfinal
    change (final r).gs.total = (transfer c.as args.addr (Word.ofUInt64 args.value) (found p.gs args).2).total at hfinal
    have hmem : args.addr ∈ (found p.gs args).2.accounts := (SimpleGlobalState.mem_get ..).2
    rw [SimpleGlobalState.total_transfer hmem hpay, htotal] at hfinal
    refine .of_eq_add hfinal ((mints_call_iff hop hcall hops hpre).trans ?_)
    by_cases hself : args.addr = c.as
    · rw [hself, found, SimpleGlobalState.canPay_get] at hpay
      simp [hself, hpay, toNat_pos_iff]
    · simp [hself]

theorem selfdestruct_adds {r} (h : SelfdestructCase p c cs r) (hop : c.next_op = some .SELFDESTRUCT) :
    Adds p.gs c (final r).gs.total := by
  have htotal : ∀ addr, (recipient p.gs addr).2.total = p.gs.total := fun addr => SimpleGlobalState.total_get _ _
  have hfound : ∀ addr, (recipient p.gs addr).1 = addr := fun addr => (SimpleGlobalState.mem_get ..).1
  have hbal : ∀ addr acc, get_balance acc (recipient p.gs addr).2 = get_balance acc p.gs :=
    fun addr acc => SimpleGlobalState.balance_get _ _ _
  cases h with
  | refused _ hops =>
    refine .inl ⟨fun hm => ?_, rfl⟩
    obtain ⟨addr, c', hops', -⟩ := hm.of_selfdestruct hop
    exact hops addr c' hops'
  | @unpaid addr c' ex hops hpay =>
    rw [hfound, hbal, recipient, SimpleGlobalState.canPay_get] at hpay
    rw [Adds, mints_selfdestruct_iff hop hops]
    refine .inl ⟨?_, htotal addr⟩
    rintro ⟨hself, -, hp⟩
    rw [hself] at hpay
    exact hpay hp
  | @paid addr c' gs hops hpay hgs =>
    have hfinal : (final (stop { p with
        gs, tx := { p.tx with selfdestruct_list := p.tx.selfdestruct_list ++ [get_address c.as gs] },
        ctxts := c' :: cs })).gs.total = gs.total := Ending.stops.total
    rw [hfound, hbal] at hpay hgs
    have hmem : addr ∈ (recipient p.gs addr).2.accounts := (SimpleGlobalState.mem_get ..).2
    have hadd : gs.total = p.gs.total + if addr = c.as then (get_balance c.as p.gs).toNat else 0 := by
      rw [hgs, SimpleGlobalState.total_transfer hmem hpay, htotal]
    refine .of_eq_add (hfinal.trans hadd) ((mints_selfdestruct_iff hop hops).trans ?_)
    by_cases hself : addr = c.as
    · rw [hself, recipient, SimpleGlobalState.canPay_get] at hpay
      simp [hself, hpay, toNat_pos_iff]
    · simp [hself]

/-- What an instruction does to the sum: nothing, unless it mints. -/
theorem dispatch_adds (hp : p.ctxts = c :: cs) : Adds p.gs c (final (dispatch p)).gs.total := by
  by_cases hcall : ∃ op, c.next_op = some op ∧ op.is_call
  · obtain ⟨op, hop, hcall⟩ := hcall
    rcases Opcode.is_call_iff.1 hcall with rfl | hcall
    · have h : Adds (traced p c).gs c _ := create_adds (dispatch_create hp hop) hop
      exact h
    · have h : Adds (traced p c).gs c _ := call_adds (dispatch_call hp hop hcall) hop hcall
      exact h
  by_cases hsd : c.next_op = some .SELFDESTRUCT
  · have h : Adds (traced p c).gs c _ := selfdestruct_adds (dispatch_selfdestruct hp hsd) hsd
    exact h
  have hop : ∀ o, c.next_op = some o → o.is_call = false ∧ o ≠ .SELFDESTRUCT := by
    intro o ho
    constructor
    · by_contra h
      exact hcall ⟨o, ho, by simpa using h⟩
    · rintro rfl
      exact hsd ho
  refine .inl ⟨not_mints rfl hop, ?_⟩
  obtain ⟨p1, hc, ht⟩ := dispatch_cases hp
  rw [← hc.total hop]
  generalize dispatch p = r at ht
  cases ht with
  | done => rfl
  | throws => rfl
  | opens ho hcall' => exact absurd hcall' (by simp [(hop _ ho).1])
  | returns _ output => exact (Ending.returns output).total
  | stops => exact Ending.stops.total

/-! ## Runs -/

omit [Keccak] in
open SimpleGlobalState in
/-- The clean-up loop takes the balances of the accounts it removes out of the sum. -/
theorem clean_up_total (l : List Address) (gs : SimpleGlobalState) :
    (l.foldl (fun gs addr => GlobalState.remove addr gs) gs).total +
      ∑ addr ∈ l.toFinset, (get_balance addr gs).toNat = gs.total := by
  induction l generalizing gs with
  | nil => simp
  | cons a l ih =>
    have hself : get_balance a (gs.remove a) = 0 := balance_of_not_mem (by simp [SimpleGlobalState.remove])
    have hother : ∀ b, b ≠ a → get_balance b (gs.remove a) = get_balance b gs := by
      intro b hb
      change (entry b (gs.remove a)).1.balance = (gs.entry b).1.balance
      rw [entry_eq, entry_eq, SimpleGlobalState.remove, ExtTreeMap.getElem?_erase]
      simp [hb.symm]
    have hsum : ∑ addr ∈ l.toFinset, (get_balance addr (gs.remove a)).toNat =
        ∑ addr ∈ l.toFinset.erase a, (get_balance addr gs).toNat := by
      rw [← Finset.sum_erase _ (a := a) (by simp [hself])]
      refine Finset.sum_congr rfl fun b hb => ?_
      rw [hother b (Finset.ne_of_mem_erase hb)]
    have hrest := ih (gs.remove a)
    have hremove := total_remove a gs
    rw [hsum] at hrest
    have hinsert : ∑ addr ∈ (a :: l).toFinset, (get_balance addr gs).toNat =
        (get_balance a gs).toNat + ∑ addr ∈ l.toFinset.erase a, (get_balance addr gs).toNat := by
      rw [List.toFinset_cons, ← Finset.sum_erase_add _ _ (Finset.mem_insert_self a _), Finset.erase_insert_eq_erase,
        Nat.add_comm]
    rw [hinsert]
    change (l.foldl (fun gs addr => GlobalState.remove addr gs) (gs.remove a)).total + _ = _
    omega

/-- Balances are conserved in the run that starts in `p0`: every instruction keeps the sum of all balances, the
clean-up lowers it by those of the removed accounts, and the run leaves no larger sum than it found. -/
structure Conserved (p0 : Processor SimpleGlobalState Address) : Prop where
  dispatched : ∀ p c cs, Loop.Reaches iterate p0 p → p.ctxts = c :: cs → c.pc_valid = true →
    (final (dispatch p)).gs.total = p.gs.total
  cleaned_up : ∀ p, Loop.Ends iterate p0 (.ok () p) →
    p.clean_up.total + ∑ addr ∈ p.tx.selfdestruct_list.toFinset, (get_balance addr p.gs).toNat = p.gs.total
  not_larger : ∀ r, Loop.Ends iterate p0 r → (finish r).gs.total ≤ p0.gs.total

/-- What the last turn does to the sum, given what its instruction does. -/
theorem iterate_total (hp : p.ctxts = c :: cs) (hd : c.pc_valid = true → (final (dispatch p)).gs.total = p.gs.total) :
    (∀ p', iterate p = .next p' → p'.gs.total = p.gs.total) ∧
      ∀ r, iterate p = .exit r → (final r).gs.total = p.gs.total := by
  cases hv : c.pc_valid with
  | false =>
    rw [iterate_off_end hp hv]
    refine ⟨nofun, ?_⟩
    rintro r ⟨⟩
    exact Ending.stops.total
  | true =>
    rw [iterate_valid hp hv, ← hd hv]
    obtain ⟨hnext, hexit⟩ := after_dispatch_sameWorld (r := dispatch p)
    exact ⟨fun p' h => by rw [(hnext p' h).1], fun r h => by rw [(hexit r h).1]⟩

/-- **Conservation.** The balances are conserved in a run exactly when no instruction of it mints. -/
theorem conserved_iff_no_mint (gs : SimpleGlobalState) (tx : Transaction) (tr : Option (List TraceEvent))
    (caller callee : Address) (input : Bytes) (call_value : Word) :
    Conserved (start gs tx tr caller callee input call_value) ↔
      ∀ p c cs, Loop.Reaches iterate (start gs tx tr caller callee input call_value) p → p.ctxts = c :: cs →
        c.pc_valid = true → ¬Mints p.gs c := by
  constructor
  · intro h p c cs hr hp hv hm
    rcases dispatch_adds hp with ⟨hnot, -⟩ | ⟨-, hlt⟩
    · exact hnot hm
    · rw [h.dispatched p c cs hr hp hv] at hlt
      exact Nat.lt_irrefl _ hlt
  · intro h
    have hdispatch : ∀ p c cs, Loop.Reaches iterate (start gs tx tr caller callee input call_value) p →
        p.ctxts = c :: cs → c.pc_valid = true → (final (dispatch p)).gs.total = p.gs.total := by
      intro p c cs hr hp hv
      rcases dispatch_adds hp with ⟨-, heq⟩ | ⟨hm, -⟩
      · exact heq
      · exact absurd hm (h p c cs hr hp hv)
    -- the sum stays what it was at the start
    have hinv : ∀ r, Loop.Ends iterate (start gs tx tr caller callee input call_value) r →
        (final r).gs.total = gs.total := by
      refine (run_invariant (P := fun p : Processor SimpleGlobalState Address => p.gs.total = gs.total) rfl ?_).2
      intro p c cs hr hp h
      obtain ⟨hnext, hexit⟩ := iterate_total hp (hdispatch p c cs hr hp)
      exact ⟨fun p' hn => (hnext p' hn).trans h, fun r hx => (hexit r hx).trans h⟩
    refine ⟨hdispatch, fun p _ => clean_up_total _ _, ?_⟩
    intro r hends
    have hfinal := hinv r hends
    cases r with
    | ok u p' =>
      have hclean := clean_up_total p'.tx.selfdestruct_list p'.gs
      change p'.clean_up.total ≤ gs.total
      change p'.clean_up.total + _ = _ at hclean
      simp at hfinal
      omega
    | error e p' => exact Nat.le_of_eq hfinal

/-! ## A run that mints -/

end

/-- Account 100, with a balance of 5, calls itself with a value of 1. -/
def mint_start : Processor SimpleGlobalState Address :=
  start (.of_accounts
    [{ address := 100, balance := 5, code := [0x60, 0, 0x60, 0, 0x60, 0, 0x60, 0, 0x60, 1, 0x60, 100, 0x60, 0, 0xf1] }])
    { origin := 1 } none 1 100 [] 0

/-- The call leaves a balance of 6. -/
theorem not_conserved : ¬@Conserved no_hash mint_start := by
  intro h
  have hr : @Loop.Reaches _ _ (@iterate _ _ _ no_hash) mint_start _ :=
    .of_steps (show @Loop.steps _ _ (@iterate _ _ _ no_hash) 7 mint_start = some _ from rfl)
  have hd := @Conserved.dispatched no_hash _ h _ _ _ hr rfl rfl
  exact absurd hd (by decide)

end Processor

end EEVM

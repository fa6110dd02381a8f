import EEVM.Calls
import EEVM.Handlers
/-!
# What an instruction does to the world, exactly (processor.cpp:396-678, 998-1342)

`WorldCase` lists what the world can be when `dispatch` is over, whatever the instruction and however it ends: it is the
same, or the storage of the current account has been written (`SSTORE`), an account has been looked up, perhaps to be paid
(`BALANCE`, `EXTCODESIZE`, `EXTCODECOPY`, `SELFDESTRUCT` and the calls), one has been created, perhaps to be paid, or one
has been given its code. The selfdestruct_list is the same or longer by the address of the current account.
-/
namespace EEVM

open ExcState

namespace Processor

variable {W R α : Type} [GlobalState W R]

/-- The instruction at the pc of `c` looks up the account at the address. -/
inductive Looks (c : Context R) : Address → Prop
  | account {addr c'}
    (hop : c.next_op ∈ [some .BALANCE, some .EXTCODESIZE, some .EXTCODECOPY, some .SELFDESTRUCT])
    (hpop : pop_addr c = .ok addr c') : Looks c addr
  | call {op args c'} (hop : c.next_op = some op) (hcall : op = .CALL ∨ op = .CALLCODE ∨ op = .DELEGATECALL)
    (hops : call_operands op c = .ok args c') (hpre : ¬Precompiled args.addr) : Looks c args.addr

/-- What `dispatch` can leave of the world `gs`. -/
inductive WorldCase [Keccak] (gs : W) (c : Context R) : W → Prop
  | same : WorldCase gs c gs
  | stores (hop : c.next_op = some .SSTORE) (k v : Word) : WorldCase gs c (GlobalState.store c.as k v gs)
  | removes (hop : c.next_op = some .SSTORE) (k : Word) : WorldCase gs c (GlobalState.remove_key c.as k gs)
  | looks {addr} (h : Looks c addr) : WorldCase gs c (GlobalState.get addr gs).2
  | pays {addr amount} (h : Looks c addr)
    (hpay : CanPay c.as (GlobalState.get addr gs).1 amount (GlobalState.get addr gs).2) :
    WorldCase gs c (transfer c.as (GlobalState.get addr gs).1 amount (GlobalState.get addr gs).2)
  | creates {v code c'} (hop : c.next_op = some .CREATE) (hops : create_operands c = .ok (v, code) c') :
    WorldCase gs c (created gs c v).2
  | endows {v code c'} (hop : c.next_op = some .CREATE) (hops : create_operands c = .ok (v, code) c')
    (hpay : CanPay c.as (created gs c v).1 v (created gs c v).2) :
    WorldCase gs c (transfer c.as (created gs c v).1 v (created gs c v).2)
  | gives_code {newAcc} (hop : c.next_op = some .RETURN) (h : c.handlers = .create newAcc) (code : Code) :
    WorldCase gs c (set_code newAcc code gs)

/-- The list is as it was, or longer by the address. -/
inductive ListCase (addr : Address) (list list' : List Address) : Prop
  | same (h : list' = list)
  | destructs (h : list' = list ++ [addr])

/-- What an instruction of `c` does to the world and to the list. -/
structure Effect [Keccak] (c : Context R) (p p' : Processor W R) : Prop where
  world : WorldCase p.gs c p'.gs
  list : ListCase (get_address c.as p'.gs) p.tx.selfdestruct_list p'.tx.selfdestruct_list

/-! ## Instructions that leave both alone -/

/-- The same world and the same selfdestruct_list. -/
def SameList (p p' : Processor W R) : Prop := p'.gs = p.gs ∧ p'.tx.selfdestruct_list = p.tx.selfdestruct_list

instance : Std.Refl (SameList (W := W) (R := R)) := ⟨fun _ => ⟨rfl, rfl⟩⟩
instance : IsTrans (Processor W R) SameList := ⟨fun _ _ _ h1 h2 => ⟨h2.1.trans h1.1, h2.2.trans h1.2⟩⟩

abbrev KeepsList (m : M W R α) : Prop := Keeps SameList (fun _ _ => True) m

section

omit [GlobalState W R]

theorem KeepsWorld.keepsList {m : M W R α} (h : KeepsWorld m) : KeepsList m :=
  h.mono (fun _ _ hs => ⟨hs.1, congrArg _ hs.2⟩) fun _ _ _ => trivial

theorem onCtxt_keepsList (m : CtxM R α) : KeepsList (W := W) (onCtxt m) := (onCtxtAt_keepsWorld 0 m).keepsList

theorem ctxt_keepsList : KeepsList (W := W) (R := R) ctxt := onCtxt_keepsList get

theorem pop_topics_keepsWorld : ∀ n, KeepsWorld (W := W) (R := R) (pop_topics n)
  | 0 => .pure _
  | n + 1 => (onCtxtAt_keepsWorld 0 s_pop).bind fun _ => (pop_topics_keepsWorld n).bind fun _ => .pure _

end

omit [GlobalState W R] in
theorem push_env_keepsList (f : Context R → W → Transaction → Word) : KeepsList (push_env f) :=
  ctxt_keepsList.bind fun _ => Keeps.get.bind fun _ => onCtxt_keepsList _

theorem sload_keepsList : KeepsList (W := W) (R := R) sload :=
  (onCtxt_keepsList _).bind fun _ => ctxt_keepsList.bind fun _ => Keeps.get.bind fun _ => onCtxt_keepsList _

theorem blockhash_keepsList : KeepsList (W := W) (R := R) blockhash :=
  (onCtxt_keepsList _).bind fun _ => Keeps.get.bind fun _ =>
    .ite (fun _ => onCtxt_keepsList _) fun _ => onCtxt_keepsList _

theorem log_keepsList (n : Nat) : KeepsList (W := W) (R := R) (log n) :=
  (onCtxt_keepsList _).bind fun _ => (onCtxt_keepsList _).bind fun _ => (pop_topics_keepsWorld n).keepsList.bind fun _ =>
    ctxt_keepsList.bind fun _ => Keeps.get.bind fun _ => (onCtxt_keepsList _).bind fun _ =>
      .modify fun _ => ⟨rfl, rfl⟩

theorem unknown_opcode_keepsList [Keccak] (b : UInt8) : KeepsList (W := W) (R := R) (unknown_opcode b) :=
  ctxt_keepsList.bind fun _ => Keeps.get.bind fun _ => .throw fun _ => trivial

section

variable [Keccak] {p p' : Processor W R} {c : Context R} {cs : List (Context R)}

theorem SameList.effect (h : SameList p p') : Effect c p p' := by
  refine ⟨?_, .same h.2⟩
  rw [h.1]
  exact .same

theorem KeepsList.effect {m : M W R α} (h : KeepsList m) (p : Processor W R) : Effect c p (final (m p)) :=
  SameList.effect (h.final p)

/-! ## Instructions that look an account up or write the storage -/

/-- An address is popped, the account is looked up, and from there on the world is left alone. -/
theorem looks_effect {f : R → M W R Unit} (hp : p.ctxts = c :: cs)
    (hop : c.next_op ∈ [some .BALANCE, some .EXTCODESIZE, some .EXTCODECOPY, some .SELFDESTRUCT])
    (hf : ∀ acc, KeepsList (f acc)) :
    Effect c p (final ((do let addr ← onCtxt pop_addr; let acc ← gs_get addr; f acc : M W R Unit) p)) := by
  rcases onCtxt_quiet_cases pop_addr_quiet hp with ⟨addr, c', hpop, -, hrun⟩ | ⟨ex, c', -, -, hrun⟩
  · have hgs : gs_get addr ({ p with ctxts := c' :: cs } : Processor W R) =
        .ok (GlobalState.get addr p.gs).1 { p with gs := (GlobalState.get addr p.gs).2, ctxts := c' :: cs } := rfl
    rw [bind_of_ok hrun, bind_of_ok hgs]
    obtain ⟨hworld, hlist⟩ := (hf (GlobalState.get addr p.gs).1).final
      { p with gs := (GlobalState.get addr p.gs).2, ctxts := c' :: cs }
    refine ⟨?_, .same hlist⟩
    rw [hworld]
    exact .looks (.account hop hpop)
  · rw [bind_of_error hrun]
    exact SameList.effect ⟨rfl, rfl⟩

theorem sstore_effect (hp : p.ctxts = c :: cs) (hop : c.next_op = some .SSTORE) : Effect c p (final (sstore p)) := by
  unfold sstore
  rcases onCtxt_quiet_cases s_pop_quiet hp with ⟨k, c1, -, hq, hrun⟩ | ⟨ex, c1, -, -, hrun⟩
  case inr =>
    rw [bind_of_error hrun]
    exact SameList.effect ⟨rfl, rfl⟩
  have hp1 : ({ p with ctxts := c1 :: cs } : Processor W R).ctxts = c1 :: cs := rfl
  rw [bind_of_ok hrun]
  rcases onCtxt_quiet_cases s_pop_quiet hp1 with ⟨v, c2, -, hq1, hrun⟩ | ⟨ex, c2, -, -, hrun⟩
  case inr =>
    rw [bind_of_error hrun]
    exact SameList.effect ⟨rfl, rfl⟩
  have hp2 : ({ p with ctxts := c2 :: cs } : Processor W R).ctxts = c2 :: cs := rfl
  have has : c2.as = c.as := (hq.trans hq1).as
  rw [bind_of_ok hrun, bind_of_ok (ctxt_cons hp2), has]
  split
  · exact ⟨.removes hop k, .same rfl⟩
  · exact ⟨.stores hop k v, .same rfl⟩

/-! ## Instructions that end a context -/

theorem returning_effect {c1 : Context R} (hp : p.ctxts = c1 :: cs) (hc1 : c1.handlers = c.handlers)
    (hop : c.next_op = some .RETURN) (output : Bytes) : Effect c p (final (returning output p)) := by
  by_cases hc : ∃ newAcc, c.handlers = .create newAcc
  · obtain ⟨newAcc, hc⟩ := hc
    have hs := returning_gives_code hp (hc1.trans hc) output
    refine ⟨?_, .same (congrArg _ hs.2)⟩
    rw [hs.1]
    exact .gives_code hop hc output
  · have hs := returning_keepsWorld hp (fun newAcc h => hc ⟨newAcc, hc1 ▸ h⟩) output
    exact SameList.effect ⟨hs.1, congrArg _ hs.2⟩

theorem return_effect {r} (hop : c.next_op = some .RETURN) (h : ReturnCase p c cs r) : Effect c p (final r) := by
  cases h with
  | refused => exact SameList.effect ⟨rfl, rfl⟩
  | @returns output c1 hq =>
    have he := returning_effect (c := c) (p := { p with ctxts := c1 :: cs }) rfl hq.handlers hop output
    exact ⟨he.world, he.list⟩

theorem selfdestruct_effect {r} (hop : c.next_op = some .SELFDESTRUCT) (h : SelfdestructCase p c cs r) :
    Effect c p (final r) := by
  have hmem : c.next_op ∈ [some .BALANCE, some .EXTCODESIZE, some .EXTCODECOPY, some .SELFDESTRUCT] := by simp [hop]
  cases h with
  | refused => exact SameList.effect ⟨rfl, rfl⟩
  | unpaid hops => exact ⟨.looks (.account hmem hops), .same rfl⟩
  | @paid addr c1 gs hops hpay hgs =>
    obtain ⟨hworld, hlist⟩ := stop_keepsWorld.keepsList.final { p with
      gs, tx := { p.tx with selfdestruct_list := p.tx.selfdestruct_list ++ [get_address c.as gs] }, ctxts := c1 :: cs }
    refine ⟨?_, .destructs ?_⟩
    · rw [hworld, hgs]
      exact .pays (.account hmem hops) hpay
    · rw [hlist, hworld]

/-! ## Instructions that open a context -/

omit [GlobalState W R] [Keccak] in
theorem Paid.sameList {n : Nat} {r} (h : Paid p c cs n r) : SameList p (final r) := by
  cases h <;> exact ⟨rfl, rfl⟩

theorem create_effect {r} (hop : c.next_op = some .CREATE) (h : CreateCase p c cs r) : Effect c p (final r) := by
  cases h with
  | refused => exact SameList.effect ⟨rfl, rfl⟩
  | unpaid hops => exact ⟨.creates hop hops, .same rfl⟩
  | paid hops hpay h =>
    obtain ⟨hworld, hlist⟩ := h.sameList
    refine ⟨?_, .same hlist⟩
    rw [hworld]
    exact .endows hop hops hpay

theorem call_effect {op : Opcode} {r} (hop : c.next_op = some op)
    (hcall : op = .CALL ∨ op = .CALLCODE ∨ op = .DELEGATECALL) (h : CallCase op p c cs r) : Effect c p (final r) := by
  cases h with
  | refused => exact SameList.effect ⟨rfl, rfl⟩
  | unpaid hops hpre => exact ⟨.looks (.call hop hcall hops hpre), .same rfl⟩
  | paid hops hpre hpay h =>
    obtain ⟨hworld, hlist⟩ := h.sameList
    refine ⟨?_, .same hlist⟩
    rw [hworld]
    exact .pays (.call hop hcall hops hpre) hpay

/-! ## Any instruction -/

theorem exec_effect {op : Opcode} (hp : p.ctxts = c :: cs) (hop : c.next_op = some op) (h1 : op.is_call = false)
    (h2 : op.ends_context = false) : Effect c p (final (exec op p)) := by
  cases op
  case CREATE | CALL | CALLCODE | DELEGATECALL => cases h1
  case RETURN | STOP | SELFDESTRUCT => cases h2
  case SSTORE => exact sstore_effect hp hop
  case BALANCE =>
    simp only [exec, balance]
    exact looks_effect hp (by simp [hop]) fun acc => Keeps.get.bind fun _ => onCtxt_keepsList _
  case EXTCODESIZE =>
    simp only [exec, extcodesize]
    exact looks_effect hp (by simp [hop]) fun acc => Keeps.get.bind fun _ => onCtxt_keepsList _
  case EXTCODECOPY => exact looks_effect hp (by simp [hop]) fun acc => Keeps.get.bind fun _ => onCtxt_keepsList _
  case SLOAD => exact sload_keepsList.effect p
  case BLOCKHASH => exact blockhash_keepsList.effect p
  case LOG n => exact (log_keepsList n).effect p
  case CODESIZE | ADDRESS | ORIGIN | GASPRICE | GAS | NUMBER | COINBASE | TIMESTAMP | DIFFICULTY | GASLIMIT =>
    simp only [exec, codesize, address, origin, gasprice, gas, number, coinbase, timestamp, difficulty, gaslimit]
    exact (push_env_keepsList _).effect p
  -- the instructions of one context
  all_goals exact (onCtxt_keepsList _).effect p

theorem dispatch_effect (hp : p.ctxts = c :: cs) : Effect c p (final (dispatch p)) := by
  have htraced : ∀ {q : Processor W R}, Effect c (traced p c) q → Effect c p q := fun h => ⟨h.world, h.list⟩
  have hp' : (traced p c).ctxts = c :: cs := hp
  apply htraced
  cases hop : c.next_op with
  | none =>
    rw [dispatch_eq hp, hop]
    exact (unknown_opcode_keepsList _).effect _
  | some op =>
    by_cases h1 : op.is_call = true
    · rcases Opcode.is_call_iff.1 h1 with rfl | hcall
      · exact create_effect hop (dispatch_create hp hop)
      · exact call_effect hop hcall (dispatch_call hp hop hcall)
    by_cases h2 : op.ends_context = true
    · rcases Opcode.ends_context_iff.1 h2 with rfl | rfl | rfl
      · exact return_effect hop (dispatch_return hp hop)
      · rw [dispatch_eq hp, hop]
        exact stop_keepsWorld.keepsList.effect _
      · exact selfdestruct_effect hop (dispatch_selfdestruct hp hop)
    rw [dispatch_eq hp, hop]
    exact exec_effect hp' hop (by simpa using h1) (by simpa using h2)

/-! ## A turn -/

theorem Effect.then {q : Processor W R} (h : Effect c p p') (hs : SameList p' q) : Effect c p q := by
  refine ⟨?_, ?_⟩
  · rw [hs.1]
    exact h.world
  · rw [hs.1, hs.2]
    exact h.list

/-- Whether the loop goes on or not, a turn has the effect of its instruction. -/
theorem turn_effect (hp : p.ctxts = c :: cs) : (∀ p', iterate p = .next p' → Effect c p p') ∧
    ∀ r, iterate p = .exit r → Effect c p (final r) := by
  have hd := dispatch_effect hp
  have ha := after_dispatch_sameWorld (r := dispatch p)
  cases hv : c.pc_valid with
  | true =>
    rw [iterate_valid hp hv]
    exact ⟨fun p' h => hd.then ⟨(ha.1 p' h).1, congrArg _ (ha.1 p' h).2⟩,
      fun r h => hd.then ⟨(ha.2 r h).1, congrArg _ (ha.2 r h).2⟩⟩
  | false =>
    rw [iterate_off_end hp hv]
    refine ⟨nofun, ?_⟩
    rintro r ⟨⟩
    exact stop_keepsWorld.keepsList.effect p

/-- What instructions preserve, a run preserves, to its end. -/
theorem run_effect {P : Processor W R → Prop} {p0 : Processor W R} (h0 : P p0)
    (hstep : ∀ p c cs p', Loop.Reaches iterate p0 p → p.ctxts = c :: cs → P p → Effect c p p' → P p') :
    (∀ p, Loop.Reaches iterate p0 p → P p) ∧ ∀ r, Loop.Ends iterate p0 r → P (final r) := by
  refine run_invariant h0 ?_
  intro p c cs hr hp h
  obtain ⟨hnext, hexit⟩ := turn_effect hp
  exact ⟨fun p' hn => hstep p c cs p' hr hp h (hnext p' hn), fun r hx => hstep p c cs _ hr hp h (hexit r hx)⟩

end

end Processor

end EEVM

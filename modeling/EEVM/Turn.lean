import EEVM.Change
/-!
# What a turn of the loop changes

A turn dispatches one instruction (`dispatch_cases`), may open a context, and may end some: the handlers then change
the contexts left and, for `CREATE`, the code of the new account. `iterate_cases` and `next_cases` put these together: the
invariants of runs are derived from them.
-/
namespace EEVM

open ExcState

namespace Processor

variable {W R α : Type} [GlobalState W R]

/-! ## Handlers and the end of a context -/

/-- What the handlers change: the result, the contexts quietly, and the code of a new account. -/
structure Settled (p p' : Processor W R) : Prop where
  ctxts : List.Forall₂ Quiet p.ctxts p'.ctxts
  tx : p'.tx = p.tx
  gs : Relation.ReflTransGen (fun gs gs' => ∃ acc code, gs' = set_code acc code gs) p.gs p'.gs

namespace Settled

theorem refl (p : Processor W R) : Settled p p := ⟨List.forall₂_same.2 fun c _ => .refl c, rfl, .refl⟩

theorem trans {p p' p'' : Processor W R} (h1 : Settled p p') (h2 : Settled p' p'') : Settled p p'' := by
  refine ⟨?_, h2.tx.trans h1.tx, h1.gs.trans h2.gs⟩
  have h : ∀ {l l' l'' : List (Context R)}, List.Forall₂ Quiet l l' → List.Forall₂ Quiet l' l'' →
      List.Forall₂ Quiet l l'' := by
    intro l l' l'' h1
    induction h1 generalizing l'' with
    | nil => exact fun h => h
    | cons hq _ ih =>
      rintro (_ | ⟨hq', hs⟩)
      exact .cons (hq.trans hq') (ih hs)
  exact h h1.ctxts h2.ctxts

instance : Std.Refl (Settled (W := W) (R := R)) := ⟨refl⟩
instance : IsTrans (Processor W R) Settled := ⟨fun _ _ _ => trans⟩

theorem tail {p p' : Processor W R} (h : Settled p p') :
    Settled { p with ctxts := p.ctxts.tail } { p' with ctxts := p'.ctxts.tail } := by
  refine ⟨?_, h.tx, h.gs⟩
  rcases p.ctxts, p'.ctxts, h.ctxts with ⟨_, _, _ | ⟨_, hs⟩⟩
  · exact .nil
  · exact hs

end Settled

/-- What a handler throws: the parent's stack or memory is at its limit; or there is no parent. -/
abbrev Settles (m : M W R α) : Prop := Keeps Settled (fun e _ => e.Caught ∨ e = .null_ctxt) m

theorem onCtxtAt_settles {k : Nat} {m : CtxM R α} (h : CtxM.Quiet m) : Settles (W := W) (onCtxtAt k m) := by
  intro p
  unfold onCtxtAt
  cases hp : p.ctxts[k]? with
  | none => exact ⟨.refl p, .inr rfl⟩
  | some c =>
    have hset : ∀ c', Quiet c c' → Settled p { p with ctxts := p.ctxts.set k c' } := by
      refine fun c' hq => ⟨?_, rfl, .refl⟩
      rw [List.forall₂_iff_get]
      refine ⟨by simp, fun i hi _ => ?_⟩
      simp only [List.get_eq_getElem, List.getElem_set]
      split
      · rename_i hk
        subst hk
        rw [List.getElem?_eq_getElem hi] at hp
        rwa [Option.some.inj hp]
      · exact .refl _
    have hc := h c
    dsimp only
    cases hm : m c with
    | ok a c' => rw [hm] at hc; exact hset c' hc
    | error e c' => rw [hm] at hc; exact ⟨hset c' hc.1, .inl hc.2⟩

theorem modify_settles {f : Processor W R → Processor W R} (h : ∀ p, Settled p (f p)) : Settles (modify f) := h

theorem settled_result (p : Processor W R) (result : ExecResult) : Settled p { p with result } :=
  ⟨(Settled.refl p).ctxts, rfl, .refl⟩

theorem invoke_settles (kind : HandlerKind) (k : Nat) : Settles (W := W) (R := R) (invoke kind k) :=
  modify_settles fun p => ⟨(Settled.refl p).ctxts, rfl, .refl⟩

theorem rh_settles (h : Handlers R) (k : Nat) (output : Bytes) : Settles (W := W) (rh h k output) := by
  refine (invoke_settles .rh k).bind fun _ => ?_
  cases h with
  | run => exact modify_settles fun p => settled_result p _
  | create newAcc =>
    refine (modify_settles fun p => ?_).bind fun _ => (modify_settles fun p => ?_).bind fun _ =>
      Keeps.get.bind fun p => onCtxtAt_settles (s_push_quiet _)
    · exact ⟨(Settled.refl p).ctxts, rfl, .refl⟩
    · exact ⟨(Settled.refl p).ctxts, rfl, .single ⟨newAcc, output, rfl⟩⟩
  | call offOut sizeOut =>
    exact onCtxtAt_settles ((copy_to_mem_quiet _ _ _ _ _).bind fun _ => s_push_quiet _)

theorem hh_settles (h : Handlers R) (k : Nat) : Settles (W := W) (hh h k) := by
  refine (invoke_settles .hh k).bind fun _ => ?_
  cases h with
  | run => exact modify_settles fun p => settled_result p _
  | create | call => exact onCtxtAt_settles (s_push_quiet _)

theorem eh_settles (h : Handlers R) (k : Nat) (ex : Exception) : Settles (W := W) (eh h k ex) := by
  refine (invoke_settles .eh k).bind fun _ => ?_
  cases h with
  | run => exact modify_settles fun p => settled_result p _
  | create | call => exact onCtxtAt_settles (s_push_quiet _)

/-- The three ways to the end of a context: an exception, `RETURN`, `STOP`. -/
inductive Ending (p : Processor W R) : EStateM.Result Thrown (Processor W R) Unit → Prop
  | fails (ex : Exception) : Ending p (.error (.exception ex) p)
  | returns (output : Bytes) : Ending p (returning output p)
  | stops : Ending p (stop p)

/-- `p'` is what the handlers leave of `p` without its `k` contexts on top. -/
def Dropped (k : Nat) (p p' : Processor W R) : Prop := Settled { p with ctxts := p.ctxts.drop k } p'

theorem Dropped.trans {k j : Nat} {p p1 p2 : Processor W R} (h1 : Dropped k p p1) (h2 : Dropped j p1 p2) :
    Dropped (k + j) p p2 := by
  have hj := List.forall₂_drop j h1.ctxts
  rw [List.drop_drop] at hj
  have h : Settled { p with ctxts := p.ctxts.drop (k + j) } { p1 with ctxts := p1.ctxts.drop j } := ⟨hj, h1.tx, h1.gs⟩
  exact h.trans h2

theorem Settled.dropped {p p' : Processor W R} (h : Settled p p') : Dropped 0 p p' := h

theorem pop_context_dropped (p : Processor W R) : ∃ p', pop_context p = .ok () p' ∧ Dropped 1 p p' := by
  refine ⟨_, rfl, ?_⟩
  rw [Dropped, List.drop_one]
  exact .refl _

theorem catch_dropped {ex : Exception} {p p' : Processor W R} (h : catch_exception ex p = .ok () p') :
    Dropped 1 p p' := by
  rw [catch_exception, bind_eq_ok] at h
  obtain ⟨c, p1, h1, h⟩ := h
  rw [bind_eq_ok] at h
  obtain ⟨_, p2, h2, h3⟩ := h
  have hs1 := (onCtxtAt_settles get_quiet).ok h1
  have hs2 := (eh_settles _ _ _).ok h2
  obtain ⟨p3, h4, hd⟩ := pop_context_dropped p2
  rw [h3] at h4
  cases h4
  exact (hs1.trans hs2).dropped.trans hd

/-- Whatever way a context ends, it is dropped, or the handler has thrown and it is about to be. -/
theorem Ending.dropped {p : Processor W R} {r} (h : Ending p r) :
    (∀ p', r = .ok () p' → Dropped 1 p p') ∧ (∀ e p', r = .error e p' → ∃ k, Dropped k p p') := by
  cases h with
  | fails ex =>
    refine ⟨nofun, ?_⟩
    rintro e p' ⟨⟩
    exact ⟨0, Settled.refl p⟩
  | returns output =>
    constructor
    · intro p' h
      rw [returning, bind_eq_ok] at h
      obtain ⟨c, p1, h1, h⟩ := h
      rw [bind_eq_ok] at h
      obtain ⟨_, p2, h2, h3⟩ := h
      obtain ⟨p3, h4, hd⟩ := pop_context_dropped p2
      rw [h3] at h4
      cases h4
      exact (((onCtxtAt_settles get_quiet).ok h1).trans ((rh_settles _ _ _).ok h2)).dropped.trans hd
    · intro e p' h
      rw [returning, bind_eq_error] at h
      rcases h with h | ⟨c, p1, h1, h⟩
      · exact ⟨0, ((onCtxtAt_settles get_quiet).error h).1⟩
      rw [bind_eq_error] at h
      rcases h with h | ⟨_, p2, h2, h3⟩
      · exact ⟨0, ((onCtxtAt_settles get_quiet).ok h1).trans ((rh_settles _ _ _).error h).1⟩
      · cases h3
  | stops =>
    constructor
    · intro p' h
      rw [stop, bind_eq_ok] at h
      obtain ⟨c, p1, h1, h⟩ := h
      obtain ⟨p2, h2, hd⟩ := pop_context_dropped p1
      rw [bind_of_ok h2] at h
      exact (((onCtxtAt_settles get_quiet).ok h1).dropped.trans hd).trans ((hh_settles _ _).ok h).dropped
    · intro e p' h
      rw [stop, bind_eq_error] at h
      rcases h with h | ⟨c, p1, h1, h⟩
      · exact ⟨0, ((onCtxtAt_settles get_quiet).error h).1⟩
      obtain ⟨p2, h2, hd⟩ := pop_context_dropped p1
      rw [bind_of_ok h2] at h
      exact ⟨_, (((onCtxtAt_settles get_quiet).ok h1).dropped.trans hd).trans ((hh_settles _ _).error h).1.dropped⟩

theorem Ending.final_dropped {p : Processor W R} {r} (h : Ending p r) : ∃ k, Dropped k p (final r) := by
  cases r with
  | ok u p' => exact ⟨1, h.dropped.1 p' rfl⟩
  | error e p' => exact h.dropped.2 e p' rfl

omit [GlobalState W R] in
theorem step_or_break_next {p p' : Processor W R} (h : step_or_break p = .next p') :
    ∃ c cs, p.ctxts = c :: cs ∧ p' = { p with ctxts := c.step :: cs } := by
  unfold step_or_break at h
  split at h
  case h_1 => cases h
  case h_2 c cs hp => exact ⟨c, cs, hp, (Loop.Turn.next.inj h).symm⟩

omit [GlobalState W R] in
theorem step_or_break_exit {p : Processor W R} {r} (h : step_or_break p = .exit r) :
    p.ctxts = [] ∧ r = .ok () p := by
  unfold step_or_break at h
  split at h
  case h_1 hp => exact ⟨hp, (Loop.Turn.exit.inj h).symm⟩
  case h_2 => cases h

/-- The loop goes on from what `dispatch` leaves, or from what the catch block leaves of it. -/
theorem after_dispatch_next {r : EStateM.Result Thrown (Processor W R) Unit} {p' : Processor W R}
    (h : after_dispatch r = .next p') : ∃ k p1, Dropped k (final r) p1 ∧ step_or_break p1 = .next p' := by
  cases r with
  | ok u p1 => exact ⟨0, p1, Settled.refl p1, h⟩
  | error e p1 =>
    cases e with
    | exception ex =>
      rw [after_dispatch] at h
      cases hc : catch_exception ex p1 with
      | ok u p2 => rw [hc] at h; exact ⟨1, p2, catch_dropped hc, h⟩
      | error e p2 => rw [hc] at h; cases h
    | overflow_error | unexpected_state | null_ctxt => cases h

/-- What follows the end of a context: the loop goes on with one below it, or leaves with none left. -/
theorem Ending.turn {p : Processor W R} {r} (h : Ending p r) :
    (∀ p', after_dispatch r = .next p' → ∃ k p1, 1 ≤ k ∧ Dropped k p p1 ∧ step_or_break p1 = .next p') ∧
    (∀ p', after_dispatch r = .exit (.ok () p') → ∃ k, 1 ≤ k ∧ Dropped k p p' ∧ p'.ctxts = []) := by
  have key : ∀ t, after_dispatch r = t →
      (∃ k p1, 1 ≤ k ∧ Dropped k p p1 ∧ step_or_break p1 = t) ∨ ∃ e p', t = .exit (.error e p') := by
    intro t ht
    cases hr : r with
    | ok u p1 =>
      rw [hr, after_dispatch] at ht
      exact .inl ⟨1, p1, Nat.le_refl _, h.dropped.1 p1 hr, ht⟩
    | error e p1 =>
      obtain ⟨k, hk⟩ := h.dropped.2 e p1 hr
      rw [hr] at ht
      cases e with
      | exception ex =>
        rw [after_dispatch] at ht
        cases hc : catch_exception ex p1 with
        | ok u p2 =>
          rw [hc] at ht
          exact .inl ⟨k + 1, p2, by omega, hk.trans (catch_dropped hc), ht⟩
        | error e p2 => rw [hc] at ht; exact .inr ⟨e, p2, ht.symm⟩
      | overflow_error | unexpected_state | null_ctxt => exact .inr ⟨_, _, ht.symm⟩
  constructor
  · intro p' ht
    rcases key _ ht with h | ⟨e, p1, h⟩
    · exact h
    · cases h
  · intro p' ht
    rcases key _ ht with ⟨k, p1, hk, hd, hs⟩ | ⟨e, p1, h⟩
    · obtain ⟨h1, h2⟩ := step_or_break_exit hs
      cases h2
      exact ⟨k, hk, hd, h1⟩
    · cases h

/-! ## A turn -/

section

variable [Keccak]

/-- How a turn that dispatches in `c`, with `cs` below it, comes out: the instruction makes changes only, opens a
context, ends `c`, or throws what the catch block does not catch. -/
inductive TurnCase (p : Processor W R) (c : Context R) (cs : List (Context R)) : Turn W R → Prop
  | stays {p1 c1} (h : Changes c.next_op p p1) (h1 : p1.ctxts = c1 :: cs)
      (hop : ∀ op, c.next_op = some op → op.ends_context = false) (hd : dispatch p = .ok () p1) :
    TurnCase p c cs (.next { p1 with ctxts := c1.step :: cs })
  | opens {p1 c1 c2 op} (h : Changes c.next_op p p1) (h1 : p1.ctxts = c1 :: cs) (hop : c.next_op = some op)
      (hcall : op.is_call) (hc : Fresh c2) (hdepth : (c1 :: cs).length % 2 ^ 16 < MAX_CALL_DEPTH)
      (hd : dispatch p = .ok () { p1 with ctxts := c2 :: c1 :: cs }) :
    TurnCase p c cs (.next { p1 with ctxts := c2.step :: c1 :: cs })
  | fails {p1 c1 ex} (h : Changes c.next_op p p1) (h1 : p1.ctxts = c1 :: cs)
      (hd : dispatch p = .error (.exception ex) p1) : TurnCase p c cs (after_dispatch (.error (.exception ex) p1))
  | returns {p1 c1 output} (h : Changes c.next_op p p1) (h1 : p1.ctxts = c1 :: cs) (hop : c.next_op = some .RETURN)
      (hd : dispatch p = returning output p1) :
    TurnCase p c cs (after_dispatch (returning output p1))
  | stops {p1 c1} (h : Changes c.next_op p p1) (h1 : p1.ctxts = c1 :: cs)
      (hop : c.next_op = some .STOP ∨ c.next_op = some .SELFDESTRUCT) (hd : dispatch p = stop p1) :
    TurnCase p c cs (after_dispatch (stop p1))
  | escapes {p1 c1} (h : Changes c.next_op p p1) (h1 : p1.ctxts = c1 :: cs) (hop : c.next_op = some .CALLDATALOAD)
      (hd : dispatch p = .error (.overflow_error "integer overflow") p1) :
    TurnCase p c cs (.exit (.error (.overflow_error "integer overflow") p1))

theorem iterate_nil {p : Processor W R} (hp : p.ctxts = []) : iterate p = .exit (.ok () p) := by
  simp [iterate, hp]

theorem iterate_off_end {p : Processor W R} {c cs} (hp : p.ctxts = c :: cs) (hv : c.pc_valid = false) :
    iterate p = .exit (stop p) := by
  simp [iterate, hp, hv]

theorem iterate_valid {p : Processor W R} {c cs} (hp : p.ctxts = c :: cs) (hv : c.pc_valid = true) :
    iterate p = after_dispatch (dispatch p) := by
  simp [iterate, hp, hv]

theorem iterate_cases {p : Processor W R} {c cs} (hp : p.ctxts = c :: cs) (hv : c.pc_valid = true) :
    TurnCase p c cs (iterate p) := by
  obtain ⟨p1, h, ht⟩ := dispatch_cases hp
  obtain ⟨c1, h1, hs⟩ := h.top hp
  rw [iterate_valid hp hv]
  generalize hr : dispatch p = r at ht
  cases ht with
  | done hop =>
    have hn : after_dispatch (.ok () p1) = .next { p1 with ctxts := c1.step :: cs } := by
      rw [after_dispatch, step_or_break, h1]
    rw [hn]
    exact .stays h h1 hop hr
  | throws ht =>
    rcases ht with ⟨ex, rfl⟩ | ⟨hop, rfl⟩ | ⟨rfl, hnil⟩
    · exact .fails h h1 hr
    · exact .escapes h h1 hop hr
    · rw [h1] at hnil
      cases hnil
  | opens hop hcall hc =>
    unfold push_context at hr ⊢
    rw [bind_of_ok (run_get p1)] at hr ⊢
    by_cases hdepth : p1.get_call_depth ≥ MAX_CALL_DEPTH
    · rw [if_pos hdepth] at hr ⊢
      exact .fails h h1 hr
    · rw [if_neg hdepth]
      rw [get_call_depth, h1, ge_iff_le, Nat.not_le] at hdepth
      rw [run_modify, after_dispatch, step_or_break, h1]
      rw [if_neg (by rw [get_call_depth, h1]; exact Nat.not_le.2 hdepth), run_modify, h1] at hr
      have ho : TurnCase p c cs _ := .opens h h1 hop hcall hc hdepth hr
      exact ho
  | returns hop output => exact .returns h h1 hop hr
  | stops hop => exact .stops h h1 hop hr

/-- `iterate_cases` for a turn after which the loop goes on. -/
inductive NextCase (p : Processor W R) (c : Context R) (cs : List (Context R)) : Processor W R → Prop
  | stays {p1 c1} (h : Changes c.next_op p p1) (h1 : p1.ctxts = c1 :: cs)
      (hop : ∀ op, c.next_op = some op → op.ends_context = false) (hd : dispatch p = .ok () p1) :
    NextCase p c cs { p1 with ctxts := c1.step :: cs }
  | opens {p1 c1 c2 op} (h : Changes c.next_op p p1) (h1 : p1.ctxts = c1 :: cs) (hop : c.next_op = some op)
      (hcall : op.is_call) (hc : Fresh c2) (hdepth : (c1 :: cs).length % 2 ^ 16 < MAX_CALL_DEPTH)
      (hd : dispatch p = .ok () { p1 with ctxts := c2 :: c1 :: cs }) :
    NextCase p c cs { p1 with ctxts := c2.step :: c1 :: cs }
  | ends {p1 c1 p2 k x xs} (h : Changes c.next_op p p1) (h1 : p1.ctxts = c1 :: cs)
      (hop : (∃ ex, dispatch p = .error (.exception ex) p1) ∨ ∃ op, c.next_op = some op ∧ op.ends_context)
      (hk : 1 ≤ k) (hd : Dropped k p1 p2) (h2 : p2.ctxts = x :: xs) :
    NextCase p c cs { p2 with ctxts := x.step :: xs }

theorem next_cases {p p' : Processor W R} (hn : iterate p = .next p') :
    ∃ c cs, p.ctxts = c :: cs ∧ c.pc_valid = true ∧ NextCase p c cs p' := by
  cases hp : p.ctxts with
  | nil =>
    rw [iterate_nil hp] at hn
    cases hn
  | cons c cs =>
    have hv : c.pc_valid = true := by
      by_contra hv
      rw [iterate_off_end hp (by simpa using hv)] at hn
      cases hn
    refine ⟨c, cs, rfl, hv, ?_⟩
    have hc := iterate_cases hp hv
    rw [hn] at hc
    have hend : ∀ {p1 c1 r}, Changes c.next_op p p1 → p1.ctxts = c1 :: cs →
        ((∃ ex, dispatch p = .error (.exception ex) p1) ∨ ∃ op, c.next_op = some op ∧ op.ends_context) →
        Ending p1 r → after_dispatch r = .next p' → NextCase p c cs p' := by
      intro p1 c1 r h h1 hop he hr
      obtain ⟨k, p2, hk, hd, hs⟩ := he.turn.1 p' hr
      obtain ⟨x, xs, h2, rfl⟩ := step_or_break_next hs
      exact .ends h h1 hop hk hd h2
    generalize ht : Loop.Turn.next p' = t at hc
    cases hc with
    | stays h h1 hop hd => cases ht; exact .stays h h1 hop hd
    | opens h h1 hop hcall hc hdepth hd =>
      cases ht
      have ho : NextCase p c cs _ := .opens h h1 hop hcall hc hdepth hd
      exact ho
    | fails h h1 hd => exact hend h h1 (.inl ⟨_, hd⟩) (.fails _) ht.symm
    | returns h h1 hop => exact hend h h1 (.inr ⟨_, hop, rfl⟩) (.returns _) ht.symm
    | stops h h1 hop =>
      rcases hop with hop | hop <;> exact hend h h1 (.inr ⟨_, hop, rfl⟩) .stops ht.symm
    | escapes => cases ht

/-- What every turn of a run keeps, to the last one, holds in every state and at the end. -/
theorem run_invariant {P : Processor W R → Prop} {p0 : Processor W R} (h0 : P p0)
    (hturn : ∀ p c cs, Loop.Reaches iterate p0 p → p.ctxts = c :: cs → P p →
      (∀ p', iterate p = .next p' → P p') ∧ ∀ r, iterate p = .exit r → P (final r)) :
    (∀ p, Loop.Reaches iterate p0 p → P p) ∧ ∀ r, Loop.Ends iterate p0 r → P (final r) := by
  have hreached : ∀ p, Loop.Reaches iterate p0 p → P p := by
    intro p hr
    refine hr.invariant h0 ?_
    intro p p' hr h hn
    obtain ⟨c, cs, hp, -, -⟩ := next_cases hn
    exact (hturn p c cs hr hp h).1 p' hn
  refine ⟨hreached, ?_⟩
  rintro r ⟨p, hr, hx⟩
  cases hp : p.ctxts with
  | nil =>
    rw [iterate_nil hp] at hx
    cases hx
    exact hreached p hr
  | cons c cs => exact (hturn p c cs hr hp (hreached p hr)).2 r hx

end

end Processor

end EEVM

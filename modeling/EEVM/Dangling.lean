import EEVM.Handlers
/-!
# The reference that `create` leaves behind (processor.cpp:1196-1214, 1239-1250)

Of the three closures of `create`, the return handler has `newAcc` by reference, a local variable of a call of `create`
that has returned by the time the init code ends; the other two do not use it. So what the source does is defined as long
as no init code gets as far as to return: `defined_iff` for a whole run, `dangling_iff` for the part of it up to a turn.
-/
namespace EEVM

open ExcState

/-- `c` runs init code and is about to return, with the operands of `RETURN` in order. -/
structure Context.ReturnsInit {R : Type} (c : Context R) : Prop where
  next_op : c.next_op = some .RETURN
  handlers : ∃ newAcc, c.handlers = .create newAcc
  operands : ∃ output d, return_operands c = .ok output d

theorem Context.next_op_of_off_end {R : Type} {c : Context R} (hv : c.pc_valid = false) : c.next_op = some .STOP := by
  have hlen : c.prog.code.length ≤ c.pc := by
    simpa [Context.pc_valid] using hv
  rw [Context.next_op, List.getD_eq_getElem?_getD, List.getElem?_eq_none hlen]
  rfl

namespace Processor

variable {W R : Type} {p p' : Processor W R} {c : Context R} {cs : List (Context R)}

/-- The context on top is about to do so. -/
def ReturnsInit (p : Processor W R) : Prop := ∃ c cs, p.ctxts = c :: cs ∧ c.ReturnsInit

theorem returnsInit_iff (hp : p.ctxts = c :: cs) : ReturnsInit p ↔ c.ReturnsInit := by
  constructor
  · rintro ⟨c', cs', hp', h⟩
    obtain ⟨rfl, rfl⟩ := List.cons.inj (hp.symm.trans hp')
    exact h
  · exact fun h => ⟨c, cs, hp, h⟩

/-- The same flag. -/
def SameFlag (p p' : Processor W R) : Prop := p'.dangling = p.dangling

instance : Unseen (SameFlag (W := W) (R := R)) where
  refl _ := rfl
  trans _ _ _ h1 h2 := h2.trans h1
  unseen _ _ _ _ := rfl

variable [GlobalState W R]

theorem Changes.sameFlag {op : Option Opcode} (h : Changes op p p') : SameFlag p p' := by
  induction h with
  | refl => exact Std.Refl.refl p
  | tail _ h ih =>
    refine IsTrans.trans _ _ _ ih ?_
    cases h <;> rfl

theorem returning_dangling {output : Bytes} (hp : p.ctxts = c :: cs) : (final (returning output p)).dangling = true ↔
    p.dangling = true ∨ ∃ newAcc, c.handlers = .create newAcc := by
  by_cases hc : ∃ newAcc, c.handlers = .create newAcc
  · obtain ⟨newAcc, hc⟩ := hc
    have hset : SameFlag _ (final (returning output p)) := returning_init hp hc output
    exact ⟨fun _ => .inr ⟨newAcc, hc⟩, fun _ => hset⟩
  · have hsame : SameFlag p (final (returning output p)) := returning_unseen hp (fun newAcc h => hc ⟨newAcc, h⟩) output
    rw [SameFlag] at hsame
    rw [hsame, or_iff_left hc]

section

variable [Keccak]

/-- Only a `RETURN` uses the reference, when it has its operands. -/
theorem dispatch_dangling (hp : p.ctxts = c :: cs) :
    (final (dispatch p)).dangling = true ↔ p.dangling = true ∨ c.ReturnsInit := by
  by_cases hop : c.next_op = some .RETURN
  · have hcase := dispatch_return hp hop
    generalize dispatch p = r at hcase
    cases hcase with
    | refused _ hno =>
      have hnot : ¬c.ReturnsInit := fun h => hno _ _ h.operands.choose_spec.choose_spec
      exact (or_iff_left hnot).symm
    | @returns output c' hquiet hops =>
      rw [returning_dangling rfl, hquiet.handlers]
      refine or_congr Iff.rfl ⟨fun hc => ⟨hop, hc, output, c', hops⟩, fun h => h.handlers⟩
  · have hnot : ¬c.ReturnsInit := fun h => hop h.next_op
    rw [or_iff_left hnot]
    have hsame : SameFlag p (final (dispatch p)) := by
      obtain ⟨p1, hc, ht⟩ := dispatch_cases hp
      generalize dispatch p = r at ht
      refine IsTrans.trans _ _ _ hc.sameFlag ?_
      cases ht with
      | done | throws => exact Std.Refl.refl p1
      | opens =>
        unfold push_context
        rw [bind_of_ok (run_get p1)]
        split <;> rfl
      | returns hop' => exact absurd hop' hop
      | stops => exact stop_unseen.final p1
    rw [SameFlag] at hsame
    rw [hsame]

/-- A turn sets the flag just when it returns from init code. -/
theorem turn_dangling (p : Processor W R) :
    (∀ p', iterate p = .next p' → (p'.dangling = true ↔ p.dangling = true ∨ ReturnsInit p)) ∧
      ∀ r, iterate p = .exit r → ((final r).dangling = true ↔ p.dangling = true ∨ ReturnsInit p) := by
  rcases hp : p.ctxts with _ | ⟨c, cs⟩
  · rw [iterate_nil hp]
    refine ⟨nofun, ?_⟩
    rintro r ⟨⟩
    have hnot : ¬ReturnsInit p := by
      rintro ⟨c, cs, hp', -⟩
      cases hp.symm.trans hp'
    exact (or_iff_left hnot).symm
  rw [returnsInit_iff hp]
  cases hv : c.pc_valid with
  | true =>
    rw [iterate_valid hp hv, ← dispatch_dangling hp]
    have hafter := after_dispatch_unseen (S := SameFlag) (r := dispatch p)
    simp only [SameFlag] at hafter
    exact ⟨fun p' h => by rw [hafter.1 p' h], fun r h => by rw [hafter.2 r h]⟩
  | false =>
    rw [iterate_off_end hp hv]
    refine ⟨nofun, ?_⟩
    rintro r ⟨⟩
    have hnot : ¬c.ReturnsInit := by
      intro h
      cases h.next_op.symm.trans (Context.next_op_of_off_end hv)
    have hsame : SameFlag p (final (stop p)) := stop_unseen.final p
    rw [SameFlag] at hsame
    rw [hsame, or_iff_left hnot]

/-! ## A run -/

variable {p0 q : Processor W R}

/-- Once it is set, it stays so. -/
theorem dangling_of_reaches (hr : Loop.Reaches iterate p q) (h : p.dangling = true) : q.dangling = true :=
  hr.invariant h fun t _ _ ht hn => ((turn_dangling t).1 _ hn).2 (.inl ht)

/-- It has been set by a `RETURN` of init code before. -/
theorem returned_of_dangling (h0 : p0.dangling = false) (hr : Loop.Reaches iterate p0 q) (h : q.dangling = true) :
    ∃ t, Loop.Reaches iterate p0 t ∧ Loop.Reaches iterate t q ∧ ReturnsInit t := by
  induction hr with
  | refl => exact absurd (h0.symm.trans h) nofun
  | @tail t t' ht hn ih =>
    rcases ((turn_dangling t).1 t' hn).1 h with ht' | ht'
    · obtain ⟨u, hu, hut, hret⟩ := ih ht'
      exact ⟨u, hu, hut.tail hn, hret⟩
    · exact ⟨t, ht, .single hn, ht'⟩

/-- After the turn at `q`, whether the loop goes on or not. -/
theorem dangling_iff {s : Processor W R} (h0 : p0.dangling = false) (hr : Loop.Reaches iterate p0 q)
    (hs : iterate q = .next s ∨ ∃ r, iterate q = .exit r ∧ final r = s) :
    s.dangling = true ↔ ∃ t, Loop.Reaches iterate p0 t ∧ Loop.Reaches iterate t q ∧ ReturnsInit t := by
  have hturn : s.dangling = true ↔ q.dangling = true ∨ ReturnsInit q := by
    rcases hs with hn | ⟨r, hx, rfl⟩
    · exact (turn_dangling q).1 s hn
    · exact (turn_dangling q).2 r hx
  rw [hturn]
  constructor
  · rintro (h | h)
    · exact returned_of_dangling h0 hr h
    · exact ⟨q, hr, .refl, h⟩
  · rintro ⟨t, -, htq, hret⟩
    rcases Relation.ReflTransGen.cases_head htq with rfl | ⟨t', hn, htq'⟩
    · exact .inr hret
    · exact .inl (dangling_of_reaches htq' (((turn_dangling t).1 t' hn).2 (.inr hret)))

/-- In the run that starts in `p0` nothing is done through the reference. -/
structure Defined (p0 : Processor W R) : Prop where
  reached : ∀ p, Loop.Reaches iterate p0 p → p.dangling = false
  ended : ∀ r, Loop.Ends iterate p0 r → (final r).dangling = false

theorem defined_iff (h0 : p0.dangling = false) :
    Defined p0 ↔ ∀ p, Loop.Reaches iterate p0 p → ¬ReturnsInit p := by
  constructor
  · intro h p hr hret
    cases ht : iterate p with
    | next p' =>
      have hset := ((turn_dangling p).1 p' ht).2 (.inr hret)
      exact absurd ((h.reached p' (hr.tail ht)).symm.trans hset) nofun
    | exit r =>
      have hset := ((turn_dangling p).2 r ht).2 (.inr hret)
      exact absurd ((h.ended r ⟨p, hr, ht⟩).symm.trans hset) nofun
  · intro h
    constructor
    · intro p hr
      by_contra hp
      obtain ⟨t, ht, -, hret⟩ := returned_of_dangling h0 hr (by simpa using hp)
      exact h t ht hret
    · rintro r ⟨q, hr, hx⟩
      by_contra hp
      obtain ⟨t, ht, -, hret⟩ := (dangling_iff h0 hr (.inr ⟨r, hx, rfl⟩)).1 (by simpa using hp)
      exact h t ht hret

/-- `ReturnsInit` without the operands, as a test. -/
def may_return_init (p : Processor W R) : Bool :=
  p.ctxts.head?.any fun c => c.next_op == some .RETURN && match c.handlers with
    | .create _ => true
    | _ => false

theorem not_returnsInit_of_all {fuel : Nat} (h : Loop.all iterate (fun p => !may_return_init p) fuel p0 = true) :
    ∀ p, Loop.Reaches iterate p0 p → ¬ReturnsInit p := by
  rintro p hr ⟨c, cs, hp, hc⟩
  obtain ⟨newAcc, hinit⟩ := hc.handlers
  have htest := hr.of_all h
  simp [may_return_init, hp, hc.next_op, hinit] at htest

end

end Processor

end EEVM

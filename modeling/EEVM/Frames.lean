import EEVM.EndOfCode
import EEVM.Exceptional
import EEVM.Limits
/-!
# The contexts below (processor.cpp:206-262)

Nothing below the context on top is touched, except that the one right below is given a report when it ends; where the
report fails, that one may end as well, and the next one below is given a 0. So while a context is open everything
below it stands as it was (`stands_of_above`), and the turn in which it ends is one of three (`finishes_of_length_le`):
it returns, it halts, or an exception reaches it.
-/
namespace EEVM

open ExcState

namespace Processor

variable {W R : Type} {p p' : Processor W R} {c d : Context R} {cs ds : List (Context R)}

section

variable [GlobalState W R]

/-- Whatever way the context on top ends, the loop goes on in one below it, and what is below that one is as it was. -/
theorem Ending.lands {r} (h : Ending p r) (hp : p.ctxts = c :: cs) (hs : Shaped (c :: cs))
    (hn : after_dispatch r = .next p') :
    ∃ above d d' ds, cs = above ++ d :: ds ∧ SameFrame d d' ∧ p'.ctxts = d' :: ds := by
  have hgiven : ∀ (d : Context R) w, SameFrame d (d.given w).step :=
    fun d w => IsTrans.trans d (d.given w) _ rfl (step_sameFrame _)
  cases h with
  | fails ex =>
    obtain ⟨d, ds, rfl, -, rfl⟩ := catch_next hp hs hn
    exact ⟨[], d, _, ds, rfl, hgiven d 0, rfl⟩
  | returns output =>
    obtain ⟨d, ds, rfl, hcase⟩ := returning_next hp hs hn
    have hq := c.handlers.rh_report_quiet (rh_address c.handlers output p.gs) output d
    rcases hcase with ⟨d', hr, rfl⟩ | ⟨ex, d', hr, -, hp'⟩
    · rw [hr] at hq
      exact ⟨[], d, _, ds, rfl, (SameFrame.of_quiet hq).trans (step_sameFrame d'), rfl⟩
    · rw [hr] at hq
      exact ⟨[], d, _, ds, rfl, (SameFrame.of_quiet hq.1).trans (hgiven d' 0), hp'⟩
  | stops =>
    obtain ⟨d, ds, rfl, ⟨-, rfl⟩ | ⟨-, e, es, rfl, hp'⟩⟩ := stop_next hp hs hn
    · exact ⟨[], d, _, ds, rfl, hgiven d _, rfl⟩
    · exact ⟨[d], e, _, es, rfl, hgiven e 0, hp'⟩

/-! ## A turn, as a move of a stack of frames -/

variable [Keccak]

theorem moves_of_next (hs : Shaped p.ctxts) (hn : iterate p = .next p') : Nesting.Moves SameFrame p.ctxts p'.ctxts := by
  obtain ⟨c, cs, hp, hv, -⟩ := next_cases hn
  have hcase := iterate_cases hp hv
  rw [hn] at hcase
  rw [hp] at hs ⊢
  have hend : ∀ {p1 c1 r}, Changes c.next_op p p1 → p1.ctxts = c1 :: cs → Ending p1 r → after_dispatch r = .next p' →
      Nesting.Moves SameFrame (c :: cs) p'.ctxts := by
    intro p1 c1 r hc h1 he hr
    have hsame := hc.sameFrame hp h1
    obtain ⟨above, d, d', ds, rfl, hd, hp'⟩ := he.lands h1 (hs.top hsame.handlers) hr
    rw [hp']
    have hm : Nesting.Moves SameFrame ((c :: above) ++ d :: ds) (d' :: ds) := .lands hd
    exact hm
  generalize ht : Loop.Turn.next p' = t at hcase
  cases hcase with
  | @stays p1 c1 hc h1 =>
    cases ht
    have hsame := hc.sameFrame hp h1
    have hm : Nesting.Moves SameFrame ([] ++ c :: cs) (c1.step :: cs) := .lands (hsame.trans (step_sameFrame c1))
    exact hm
  | @opens p1 c1 f _ hc h1 =>
    cases ht
    have hsame := hc.sameFrame hp h1
    exact .opens hsame _
  | fails hc h1 => exact hend hc h1 (.fails _) ht.symm
  | returns hc h1 => exact hend hc h1 (.returns _) ht.symm
  | stops hc h1 => exact hend hc h1 .stops ht.symm
  | escapes => cases ht

theorem shaped_of_shaped (hr : Loop.Reaches iterate p p') (hs : Shaped p.ctxts) : Shaped p'.ctxts :=
  hr.invariant (P := fun p : Processor W R => Shaped p.ctxts) hs fun _ _ _ h hn => (h.next hn).1

/-- While there are more contexts than `base` has, `base` is as it was, and `f`, or what has become of it, stands on it. -/
theorem stands_of_above {q : Processor W R} {f : Context R} {base : List (Context R)} (hs : Shaped p.ctxts)
    (hp : p.ctxts = f :: base) (hq : Above base.length p q) : Nesting.Stands SameFrame f base q.ctxts := by
  induction hq with
  | refl =>
    rw [hp]
    exact .refl
  | tail hq hstep ih => exact ih.moves (moves_of_next (shaped_of_shaped (Above.reaches hq) hs) hstep.1) hstep.2

/-- A turn after which there is one context more has opened it. -/
theorem opened_of_next {f c' : Context R} (hp : p.ctxts = c :: cs) (hn : iterate p = .next p')
    (hp' : p'.ctxts = f :: c' :: cs) :
    ∃ p1 g op, c.next_op = some op ∧ op.is_call ∧ dispatch p = .ok () p1 ∧ p1.ctxts = g :: c' :: cs ∧ f = g.step ∧
      SameWorld p1 p' := by
  obtain ⟨c0, cs0, h0, -, hcase⟩ := next_cases hn
  obtain ⟨rfl, rfl⟩ := List.cons.inj (hp.symm.trans h0)
  cases hcase with
  | stays => simp at hp'
  | @opens p1 c1 g op _ _ hop hcall _ _ hd =>
    cases hp'
    exact ⟨_, g, op, hop, hcall, hd, rfl, rfl, rfl, rfl⟩
  | ends _ h1 _ hk hd h2 =>
    have hlen := hd.ctxts.length_eq
    rw [h2] at hlen
    simp only [h1, List.length_drop, List.length_cons] at hlen
    have hlen' := congrArg List.length hp'
    simp only [List.length_cons] at hlen'
    omega

theorem stands_of_opened {q : Processor W R} {f c' : Context R} (hs : Shaped p.ctxts) (hp : p.ctxts = c :: cs)
    (hn : iterate p = .next p') (hp' : p'.ctxts = f :: c' :: cs) (hq : Above p.ctxts.length p' q) :
    Shaped q.ctxts ∧ Nesting.Stands SameFrame f (c' :: cs) q.ctxts := by
  have hs' : Shaped p'.ctxts := (hs.next hn).1
  have hlen : p.ctxts.length = (c' :: cs).length := by
    rw [hp]
    rfl
  rw [hlen] at hq
  exact ⟨shaped_of_shaped (Above.reaches hq) hs', stands_of_above hs' hp' hq⟩

/-! ## How a context ends -/

/-- The three ways a context can end. -/
inductive Finish
  | returns (output : Bytes)
  | halts
  | throws
deriving DecidableEq, Repr

/-- In the turn at `q` the context right above `base` ends: it carries out `RETURN`, it carries out `STOP` or
`SELFDESTRUCT` or has run off the end of its code, or an exception reaches it. -/
inductive Finishes (q : Processor W R) (base : List (Context R)) : Finish → Prop
  | returns {g o d} (hq : q.ctxts = g :: base) (hv : g.pc_valid = true) (hop : g.next_op = some .RETURN)
    (hops : return_operands g = .ok o d) : Finishes q base (.returns o)
  | halts {g g1 q1} (hq : q.ctxts = g :: base) (hv : g.pc_valid = true)
    (hop : g.next_op = some .STOP ∨ g.next_op = some .SELFDESTRUCT) (hd : dispatch q = stop q1) (h1 : q1.ctxts = g1 :: base)
    (hsame : SameFrame g g1) : Finishes q base .halts
  | runs_off {g} (hq : q.ctxts = g :: base) (hv : g.pc_valid = false) : Finishes q base .halts
  | throws {q1 ex g1} (h : Raises q q1 ex) (h1 : q1.ctxts = g1 :: base) : Finishes q base .throws

theorem finishes_of_stop {q : Processor W R} {g : Context R} {base : List (Context R)} (hq : q.ctxts = g :: base)
    (hv : g.pc_valid = true) (hop : g.next_op = some .STOP) : Finishes q base .halts := by
  have hd : dispatch q = stop (traced q g) := by
    rw [dispatch_eq hq, hop]
    rfl
  exact .halts hq hv (.inl hop) hd hq (.refl g)

/-- The turn at `q` leaves `s`, whether the loop goes on or not. -/
def TurnsTo (q s : Processor W R) : Prop := iterate q = .next s ∨ iterate q = .exit (.ok () s)

omit [GlobalState W R] [Keccak] in
theorem length_of_catch {ex : Exception} (hp : p.ctxts = c :: cs) (hs : Shaped (c :: cs))
    (h : after_dispatch (.error (.exception ex) p) = .next p' ∨
      after_dispatch (.error (.exception ex) p) = .exit (.ok () p')) : p'.ctxts.length = cs.length := by
  rcases h with h | h
  · obtain ⟨d, ds, rfl, -, rfl⟩ := catch_next hp hs h
    rfl
  · obtain ⟨rfl, hnil, -⟩ := catch_exit h hp hs
    rw [hnil]

omit [Keccak] in
theorem length_of_returning {o : Bytes} (hp : p.ctxts = c :: cs) (hs : Shaped (c :: cs))
    (h : after_dispatch (returning o p) = .next p' ∨ after_dispatch (returning o p) = .exit (.ok () p')) :
    p'.ctxts.length = cs.length := by
  rcases h with h | h
  · obtain ⟨d, ds, rfl, ⟨d', -, rfl⟩ | ⟨ex, d', -, -, hp'⟩⟩ := returning_next hp hs h
    · rfl
    · rw [hp']
      rfl
  · obtain ⟨rfl, hnil, -⟩ := returning_exit hp hs h
    rw [hnil]

omit [GlobalState W R] [Keccak] in
/-- A halt ends one context, or, where the report fails, the parent as well, with the exception. -/
theorem length_of_stop (hp : p.ctxts = c :: d :: ds) (hs : Shaped (c :: d :: ds))
    (h : after_dispatch (stop p) = .next p' ∨ after_dispatch (stop p) = .exit (.ok () p')) :
    p'.ctxts.length = (d :: ds).length ∨
      p'.ctxts.length = ds.length ∧ ∃ ex p1, stop p = .error (.exception ex) p1 ∧ p1.ctxts = d :: ds := by
  have hstop := stop_nested hp hs.1
  rcases s_push_cases c.handlers.hh_word d with ⟨-, hr⟩ | ⟨-, ex, hr⟩
  · rw [hr] at hstop
    rw [hstop] at h
    rcases h with h | h <;> cases h
    exact .inl rfl
  · rw [hr] at hstop
    rw [hstop] at h
    exact .inr ⟨length_of_catch rfl hs.2 h, ex, _, hstop, rfl⟩

/-- In a turn after which it is gone a context ends in one of the three ways; if its parent is gone as well, that one ends
by an exception. -/
theorem finishes_of_gone {q s : Processor W R} (hq : q.ctxts = c :: d :: ds) (hs : Shaped (c :: d :: ds)) (ht : TurnsTo q s)
    (hle : s.ctxts.length ≤ (d :: ds).length) : (∃ way, Finishes q (d :: ds) way) ∧
      (s.ctxts.length = (d :: ds).length ∨ s.ctxts.length = ds.length ∧ Finishes q ds .throws) := by
  cases hv : c.pc_valid with
  | false =>
    refine ⟨⟨.halts, .runs_off hq hv⟩, .inl ?_⟩
    rw [TurnsTo, iterate_off_end hq hv, stop_nested hq hs.1] at ht
    rcases s_push_cases c.handlers.hh_word d with ⟨-, hr⟩ | ⟨-, ex, hr⟩
    · rw [hr] at ht
      rcases ht with ht | ht <;> cases ht
      rfl
    · rw [hr] at ht
      rcases ht with ht | ht <;> cases ht
  | true =>
    have hcase := iterate_cases hq hv
    rw [TurnsTo] at ht
    generalize iterate q = t at hcase ht
    cases hcase with
    | stays | opens =>
      rcases ht with ht | ht <;> cases ht
      simp only [List.length_cons] at hle
      omega
    | fails hc h1 hd =>
      have hs1 := hs.top (hc.sameFrame hq h1).handlers
      exact ⟨⟨.throws, .throws ⟨⟨c, _, hq, hv⟩, hd⟩ h1⟩, .inl (length_of_catch h1 hs1 ht)⟩
    | returns hc h1 hop =>
      have hs1 := hs.top (hc.sameFrame hq h1).handlers
      refine ⟨?_, .inl (length_of_returning h1 hs1 ht)⟩
      have hret := dispatch_return hq hop
      generalize hd : dispatch q = r at hret
      cases hret with
      | refused => exact ⟨.throws, .throws ⟨⟨c, _, hq, hv⟩, hd⟩ rfl⟩
      | returns _ hops => exact ⟨.returns _, .returns hq hv hop hops⟩
    | stops hc h1 hop hd =>
      have hsame := hc.sameFrame hq h1
      refine ⟨⟨.halts, .halts hq hv hop hd h1 hsame⟩, ?_⟩
      rcases length_of_stop h1 (hs.top hsame.handlers) ht with hlen | ⟨hlen, ex, p2, hstop, h2⟩
      · exact .inl hlen
      · exact .inr ⟨hlen, .throws ⟨⟨c, _, hq, hv⟩, hd.trans hstop⟩ h2⟩
    | escapes => rcases ht with ht | ht <;> cases ht

/-- The turn after which the context right above `base` is gone is one in which it ends. -/
theorem finishes_of_length_le {q s : Processor W R} {f b : Context R} {bs : List (Context R)} (hs : Shaped q.ctxts)
    (hf : Nesting.Stands SameFrame f (b :: bs) q.ctxts) (ht : TurnsTo q s) (hle : s.ctxts.length ≤ (b :: bs).length) :
    ∃ way, Finishes q (b :: bs) way := by
  -- the context on top, and the one below it
  obtain ⟨c, d, ds, hq⟩ : ∃ c d ds, q.ctxts = c :: d :: ds := by
    have hlen := hf.length_lt
    rcases hq : q.ctxts with _ | ⟨c, _ | ⟨d, ds⟩⟩
    · simp [hq] at hlen
    · simp [hq] at hlen
    · exact ⟨c, d, ds, rfl⟩
  rw [hq] at hs hf
  have hlt := hf.length_lt
  have hds : (b :: bs).length ≤ (d :: ds).length := Nat.le_of_lt_succ hlt
  obtain ⟨hways, hgone⟩ := finishes_of_gone hq hs ht (Nat.le_trans hle hds)
  rcases hf.cases with ⟨hbase, -⟩ | hf'
  · rw [← hbase]
    exact hways
  · -- the context right above `base` is the parent, which is gone as well
    have hlt' := hf'.length_lt
    rcases hgone with hlen | ⟨hlen, hthrows⟩
    · omega
    · obtain ⟨rfl, -⟩ := hf'.eq_of_length_le (hlen ▸ hle)
      exact ⟨.throws, hthrows⟩

/-- A context that returns has its operands in order, and leaves the world to its return handler. -/
theorem Finishes.returning {q : Processor W R} {f b : Context R} {bs : List (Context R)} {o : Bytes}
    (hf : Finishes q (b :: bs) (.returns o)) (hs : Shaped q.ctxts) (hst : Nesting.Stands SameFrame f (b :: bs) q.ctxts) :
    ∃ g q1, iterate q = after_dispatch (Processor.returning o q1) ∧ q1.gs = q.gs ∧ q1.ctxts = g :: b :: bs ∧
      Shaped (g :: b :: bs) ∧ g.handlers = f.handlers := by
  cases hf with
  | @returns g _ _ hq hv hop hops =>
    rw [hq] at hs hst
    obtain ⟨-, hsame⟩ := hst.eq_of_length_le (Nat.le_refl _)
    have hret := dispatch_return hq hop
    rw [iterate_valid hq hv]
    generalize dispatch q = r at hret
    cases hret with
    | refused _ hno => exact absurd hops (hno _ _)
    | @returns o' g' hquiet hops' =>
      obtain rfl : o' = o := by
        rw [hops] at hops'
        cases hops'
        rfl
      exact ⟨g', _, rfl, rfl, rfl, hs.top hquiet.handlers, hquiet.handlers.trans hsame.handlers⟩

omit [GlobalState W R] [Keccak] in
/-- The word the caller is given when a context with the handlers `h` ends without returning. -/
def Finish.word (h : Handlers R) : Finish → Word
  | .halts => h.hh_word
  | .returns _ | .throws => 0

/-- The turn at `q` gives the caller `b` the word `w`, and nothing else of it has changed; only its stack can be in the way. -/
def Told (q : Processor W R) (b : Context R) (bs : List (Context R)) (w : Word) : Prop :=
  (b.s.length ≠ Stack.MAX_SIZE → ∃ s d, TurnsTo q s ∧ s.ctxts = d :: bs) ∧
    ∀ s d, TurnsTo q s → s.ctxts = d :: bs → b.s.length ≠ Stack.MAX_SIZE ∧ d.mem = b.mem ∧ d.s = w :: b.s

section

variable {q q1 : Processor W R} {g b : Context R} {bs : List (Context R)}

theorem told_of_stop (hq : q.ctxts = c :: cs) (hv : c.pc_valid = true) (hd : dispatch q = stop q1)
    (h1 : q1.ctxts = g :: b :: bs) (hs : Shaped (g :: b :: bs)) : Told q b bs g.handlers.hh_word := by
  simp only [Told, TurnsTo, iterate_valid hq hv, hd]
  constructor
  · intro hroom
    rw [stop_nested h1 hs.1, s_push_of_not_full hroom]
    exact ⟨_, _, .inl rfl, rfl⟩
  · rintro s d (hn | hx) hback
    · obtain ⟨d', ds, he, ⟨hroom, rfl⟩ | ⟨-, e, es, rfl, hes⟩⟩ := stop_next h1 hs hn
      · cases he
        obtain ⟨rfl, -⟩ := List.cons.inj hback
        rw [Context.step_mem, Context.step_s]
        exact ⟨hroom, rfl, rfl⟩
      · -- the caller has ended as well
        cases he
        have hlen := congrArg List.length (hes.symm.trans hback)
        simp at hlen
    · have hnil := (stop_exit h1 hs hx).1
      rw [hback] at hnil
      cases hnil

theorem told_of_off_end (hq : q.ctxts = g :: b :: bs) (hs : Shaped (g :: b :: bs)) (hv : g.pc_valid = false) :
    Told q b bs g.handlers.hh_word := by
  simp only [Told, TurnsTo, iterate_off_end hq hv, stop_nested hq hs.1]
  rcases s_push_cases g.handlers.hh_word b with ⟨hroom, hr⟩ | ⟨hfull, ex, hr⟩
  · rw [hr]
    refine ⟨fun _ => ⟨_, _, .inr rfl, rfl⟩, ?_⟩
    rintro s d (hn | hx) hback
    · cases hn
    · cases hx
      cases hback
      exact ⟨hroom, rfl, rfl⟩
  · rw [hr]
    refine ⟨fun hroom => absurd hfull hroom, ?_⟩
    rintro s d (hn | hx)
    · cases hn
    · cases hx

theorem told_of_raises {ex : Exception} (hx : Raises q q1 ex) (h1 : q1.ctxts = g :: b :: bs) (hs : Shaped (g :: b :: bs)) :
    Told q b bs 0 := by
  simp only [Told, TurnsTo, hx.iterate_eq]
  constructor
  · intro hroom
    rw [after_dispatch, catch_nested h1 hs.1, s_push_of_not_full hroom]
    exact ⟨_, _, .inl rfl, rfl⟩
  · rintro s d (hn | hx) hback
    · obtain ⟨d', ds, he, hroom, rfl⟩ := catch_next h1 hs hn
      cases he
      obtain ⟨rfl, -⟩ := List.cons.inj hback
      rw [Context.step_mem, Context.step_s]
      exact ⟨hroom, rfl, rfl⟩
    · cases (catch_exit hx h1 hs).1

/-- Where the context above it does not return, the caller is given a word. -/
theorem Finishes.told {f : Context R} {way : Finish} (hf : Finishes q (b :: bs) way) (hs : Shaped q.ctxts)
    (hst : Nesting.Stands SameFrame f (b :: bs) q.ctxts) (hway : ∀ o, way ≠ .returns o) :
    Told q b bs (way.word f.handlers) := by
  cases hf with
  | returns => exact absurd rfl (hway _)
  | halts hq hv _ hd h1 hsame =>
    rw [hq] at hs hst
    rw [Finish.word, ← (hst.eq_of_length_le (Nat.le_refl _)).2.handlers, ← hsame.handlers]
    exact told_of_stop hq hv hd h1 (hs.top hsame.handlers)
  | runs_off hq hv =>
    rw [hq] at hs hst
    rw [Finish.word, ← (hst.eq_of_length_le (Nat.le_refl _)).2.handlers]
    exact told_of_off_end hq hs hv
  | @throws _ ex g1 hx h1 =>
    obtain ⟨g, gs, hq, hv⟩ := hx.valid
    have hs1 := shaped_of_throws hs hq hx.throws
    rw [h1] at hs1
    exact told_of_raises hx h1 hs1

end

end

end Processor

end EEVM

import EEVM.Escape
/-!
# The end of the code (processor.cpp:206-233)

The guard of the loop, `ctxt->get_pc() < ctxt->prog.code.size()`, looks at the context on top, whichever that is, and
`stop()` after the loop halts that one. For the outermost context this is an implicit `STOP`. For a nested one it ends
the whole run: the parent is told that the call has halted and is never resumed.
-/
namespace EEVM

open ExcState

namespace Processor

variable {W R : Type}

section

variable [GlobalState W R]

variable [Keccak]

/-- The outermost context carries out `RETURN` in this turn. -/
def Returns (p : Processor W R) : Prop :=
  ∃ c p', p.ctxts = [c] ∧ c.pc_valid = true ∧ c.next_op = some .RETURN ∧ dispatch p = .ok () p'

/-- The outermost context carries out `STOP` or `SELFDESTRUCT` in this turn, or has run off its end. -/
def Halts (p : Processor W R) : Prop :=
  ∃ c, p.ctxts = [c] ∧ (c.pc_valid = false ∨ c.pc_valid = true ∧
    (c.next_op = some .STOP ∨ c.next_op = some .SELFDESTRUCT) ∧ ∃ p', dispatch p = .ok () p')

/-- An `eevm::Exception` reaches the outermost context in this turn. -/
def Fails (p : Processor W R) : Prop :=
  ∃ c cs c1 ex p1, p.ctxts = c :: cs ∧ c.pc_valid = true ∧ dispatch p = .error (.exception ex) p1 ∧ p1.ctxts = [c1]

/-- How the run can end: the outermost context does, in one of three ways. -/
theorem exit_turn {p p' : Processor W R} {c cs} (hp : p.ctxts = c :: cs) (hs : Shaped (c :: cs))
    (hv : c.pc_valid = true) (hx : iterate p = .exit (.ok () p')) :
    p'.ctxts = [] ∧ ((p'.result.er = .returned ∧ Returns p) ∨ (p'.result.er = .halted ∧ Halts p) ∨
      (p'.result.er = .threw ∧ Fails p)) := by
  have shaped : ∀ {p1 c1}, Changes c.next_op p p1 → p1.ctxts = c1 :: cs → Shaped (c1 :: cs) := by
    intro p1 c1 hc h1
    exact hs.top (hc.sameFrame hp h1).handlers
  have hc := iterate_cases hp hv
  rw [hx] at hc
  generalize ht : Loop.Turn.exit (EStateM.Result.ok () p') = t at hc
  cases hc with
  | stays => cases ht
  | opens => cases ht
  | escapes => cases ht
  | @fails p1 c1 ex hc h1 hd =>
    obtain ⟨rfl, hnil, her⟩ := catch_exit ht.symm h1 (shaped hc h1)
    exact ⟨hnil, .inr (.inr ⟨her, c, [], c1, ex, p1, hp, hv, hd, h1⟩)⟩
  | @returns p1 c1 output hc h1 hop hd =>
    obtain ⟨rfl, hnil, her, hr⟩ := returning_exit h1 (shaped hc h1) ht.symm
    exact ⟨hnil, .inl ⟨her, c, p', hp, hv, hop, hd.trans hr⟩⟩
  | @stops p1 c1 hc h1 hop hd =>
    obtain ⟨hnil, ⟨rfl, her, hr⟩ | ⟨her, c2, ex, p2, hr, h2⟩⟩ := stop_exit h1 (shaped hc h1) ht.symm
    · exact ⟨hnil, .inr (.inl ⟨her, c, hp, .inr ⟨hv, hop, p', hd.trans hr⟩⟩)⟩
    · exact ⟨hnil, .inr (.inr ⟨her, c, cs, c2, ex, p2, hp, hv, hd.trans hr, h2⟩)⟩

theorem not_returns_and_halts {p : Processor W R} (h1 : Returns p) (h2 : Halts p) : False := by
  obtain ⟨c, p1, hp, hv, hop, -⟩ := h1
  obtain ⟨c', hp', hv' | ⟨-, hop', -⟩⟩ := h2 <;> obtain ⟨⟩ := hp.symm.trans hp'
  · rw [hv] at hv'
    cases hv'
  · rw [hop] at hop'
    rcases hop' with h | h <;> cases h

theorem not_returns_and_fails {p : Processor W R} (h1 : Returns p) (h2 : Fails p) : False := by
  obtain ⟨c, p1, hp, hv, hop, hd⟩ := h1
  obtain ⟨c', cs, c1, ex, p2, -, -, hd', -⟩ := h2
  rw [hd] at hd'
  cases hd'

theorem not_halts_and_fails {p : Processor W R} (h1 : Halts p) (h2 : Fails p) : False := by
  obtain ⟨c, hp, h1⟩ := h1
  obtain ⟨c', cs, c1, ex, p2, hp', hv', hd', -⟩ := h2
  obtain ⟨⟩ := hp.symm.trans hp'
  rcases h1 with hv | ⟨-, -, p1, hd⟩
  · rw [hv] at hv'
    cases hv'
  · rw [hd] at hd'
    cases hd'

/-- The reason tells which of the three ways it was, as no turn is two of them. -/
theorem reason_iff {p p' : Processor W R} (h : (p'.result.er = .returned ∧ Returns p) ∨ (p'.result.er = .halted ∧ Halts p) ∨
    (p'.result.er = .threw ∧ Fails p)) :
    (p'.result.er = .returned ↔ Returns p) ∧ (p'.result.er = .halted ↔ Halts p) ∧ (p'.result.er = .threw ↔ Fails p) := by
  rcases h with ⟨her, hw⟩ | ⟨her, hw⟩ | ⟨her, hw⟩
  · have hno := not_returns_and_halts hw
    have hno' := not_returns_and_fails hw
    simp [her, hw, show ¬Halts p from hno, show ¬Fails p from hno']
  · have hno : ¬Returns p := fun h => not_returns_and_halts h hw
    have hno' := not_halts_and_fails hw
    simp [her, hw, hno, show ¬Fails p from hno']
  · have hno : ¬Returns p := fun h => not_returns_and_fails h hw
    have hno' : ¬Halts p := fun h => not_halts_and_fails h hw
    simp [her, hw, hno, hno']

/-- In the run that starts in `p0` the end of the code is a `STOP` at every depth, and the run returns only when the
outermost context has ended, with the exit reason that belongs to the way it has. -/
structure ImplicitStop (p0 : Processor W R) : Prop where
  as_stop : ∀ p c cs, Loop.Reaches iterate p0 p → p.ctxts = c :: cs → c.pc_valid = false →
    iterate p = after_dispatch (exec .STOP p)
  outermost : ∀ p p', Loop.Reaches iterate p0 p → iterate p = .exit (.ok () p') →
    p'.ctxts = [] ∧ (p'.result.er = .returned ↔ Returns p) ∧ (p'.result.er = .halted ↔ Halts p) ∧
      (p'.result.er = .threw ↔ Fails p)

/-- Running off the end of a nested context is not what `STOP` there would be. -/
theorem iterate_ne_stop {p : Processor W R} {c d ds} (hp : p.ctxts = c :: d :: ds) (hs : Shaped (c :: d :: ds))
    (hv : c.pc_valid = false) : iterate p ≠ after_dispatch (exec .STOP p) := by
  intro h
  rw [iterate_off_end hp hv, exec, stop_nested hp hs.1] at h
  rcases s_push_cases c.handlers.hh_word d with ⟨-, hr⟩ | ⟨-, ex, hr⟩
  · rw [hr] at h
    cases h
  rw [hr] at h
  cases ds with
  | nil =>
    rw [after_dispatch, catch_outer rfl hs.2] at h
    cases h
  | cons e es =>
    -- both escape, but `STOP` has called the handler of the parent as well
    rcases catch_nested_turn (p := { p with invoked := p.noted .hh, ctxts := d :: e :: es }) rfl hs.2 ex with
      ⟨-, h2⟩ | ⟨-, e, h2⟩
    · rw [h2] at h
      cases h
    · rw [h2] at h
      have hinv := congrArg List.length (congrArg Processor.invoked (EStateM.Result.error.inj (Loop.Turn.exit.inj h)).2)
      simp [noted] at hinv

/-- **The end of the code.** It is an implicit `STOP` throughout a run exactly when no nested context of the run gets
there. -/
theorem implicit_stop_iff (gs : W) (tx : Transaction) (tr : Option (List TraceEvent)) (caller : Address) (callee : R)
    (input : Bytes) (call_value : Word) :
    ImplicitStop (start gs tx tr caller callee input call_value) ↔
      ∀ p c d ds, Loop.Reaches iterate (start gs tx tr caller callee input call_value) p → p.ctxts = c :: d :: ds →
        c.pc_valid = true := by
  constructor
  · intro h p c d ds hr hp
    have hs := (shaped_of_reaches hr).1
    rw [hp] at hs
    by_contra hv
    rw [Bool.not_eq_true] at hv
    exact iterate_ne_stop hp hs hv (h.as_stop p c _ hr hp hv)
  · intro h
    have outer : ∀ {p c cs}, Loop.Reaches iterate (start gs tx tr caller callee input call_value) p →
        p.ctxts = c :: cs → c.pc_valid = false → cs = [] ∧ c.handlers = .run := by
      intro p c cs hr hp hv
      have hs := (shaped_of_reaches hr).1
      rw [hp] at hs
      cases cs with
      | nil => exact ⟨rfl, hs⟩
      | cons d ds => rw [h p c d ds hr hp] at hv; cases hv
    refine ⟨fun p c cs hr hp hv => ?_, fun p p' hr hx => ?_⟩
    · obtain ⟨rfl, hh⟩ := outer hr hp hv
      rw [iterate_off_end hp hv, exec, stop_outer hp hh]
      rfl
    · obtain ⟨hs, hne⟩ := shaped_of_reaches hr
      cases hp : p.ctxts with
      | nil => exact absurd hp hne
      | cons c cs =>
        rw [hp] at hs
        have hend : p'.ctxts = [] ∧ ((p'.result.er = .returned ∧ Returns p) ∨ (p'.result.er = .halted ∧ Halts p) ∨
            (p'.result.er = .threw ∧ Fails p)) := by
          cases hv : c.pc_valid with
          | true => exact exit_turn hp hs hv hx
          | false =>
            obtain ⟨rfl, hh⟩ := outer hr hp hv
            rw [iterate_off_end hp hv, stop_outer hp hh] at hx
            cases hx
            exact ⟨rfl, .inr (.inl ⟨rfl, c, hp, .inl hv⟩)⟩
        exact ⟨hend.1, reason_iff hend.2⟩

end

/-- Account 100 calls account 200, whose code is a lone `JUMPDEST`. -/
def off_end_start : Processor SimpleGlobalState Address :=
  start (.of_accounts
    [{ address := 100, code := [0x60, 0, 0x60, 0, 0x60, 0, 0x60, 0, 0x60, 0, 0x60, 200, 0x60, 0, 0xf1, 0xfe] },
      { address := 200, code := [0x5b] }]) { origin := 1 } none 1 100 [] 0

/-- The run leaves its loop after the `JUMPDEST` of the callee, with the caller waiting for the call. -/
theorem off_end_ends_the_run : ¬@ImplicitStop _ _ _ no_hash off_end_start := by
  intro h
  have hr : @Loop.Reaches _ _ (@iterate _ _ _ no_hash) off_end_start _ :=
    .of_steps (show @Loop.steps _ _ (@iterate _ _ _ no_hash) 9 off_end_start = some _ from rfl)
  have hs := @ImplicitStop.as_stop _ _ _ no_hash _ h _ _ _ hr rfl rfl
  cases hs

end Processor

end EEVM

import Mathlib.Logic.Relation
/-!
# Loops

A deterministic loop: each turn goes on to the next state or leaves the loop with a result. `run` bounds the
number of turns; `Reaches` and `Ends` do not.
-/
namespace Loop

variable {σ ρ : Type}

/-- How a turn of the loop comes out. -/
inductive Turn (σ ρ : Type)
  | next (s : σ)
  | exit (r : ρ)

variable (turn : σ → Turn σ ρ)

/-- At most `fuel` turns; `none` when the loop has not left by then. -/
def run : Nat → σ → Option ρ
  | 0, _ => none
  | fuel + 1, s =>
    match turn s with
    | .next s' => run fuel s'
    | .exit r => some r

/-- The state after `n` turns, if the loop has not left. -/
def steps : Nat → σ → Option σ
  | 0, s => some s
  | n + 1, s =>
    match turn s with
    | .next s' => steps n s'
    | .exit _ => none

/-- `P` holds of the states of the first turns, of which there are at most `fuel`. -/
def all (P : σ → Bool) : Nat → σ → Bool
  | 0, _ => false
  | fuel + 1, s =>
    P s && match turn s with
    | .next s' => all P fuel s'
    | .exit _ => true

def Next (s s' : σ) : Prop := turn s = .next s'

/-- `s'` is a state of the loop that started in `s`. -/
abbrev Reaches : σ → σ → Prop := Relation.ReflTransGen (Next turn)

/-- The loop that starts in `s` leaves with `r`. -/
def Ends (s : σ) (r : ρ) : Prop := ∃ s', Reaches turn s s' ∧ turn s' = .exit r

variable {turn}

theorem Reaches.of_next {s s' s'' : σ} (h : turn s = .next s') (hr : Reaches turn s' s'') : Reaches turn s s'' :=
  hr.head h

theorem Reaches.of_steps {n : Nat} {s t : σ} (h : steps turn n s = some t) : Reaches turn s t := by
  induction n generalizing s with
  | zero =>
    obtain rfl := Option.some.inj h
    exact .refl
  | succ n ih =>
    unfold steps at h
    split at h
    case _ s' hs => exact .of_next hs (ih h)
    case _ => cases h

theorem Ends.of_next {s s' : σ} {r : ρ} (h : turn s = .next s') (he : Ends turn s' r) : Ends turn s r := by
  obtain ⟨s'', hr, hx⟩ := he
  exact ⟨s'', .of_next h hr, hx⟩

theorem Ends.of_exit {s : σ} {r : ρ} (h : turn s = .exit r) : Ends turn s r := ⟨s, .refl, h⟩

/-- The loop leaves with `r` just when enough turns give `r`. -/
theorem ends_iff_run {s : σ} {r : ρ} : Ends turn s r ↔ ∃ fuel, run turn fuel s = some r := by
  constructor
  · rintro ⟨s', hr, hx⟩
    induction hr using Relation.ReflTransGen.head_induction_on with
    | refl => exact ⟨1, by simp [run, hx]⟩
    | head h _ ih =>
      obtain ⟨fuel, ih⟩ := ih
      exact ⟨fuel + 1, by rw [Next] at h; simp [run, h, ih]⟩
  · rintro ⟨fuel, hf⟩
    induction fuel generalizing s with
    | zero => simp [run] at hf
    | succ fuel ih =>
      unfold run at hf
      split at hf
      case _ s' h => exact .of_next h (ih hf)
      case _ r' h =>
        obtain rfl := Option.some.inj hf
        exact .of_exit h

/-- A state of the loop is the first one, or a state of the loop after the first turn. -/
theorem Reaches.eq_or_of_next {s t s' : σ} (hr : Reaches turn s s') (h : turn s = .next t) :
    s' = s ∨ Reaches turn t s' := by
  rcases Relation.ReflTransGen.cases_head hr with rfl | ⟨t', ht, hr'⟩
  · exact .inl rfl
  · rw [Next, h] at ht
    obtain rfl := Turn.next.inj ht
    exact .inr hr'

/-- A state of a loop that leaves is on the way to its end. -/
theorem Ends.of_reaches {s t : σ} {r : ρ} (he : Ends turn s r) (hr : Reaches turn s t) : Ends turn t r := by
  induction hr with
  | refl => exact he
  | @tail t u _ h ih =>
    obtain ⟨s', hs', hx⟩ := ih
    rcases hs'.eq_or_of_next h with rfl | hs'
    · rw [Next, hx] at h
      cases h
    · exact ⟨s', hs', hx⟩

/-- What has been tested along a loop that leaves holds of every state of it. -/
theorem Reaches.of_all {P : σ → Bool} {fuel : Nat} {s s' : σ} (hr : Reaches turn s s')
    (h : all turn P fuel s = true) : P s' = true := by
  induction hr using Relation.ReflTransGen.head_induction_on generalizing fuel with
  | refl =>
    cases fuel with
    | zero => simp [all] at h
    | succ fuel => simp_all [all]
  | head hn _ ih =>
    cases fuel with
    | zero => simp [all] at h
    | succ fuel =>
      rw [Next] at hn
      simp [all, hn] at h
      exact ih h.2

/-- An invariant: it holds at the start and every turn keeps it. -/
theorem Reaches.invariant {P : σ → Prop} {s s' : σ} (hr : Reaches turn s s') (h0 : P s)
    (hstep : ∀ t t', Reaches turn s t → P t → turn t = .next t' → P t') : P s' := by
  induction hr with
  | refl => exact h0
  | tail ht h ih => exact hstep _ _ ht ih h

/-- A loop whose turns lower a number leaves. -/
theorem exists_ends_of_lt {s : σ} (measure : σ → Nat)
    (h : ∀ t t', Reaches turn s t → turn t = .next t' → measure t' < measure t) : ∃ r, Ends turn s r := by
  induction hn : measure s using Nat.strongRecOn generalizing s with
  | ind n ih =>
    cases ht : turn s with
    | exit r => exact ⟨r, .of_exit ht⟩
    | next t =>
      have hlt : measure t < n := hn ▸ h s t .refl ht
      obtain ⟨r, hr⟩ := ih (measure t) hlt (fun u u' hu => h u u' (.of_next ht hu)) rfl
      exact ⟨r, .of_next ht hr⟩

/-! ## The image of a loop -/

section Map

variable {f : σ → σ} {g : ρ → ρ} {s : σ}

def Turn.map (f : σ → σ) (g : ρ → ρ) : Turn σ ρ → Turn σ ρ
  | .next s => .next (f s)
  | .exit r => .exit (g r)

/-- Where each turn of the loop maps to a turn, the loop from the image is the image of the loop. -/
theorem steps_map (h : ∀ s', Reaches turn s s' → turn (f s') = (turn s').map f g) (n : Nat) :
    steps turn n (f s) = (steps turn n s).map f := by
  induction n generalizing s with
  | zero => rfl
  | succ n ih =>
    have hs := h s .refl
    unfold steps
    cases ht : turn s with
    | next t =>
      rw [ht] at hs
      rw [hs]
      exact ih fun s' hr => h s' (.of_next ht hr)
    | exit r =>
      rw [ht] at hs
      rw [hs]
      rfl

theorem run_map (h : ∀ s', Reaches turn s s' → turn (f s') = (turn s').map f g) (fuel : Nat) :
    run turn fuel (f s) = (run turn fuel s).map g := by
  induction fuel generalizing s with
  | zero => rfl
  | succ fuel ih =>
    have hs := h s .refl
    unfold run
    cases ht : turn s with
    | next t =>
      rw [ht] at hs
      rw [hs]
      exact ih fun s' hr => h s' (.of_next ht hr)
    | exit r =>
      rw [ht] at hs
      rw [hs]
      rfl

end Map

end Loop

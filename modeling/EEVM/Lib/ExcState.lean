import Mathlib.Order.Defs.Unbundled
/-!
# State with exceptions that keep the state

`EStateM ε σ`: a computation ends with a value or an exception, and in both cases with a state, so that what was
done before a throw is visible after it. `Keeps R E m` relates the state `m` starts in to the one it ends in, however
it ends; `Leads R T m` does so up to a last part of `m`, which `T` describes.
-/
namespace ExcState

variable {ε σ α β : Type}

/-- The state a computation ends in. -/
def final : EStateM.Result ε σ α → σ
  | .ok _ s => s
  | .error _ s => s

@[simp] theorem final_ok (a : α) (s : σ) : final (.ok a s : EStateM.Result ε σ α) = s := rfl
@[simp] theorem final_error (e : ε) (s : σ) : final (.error e s : EStateM.Result ε σ α) = s := rfl

/-! ## Running -/

@[simp] theorem run_pure (a : α) (s : σ) : (pure a : EStateM ε σ α) s = .ok a s := rfl
@[simp] theorem run_throw (e : ε) (s : σ) : (throw e : EStateM ε σ α) s = .error e s := rfl
@[simp] theorem run_get (s : σ) : (get : EStateM ε σ σ) s = .ok s s := rfl
@[simp] theorem run_modify (f : σ → σ) (s : σ) : (modify f : EStateM ε σ PUnit) s = .ok ⟨⟩ (f s) := rfl

theorem run_bind (m : EStateM ε σ α) (f : α → EStateM ε σ β) (s : σ) :
    (m >>= f) s = match m s with
      | .ok a s' => f a s'
      | .error e s' => .error e s' := rfl

theorem bind_of_ok {m : EStateM ε σ α} {f : α → EStateM ε σ β} {s s' : σ} {a : α} (h : m s = .ok a s') :
    (m >>= f) s = f a s' := by
  rw [run_bind, h]

theorem bind_of_error {m : EStateM ε σ α} {f : α → EStateM ε σ β} {s s' : σ} {e : ε}
    (h : m s = .error e s') : (m >>= f) s = .error e s' := by
  rw [run_bind, h]

theorem bind_eq_ok {m : EStateM ε σ α} {f : α → EStateM ε σ β} {s s'' : σ} {b : β} :
    (m >>= f) s = .ok b s'' ↔ ∃ a s', m s = .ok a s' ∧ f a s' = .ok b s'' := by
  rw [run_bind]
  cases m s with
  | ok a s' => simp [and_assoc]
  | error e s' => simp

theorem bind_eq_error {m : EStateM ε σ α} {f : α → EStateM ε σ β} {s s'' : σ} {e : ε} :
    (m >>= f) s = .error e s'' ↔ m s = .error e s'' ∨ ∃ a s', m s = .ok a s' ∧ f a s' = .error e s'' := by
  rw [run_bind]
  cases m s with
  | ok a s' => simp [and_assoc]
  | error e s' => simp

/-! ## Two computations -/

/-- Where `n` succeeds, `m` does the same: just in case `C`, unless `n` fails. -/
def AgreesIf (C : Prop) (m n : EStateM ε σ α) (s : σ) : Prop :=
  (∀ a t, n s = .ok a t → m s = .ok a t) ↔ ((∃ a t, n s = .ok a t) → C)

namespace AgreesIf

variable {C : Prop} {m n : EStateM ε σ α} {s : σ}

theorem of_error {e : ε} {t : σ} (h : n s = .error e t) : AgreesIf C m n s := by
  constructor
  · rintro - ⟨a, t', h'⟩
    rw [h] at h'
    cases h'
  · intro _ a t' h'
    rw [h] at h'
    cases h'

theorem of_imp (hC : C) (h : ∀ a t, n s = .ok a t → m s = .ok a t) : AgreesIf C m n s :=
  ⟨fun _ _ => hC, fun _ => h⟩

theorem of_eq (hC : C) (h : m s = n s) : AgreesIf C m n s := of_imp hC fun _ _ h' => h.trans h'

theorem of_not (hC : ¬C) (h : ∀ a t, n s = .ok a t → m s ≠ .ok a t) : AgreesIf C m n s := by
  constructor
  · rintro hagree ⟨a, t, h'⟩
    exact absurd (hagree a t h') (h a t h')
  · intro hC' a t h'
    exact absurd (hC' ⟨a, t, h'⟩) hC

/-- What both do first does not matter. -/
theorem bind {x : EStateM ε σ β} {f g : β → EStateM ε σ α} (h : ∀ b t, x s = .ok b t → AgreesIf C (f b) (g b) t) :
    AgreesIf C (x >>= f) (x >>= g) s := by
  cases hx : x s with
  | ok b t =>
    have hb := h b t hx
    rw [AgreesIf, ← bind_of_ok (f := g) hx, ← bind_of_ok (f := f) hx] at hb
    exact hb
  | error e t => exact of_error (bind_of_error hx)

end AgreesIf

/-! ## What a computation keeps -/

/-- However it ends, `m` ends in a state that is `R`-related to the one it started in, and it throws under `E`. -/
def Keeps (R : σ → σ → Prop) (E : ε → σ → Prop) (m : EStateM ε σ α) : Prop :=
  ∀ s, match m s with
    | .ok _ s' => R s s'
    | .error e s' => R s s' ∧ E e s'

namespace Keeps

variable {R : σ → σ → Prop} {E : ε → σ → Prop}

theorem ok {m : EStateM ε σ α} (h : Keeps R E m) {s s' : σ} {a : α} (hr : m s = .ok a s') : R s s' := by
  simpa only [hr] using h s

theorem error {m : EStateM ε σ α} (h : Keeps R E m) {s s' : σ} {e : ε} (hr : m s = .error e s') :
    R s s' ∧ E e s' := by
  simpa only [hr] using h s

theorem final {m : EStateM ε σ α} (h : Keeps R E m) (s : σ) : R s (final (m s)) := by
  cases hr : m s with
  | ok a s' => exact h.ok hr
  | error e s' => exact (h.error hr).1

theorem modify {f : σ → σ} (h : ∀ s, R s (f s)) : Keeps R E (modify f : EStateM ε σ PUnit) := h

theorem mono {R' : σ → σ → Prop} {E' : ε → σ → Prop} {m : EStateM ε σ α} (h : Keeps R E m)
    (hR : ∀ s s', R s s' → R' s s') (hE : ∀ e s, E e s → E' e s) : Keeps R' E' m := by
  intro s
  have h1 := h s
  cases hr : m s with
  | ok a s' => rw [hr] at h1; exact hR _ _ h1
  | error e s' => rw [hr] at h1; exact ⟨hR _ _ h1.1, hE _ _ h1.2⟩

theorem ite {c : Prop} [Decidable c] {m n : EStateM ε σ α} (hm : c → Keeps R E m) (hn : ¬c → Keeps R E n) :
    Keeps R E (if c then m else n) := by
  split
  · exact hm ‹_›
  · exact hn ‹_›

section Refl

variable [Std.Refl R]

theorem pure (a : α) : Keeps R E (pure a : EStateM ε σ α) := fun s => Std.Refl.refl (r := R) s
theorem throw {e : ε} (h : ∀ s, E e s) : Keeps R E (throw e : EStateM ε σ α) :=
  fun s => ⟨Std.Refl.refl (r := R) s, h s⟩
theorem get : Keeps R E (get : EStateM ε σ σ) := fun s => Std.Refl.refl (r := R) s

end Refl

theorem bind [IsTrans σ R] {m : EStateM ε σ α} {f : α → EStateM ε σ β} (hm : Keeps R E m)
    (hf : ∀ a, Keeps R E (f a)) : Keeps R E (m >>= f) := by
  intro s
  have h1 := hm s
  rw [run_bind]
  cases hr : m s with
  | ok a s' =>
    rw [hr] at h1
    have h2 := hf a s'
    cases hr' : f a s' with
    | ok b s'' =>
      simp only [hr'] at h2 ⊢
      exact IsTrans.trans _ _ _ h1 h2
    | error e s'' =>
      simp only [hr'] at h2 ⊢
      exact ⟨IsTrans.trans _ _ _ h1 h2.1, h2.2⟩
  | error e s' => rw [hr] at h1; exact h1

end Keeps

/-- Where `m` throws, it does so in a state that is `R`-related to the one it started in. -/
def KeepsOnThrow (R : σ → σ → Prop) (m : EStateM ε σ α) : Prop := ∀ s e s', m s = .error e s' → R s s'

namespace KeepsOnThrow

variable {R : σ → σ → Prop} {E : ε → σ → Prop}

theorem modify {f : σ → σ} : KeepsOnThrow R (modify f : EStateM ε σ PUnit) := fun _ _ _ h => nomatch h

theorem ite {c : Prop} [Decidable c] {m n : EStateM ε σ α} (hm : KeepsOnThrow R m) (hn : KeepsOnThrow R n) :
    KeepsOnThrow R (if c then m else n) := by
  split
  · exact hm
  · exact hn

/-- Only the last part of a computation may do what it does not keep. -/
theorem bind [IsTrans σ R] {m : EStateM ε σ α} {f : α → EStateM ε σ β} (hm : Keeps R E m)
    (hf : ∀ a, KeepsOnThrow R (f a)) : KeepsOnThrow R (m >>= f) := by
  intro s e s'' h
  rcases bind_eq_error.1 h with h | ⟨a, s', h1, h2⟩
  · exact (hm.error h).1
  · exact IsTrans.trans _ _ _ (hm.ok h1) (hf a s' e s'' h2)

end KeepsOnThrow

/-- `m` makes changes in `R` and then, from where they have led, ends as `T` says. -/
def Leads (R : σ → σ → Prop) (T : σ → EStateM.Result ε σ α → Prop) (m : EStateM ε σ α) : Prop :=
  ∀ s, ∃ s', R s s' ∧ T s' (m s)

namespace Leads

variable {R : σ → σ → Prop} {E : ε → σ → Prop} {T : σ → EStateM.Result ε σ α → Prop}

theorem here [Std.Refl R] {m : EStateM ε σ α} (h : ∀ s, T s (m s)) : Leads R T m :=
  fun s => ⟨s, Std.Refl.refl (r := R) s, h s⟩

theorem of_keeps {m : EStateM ε σ α} (h : Keeps R E m) (hok : ∀ a s, T s (.ok a s))
    (herr : ∀ e s, E e s → T s (.error e s)) : Leads R T m := by
  intro s
  cases hr : m s with
  | ok a s' => exact ⟨s', h.ok hr, hok a s'⟩
  | error e s' => exact ⟨s', (h.error hr).1, herr e s' (h.error hr).2⟩

theorem bind [IsTrans σ R] {m : EStateM ε σ β} {f : β → EStateM ε σ α} (hm : Keeps R E m)
    (herr : ∀ e s, E e s → T s (.error e s)) (hf : ∀ b, Leads R T (f b)) : Leads R T (m >>= f) := by
  intro s
  rw [run_bind]
  cases hr : m s with
  | ok b s' =>
    obtain ⟨s'', h2, ht⟩ := hf b s'
    exact ⟨s'', IsTrans.trans _ _ _ (hm.ok hr) h2, ht⟩
  | error e s' => exact ⟨s', (hm.error hr).1, herr e s' (hm.error hr).2⟩

theorem ite {c : Prop} [Decidable c] {m n : EStateM ε σ α} (hm : c → Leads R T m) (hn : ¬c → Leads R T n) :
    Leads R T (if c then m else n) := by
  split
  · exact hm ‹_›
  · exact hn ‹_›

end Leads

end ExcState

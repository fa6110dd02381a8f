import EEVM.Lib.ExcState
/-!
# Two runs of which one is the image of the other

`f` maps states to states. `Commutes f P Q E m` says of every `s` in `P` that `m` ends from `f s` as it ends from `s`, with
the same value or exception, in the image of the state; and that it ends in `Q` or, by an exception, in `E`. A simulation
of two runs is built from these rules: what `m` reads of the state must be the same on both sides, and what it writes
must commute with `f`.
-/
namespace ExcState

variable {ε σ α β : Type}

def mapState (f : σ → σ) : EStateM.Result ε σ α → EStateM.Result ε σ α
  | .ok a s => .ok a (f s)
  | .error e s => .error e (f s)

@[simp] theorem mapState_ok (f : σ → σ) (a : α) (s : σ) : mapState f (.ok a s : EStateM.Result ε σ α) = .ok a (f s) := rfl
@[simp] theorem mapState_error (f : σ → σ) (e : ε) (s : σ) :
    mapState f (.error e s : EStateM.Result ε σ α) = .error e (f s) := rfl

/-- Where a computation ends: in `Q` with its value, or in `E`. -/
def Lands (Q : α → σ → Prop) (E : σ → Prop) : EStateM.Result ε σ α → Prop
  | .ok a s => Q a s
  | .error _ s => E s

structure Commutes (f : σ → σ) (P : σ → Prop) (Q : α → σ → Prop) (E : σ → Prop) (m : EStateM ε σ α) : Prop where
  eq : ∀ s, P s → m (f s) = mapState f (m s)
  lands : ∀ s, P s → Lands Q E (m s)

namespace Commutes

variable {f : σ → σ} {P P' : σ → Prop} {Q Q' : α → σ → Prop} {E : σ → Prop} {m : EStateM ε σ α}

theorem pure {a : α} (h : ∀ s, P s → Q a s) : Commutes f P Q E (pure a : EStateM ε σ α) := ⟨fun _ _ => rfl, h⟩

theorem throw {e : ε} (h : ∀ s, P s → E s) : Commutes f P Q E (throw e : EStateM ε σ α) := ⟨fun _ _ => rfl, h⟩

theorem modify {g : σ → σ} {Q : PUnit → σ → Prop} (heq : ∀ s, P s → g (f s) = f (g s)) (h : ∀ s, P s → Q ⟨⟩ (g s)) :
    Commutes f P Q E (modify g : EStateM ε σ PUnit) := by
  refine ⟨?_, h⟩
  intro s hs
  simp only [run_modify, mapState_ok, heq s hs]

theorem mono (h : Commutes f P Q E m) (hP : ∀ s, P' s → P s) (hQ : ∀ a s, Q a s → Q' a s) : Commutes f P' Q' E m := by
  refine ⟨fun s hs => h.eq s (hP s hs), ?_⟩
  intro s hs
  have hl := h.lands s (hP s hs)
  cases hm : m s with
  | ok a s' =>
    rw [hm] at hl
    exact hQ a s' hl
  | error e s' =>
    rw [hm] at hl
    exact hl

theorem bind {k : α → EStateM ε σ β} {Q' : β → σ → Prop} (hm : Commutes f P Q E m)
    (hk : ∀ a, Commutes f (Q a) Q' E (k a)) : Commutes f P Q' E (m >>= k) := by
  constructor
  · intro s hs
    have hl := hm.lands s hs
    have he := hm.eq s hs
    cases hr : m s with
    | ok a s' =>
      rw [hr] at hl he
      rw [bind_of_ok hr, bind_of_ok he]
      exact (hk a).eq s' hl
    | error e s' =>
      rw [hr] at he
      rw [bind_of_error hr, bind_of_error he]
      rfl
  · intro s hs
    have hl := hm.lands s hs
    cases hr : m s with
    | ok a s' =>
      rw [hr] at hl
      rw [bind_of_ok hr]
      exact (hk a).lands s' hl
    | error e s' =>
      rw [hr] at hl
      rw [bind_of_error hr]
      exact hl

/-- What is read of the state must not tell `f s` from `s`. -/
theorem get_bind_at {k : σ → EStateM ε σ α} (hk : ∀ s, P s → k (f s) = k s)
    (h : ∀ s, P s → Commutes f (· = s) Q E (k s)) : Commutes f P Q E (get >>= k) := by
  constructor
  · intro s hs
    rw [bind_of_ok (run_get s), bind_of_ok (run_get (f s)), hk s hs]
    exact (h s hs).eq s rfl
  · intro s hs
    rw [bind_of_ok (run_get s)]
    exact (h s hs).lands s rfl

theorem get_bind {k : σ → EStateM ε σ α} (hk : ∀ s, P s → k (f s) = k s) (h : ∀ s, P s → Commutes f P Q E (k s)) :
    Commutes f P Q E (get >>= k) := by
  refine .get_bind_at hk fun s hs => (h s hs).mono ?_ fun _ _ hq => hq
  rintro s' rfl
  exact hs

/-- A fact about the values at hand that the state implies. -/
theorem assuming {φ : Prop} (hφ : ∀ s, P s → φ) (h : φ → Commutes f P Q E m) : Commutes f P Q E m :=
  ⟨fun s hs => (h (hφ s hs)).eq s hs, fun s hs => (h (hφ s hs)).lands s hs⟩

theorem ite {c : Prop} [Decidable c] {n : EStateM ε σ α} (hm : c → Commutes f P Q E m) (hn : ¬c → Commutes f P Q E n) :
    Commutes f P Q E (if c then m else n) := by
  split
  · exact hm ‹_›
  · exact hn ‹_›

end Commutes

end ExcState

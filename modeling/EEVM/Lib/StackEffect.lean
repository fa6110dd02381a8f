import EEVM.Lib.ExcState
/-!
# The stack effect of a computation

`Takes view n k m`: whenever `m` succeeds, it has taken the `n` words on top of the stack that `view` shows of the state,
and has left `k` words in their place. Such effects compose: what the first computation leaves pays for what the second one
takes.
-/
namespace StackEffect

variable {ε σ α β γ : Type}

/-- `s'` is `s` with the `n` words on top replaced by `k` others. -/
def Replaces (n k : Nat) (s s' : List γ) : Prop := n ≤ s.length ∧ ∃ ws : List γ, ws.length = k ∧ s' = ws ++ s.drop n

theorem Replaces.refl (s : List γ) : Replaces 0 0 s s := ⟨Nat.zero_le _, [], rfl, rfl⟩

theorem Replaces.trans {n k m j : Nat} {s s' s'' : List γ} (h1 : Replaces n k s s') (h2 : Replaces m j s' s'') :
    Replaces (n + (m - k)) (k - m + j) s s'' := by
  obtain ⟨hn, ws, hws, rfl⟩ := h1
  obtain ⟨hm, vs, hvs, rfl⟩ := h2
  rw [List.length_append, List.length_drop, hws] at hm
  refine ⟨by omega, vs ++ ws.drop m, by simp [hws, hvs]; omega, ?_⟩
  rw [List.drop_append, List.drop_drop, hws, List.append_assoc]

theorem Replaces.length_eq {n k : Nat} {s s' : List γ} (h : Replaces n k s s') : s'.length + n = s.length + k := by
  obtain ⟨hn, ws, rfl, rfl⟩ := h
  simp
  omega

def Takes (view : σ → Option (List γ)) (n k : Nat) (m : EStateM ε σ α) : Prop :=
  ∀ s st a s', view s = some st → m s = .ok a s' → ∃ st', view s' = some st' ∧ Replaces n k st st'

namespace Takes

variable {view : σ → Option (List γ)} {n k m j : Nat}

theorem of_view_eq {x : EStateM ε σ α} (h : ∀ s a s', x s = .ok a s' → view s' = view s) : Takes view 0 0 x :=
  fun s st a s' hs hx => ⟨st, (h s a s' hx).trans hs, .refl st⟩

theorem pure (a : α) : Takes view 0 0 (pure a : EStateM ε σ α) := .of_view_eq fun _ _ _ h => by cases h; rfl

theorem get : Takes view 0 0 (get : EStateM ε σ σ) := .of_view_eq fun _ _ _ h => by cases h; rfl

theorem modify {f : σ → σ} (h : ∀ s, view (f s) = view s) : Takes view 0 0 (modify f : EStateM ε σ PUnit) :=
  .of_view_eq fun s _ _ hm => by cases hm; exact h s

theorem throw (e : ε) : Takes view n k (throw e : EStateM ε σ α) := fun _ _ _ _ _ h => nomatch h

theorem bind {x : EStateM ε σ α} {f : α → EStateM ε σ β} (hx : Takes view n k x) (hf : ∀ a, Takes view m j (f a)) :
    Takes view (n + (m - k)) (k - m + j) (x >>= f) := by
  intro s st b s'' hs h
  obtain ⟨a, s', h1, h2⟩ := ExcState.bind_eq_ok.1 h
  obtain ⟨st', hs', hr1⟩ := hx s st a s' hs h1
  obtain ⟨st'', hs'', hr2⟩ := hf a s' st' b s'' hs' h2
  exact ⟨st'', hs'', hr1.trans hr2⟩

theorem ite {c : Prop} [Decidable c] {x y : EStateM ε σ α} (hx : Takes view n k x) (hy : Takes view n k y) :
    Takes view n k (if c then x else y) := by
  split
  · exact hx
  · exact hy

end Takes

end StackEffect

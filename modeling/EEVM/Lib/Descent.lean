import EEVM.Lib.Loop
import Mathlib.Tactic.Positivity
import Mathlib.Tactic.Ring
/-!
# Stacks that run down

A stack of numbers, the top one first. A step lowers the number on top, and may put another one above it; or it drops
numbers from the top. Where what is put there has a bound, and the stack a greatest height, this cannot go on for ever:
weighed by a power of the bound for every place that is left above it, a number on the stack is worth more than all that
can be put in its place (`Step.weight_lt`).
-/
namespace Descent

inductive Step (bound height : Nat) : List Nat → List Nat → Prop
  | works {n n' ns} (h : n' < n) : Step bound height (n :: ns) (n' :: ns)
  | opens {m n n' ns} (h : n' < n) (hm : m ≤ bound) (hh : (m :: n' :: ns).length ≤ height) :
    Step bound height (n :: ns) (m :: n' :: ns)
  | closes {n above ns} : Step bound height (n :: above ++ ns) ns

def weight (bound height : Nat) : List Nat → Nat
  | [] => 0
  | n :: ns => (n + 1) * (bound + 2) ^ (height - (ns.length + 1)) + weight bound height ns

variable {bound height : Nat} {s s' : List Nat}

theorem weight_lt_cons (n : Nat) (ns : List Nat) : weight bound height ns < weight bound height (n :: ns) := by
  have hpow : 0 < (n + 1) * (bound + 2) ^ (height - (ns.length + 1)) := by positivity
  rw [weight]
  omega

theorem weight_le_append (above ns : List Nat) : weight bound height ns ≤ weight bound height (above ++ ns) := by
  induction above with
  | nil => exact Nat.le_refl _
  | cons n above ih => exact ih.trans (weight_lt_cons n (above ++ ns)).le

theorem Step.weight_lt (h : Step bound height s s') : weight bound height s' < weight bound height s := by
  cases h with
  | @works n n' ns h =>
    have hpow : 0 < (bound + 2) ^ (height - (ns.length + 1)) := by positivity
    have hlt : (n' + 1) * (bound + 2) ^ (height - (ns.length + 1)) < (n + 1) * (bound + 2) ^ (height - (ns.length + 1)) :=
      Nat.mul_lt_mul_of_pos_right (by omega) hpow
    simp only [weight]
    omega
  | @opens m n n' ns h hm hh =>
    -- one place further down a number is worth `bound + 2` times as much
    obtain ⟨k, hk⟩ : ∃ k, height = k + (ns.length + 2) := ⟨height - (ns.length + 2), by simp at hh; omega⟩
    have hplace : height - ((n' :: ns).length + 1) = k ∧ height - (ns.length + 1) = k + 1 := by
      simp only [List.length_cons]
      omega
    have hpow : 0 < (bound + 2) ^ k := by positivity
    have hlow : (m + 1) * (bound + 2) ^ k < (bound + 2) * (bound + 2) ^ k := Nat.mul_lt_mul_of_pos_right (by omega) hpow
    have hhigh : (n' + 2) * (bound + 2) ^ (k + 1) ≤ (n + 1) * (bound + 2) ^ (k + 1) := Nat.mul_le_mul_right _ (by omega)
    have hsplit : (n' + 2) * (bound + 2) ^ (k + 1) = (bound + 2) * (bound + 2) ^ k + (n' + 1) * (bound + 2) ^ (k + 1) := by
      ring
    simp only [weight, hplace.1, hplace.2]
    omega
  | @closes n above => exact (weight_le_append above s').trans_lt (weight_lt_cons n (above ++ s'))

/-- A loop whose every turn is such a step leaves. -/
theorem exists_ends {σ ρ : Type} {turn : σ → Loop.Turn σ ρ} {s : σ} (stack : σ → List Nat)
    (h : ∀ t t', Loop.Reaches turn s t → turn t = .next t' → Step bound height (stack t) (stack t')) :
    ∃ r, Loop.Ends turn s r :=
  Loop.exists_ends_of_lt (fun t => weight bound height (stack t)) fun t t' hr hn => (h t t' hr hn).weight_lt

end Descent

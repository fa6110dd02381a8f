import Mathlib.Logic.Function.Basic
/-!
# Total maps and what is written to them

A write puts values at some keys. `value init ws` is the total map that the writes `ws`, the oldest first, make of `init`:
at each key the value written there last, or the initial one. A store of any kind refines it where each of its steps
does what one more write does (`value_append`).
-/
namespace Writes

variable {κ ν : Type}

/-- What a write puts where. -/
abbrev Write (κ ν : Type) := κ → Option ν

/-- A value at one key. -/
def single [DecidableEq κ] (k : κ) (v : ν) : Write κ ν := fun k' => if k' = k then some v else none

/-- Values at consecutive addresses. -/
def block (off : Nat) (vs : List ν) : Write Nat ν := fun a => if off ≤ a then vs[a - off]? else none

/-- The value last written at a key, else the initial one. -/
def value (init : κ → ν) (ws : List (Write κ ν)) (k : κ) : ν := (ws.reverse.findSome? fun w => w k).getD (init k)

@[simp] theorem value_nil (init : κ → ν) : value init [] = init := rfl

theorem value_append (init : κ → ν) (ws : List (Write κ ν)) (w : Write κ ν) (k : κ) :
    value init (ws ++ [w]) k = (w k).getD (value init ws k) := by
  unfold value
  rw [List.reverse_append, List.reverse_singleton, List.singleton_append, List.findSome?_cons]
  cases w k <;> rfl

end Writes

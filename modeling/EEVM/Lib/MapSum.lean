import Mathlib.Algebra.GroupWithZero.Nat
import Mathlib.Data.List.Perm.Basic
import Std.Data.ExtTreeMap
/-!
# Sums over a finite map

`sum w m` adds up a weight of every value of `m`. One fact carries the rest: an entry can be taken out of the sum,
and what is left is the sum over the map without its key.
-/
namespace MapSum

open Std

variable {α β : Type} [Ord α] [TransOrd α] [LawfulEqOrd α]

def sum (w : β → Nat) (m : ExtTreeMap α β) : Nat := (m.toList.map fun e => w e.2).sum

theorem nodup_toList (m : ExtTreeMap α β) : m.toList.Nodup := by
  refine ExtTreeMap.distinct_keys_toList.imp fun {a b} h => ?_
  rintro rfl
  exact h compare_self

/-- The entries of `m`, with the one of `k` first. -/
theorem toList_perm_cons_erase {m : ExtTreeMap α β} {k : α} {v : β} (h : m[k]? = some v) :
    m.toList.Perm ((k, v) :: (m.erase k).toList) := by
  have hk : (k, v) ∉ (m.erase k).toList := by
    rw [ExtTreeMap.mem_toList_iff_getElem?_eq_some]
    simp
  rw [List.perm_ext_iff_of_nodup (nodup_toList m) (List.nodup_cons.2 ⟨hk, nodup_toList _⟩)]
  rintro ⟨k', v'⟩
  rw [List.mem_cons, ExtTreeMap.mem_toList_iff_getElem?_eq_some, ExtTreeMap.mem_toList_iff_getElem?_eq_some,
    ExtTreeMap.getElem?_erase]
  by_cases hkk : k = k'
  · subst hkk
    simp [h, eq_comm]
  · have hkk' : k' ≠ k := fun h => hkk h.symm
    simp [hkk, hkk']

theorem sum_eq_add_erase (w : β → Nat) {m : ExtTreeMap α β} {k : α} {v : β} (h : m[k]? = some v) :
    sum w m = w v + sum w (m.erase k) := by
  have hp := (toList_perm_cons_erase h).map fun e => w e.2
  simpa [sum] using hp.sum_nat

theorem erase_insert (m : ExtTreeMap α β) (k : α) (v : β) : (m.insert k v).erase k = m.erase k := by
  refine ExtTreeMap.ext_getElem? fun k' => ?_
  rw [ExtTreeMap.getElem?_erase, ExtTreeMap.getElem?_erase, ExtTreeMap.getElem?_insert]
  by_cases h : compare k k' = .eq <;> simp [h]

theorem erase_of_getElem?_eq_none {m : ExtTreeMap α β} {k : α} (h : m[k]? = none) : m.erase k = m := by
  refine ExtTreeMap.ext_getElem? fun k' => ?_
  rw [ExtTreeMap.getElem?_erase]
  by_cases hk : compare k k' = .eq
  · rw [LawfulEqOrd.compare_eq_iff_eq] at hk
    subst hk
    simp [h]
  · simp [hk]

theorem sum_insert (w : β → Nat) (m : ExtTreeMap α β) (k : α) (v : β) :
    sum w (m.insert k v) = w v + sum w (m.erase k) := by
  rw [sum_eq_add_erase w (k := k) (v := v) (by simp), erase_insert]

/-- A new key adds its weight. -/
theorem sum_insert_of_none (w : β → Nat) {m : ExtTreeMap α β} {k : α} (v : β) (h : m[k]? = none) :
    sum w (m.insert k v) = w v + sum w m := by
  rw [sum_insert, erase_of_getElem?_eq_none h]

/-- Taking a key out lowers the sum by the weight it had. -/
theorem sum_erase (w : β → Nat) (m : ExtTreeMap α β) (k : α) :
    sum w (m.erase k) + (m[k]?.map w).getD 0 = sum w m := by
  cases h : m[k]? with
  | none => simp [erase_of_getElem?_eq_none h]
  | some v => simp [sum_eq_add_erase w h, Nat.add_comm]

theorem modify_eq_insert {m : ExtTreeMap α β} {k : α} {v : β} (f : β → β) (h : m[k]? = some v) :
    m.modify k f = m.insert k (f v) := by
  refine ExtTreeMap.ext_getElem? fun k' => ?_
  rw [ExtTreeMap.getElem?_modify, ExtTreeMap.getElem?_insert]
  by_cases hk : compare k k' = .eq <;> simp [hk, h]

theorem modify_of_getElem?_eq_none {m : ExtTreeMap α β} {k : α} (f : β → β) (h : m[k]? = none) :
    m.modify k f = m := by
  refine ExtTreeMap.ext_getElem? fun k' => ?_
  rw [ExtTreeMap.getElem?_modify]
  by_cases hk : compare k k' = .eq
  · rw [LawfulEqOrd.compare_eq_iff_eq] at hk
    subst hk
    simp [h]
  · simp [hk]

/-- Changing the value of a key moves the sum by the difference of the weights. -/
theorem sum_modify (w : β → Nat) {m : ExtTreeMap α β} {k : α} {v : β} (f : β → β) (h : m[k]? = some v) :
    sum w (m.modify k f) + w v = sum w m + w (f v) := by
  rw [modify_eq_insert f h, sum_insert, sum_eq_add_erase w h]
  omega

/-- A change that keeps every weight keeps the sum. -/
theorem sum_modify_of_eq (w : β → Nat) (m : ExtTreeMap α β) (k : α) {f : β → β} (hf : ∀ v, w (f v) = w v) :
    sum w (m.modify k f) = sum w m := by
  cases h : m[k]? with
  | none => rw [modify_of_getElem?_eq_none f h]
  | some v =>
    have := sum_modify w f h
    rw [hf] at this
    omega

end MapSum

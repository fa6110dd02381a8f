import Mathlib.Data.Nat.Digits.Defs
import EEVM.Intx.Div
/-!
# intx: the words of an integer, and normalization (intx.hpp:415-435, div.hpp)

| here | there |
| --- | --- |
| `Words` | `as_words` (`intx.hpp:415`), the least significant word first, and an integer that is filled word by word |
| `num_significant` | the loops that find `num_numerator_words` and `num_denominator_words` (`div.hpp:37-42`) |
| `shl_words`, `shr_words` | the loops that shift the words (`div.hpp:47-54`, `div.cpp:172`) |
| `normalize` | `normalize` (`div.hpp:23`) |
-/
namespace EEVM.Intx

open Halves

/-! ## Numbers as lists of words -/

def digits (ws : List UInt64) : Nat := Nat.ofDigits (2 ^ 64) (ws.map UInt64.toNat)

@[simp] theorem digits_nil : digits [] = 0 := rfl

@[simp] theorem digits_cons (w : UInt64) (ws : List UInt64) : digits (w :: ws) = w.toNat + 2 ^ 64 * digits ws := rfl

theorem two_pow_words (k : Nat) : 2 ^ (64 * (k + 1)) = 2 ^ 64 * 2 ^ (64 * k) := by
  rw [← pow_add]
  congr 1
  omega

theorem digits_append (as bs : List UInt64) : digits (as ++ bs) = digits as + 2 ^ (64 * as.length) * digits bs := by
  rw [digits, List.map_append, Nat.ofDigits_append, List.length_map, ← pow_mul]
  rfl

theorem digits_lt (ws : List UInt64) : digits ws < 2 ^ (64 * ws.length) := by
  induction ws with
  | nil => simp
  | cons w ws ih =>
    have hw := w.toNat_lt
    rw [digits_cons, List.length_cons, two_pow_words]
    have h : 2 ^ 64 * (digits ws + 1) ≤ 2 ^ 64 * 2 ^ (64 * ws.length) := Nat.mul_le_mul_left _ ih
    omega

theorem digits_replicate_zero (n : Nat) : digits (List.replicate n 0) = 0 := by
  induction n with
  | zero => rfl
  | succ n ih => simp [List.replicate_succ, ih]

theorem digits_take_drop (k : Nat) (ws : List UInt64) :
    digits (ws.take k) + 2 ^ (64 * k) * digits (ws.drop k) = digits ws := by
  rcases Nat.le_total k ws.length with hk | hk
  · conv_rhs => rw [← List.take_append_drop k ws, digits_append, List.length_take_of_le hk]
  · rw [List.take_of_length_le hk, List.drop_of_length_le hk, digits_nil, Nat.mul_zero, Nat.add_zero]

theorem digits_take_lt (k : Nat) (ws : List UInt64) : digits (ws.take k) < 2 ^ (64 * k) :=
  (digits_lt _).trans_le (Nat.pow_le_pow_right (by omega) (Nat.mul_le_mul_left _ (List.length_take_le _ _)))

theorem digits_take (k : Nat) (ws : List UInt64) : digits (ws.take k) = digits ws % 2 ^ (64 * k) := by
  rw [← digits_take_drop k ws, Nat.add_mul_mod_self_left, Nat.mod_eq_of_lt (digits_take_lt k ws)]

theorem digits_drop (k : Nat) (ws : List UInt64) : digits (ws.drop k) = digits ws / 2 ^ (64 * k) := by
  rw [← digits_take_drop k ws, Nat.add_mul_div_left _ _ (Nat.two_pow_pos _), Nat.div_eq_of_lt (digits_take_lt k ws),
    Nat.zero_add]

/-- A word that is not there counts as zero. -/
theorem digits_drop_eq (k : Nat) (ws : List UInt64) :
    digits (ws.drop k) = (ws.getD k 0).toNat + 2 ^ 64 * digits (ws.drop (k + 1)) := by
  rcases Nat.lt_or_ge k ws.length with hk | hk
  · rw [List.drop_eq_getElem_cons hk, digits_cons, List.getD_eq_getElem?_getD, List.getElem?_eq_getElem hk, Option.getD_some]
  · rw [List.drop_of_length_le hk, List.drop_of_length_le (by omega), List.getD_eq_getElem?_getD,
      List.getElem?_eq_none hk]
    rfl

theorem digits_take_succ (k : Nat) (ws : List UInt64) :
    digits (ws.take (k + 1)) = digits (ws.take k) + 2 ^ (64 * k) * (ws.getD k 0).toNat := by
  have h1 := digits_take_drop k ws
  have h2 := digits_take_drop (k + 1) ws
  have h3 : 2 ^ (64 * (k + 1)) * digits (ws.drop (k + 1)) = 2 ^ (64 * k) * (2 ^ 64 * digits (ws.drop (k + 1))) := by
    rw [two_pow_words]
    ring
  rw [digits_drop_eq, Nat.mul_add] at h1
  omega

theorem digits_set {k : Nat} {ws : List UInt64} (hk : k < ws.length) (w : UInt64) :
    digits (ws.set k w) + 2 ^ (64 * k) * (ws.getD k 0).toNat = digits ws + 2 ^ (64 * k) * w.toNat := by
  have h := digits_take_drop k ws
  rw [digits_drop_eq] at h
  rw [List.set_eq_take_append_cons_drop, if_pos hk, digits_append, digits_cons, List.length_take_of_le hk.le, ← h]
  ring

/-! ## The words of an integer -/

class Words (α : Type) where
  num_words : Nat
  as_words : α → List UInt64
  of_words : List UInt64 → α

export Words (num_words as_words of_words)

instance : Words UInt64 := ⟨1, fun x => [x], fun ws => ws.getD 0 0⟩

variable {H : Type}

instance [Words H] : Words (Uint H) where
  num_words := 2 * num_words H
  as_words x := as_words x.lo ++ as_words x.hi
  of_words ws := ⟨of_words (ws.drop (num_words H)), of_words (ws.take (num_words H))⟩

class LawfulWords (α : Type) [Digit α] [Words α] : Prop where
  num_bits_words : num_bits α = 64 * num_words α
  length_as_words : ∀ x : α, (as_words x).length = num_words α
  digits_as_words : ∀ x : α, digits (as_words x) = value x
  value_of_words : ∀ ws : List UInt64, value (of_words ws : α) = digits (ws.take (num_words α))

export LawfulWords (num_bits_words length_as_words digits_as_words value_of_words)

instance : LawfulWords UInt64 where
  num_bits_words := rfl
  length_as_words _ := rfl
  digits_as_words x := by simp [as_words]
  value_of_words ws := by cases ws <;> simp [of_words, num_words]

instance [Digit H] [Words H] [LawfulWords H] : LawfulWords (Uint H) where
  num_bits_words := by
    rw [num_bits_def, num_bits_words]
    exact Nat.mul_left_comm 2 64 _
  length_as_words x := by
    have h : (as_words x) = as_words x.lo ++ as_words x.hi := rfl
    rw [h, List.length_append, length_as_words, length_as_words]
    exact (Nat.two_mul _).symm
  digits_as_words x := by
    have h : (as_words x) = as_words x.lo ++ as_words x.hi := rfl
    rw [h, digits_append, length_as_words, digits_as_words, digits_as_words, ← num_bits_words, value_def, join,
      Nat.mul_comm, Nat.add_comm]
  value_of_words ws := by
    have h1 : num_words H + num_words H - num_words H = num_words H := Nat.add_sub_cancel _ _
    have h : (of_words ws : Uint H) = ⟨of_words (ws.drop (num_words H)), of_words (ws.take (num_words H))⟩ := rfl
    have h2 : num_words (Uint H) = num_words H + num_words H := Nat.two_mul _
    rw [h, value_def, value_of_words, value_of_words, num_bits_words, h2, join, List.take_take, Nat.min_self,
      ← digits_take_drop (num_words H) (ws.take (num_words H + num_words H)), List.take_take, List.drop_take, h1,
      Nat.min_eq_left (Nat.le_add_right _ _), Nat.mul_comm, Nat.add_comm]

/-! ## Significant words -/

/-- The loop from the word `m - 1` down: the number of words below the leading zeros. -/
def num_significant (ws : List UInt64) : Nat → Nat
  | 0 => 0
  | m + 1 => if ws.getD m 0 == 0 then num_significant ws m else m + 1

theorem num_significant_le (ws : List UInt64) (k : Nat) : num_significant ws k ≤ k := by
  induction k with
  | zero => exact Nat.le_refl 0
  | succ k ih =>
    rw [num_significant]
    split <;> omega

theorem digits_drop_num_significant {ws : List UInt64} {k : Nat} (h : digits (ws.drop k) = 0) :
    digits (ws.drop (num_significant ws k)) = 0 := by
  induction k with
  | zero => exact h
  | succ k ih =>
    rw [num_significant]
    split
    case isTrue h0 =>
      apply ih
      rw [digits_drop_eq, h, eq_of_beq h0]
      rfl
    case isFalse => exact h

theorem getD_num_significant_ne {ws : List UInt64} {k : Nat} (h : num_significant ws k ≠ 0) :
    ws.getD (num_significant ws k - 1) 0 ≠ 0 := by
  induction k with
  | zero => exact absurd rfl h
  | succ k ih =>
    rw [num_significant] at h ⊢
    split at h
    case isTrue h0 =>
      rw [if_pos h0]
      exact ih h
    case isFalse h0 =>
      rw [if_neg h0, Nat.add_sub_cancel]
      exact fun he => h0 (beq_iff_eq.2 he)

/-- The bounds that the leading word gives. -/
theorem digits_bounds {ws : List UInt64} {n : Nat} (h : digits (ws.drop (n + 1)) = 0) :
    2 ^ (64 * n) * (ws.getD n 0).toNat ≤ digits ws ∧ digits ws < 2 ^ (64 * n) * ((ws.getD n 0).toNat + 1) := by
  have h1 := digits_take_drop n ws
  have h2 := digits_take_lt n ws
  rw [digits_drop_eq, h, Nat.mul_zero, Nat.add_zero] at h1
  rw [Nat.mul_succ]
  omega

/-! ## Shifts over words -/

def shl_words (shift : Nat) : List UInt64 → List UInt64
  | [] => []
  | w :: ws =>
    (w <<< UInt64.ofNat shift) ::
      List.zipWith (fun w prev => w <<< UInt64.ofNat shift ||| prev >>> UInt64.ofNat (64 - shift)) ws (w :: ws)

/-- The lowest `n` words, each with what comes in from the one above it. -/
def shr_words (shift n : Nat) (ws : List UInt64) : List UInt64 :=
  List.zipWith (fun w next => w >>> UInt64.ofNat shift ||| next <<< UInt64.ofNat (64 - shift)) (ws.take n) (ws.drop 1)

theorem length_shl_words (shift : Nat) (ws : List UInt64) : (shl_words shift ws).length = ws.length := by
  cases ws with
  | nil => rfl
  | cons w ws => simp [shl_words]

section

variable {s : Nat} (h0 : 0 < s) (hs : s < 64)

include h0 hs

/-- What is shifted out of a word comes into the next one, and at the end it is left over. -/
theorem digits_zipWith_shl (ws : List UInt64) (p : UInt64) :
    digits (List.zipWith (fun w prev => w <<< UInt64.ofNat s ||| prev >>> UInt64.ofNat (64 - s)) ws (p :: ws)) +
        2 ^ (64 * ws.length) * (((p :: ws).getD ws.length 0).toNat / 2 ^ (64 - s)) =
      digits ws * 2 ^ s + p.toNat / 2 ^ (64 - s) := by
  induction ws generalizing p with
  | nil => simp
  | cons w ws ih =>
    have hsplit := shl_split w.toNat hs.le
    have hrest := ih w
    rw [List.zipWith_cons_cons, digits_cons, digits_cons, toNat_shl_or _ _ h0 hs, List.length_cons, two_pow_words,
      List.getD_cons_succ, Nat.add_mul]
    linear_combination 2 ^ 64 * hrest - hsplit

theorem digits_shl_words (ws : List UInt64) :
    digits (shl_words s ws) + 2 ^ (64 * ws.length) * ((ws.getD (ws.length - 1) 0).toNat / 2 ^ (64 - s)) =
      digits ws * 2 ^ s := by
  cases ws with
  | nil => simp [shl_words]
  | cons w ws =>
    have hsplit := shl_split w.toNat hs.le
    have hrest := digits_zipWith_shl h0 hs ws w
    rw [shl_words, digits_cons, digits_cons, Uint128.toNat_shl _ hs, List.length_cons, Nat.add_sub_cancel, two_pow_words,
      Nat.add_mul]
    linear_combination 2 ^ 64 * hrest - hsplit

theorem digits_shr_words {n : Nat} {ws : List UInt64} (hn : n < ws.length) :
    digits (shr_words s n ws) * 2 ^ s + (ws.getD 0 0).toNat % 2 ^ s =
      digits (ws.take n) + 2 ^ (64 * n) * ((ws.getD n 0).toNat % 2 ^ s) := by
  induction n generalizing ws with
  | zero => simp [shr_words]
  | succ n ih =>
    rcases ws with _ | ⟨w, _ | ⟨w', ws⟩⟩
    · simp at hn
    · simp at hn
    have hrest := @ih (w' :: ws) (by simpa using hn)
    have hpow : 2 ^ (64 - s) * 2 ^ s = 2 ^ 64 := by rw [← pow_add, Nat.sub_add_cancel hs.le]
    have hw := Nat.div_add_mod' w.toNat (2 ^ s)
    have hin : w'.toNat * 2 ^ (64 - s) % 2 ^ 64 * 2 ^ s = w'.toNat % 2 ^ s * 2 ^ 64 := by
      rw [← hpow, Nat.mul_comm (2 ^ (64 - s)) (2 ^ s), Nat.mul_mod_mul_right, Nat.mul_assoc, Nat.mul_comm (2 ^ (64 - s))]
    have hor : (w >>> UInt64.ofNat s ||| w' <<< UInt64.ofNat (64 - s)).toNat =
        w.toNat / 2 ^ s + w'.toNat * 2 ^ (64 - s) % 2 ^ 64 := by
      rw [UInt64.toNat_or, Uint128.toNat_shr _ hs, Uint128.toNat_shl _ (by omega), shr_or hs.le w.toNat_lt]
    have hcons : shr_words s (n + 1) (w :: w' :: ws) =
        (w >>> UInt64.ofNat s ||| w' <<< UInt64.ofNat (64 - s)) :: shr_words s n (w' :: ws) := rfl
    rw [hcons, digits_cons, hor, List.getD_cons_zero, List.take_succ_cons, digits_cons, List.getD_cons_succ, two_pow_words]
    rw [List.getD_cons_zero] at hrest
    linear_combination 2 ^ 64 * hrest + hw + hin

end

/-! ## Normalization -/

structure NormalizedDivArgs where
  denominator : List UInt64
  numerator : List UInt64
  numerator_ex : UInt64
  num_denominator_words : Nat
  num_numerator_words : Nat
  shift : Nat

def normalize (u v : List UInt64) : NormalizedDivArgs :=
  let num_words := u.length
  let m := num_significant u num_words
  let n := num_significant v num_words
  let shift := clz64 (v.getD (n - 1) 0)
  if shift ≠ 0 then
    ⟨shl_words shift v, shl_words shift u, u.getD (num_words - 1) 0 >>> UInt64.ofNat (64 - shift), n, m, shift⟩
  else ⟨v, u, 0, n, m, shift⟩

/-- What normalization gives: the operands are scaled by the same power of two, and the highest bit of the leading word of
the denominator is set. -/
structure Normalized (u v : List UInt64) (na : NormalizedDivArgs) : Prop where
  shift_lt : na.shift < 64
  num_denominator_words_pos : 0 < na.num_denominator_words
  num_denominator_words_le : na.num_denominator_words ≤ u.length
  num_numerator_words_le : na.num_numerator_words ≤ u.length
  length_numerator : na.numerator.length = u.length
  length_denominator : na.denominator.length = u.length
  digits_numerator : digits (na.numerator ++ [na.numerator_ex]) = digits u * 2 ^ na.shift
  digits_denominator : digits na.denominator = digits v * 2 ^ na.shift
  numerator_lt : digits u < 2 ^ (64 * na.num_numerator_words)
  denominator_ge : 2 ^ (64 * (na.num_denominator_words - 1)) ≤ digits v
  denominator_lt : digits v * 2 ^ na.shift < 2 ^ (64 * na.num_denominator_words)
  leading : 2 ^ 63 ≤ (na.denominator.getD (na.num_denominator_words - 1) 0).toNat

/-- The leading word from the bounds. -/
theorem le_getD_of_le {ws : List UInt64} {n k : Nat} (hlt : digits ws < 2 ^ (64 * (n + 1))) (hle : 2 ^ (64 * n) * k ≤ digits ws) :
    k ≤ (ws.getD n 0).toNat := by
  have h1 := digits_drop_eq n ws
  rw [digits_drop (n + 1), Nat.div_eq_of_lt hlt, Nat.mul_zero, Nat.add_zero, digits_drop] at h1
  rw [← h1, Nat.le_div_iff_mul_le (Nat.two_pow_pos _), Nat.mul_comm]
  exact hle

/-- Where the words from `m` on are zero, the number has at most `m` words. -/
theorem digits_lt_of_drop {m : Nat} {ws : List UInt64} (h : digits (ws.drop m) = 0) : digits ws < 2 ^ (64 * m) := by
  rw [← digits_take_drop m ws, h, Nat.mul_zero, Nat.add_zero]
  exact digits_take_lt m ws

/-- The shift by the leading zeros of the leading word: the number keeps its words, and its highest bit is set. -/
theorem scaled_bounds {n : Nat} {ws : List UInt64} (h : digits (ws.drop (n + 1)) = 0) (hw : ws.getD n 0 ≠ 0) :
    2 ^ (64 * n) ≤ digits ws ∧ digits ws * 2 ^ clz64 (ws.getD n 0) < 2 ^ (64 * (n + 1)) ∧
      2 ^ (64 * n) * 2 ^ 63 ≤ digits ws * 2 ^ clz64 (ws.getD n 0) := by
  obtain ⟨hge, hlt⟩ := digits_bounds h
  obtain ⟨hs1, hs2⟩ := clz64_normalizes hw
  have hw1 := Nat.one_le_iff_ne_zero.2 (toNat_ne_zero.2 hw)
  generalize clz64 (ws.getD n 0) = s at *
  generalize ws.getD n 0 = w at *
  refine ⟨(Nat.le_mul_of_pos_right _ hw1).trans hge, ?_, ?_⟩
  · rw [two_pow_words, Nat.mul_comm (2 ^ 64)]
    calc digits ws * 2 ^ s < 2 ^ (64 * n) * (w.toNat + 1) * 2 ^ s := Nat.mul_lt_mul_of_pos_right hlt (Nat.two_pow_pos s)
      _ = 2 ^ (64 * n) * ((w.toNat + 1) * 2 ^ s) := Nat.mul_assoc _ _ _
      _ ≤ 2 ^ (64 * n) * 2 ^ 64 := Nat.mul_le_mul_left _ hs2
  · calc 2 ^ (64 * n) * 2 ^ 63 ≤ 2 ^ (64 * n) * (w.toNat * 2 ^ s) := Nat.mul_le_mul_left _ hs1
      _ = 2 ^ (64 * n) * w.toNat * 2 ^ s := (Nat.mul_assoc _ _ _).symm
      _ ≤ digits ws * 2 ^ s := Nat.mul_le_mul_right _ hge

/-- Nothing is shifted out of the last word, when the result has no more words. -/
theorem digits_shl_words_of_lt {s : Nat} (h0 : 0 < s) (hs : s < 64) {ws : List UInt64}
    (hlt : digits ws * 2 ^ s < 2 ^ (64 * ws.length)) : digits (shl_words s ws) = digits ws * 2 ^ s := by
  have hshl := digits_shl_words h0 hs ws
  have hz : (ws.getD (ws.length - 1) 0).toNat / 2 ^ (64 - s) = 0 := by
    by_contra hne
    have h1 := Nat.le_mul_of_pos_right (2 ^ (64 * ws.length)) (Nat.pos_of_ne_zero hne)
    omega
  rw [hz, Nat.mul_zero, Nat.add_zero] at hshl
  exact hshl

section

variable {u v : List UInt64} {m n : Nat} (hlen : v.length = u.length) (hm : m ≤ u.length) (hn : n + 1 ≤ u.length)
  (hu : digits u < 2 ^ (64 * m)) (hge : 2 ^ (64 * n) ≤ digits v)

include hlen hm hn hu hge

theorem normalized_unshifted (hvlt : digits v < 2 ^ (64 * (n + 1))) (hlow : 2 ^ (64 * n) * 2 ^ 63 ≤ digits v) :
    Normalized u v ⟨v, u, 0, n + 1, m, 0⟩ where
  shift_lt := Nat.succ_pos 63
  num_denominator_words_pos := Nat.succ_pos n
  num_denominator_words_le := hn
  num_numerator_words_le := hm
  length_numerator := rfl
  length_denominator := hlen
  digits_numerator := by simp [digits_append]
  digits_denominator := by simp
  numerator_lt := hu
  denominator_ge := hge
  denominator_lt := by simpa using hvlt
  leading := le_getD_of_le hvlt hlow

theorem normalized_shifted {s : Nat} (h0 : 0 < s) (hs : s < 64) (hvlt : digits v * 2 ^ s < 2 ^ (64 * (n + 1)))
    (hlow : 2 ^ (64 * n) * 2 ^ 63 ≤ digits v * 2 ^ s) :
    Normalized u v ⟨shl_words s v, shl_words s u, u.getD (u.length - 1) 0 >>> UInt64.ofNat (64 - s), n + 1, m, s⟩ := by
  have hden : digits (shl_words s v) = digits v * 2 ^ s :=
    digits_shl_words_of_lt h0 hs (hvlt.trans_le (Nat.pow_le_pow_right (by omega) (Nat.mul_le_mul_left _ (hlen ▸ hn))))
  exact {
    shift_lt := hs
    num_denominator_words_pos := Nat.succ_pos n
    num_denominator_words_le := hn
    num_numerator_words_le := hm
    length_numerator := length_shl_words s u
    length_denominator := (length_shl_words s v).trans hlen
    digits_numerator := by
      rw [← digits_shl_words h0 hs u, digits_append, length_shl_words, digits_cons, digits_nil,
        Uint128.toNat_shr _ (by omega)]
      rfl
    digits_denominator := hden
    numerator_lt := hu
    denominator_ge := hge
    denominator_lt := hvlt
    leading := le_getD_of_le (hden ▸ hvlt) (hden ▸ hlow) }

end

theorem normalize_normalized {u v : List UInt64} (hlen : v.length = u.length) (hv : digits v ≠ 0) :
    Normalized u v (normalize u v) := by
  have hm := num_significant_le u u.length
  have hn := num_significant_le v u.length
  have hu := digits_lt_of_drop (@digits_drop_num_significant u u.length (by simp))
  have hnd : digits (v.drop (num_significant v u.length)) = 0 := digits_drop_num_significant (by simp [← hlen])
  have hn0 : num_significant v u.length ≠ 0 := by
    intro h
    rw [h] at hnd
    exact hv hnd
  have hlead := getD_num_significant_ne hn0
  unfold normalize
  dsimp only
  generalize num_significant u u.length = m at *
  generalize num_significant v u.length = n' at *
  obtain ⟨n, rfl⟩ := Nat.exists_eq_add_one_of_ne_zero hn0
  rw [Nat.add_sub_cancel] at *
  have hs := clz64_lt hlead
  obtain ⟨hge, hvlt, hlow⟩ := scaled_bounds hnd hlead
  generalize clz64 (v.getD n 0) = s at *
  by_cases h0 : s = 0
  · subst h0
    rw [if_neg (not_not.2 rfl)]
    rw [pow_zero, Nat.mul_one] at hvlt hlow
    exact normalized_unshifted hlen hm hn hu hge hvlt hlow
  · rw [if_pos h0]
    exact normalized_shifted hlen hm hn hu hge (Nat.pos_of_ne_zero h0) hs hvlt hlow

end EEVM.Intx

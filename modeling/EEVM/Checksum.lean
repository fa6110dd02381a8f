import EEVM.HexText
import EEVM.Lib.HexCase
/-!
# Checksum addresses (util.h:151-184)

EIP-55 writes an address as `0x` and 40 hexadecimal digits, whose letters are upper case where the hash of the lower-case
digits has a nibble of 8 or more. `is_checksum_address` reads its argument as a number, writes the number as a checksum
address, and compares the two texts. It agrees with EIP-55 on the texts that `Parses` and that are not `Wide`.
-/
namespace EEVM

def is_checksum_address [Keccak] (s : List Char) : Except ParseError Bool := do
  let cs := to_checksum_address (← to_uint256 s)
  pure (cs = s)

/-! ## EIP-55 -/

/-- Of each byte the upper half comes first. -/
def nibble (h : Vector UInt8 32) (i : Nat) : Nat :=
  let b := (h.toList.getD (i / 2) 0).toNat
  if i % 2 = 0 then b / 16 else b % 16

/-- The letters from the one at index `i` of the address on. -/
def Cased (h : Vector UInt8 32) (i : Nat) (ds : List Char) : Prop :=
  ∀ j c, ds[j]? = some c → c.isAlpha → (c.isUpper ↔ 8 ≤ nibble h (i + j))

/-- `keccak_256` of the characters. -/
def hash_of [Keccak] (ds : List Char) : Vector UInt8 32 := keccak_256 (ds.map fun c => UInt8.ofNat c.toNat)

structure Checksummed [Keccak] (ds : List Char) : Prop where
  digits : ∀ c ∈ ds, is_hex_digit c
  cased : Cased (hash_of (ds.map Char.toLower)) 0 ds

def Eip55 [Keccak] (s : List Char) : Prop := ∃ ds, s = '0' :: 'x' :: ds ∧ ds.length = 40 ∧ Checksummed ds

/-- What `is_checksum_address` is there for. -/
def Decides [Keccak] (s : List Char) : Prop :=
  (Eip55 s → is_checksum_address s = .ok true) ∧ (¬Eip55 s → is_checksum_address s = .ok false)

/-- `0x` and at most 64 hexadecimal digits; or at most 78 decimal digits, whose number does not wrap around to less than its
last digit. -/
inductive Parses : List Char → Prop
  | hex {ds : List Char} : (∀ c ∈ ds, is_hex_digit c) → ds.length ≤ 64 → Parses ('0' :: 'x' :: ds)
  | dec {ds : List Char} : (∀ c ∈ ds, c.isDigit) → ds.length ≤ 78 →
      Nat.ofDigitChars 10 ds 0 % 10 ≤ Nat.ofDigitChars 10 ds 0 % 2 ^ 256 → Parses ds

/-- A number of more than 160 bits, written in the way of a checksum address. -/
def Wide [Keccak] (s : List Char) : Prop :=
  ∃ ds, s = '0' :: 'x' :: ds ∧ 40 < ds.length ∧ ds.length ≤ 64 ∧ ds.head? ≠ some '0' ∧ Checksummed ds

/-! ## Casing -/

variable {h : Vector UInt8 32} {i : Nat} {c l : Char} {ds ls s : List Char} {n d : Nat}

theorem mask_iff (h : Vector UInt8 32) (i : Nat) :
    h.toList.getD (i / 2) 0 &&& (if i % 2 = 0 then 0x80 else 0x08) ≠ 0 ↔ 8 ≤ nibble h i := by
  have hbyte : ∀ n < 256, (UInt8.ofNat n &&& 0x80 ≠ 0 ↔ 8 ≤ n / 16) ∧ (UInt8.ofNat n &&& 0x08 ≠ 0 ↔ 8 ≤ n % 16) := by
    decide +kernel
  unfold nibble
  generalize h.toList.getD (i / 2) 0 = b
  have hb := hbyte b.toNat b.toNat_lt
  rw [UInt8.ofNat_toNat] at hb
  split
  · exact hb.1
  · exact hb.2

/-- One digit of the loop. -/
theorem checksum_digits_cons (h : Vector UInt8 32) (i : Nat) (l : Char) (ls : List Char) : checksum_digits h i (l :: ls) =
    (if 'a' ≤ l ∧ l ≤ 'f' then (if 8 ≤ nibble h i then l.toUpper else l.toLower) else l) :: checksum_digits h (i + 1) ls := by
  simp only [checksum_digits, mask_iff]

theorem cased_cons : Cased h i (c :: ds) ↔ (c.isAlpha → (c.isUpper ↔ 8 ≤ nibble h i)) ∧ Cased h (i + 1) ds := by
  constructor
  · intro hcased
    refine ⟨hcased 0 c rfl, ?_⟩
    intro j c' hj
    have hstep := hcased (j + 1) c' hj
    rwa [show i + (j + 1) = i + 1 + j by omega] at hstep
  · rintro ⟨hc, hds⟩ j c' hj
    cases j with
    | zero =>
      cases hj
      exact hc
    | succ j =>
      rw [show i + (j + 1) = i + 1 + j by omega]
      exact hds j c' hj

/-- Without letters there is no casing. -/
theorem checksummed_of_isDigit [Keccak] (hall : ∀ c ∈ ds, c.isDigit) : Checksummed ds where
  digits c hc := Hex.isSome_of_isDigit (hall c hc)
  cased _ c hj ha := absurd ha (Hex.not_isAlpha_of_isDigit (hall c (List.mem_of_getElem? hj)))

/-- The case that a lower-case digit is given. -/
theorem recased_iff (hl : Hex.digit_value l = some d) (hlow : l.toLower = l) :
    (if 'a' ≤ l ∧ l ≤ 'f' then (if 8 ≤ nibble h i then l.toUpper else l.toLower) else l) = c ↔
      c.toLower = l ∧ (c.isAlpha → (c.isUpper ↔ 8 ≤ nibble h i)) := by
  by_cases hletter : 'a' ≤ l ∧ l ≤ 'f'
  · have hlower : l.isLower := Hex.isLower_of_letter hletter
    have halpha : l.isAlpha := by simp [Char.isAlpha, hlower]
    have hself : ¬l.isUpper := Char.not_isUpper_of_isLower hlower
    have hupper : l.toUpper.isUpper := by simpa using halpha
    rw [if_pos hletter, Hex.toLower_eq_iff hlower]
    by_cases hbig : 8 ≤ nibble h i
    · rw [if_pos hbig]
      constructor
      · rintro rfl
        exact ⟨.inr rfl, fun _ => ⟨fun _ => hbig, fun _ => hupper⟩⟩
      · rintro ⟨rfl | rfl, hcase⟩
        · exact absurd ((hcase halpha).2 hbig) hself
        · rfl
    · rw [if_neg hbig, hlow]
      constructor
      · rintro rfl
        exact ⟨.inl rfl, fun _ => ⟨fun hu => absurd hu hself, fun hn => absurd hn hbig⟩⟩
      · rintro ⟨rfl | rfl, hcase⟩
        · rfl
        · exact absurd ((hcase (by simpa using halpha)).1 hupper) hbig
  · have hnot : ¬l.isAlpha := Hex.not_isAlpha_of_digit hl hlow hletter
    rw [if_neg hletter]
    constructor
    · rintro rfl
      exact ⟨hlow, fun ha => absurd ha hnot⟩
    · rintro ⟨rfl, -⟩
      rw [Char.isAlpha_toLower_eq_isAlpha] at hnot
      rw [Char.toLower_eq_of_not_isUpper (by simp_all [Char.isAlpha])]

/-- The text that the loop makes of lower-case digits: the one that has these digits and is cased by the hash. -/
theorem checksum_digits_eq_iff (hdigits : ∀ c ∈ ls, is_hex_digit c) (hlow : ls.map Char.toLower = ls) :
    checksum_digits h i ls = ds ↔ ds.map Char.toLower = ls ∧ Cased h i ds := by
  induction ls generalizing i ds with
  | nil =>
    cases ds with
    | nil => simp [checksum_digits, Cased]
    | cons c ds => simp [checksum_digits]
  | cons l ls ih =>
    cases ds with
    | nil => simp [checksum_digits_cons]
    | cons c ds =>
      obtain ⟨d, hd⟩ := Option.isSome_iff_exists.1 (hdigits l (by simp))
      rw [List.map_cons, List.cons.injEq] at hlow
      rw [checksum_digits_cons, List.cons.injEq, recased_iff hd hlow.1,
        ih (fun c hc => hdigits c (List.mem_cons_of_mem _ hc)) hlow.2, List.map_cons, List.cons.injEq, cased_cons]
      tauto

/-- What `to_checksum_address` writes for a number, before letters are made upper case. -/
theorem map_toLower_zero_fill (k n : Nat) : (zero_fill k (hex n)).map Char.toLower = zero_fill k (hex n) := by
  rw [zero_fill, List.map_append, hex, Hex.map_toLower_toDigits, List.map_replicate]
  rfl

theorem to_checksum_address_eq_iff [Keccak] (a : Address) : to_checksum_address a = '0' :: 'x' :: ds ↔
    ds.map Char.toLower = zero_fill 40 (hex a.toNat) ∧ Cased (hash_of (ds.map Char.toLower)) 0 ds := by
  have hdigits := Hex.isSome_of_value_from (value_zero_fill 40 a.toNat)
  have hrun : to_checksum_address a = '0' :: 'x' ::
      checksum_digits (hash_of (zero_fill 40 (hex a.toNat))) 0 (zero_fill 40 (hex a.toNat)) := rfl
  rw [hrun, List.cons.injEq, List.cons.injEq]
  simp only [true_and]
  rw [checksum_digits_eq_iff hdigits (map_toLower_zero_fill 40 a.toNat)]
  constructor
  · rintro ⟨heq, hcased⟩
    exact ⟨heq, heq ▸ hcased⟩
  · rintro ⟨heq, hcased⟩
    exact ⟨heq, heq ▸ hcased⟩

theorem length_zero_fill (k : Nat) (cs : List Char) : (zero_fill k cs).length = max k cs.length := by
  simp only [zero_fill, List.length_append, List.length_replicate]
  omega

/-- A number is written with as many digits as it was read with: if these are 40, or more and no zero in front. -/
theorem length_eq_iff (hv : Hex.value_from 0 ds = some n) :
    ds.length = (zero_fill 40 (hex n)).length ↔ ds.length = 40 ∨ (40 < ds.length ∧ ds.head? ≠ some '0') := by
  have hpos : 0 < (hex n).length := List.length_pos_of_ne_nil Nat.toDigits_ne_nil
  have hlt := (Hex.value_from_bounds hv).2
  rw [Nat.zero_add, Nat.one_mul] at hlt
  rw [length_zero_fill]
  rcases Nat.lt_or_ge 40 ds.length with hlong | hshort
  · cases ds with
    | nil => simp at hlong
    | cons c cs =>
      rw [List.length_cons] at hlong hlt ⊢
      have hle : (hex n).length ≤ cs.length + 1 := Hex.length_toDigits_le (by omega) hlt
      have hhead := Hex.length_toDigits_eq_iff hv (by omega)
      rw [← hex] at hhead
      simp only [List.head?_cons, ne_eq, Option.some.injEq, ← hhead]
      omega
  · have hpow : 16 ^ ds.length ≤ 16 ^ 40 := Nat.pow_le_pow_right (by omega) hshort
    have hle : (hex n).length ≤ 40 := Hex.length_toDigits_le (by omega) (by omega)
    omega

/-- Its digits are the same ones then. -/
theorem map_toLower_eq_iff (hv : Hex.value_from 0 ds = some n) :
    ds.map Char.toLower = zero_fill 40 (hex n) ↔ ds.length = 40 ∨ (40 < ds.length ∧ ds.head? ≠ some '0') := by
  rw [← length_eq_iff hv]
  constructor
  · intro heq
    rw [← heq, List.length_map]
  · intro hlen
    obtain ⟨-, hvalues⟩ := Hex.value_from_inj hlen hv (value_zero_fill 40 n)
    rw [Hex.map_toLower_congr (Hex.isSome_of_value_from hv) hvalues, map_toLower_zero_fill]

/-! ## Parsing -/

theorem isDigit_iff : c.isDigit ↔ '0' ≤ c ∧ c ≤ '9' := by
  simp [Char.isDigit, Char.le_def]

theorem from_dec_digit_eq (c : Char) : from_dec_digit c =
    if c.isDigit then .ok (c.toNat - 48) else .error (.invalid_argument ("Invalid digit: " ++ c.toString)) := by
  simp only [from_dec_digit, isDigit_iff]

/-- The hexadecimal loop ends with a number only if there are digits only, and not too many. -/
theorem from_string_hex_ok {x a : Word} {k : Nat} (hk : k ≤ 64) (hrun : from_string_hex k x ds = .ok a) :
    (∀ c ∈ ds, is_hex_digit c) ∧ k + ds.length ≤ 64 := by
  induction ds generalizing x k with
  | nil => simpa using hk
  | cons c ds ih =>
    rw [from_string_hex] at hrun
    split at hrun
    · cases hrun
    · cases hc : from_hex_digit c with
      | error ex =>
        rw [hc] at hrun
        cases hrun
      | ok d =>
        rw [hc] at hrun
        obtain ⟨hall, hlen⟩ := ih (by omega) hrun
        refine ⟨List.forall_mem_cons.2 ⟨from_hex_digit_ok hc, hall⟩, ?_⟩
        rw [List.length_cons]
        omega

/-- The sum of the decimal loop. -/
theorem mul_ten_add (v d : Nat) : BitVec.ofNat 256 v * 10 + BitVec.ofNat 256 d = BitVec.ofNat 256 (10 * v + d) := by
  rw [BitVec.ofNat_add, BitVec.ofNat_mul, BitVec.mul_comm]
  rfl

theorem ofNat_lt_digit_iff (n : Nat) (hd : d < 10) : BitVec.ofNat 256 n < BitVec.ofNat 256 d ↔ n % 2 ^ 256 < d := by
  rw [BitVec.lt_def, BitVec.toNat_ofNat, BitVec.toNat_ofNat, Nat.mod_eq_of_lt (show d < 2 ^ 256 by omega)]

theorem digit_lt_ten (hc : c.isDigit) : c.toNat - '0'.toNat < 10 := by
  have h9 := (Char.isDigit_iff_toNat.1 hc).2
  have hnine : '9'.toNat = 57 := rfl
  have hzero : '0'.toNat = 48 := rfl
  omega

/-- One more decimal digit behind `k` of them. -/
theorem from_string_dec_cons {k : Nat} (hk : k ≤ 77) (v : Nat) (hc : c.isDigit) (hd : c.toNat - '0'.toNat = d) :
    from_string_dec k (BitVec.ofNat 256 v) (c :: ds) =
      if (10 * v + d) % 2 ^ 256 < d then .error (.overflow_error "Integer overflow")
      else from_string_dec (k + 1) (BitVec.ofNat 256 (10 * v + d)) ds := by
  have hlt : d < 10 := hd ▸ digit_lt_ten hc
  have hdigit : c.toNat - 48 = d := hd
  rw [from_string_dec, if_neg (by omega), from_dec_digit_eq, if_pos hc, hdigit]
  simp only [← ofNat_lt_digit_iff _ hlt, ← mul_ten_add]
  rfl

theorem from_string_dec_of_not_isDigit {k : Nat} {x a : Word} (hc : ¬c.isDigit) : from_string_dec k x (c :: ds) ≠ .ok a := by
  rw [from_string_dec]
  split
  · nofun
  · rw [from_dec_digit_eq, if_neg hc]
    nofun

/-- The decimal loop, behind `k` digits. The only sum that can wrap around is the one of digit 78. -/
theorem from_string_dec_ok_iff {v k : Nat} (hk : k ≤ 77) (hv : v < 10 ^ k) :
    (∃ a, from_string_dec k (BitVec.ofNat 256 v) ds = .ok a) ↔ (∀ c ∈ ds, c.isDigit) ∧ k + ds.length ≤ 78 ∧
      Nat.ofDigitChars 10 ds v % 10 ≤ Nat.ofDigitChars 10 ds v % 2 ^ 256 := by
  have hfits : (10 : Nat) ^ 77 < 2 ^ 256 := by norm_num
  induction ds generalizing v k with
  | nil =>
    have hpow : (10 : Nat) ^ k ≤ 10 ^ 77 := Nat.pow_le_pow_right (by omega) hk
    have hmod : v % 2 ^ 256 = v := Nat.mod_eq_of_lt (by omega)
    have hle := Nat.mod_le v 10
    rw [Nat.ofDigitChars_nil, hmod]
    exact ⟨fun _ => ⟨by simp, by simp only [List.length_nil]; omega, hle⟩, fun _ => ⟨_, rfl⟩⟩
  | cons c ds ih =>
    rw [List.forall_mem_cons, List.length_cons, Nat.ofDigitChars_cons]
    by_cases hc : c.isDigit
    · have hd := digit_lt_ten hc
      rw [from_string_dec_cons hk v hc rfl]
      generalize c.toNat - '0'.toNat = d at hd
      have hlast : (10 * v + d) % 10 = d := by omega
      have hnext : 10 * v + d < 10 ^ (k + 1) := by
        rw [Nat.pow_succ]
        omega
      simp only [hc, true_and]
      rcases Nat.lt_or_ge k 77 with hlt | hge
      · -- the sum fits
        have hpow : (10 : Nat) ^ (k + 1) ≤ 10 ^ 77 := Nat.pow_le_pow_right (by omega) hlt
        have hmod : (10 * v + d) % 2 ^ 256 = 10 * v + d := Nat.mod_eq_of_lt (by omega)
        have hstep := ih (show k + 1 ≤ 77 by omega) hnext
        rw [if_neg (by omega), Nat.add_comm ds.length, ← Nat.add_assoc]
        exact hstep
      · -- the last digit
        cases ds with
        | nil =>
          rw [Nat.ofDigitChars_nil, hlast]
          by_cases hover : (10 * v + d) % 2 ^ 256 < d
          · rw [if_pos hover]
            constructor
            · rintro ⟨a, ⟨⟩⟩
            · rintro ⟨-, -, hle⟩
              omega
          · rw [if_neg hover]
            exact ⟨fun _ => ⟨by simp, by simp only [List.length_nil]; omega, by omega⟩, fun _ => ⟨_, rfl⟩⟩
        | cons c' ds =>
          have herror : from_string_dec (k + 1) (BitVec.ofNat 256 (10 * v + d)) (c' :: ds) =
              .error (.overflow_error "Integer overflow") := by rw [from_string_dec, if_pos (by omega)]
          rw [herror, ite_self, List.length_cons]
          constructor
          · rintro ⟨a, ⟨⟩⟩
          · rintro ⟨-, hlen, -⟩
            omega
    · constructor
      · rintro ⟨a, ha⟩
        exact absurd ha (from_string_dec_of_not_isDigit hc)
      · rintro ⟨⟨hdigit, -⟩, -⟩
        exact absurd hdigit hc

theorem c_str_eq (hnul : '\x00' ∉ s) : c_str s = s := by
  rw [c_str, List.takeWhile_eq_self_iff]
  intro c hc
  simp only [ne_eq, decide_eq_true_eq]
  rintro rfl
  exact hnul hc

theorem to_uint256_hex (hnul : '\x00' ∉ '0' :: 'x' :: ds) : to_uint256 ('0' :: 'x' :: ds) = from_string_hex 0 0 ds := by
  rw [to_uint256, c_str_eq hnul]
  rfl

theorem to_uint256_dec (hnul : '\x00' ∉ s) (hx : ∀ ds, s ≠ '0' :: 'x' :: ds) : to_uint256 s = from_string_dec 0 0 s := by
  rw [to_uint256, c_str_eq hnul]
  split
  · exact absurd rfl (hx _)
  · rfl

theorem to_uint256_ok_iff (hnul : '\x00' ∉ s) : (∃ a, to_uint256 s = .ok a) ↔ Parses s := by
  by_cases hx : ∃ ds, s = '0' :: 'x' :: ds
  · obtain ⟨ds, rfl⟩ := hx
    constructor
    · rintro ⟨a, ha⟩
      rw [to_uint256_hex hnul] at ha
      obtain ⟨hall, hlen⟩ := from_string_hex_ok (Nat.zero_le 64) ha
      exact .hex hall (by omega)
    · intro hparses
      cases hparses with
      | hex hall hlen =>
        obtain ⟨n, hv⟩ := Hex.exists_value (x := 0) hall
        exact ⟨_, to_uint256_eq hv hlen⟩
      | dec hall _ _ => exact absurd (hall 'x' (by simp)) (by decide)
  · rw [not_exists] at hx
    rw [to_uint256_dec hnul hx, show (0 : Word) = BitVec.ofNat 256 0 from rfl,
      from_string_dec_ok_iff (Nat.zero_le 77) (by simp)]
    constructor
    · rintro ⟨hall, hlen, hfits⟩
      exact .dec hall (by omega) hfits
    · intro hparses
      cases hparses with
      | hex _ _ => exact absurd rfl (hx _)
      | dec hall hlen hfits => exact ⟨hall, by omega, hfits⟩

/-! ## The check -/

theorem is_checksum_address_of_ok [Keccak] {a : Address} (ha : to_uint256 s = .ok a) :
    is_checksum_address s = .ok (decide (to_checksum_address a = s)) := by
  rw [is_checksum_address, ha]
  rfl

theorem is_checksum_address_of_error [Keccak] {ex : ParseError} (ha : to_uint256 s = .error ex) :
    is_checksum_address s = .error ex := by
  rw [is_checksum_address, ha]
  rfl

theorem Eip55.parses [Keccak] (h : Eip55 s) : Parses s := by
  obtain ⟨ds, rfl, hlen, hchecked⟩ := h
  exact .hex hchecked.digits (by omega)

/-- A text with digits behind `0x` is accepted if it is cased as a checksum address is, and long enough. -/
theorem is_checksum_address_hex [Keccak] (hall : ∀ c ∈ ds, is_hex_digit c) (hlen : ds.length ≤ 64) :
    is_checksum_address ('0' :: 'x' :: ds) = .ok true ↔
      Checksummed ds ∧ (ds.length = 40 ∨ (40 < ds.length ∧ ds.head? ≠ some '0')) := by
  obtain ⟨n, hv⟩ := Hex.exists_value (x := 0) hall
  have hbound := (Hex.value_from_bounds hv).2
  have hpow : 16 ^ ds.length ≤ 16 ^ 64 := Nat.pow_le_pow_right (by omega) hlen
  have hn : (BitVec.ofNat 256 n).toNat = n := by
    rw [BitVec.toNat_ofNat, Nat.mod_eq_of_lt (by omega)]
  have hparse : to_uint256 ('0' :: 'x' :: ds) = .ok (BitVec.ofNat 256 n) := to_uint256_eq hv hlen
  rw [is_checksum_address_of_ok hparse, Except.ok.injEq, decide_eq_true_eq, to_checksum_address_eq_iff, hn,
    map_toLower_eq_iff hv]
  constructor
  · rintro ⟨hform, hcased⟩
    exact ⟨⟨hall, hcased⟩, hform⟩
  · rintro ⟨hchecked, hform⟩
    exact ⟨hform, hchecked.cased⟩

/-- Decimal digits are no checksum address. -/
theorem is_checksum_address_dec [Keccak] {a : Address} (ha : to_uint256 s = .ok a) (hx : ∀ ds, s ≠ '0' :: 'x' :: ds) :
    is_checksum_address s = .ok false := by
  rw [is_checksum_address_of_ok ha, Except.ok.injEq, decide_eq_false_iff_not]
  rintro rfl
  exact hx _ rfl

theorem eip55_hex [Keccak] : Eip55 ('0' :: 'x' :: ds) ↔ ds.length = 40 ∧ Checksummed ds := by
  simp [Eip55]

theorem wide_hex [Keccak] : Wide ('0' :: 'x' :: ds) ↔
    40 < ds.length ∧ ds.length ≤ 64 ∧ ds.head? ≠ some '0' ∧ Checksummed ds := by
  simp [Wide]

theorem Decides.parses [Keccak] (hnul : '\x00' ∉ s) (hdecides : Decides s) : Parses s := by
  by_cases he : Eip55 s
  · exact he.parses
  · rw [← to_uint256_ok_iff hnul]
    cases ha : to_uint256 s with
    | ok a => exact ⟨a, rfl⟩
    | error ex =>
      have hfalse := hdecides.2 he
      rw [is_checksum_address_of_error ha] at hfalse
      cases hfalse

theorem decides_hex_iff [Keccak] (hnul : '\x00' ∉ '0' :: 'x' :: ds) (hparses : Parses ('0' :: 'x' :: ds)) :
    Decides ('0' :: 'x' :: ds) ↔ ¬Wide ('0' :: 'x' :: ds) := by
  obtain ⟨a, ha⟩ := (to_uint256_ok_iff hnul).2 hparses
  rw [to_uint256_hex hnul] at ha
  obtain ⟨hall, hlen⟩ := from_string_hex_ok (Nat.zero_le 64) ha
  have haccepted := is_checksum_address_hex hall (by omega)
  rw [← to_uint256_hex hnul] at ha
  obtain ⟨accepted, hrun⟩ : ∃ b, is_checksum_address ('0' :: 'x' :: ds) = .ok b := ⟨_, is_checksum_address_of_ok ha⟩
  unfold Decides
  rw [wide_hex, eip55_hex]
  rw [hrun] at haccepted ⊢
  cases accepted with
  | true =>
    obtain ⟨hchecked, hform⟩ := haccepted.1 rfl
    constructor
    · rintro ⟨-, hreject⟩ ⟨hlong, -, -, -⟩
      have hne : ¬(ds.length = 40 ∧ Checksummed ds) := by omega
      cases hreject hne
    · intro hwide
      refine ⟨fun _ => rfl, fun he => ?_⟩
      rcases hform with h40 | ⟨hlong, hhead⟩
      · exact absurd ⟨h40, hchecked⟩ he
      · exact absurd ⟨hlong, by omega, hhead, hchecked⟩ hwide
  | false =>
    constructor
    · rintro - ⟨hlong, -, hhead, hchecked⟩
      cases haccepted.2 ⟨hchecked, .inr ⟨hlong, hhead⟩⟩
    · intro _
      refine ⟨?_, fun _ => rfl⟩
      rintro ⟨h40, hchecked⟩
      exact haccepted.2 ⟨hchecked, .inl h40⟩

theorem decides_iff [Keccak] (hnul : '\x00' ∉ s) : Decides s ↔ Parses s ∧ ¬Wide s := by
  by_cases hx : ∃ ds, s = '0' :: 'x' :: ds
  · obtain ⟨ds, rfl⟩ := hx
    constructor
    · intro hdecides
      have hparses := hdecides.parses hnul
      exact ⟨hparses, (decides_hex_iff hnul hparses).1 hdecides⟩
    · rintro ⟨hparses, hwide⟩
      exact (decides_hex_iff hnul hparses).2 hwide
  · have hwide : ¬Wide s := fun ⟨ds, hs, _⟩ => hx ⟨ds, hs⟩
    have heip : ¬Eip55 s := fun ⟨ds, hs, _⟩ => hx ⟨ds, hs⟩
    constructor
    · exact fun hdecides => ⟨hdecides.parses hnul, hwide⟩
    · rintro ⟨hparses, -⟩
      obtain ⟨a, ha⟩ := (to_uint256_ok_iff hnul).2 hparses
      exact ⟨fun he => absurd he heip, fun _ => is_checksum_address_dec ha (not_exists.1 hx)⟩

/-! ## Addresses -/

theorem accepted_iff [Keccak] {a : Address} (hds : ds.map Char.toLower = zero_fill 40 (hex a.toNat)) :
    is_checksum_address ('0' :: 'x' :: ds) = .ok true ↔ '0' :: 'x' :: ds = to_checksum_address a := by
  have hvalues : ds.map Hex.digit_value = (zero_fill 40 (hex a.toNat)).map Hex.digit_value := by
    rw [← hds, List.map_map]
    simp
  have hlen := congrArg List.length hds
  rw [List.length_map] at hlen
  have hv := (Hex.value_from_congr hvalues).trans (value_zero_fill 40 a.toNat)
  have hparse : to_uint256 ('0' :: 'x' :: ds) = .ok (BitVec.ofNat 256 a.toNat) :=
    to_uint256_eq hv (hlen ▸ length_zero_fill_le (by omega) (length_hex_le a))
  rw [BitVec.ofNat_toNat, BitVec.setWidth_eq] at hparse
  rw [is_checksum_address_of_ok hparse, Except.ok.injEq, decide_eq_true_eq]
  exact eq_comm

/-- Of the letter casings of an address one is accepted. -/
def OneCasing [Keccak] (a : Address) : Prop :=
  ∃ ds, to_checksum_address a = '0' :: 'x' :: ds ∧ ds.length = 40 ∧ ds.map Char.toLower = zero_fill 40 (hex a.toNat) ∧
    ∀ ds', ds'.map Char.toLower = zero_fill 40 (hex a.toNat) → (is_checksum_address ('0' :: 'x' :: ds') = .ok true ↔ ds' = ds)

theorem one_casing [Keccak] {a : Address} (ha : a.toNat < 2 ^ 160) : OneCasing a := by
  obtain ⟨ds, hds⟩ : ∃ ds, to_checksum_address a = '0' :: 'x' :: ds := ⟨_, rfl⟩
  have hlower := ((to_checksum_address_eq_iff a).1 hds).1
  refine ⟨ds, hds, ?_, hlower, ?_⟩
  · have hlen := congrArg List.length hlower
    have hle : (hex a.toNat).length ≤ 40 := Hex.length_toDigits_le (by omega) (by omega)
    rw [List.length_map, length_zero_fill] at hlen
    omega
  · intro ds' hds'
    rw [accepted_iff hds', hds]
    simp

/-- **Checksum addresses.** EIP-55 is decided, but for texts that are no numbers, and numbers that are too large. -/
theorem is_checksum_address_decides [Keccak] :
    (∀ s, '\x00' ∉ s → (Decides s ↔ Parses s ∧ ¬Wide s)) ∧
      ∀ a : Address, a.toNat < 2 ^ 160 → OneCasing a ∧ to_uint256 (to_checksum_address a) = .ok a :=
  ⟨fun _ hnul => decides_iff hnul, fun a ha => ⟨one_casing ha, to_uint256_to_checksum_address a⟩⟩

/-- Gives the hash of `5aaeb6053f3e94c9b9a09f33669435e7ef1beaed`. -/
@[reducible] def hash_of_digits : Keccak :=
  ⟨fun _ => #v[0xd3, 0x85, 0x65, 0x0c, 0xe8, 0xfd, 0xc6, 0xdb, 0x7e, 0xe3, 0xa0, 0x91, 0xd3, 0x48, 0x14, 0xdb, 0xc4, 0xce, 0x18,
    0x21, 0x9f, 0xfa, 0xe5, 0x21, 0x82, 0xef, 0xff, 0x40, 0x34, 0xd7, 0x07, 0xe5]⟩

def cased_digits : List Char := "5aAeb6053F3E94C9b9A09f33669435E7Ef1BeAed".toList

/-- The first address of the tests, in its casing and in lower case. -/
theorem decides_cased : (@Decides hash_of_digits ('0' :: 'x' :: cased_digits) ∧
      @is_checksum_address hash_of_digits ('0' :: 'x' :: cased_digits) = .ok true) ∧
    @is_checksum_address hash_of_digits ('0' :: 'x' :: cased_digits.map Char.toLower) = .ok false ∧
    @OneCasing hash_of_digits 0x5aaeb6053f3e94c9b9a09f33669435e7ef1beaed := by
  have hnul : '\x00' ∉ '0' :: 'x' :: cased_digits := by decide +kernel
  have hparses : Parses ('0' :: 'x' :: cased_digits) := .hex (List.all_eq_true.1 rfl) (by decide +kernel)
  have hwide : ¬@Wide hash_of_digits ('0' :: 'x' :: cased_digits) := by
    rw [@wide_hex _ hash_of_digits]
    exact fun h => absurd h.1 (by decide +kernel)
  exact ⟨⟨((@is_checksum_address_decides hash_of_digits).1 _ hnul).2 ⟨hparses, hwide⟩, by decide +kernel⟩, by decide +kernel,
    ((@is_checksum_address_decides hash_of_digits).2 _ (by decide)).1⟩

/-- The number 2^160 is too large for an address; and `g` is no digit. -/
theorem accepts_wide : '\x00' ∉ '0' :: 'x' :: '1' :: List.replicate 40 '0' ∧
    ¬@Decides no_hash ('0' :: 'x' :: '1' :: List.replicate 40 '0') ∧ '\x00' ∉ ['g'] ∧ ¬@Decides no_hash ['g'] := by
  let := no_hash
  have hnul : '\x00' ∉ '0' :: 'x' :: '1' :: List.replicate 40 '0' := by simp
  have hnul' : '\x00' ∉ ['g'] := by simp
  refine ⟨hnul, ?_, hnul', ?_⟩
  · rw [decides_iff hnul, wide_hex]
    rintro ⟨-, hnot⟩
    have hdigits : ∀ c ∈ '1' :: List.replicate 40 '0', c.isDigit := by simp
    exact hnot ⟨by simp, by simp, by simp, checksummed_of_isDigit hdigits⟩
  · intro hdecides
    have hparses := hdecides.parses hnul'
    cases hparses with
    | dec hall _ _ => exact absurd (hall 'g' (by simp)) (by decide)

end EEVM

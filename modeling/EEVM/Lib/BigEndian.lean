import Mathlib.Data.List.DropRight
import Mathlib.Data.Nat.Digits.Defs
import Mathlib.Tactic.Ring
/-!
# Big-endian byte strings

`ofBytes` reads a byte string as a number, `toBytes k n` writes the low `k` bytes of `n`,
`minimal` drops the leading zero bytes, `digits n` is the shortest string that spells `n`. `minimal` keeps the number (`ofBytes_minimal`) and
`significant` counts what it keeps, by halving (`length_minimal_toBytes`).
-/
namespace BigEndian

def ofBytesFrom (acc : Nat) (bs : List UInt8) : Nat :=
  bs.foldl (fun n b => n * 256 + b.toNat) acc

/-- The number a byte string spells, most significant byte first. -/
def ofBytes (bs : List UInt8) : Nat := ofBytesFrom 0 bs

/-- The low `k` bytes of `n`, most significant first. -/
def toBytes : Nat → Nat → List UInt8
  | 0, _ => []
  | k + 1, n => toBytes k (n / 256) ++ [UInt8.ofNat n]

/-- The byte string without its leading zero bytes. -/
def minimal (bs : List UInt8) : List UInt8 := bs.dropWhile (· == 0)

/-- The base 256 digits of `n`, most significant first. -/
def digits (n : Nat) : List UInt8 := (Nat.digits 256 n).reverse.map UInt8.ofNat

/-- The number of significant bytes of a `2 ^ k`-byte number, by comparing halves. -/
def significant : Nat → Nat → Nat
  | 0, n => if n ≠ 0 then 1 else 0
  | k + 1, n =>
    let h := significant k (n / 256 ^ 2 ^ k)
    let l := significant k (n % 256 ^ 2 ^ k)
    if h ≠ 0 then h + 2 ^ k else l

@[simp] theorem ofBytes_nil : ofBytes [] = 0 := rfl

theorem ofBytesFrom_eq : ∀ (bs : List UInt8) (acc : Nat),
    ofBytesFrom acc bs = acc * 256 ^ bs.length + ofBytes bs
  | [], acc => by simp [ofBytesFrom, ofBytes]
  | b :: bs, acc => by
    have h1 : ofBytesFrom acc (b :: bs) = ofBytesFrom (acc * 256 + b.toNat) bs := rfl
    have h2 : ofBytes (b :: bs) = ofBytesFrom (0 * 256 + b.toNat) bs := rfl
    rw [h1, h2, ofBytesFrom_eq bs, ofBytesFrom_eq bs]
    simp only [List.length_cons, pow_succ]
    ring

theorem ofBytes_cons (b : UInt8) (bs : List UInt8) :
    ofBytes (b :: bs) = b.toNat * 256 ^ bs.length + ofBytes bs := by
  have h := ofBytesFrom_eq bs b.toNat
  simpa [ofBytes, ofBytesFrom] using h

theorem ofBytes_append (as bs : List UInt8) :
    ofBytes (as ++ bs) = ofBytes as * 256 ^ bs.length + ofBytes bs := by
  rw [← ofBytesFrom_eq bs]
  simp [ofBytes, ofBytesFrom, List.foldl_append]

theorem ofBytes_singleton (b : UInt8) : ofBytes [b] = b.toNat := by
  simp [ofBytes, ofBytesFrom]

theorem ofBytes_replicate_zero (n : Nat) : ofBytes (List.replicate n 0) = 0 := by
  induction n with
  | zero => rfl
  | succ n ih =>
    rw [List.replicate_succ, ofBytes_cons, ih]
    simp

theorem ofBytes_lt : ∀ bs : List UInt8, ofBytes bs < 256 ^ bs.length
  | [] => by simp
  | b :: bs => by
    rw [ofBytes_cons, List.length_cons, pow_succ]
    have h1 := ofBytes_lt bs
    have h2 : b.toNat + 1 ≤ 256 := b.toNat_lt
    have h3 : (b.toNat + 1) * 256 ^ bs.length ≤ 256 * 256 ^ bs.length := Nat.mul_le_mul_right _ h2
    have h4 : (b.toNat + 1) * 256 ^ bs.length = b.toNat * 256 ^ bs.length + 256 ^ bs.length := by ring
    omega

theorem ofBytes_lt_of_le {bs : List UInt8} {n : Nat} (h : bs.length ≤ n) : ofBytes bs < 256 ^ n :=
  Nat.lt_of_lt_of_le (ofBytes_lt bs) (Nat.pow_le_pow_right (by decide) h)

/-- Byte strings of one length are numbers apart. -/
theorem ofBytes_inj : ∀ {as bs : List UInt8}, as.length = bs.length → ofBytes as = ofBytes bs → as = bs
  | [], [], _, _ => rfl
  | a :: as, b :: bs, hlen, h => by
    have hlen' : as.length = bs.length := by simpa using hlen
    have ha := ofBytes_lt as
    have hb := ofBytes_lt bs
    rw [ofBytes_cons, ofBytes_cons, hlen'] at h
    rw [hlen'] at ha
    have hab : a.toNat = b.toNat := by
      rcases Nat.lt_trichotomy a.toNat b.toNat with hlt | heq | hlt
      · have hmul := Nat.mul_le_mul_right (256 ^ bs.length) (Nat.succ_le_of_lt hlt)
        rw [Nat.succ_mul] at hmul
        omega
      · exact heq
      · have hmul := Nat.mul_le_mul_right (256 ^ bs.length) (Nat.succ_le_of_lt hlt)
        rw [Nat.succ_mul] at hmul
        omega
    obtain rfl := UInt8.toNat_inj.1 hab
    rw [ofBytes_inj hlen' (Nat.add_left_cancel h)]

@[simp] theorem length_toBytes : ∀ k n : Nat, (toBytes k n).length = k
  | 0, _ => rfl
  | k + 1, n => by simp [toBytes, length_toBytes k]

theorem ofBytes_toBytes : ∀ k n : Nat, ofBytes (toBytes k n) = n % 256 ^ k
  | 0, n => by simp [toBytes, Nat.mod_one]
  | k + 1, n => by
    rw [toBytes, ofBytes_append, ofBytes_toBytes k, ofBytes_singleton, List.length_singleton, pow_one,
      pow_succ, mul_comm (256 ^ k), Nat.mod_mul]
    have h : (UInt8.ofNat n).toNat = n % 256 := by simp
    rw [h, mul_comm, add_comm]

theorem toBytes_add : ∀ j k n : Nat, toBytes (j + k) n = toBytes j (n / 256 ^ k) ++ toBytes k n
  | j, 0, n => by simp [toBytes]
  | j, k + 1, n => by
    rw [← add_assoc, toBytes, toBytes_add j k, toBytes, Nat.div_div_eq_div_mul, ← pow_succ', List.append_assoc]

theorem toBytes_mod : ∀ k n : Nat, toBytes k (n % 256 ^ k) = toBytes k n
  | 0, _ => rfl
  | k + 1, n => by
    have h1 : n % 256 ^ (k + 1) / 256 = n / 256 % 256 ^ k := by
      rw [pow_succ', Nat.mod_mul_right_div_self]
    have h2 : UInt8.ofNat (n % 256 ^ (k + 1)) = UInt8.ofNat n := by
      apply UInt8.toNat_inj.1
      simp only [UInt8.toNat_ofNat']
      exact Nat.mod_mod_of_dvd n (Dvd.intro_left _ (pow_succ 256 k).symm)
    rw [toBytes, toBytes, h1, h2, toBytes_mod k]

theorem toBytes_ofBytes (bs : List UInt8) : toBytes bs.length (ofBytes bs) = bs := by
  apply ofBytes_inj (length_toBytes _ _)
  rw [ofBytes_toBytes, Nat.mod_eq_of_lt (ofBytes_lt bs)]

theorem toBytes_ofBytes_of_length {k : Nat} {bs : List UInt8} (h : bs.length = k) : toBytes k (ofBytes bs) = bs :=
  h ▸ toBytes_ofBytes bs

/-- The low bytes of a string spell the low digits of its number. -/
theorem ofBytes_drop (bs : List UInt8) (k : Nat) : ofBytes (bs.drop k) = ofBytes bs % 256 ^ (bs.length - k) := by
  have hlt := ofBytes_lt (bs.drop k)
  have happ := ofBytes_append (bs.take k) (bs.drop k)
  rw [List.length_drop] at hlt happ
  rw [List.take_append_drop] at happ
  rw [happ, Nat.mul_add_mod_self_right, Nat.mod_eq_of_lt hlt]

/-! ## Leading zeros -/

theorem length_minimal_le (bs : List UInt8) : (minimal bs).length ≤ bs.length :=
  (List.dropWhile_sublist _).length_le

theorem minimal_eq_self_iff : ∀ {bs : List UInt8}, minimal bs = bs ↔ bs.head? ≠ some 0
  | [] => by simp [minimal]
  | b :: bs => by
    have hle := length_minimal_le bs
    by_cases hb : b = 0
    · subst hb
      have hne : minimal (0 :: bs) ≠ 0 :: bs := by
        intro h
        have hlen := congrArg List.length h
        simp only [minimal, List.dropWhile_cons_of_pos, beq_self_eq_true, List.length_cons] at hlen hle
        omega
      simp [hne]
    · simp [minimal, hb]

theorem ofBytes_minimal : ∀ bs : List UInt8, ofBytes (minimal bs) = ofBytes bs
  | [] => rfl
  | b :: bs => by
    by_cases hb : b = 0
    · have ih := ofBytes_minimal bs
      subst hb
      rw [ofBytes_cons]
      simpa [minimal] using ih
    · simp [minimal, hb]

theorem minimal_append_of_eq_nil {as : List UInt8} (bs : List UInt8) (h : minimal as = []) :
    minimal (as ++ bs) = minimal bs := by
  simp only [minimal, List.dropWhile_append] at h ⊢
  simp [h]

theorem minimal_append_of_ne_nil {as : List UInt8} (bs : List UInt8) (h : minimal as ≠ []) :
    minimal (as ++ bs) = minimal as ++ bs := by
  simp only [minimal, List.dropWhile_append] at h ⊢
  simp [h]

@[simp] theorem digits_zero : digits 0 = [] := by simp [digits]

theorem digits_of_pos {n : Nat} (h : 0 < n) : digits n = digits (n / 256) ++ [UInt8.ofNat n] := by
  have hmod : UInt8.ofNat (n % 256) = UInt8.ofNat n := by
    apply UInt8.toNat_inj.1
    simp
  simp [digits, Nat.digits_def' (show 1 < 256 by decide) h, hmod]

/-- The full-width string without its leading zeros is the shortest one. -/
theorem minimal_toBytes {k n : Nat} (h : n < 256 ^ k) : minimal (toBytes k n) = digits n := by
  induction k generalizing n with
  | zero =>
    obtain rfl : n = 0 := by simpa using h
    rw [digits_zero]
    rfl
  | succ k ih =>
    have hhi : n / 256 < 256 ^ k := Nat.div_lt_of_lt_mul (by rwa [pow_succ, mul_comm] at h)
    rw [toBytes]
    rcases Nat.eq_zero_or_pos n with rfl | hpos
    · have h0 : minimal (toBytes k (0 / 256)) = [] := by rw [ih hhi, Nat.zero_div, digits_zero]
      rw [minimal_append_of_eq_nil _ h0, digits_zero]
      rfl
    rw [digits_of_pos hpos]
    by_cases h0 : n / 256 = 0
    · have hnil : minimal (toBytes k (n / 256)) = [] := by rw [ih hhi, h0, digits_zero]
      have hne : UInt8.ofNat n ≠ 0 := by
        intro hz
        have := congrArg UInt8.toNat hz
        simp only [UInt8.toNat_ofNat', UInt8.toNat_zero] at this
        omega
      rw [minimal_append_of_eq_nil _ hnil, h0, digits_zero]
      simp [minimal, hne]
    · have hdigits : minimal (toBytes k (n / 256)) ≠ [] := by
        rw [ih hhi, digits_of_pos (Nat.pos_of_ne_zero h0)]
        simp
      rw [minimal_append_of_ne_nil _ hdigits, ih hhi]

theorem digits_ofBytes (bs : List UInt8) : digits (ofBytes bs) = minimal bs := by
  rw [← minimal_toBytes (ofBytes_lt bs), toBytes_ofBytes]

theorem head?_minimal (bs : List UInt8) : (minimal bs).head? ≠ some 0 := by
  rw [← minimal_eq_self_iff, ← digits_ofBytes (minimal bs), ofBytes_minimal, digits_ofBytes]

/-- `k` digits are needed from `256 ^ (k - 1)` on. -/
theorem digits_eq_toBytes_iff {k n : Nat} (h : n < 256 ^ (k + 1)) : digits n = toBytes (k + 1) n ↔ 256 ^ k ≤ n := by
  have htoBytes : toBytes (k + 1) n = UInt8.ofNat (n / 256 ^ k) :: toBytes k n := by
    rw [Nat.add_comm, toBytes_add]
    rfl
  have hlt : n / 256 ^ k < 256 := Nat.div_lt_of_lt_mul (by rwa [pow_succ] at h)
  rw [← minimal_toBytes h, minimal_eq_self_iff, htoBytes, List.head?_cons, ne_eq, Option.some.injEq, ← UInt8.toNat_inj,
    UInt8.toNat_ofNat', Nat.mod_eq_of_lt hlt, UInt8.toNat_zero, Nat.div_eq_zero_iff_lt (Nat.pow_pos (by decide)), Nat.not_lt]

/-- `significant` counts the bytes that `minimal` keeps. -/
theorem length_minimal_toBytes : ∀ k n : Nat, n < 256 ^ 2 ^ k →
    (minimal (toBytes (2 ^ k) n)).length = significant k n
  | 0, n, hn => by
    have hn' : n < 256 := by simpa using hn
    by_cases h0 : n = 0
    · subst h0; rfl
    · have hne : UInt8.ofNat n ≠ 0 := by
        intro h
        have := congrArg UInt8.toNat h
        simp only [UInt8.toNat_ofNat', UInt8.toNat_zero] at this
        omega
      simp [toBytes, minimal, significant, h0, hne]
  | k + 1, n, hn => by
    have hpos : 0 < 256 ^ 2 ^ k := Nat.pow_pos (by decide)
    have hsq : 256 ^ 2 ^ (k + 1) = 256 ^ 2 ^ k * 256 ^ 2 ^ k := by rw [pow_succ, mul_two, pow_add]
    have hhi : n / 256 ^ 2 ^ k < 256 ^ 2 ^ k := Nat.div_lt_of_lt_mul (by rwa [← hsq])
    have ih1 := length_minimal_toBytes k _ hhi
    have ih2 := length_minimal_toBytes k (n % 256 ^ 2 ^ k) (Nat.mod_lt _ hpos)
    rw [toBytes_mod] at ih2
    have hsplit : toBytes (2 ^ (k + 1)) n = toBytes (2 ^ k) (n / 256 ^ 2 ^ k) ++ toBytes (2 ^ k) n := by
      rw [← toBytes_add, pow_succ, mul_two]
    rw [hsplit]
    simp only [significant, ← ih1, ← ih2]
    by_cases h : minimal (toBytes (2 ^ k) (n / 256 ^ 2 ^ k)) = []
    · simp [minimal_append_of_eq_nil _ h, h]
    · rw [minimal_append_of_ne_nil _ h, if_pos (by simpa using h), List.length_append, length_toBytes]

/-- The last `significant` bytes of the full-width string are the minimal string. -/
theorem drop_toBytes {k n : Nat} (hn : n < 256 ^ 2 ^ k) :
    (toBytes (2 ^ k) n).drop (2 ^ k - significant k n) = minimal (toBytes (2 ^ k) n) := by
  obtain ⟨zs, hzs⟩ := List.dropWhile_suffix (l := toBytes (2 ^ k) n) (· == 0)
  have hlen := congrArg List.length hzs
  have hsig := length_minimal_toBytes k n hn
  simp only [List.length_append, length_toBytes, minimal] at hlen hsig
  have hz : 2 ^ k - significant k n = zs.length := by omega
  rw [hz]
  conv_lhs => rw [← hzs]
  rw [List.drop_left]
  rfl

end BigEndian

import EEVM.Rlp.Variadic
/-!
# The RLP encoding of a tree (rlp.h:94-265)

`Item.rlp` is RLP itself, defined on trees of byte strings: the rules that the comments of `rlp.h` quote, with lengths
and integers as their base 256 digits. `tree` says which tree a C++ value stands for. `encode` follows the rules on
nested tuples (`encode_args_eq_rlp`). On a vector or an array it does not: those go through `encode_single`, which wraps
the list into a string (`container_ne_list`).
-/
namespace EEVM.Rlp

open BigEndian

/-! ## The rules -/

/-- In front of a payload: its length, or the length of its length and its length. -/
def header (short long len : Nat) : Bytes :=
  if len < 56 then [UInt8.ofNat (short + len)] else UInt8.ofNat (long + (digits len).length) :: digits len

def string_rlp (bytes : Bytes) : Bytes :=
  match bytes with
  | [b] => if b < 0x80 then [b] else header 0x80 0xb7 1 ++ [b]
  | bytes => header 0x80 0xb7 bytes.length ++ bytes

mutual

def Item.rlp : Item → Bytes
  | .str bytes => string_rlp bytes
  | .list items => header 0xc0 0xf7 (rlp_all items).length ++ rlp_all items

/-- The encodings of the items of a list, one after the other. -/
def Item.rlp_all : List Item → Bytes
  | [] => []
  | item :: items => item.rlp ++ rlp_all items

end

/-! ## The trees of the values -/

/-- A container of bytes is a string, any other one a list. -/
def container_tree : (t : Ty) → (Val t → Item) → List (Val t) → Item
  | .uint .w8, _, bytes => .str bytes
  | _, f, vs => .list (vs.map f)

mutual

def tree : (t : Ty) → Val t → Item
  | .uint w, n => .str (digits (w.value n))
  | .u256, n => .str (digits n.toNat)
  | .string, s => .str s
  | .vector t, v => container_tree t (tree t) v
  | .array t _, a => container_tree t (tree t) a.toList
  | .tuple ts, vs => .list (tree_all ts vs)

def tree_all : (ts : List Ty) → Vals ts → List Item
  | [], _ => []
  | t :: ts, (v, vs) => tree t v :: tree_all ts vs

end

/-- The tree of a pack of arguments. -/
def args_tree : (ts : List Ty) → Vals ts → Item
  | [t], (v, _) => tree t v
  | ts, vs => .list (tree_all ts vs)

def Ty.is_byte : Ty → Bool
  | .uint .w8 => true
  | _ => false

mutual

/-- Tuples of tuples of strings, byte strings and integers. -/
def Ty.nested : Ty → Bool
  | .uint _ | .u256 | .string => true
  | .vector t | .array t _ => t.is_byte
  | .tuple ts => nested_all ts

def Ty.nested_all : List Ty → Bool
  | [] => true
  | t :: ts => t.nested && nested_all ts

end

/-! ## Strings and lists -/

theorem to_byte_string_u64_eq_digits {n : Nat} (h : n < 2 ^ 64) : to_byte_string_u64 n = digits n := by
  rw [to_byte_string_u64_eq, minimal_toBytes (by simpa using h)]

theorem to_byte_string_u256_eq_digits (n : Word) : to_byte_string_u256 n = digits n.toNat := by
  rw [to_byte_string_u256_eq, to_big_endian, minimal_toBytes]
  exact n.isLt

theorem encode_single_eq_rlp {bytes : Bytes} (hlen : (encode_single bytes).length < 2 ^ 64) :
    encode_single bytes = string_rlp bytes := by
  have h := Nat.lt_of_le_of_lt (length_encode_single_ge bytes) hlen
  have hlong : encode_single bytes = header 0x80 0xb7 bytes.length ++ bytes ∨
      bytes.length = 1 ∧ bytes.headD 0 ≤ 0x7f := by
    by_cases h1 : bytes.length = 1 ∧ bytes.headD 0 ≤ 0x7f
    · exact .inr h1
    left
    unfold encode_single header
    rw [if_neg h1]
    by_cases h55 : bytes.length ≤ 55
    · rw [if_pos h55, if_pos (by omega)]
      rfl
    · simp only [if_neg h55]
      rw [if_neg (by omega), to_byte_string_u64_eq_digits h]
      rfl
  match bytes with
  | [] => rfl
  | [b] =>
    have hb : b ≤ 0x7f ↔ b < 0x80 := by
      rw [UInt8.le_iff_toNat_le, UInt8.lt_iff_toNat_lt]
      exact Nat.lt_succ_iff.symm
    by_cases hlt : b < 0x80
    · simp [encode_single, string_rlp, hlt, hb.2 hlt]
    · rcases hlong with hlong | ⟨-, hle⟩
      · simpa [string_rlp, hlt] using hlong
      · exact absurd (hb.1 hle) hlt
  | b :: b' :: rest =>
    rcases hlong with hlong | ⟨hlen, -⟩
    · exact hlong
    · simp at hlen

theorem encode_list_eq_rlp {terms : List Bytes} (h : (encode_list terms).length < 2 ^ 64) :
    encode_list terms = header 0xc0 0xf7 terms.flatten.length ++ terms.flatten := by
  have hle := length_encode_list terms
  unfold encode_list prefix_multiple_length header
  by_cases h55 : terms.flatten.length ≤ 55
  · simp only [if_pos h55]
    rw [if_pos (by omega)]
    rfl
  · simp only [if_neg h55]
    rw [if_neg (by omega), to_byte_string_u64_eq_digits (by omega)]
    rfl

/-! ## `encode` -/

theorem eq_byte_of_is_byte {t : Ty} (h : t.is_byte = true) : t = .uint .w8 := by
  unfold Ty.is_byte at h
  split at h
  · rfl
  · cases h

theorem vector_eq_rlp {t : Ty} (ht : t = .uint .w8) (v : List (Val t)) (hlen : (encode (.vector t) v).length < 2 ^ 64) :
    encode (.vector t) v = (tree (.vector t) v).rlp := by
  subst ht
  have henc : encode (.vector (.uint .w8)) v = encode_single v := by
    simp only [encode]
    rfl
  rw [henc] at hlen ⊢
  simp only [encode_single_eq_rlp hlen, tree, container_tree, Item.rlp]

theorem array_eq_rlp {t : Ty} (ht : t = .uint .w8) {N : Nat} (a : List.Vector (Val t) N)
    (hlen : (encode (.array t N) a).length < 2 ^ 64) : encode (.array t N) a = (tree (.array t N) a).rlp := by
  subst ht
  have henc : encode (.array (.uint .w8) N) a = encode_single a.toList := by
    simp only [encode]
    rfl
  rw [henc] at hlen ⊢
  simp only [encode_single_eq_rlp hlen, tree, container_tree, Item.rlp]

mutual

theorem encode_eq_rlp : ∀ (t : Ty) (v : Val t), t.nested = true → (encode t v).length < 2 ^ 64 →
    encode t v = (tree t v).rlp
  | .uint w, n, _, hlen => by
    simp only [encode, tree, Item.rlp] at hlen ⊢
    rw [encode_single_eq_rlp hlen, to_byte_string_u64_eq_digits (w.value_lt n)]
  | .u256, n, _, hlen => by
    simp only [encode, tree, Item.rlp] at hlen ⊢
    exact (encode_single_eq_rlp hlen).trans (congrArg string_rlp (to_byte_string_u256_eq_digits n))
  | .string, s, _, hlen => by
    simp only [encode, tree, Item.rlp] at hlen ⊢
    exact encode_single_eq_rlp hlen
  | .vector t, v, hn, hlen => vector_eq_rlp (eq_byte_of_is_byte (by simpa only [Ty.nested] using hn)) v hlen
  | .array t N, a, hn, hlen => array_eq_rlp (eq_byte_of_is_byte (by simpa only [Ty.nested] using hn)) a hlen
  | .tuple ts, vs, hn, hlen => by
    have hle := length_encode_list (encode_multiple ts vs)
    simp only [encode, tree, Item.rlp, Ty.nested] at hn hlen ⊢
    rw [encode_list_eq_rlp hlen, encode_multiple_eq_rlp ts vs hn (by omega)]

theorem encode_multiple_eq_rlp : ∀ (ts : List Ty) (vs : Vals ts), Ty.nested_all ts = true →
    (encode_multiple ts vs).flatten.length < 2 ^ 64 → (encode_multiple ts vs).flatten = Item.rlp_all (tree_all ts vs)
  | [], _, _, _ => by simp only [encode_multiple, tree_all, Item.rlp_all, List.flatten_nil]
  | t :: ts, (v, vs), hn, hlen => by
    simp only [Ty.nested_all, Bool.and_eq_true] at hn
    simp only [encode_multiple, tree_all, Item.rlp_all, List.flatten_cons, List.length_append] at hlen ⊢
    rw [encode_eq_rlp t v hn.1 (by omega), encode_multiple_eq_rlp ts vs hn.2 (by omega)]

end

/-- The two integer encoders. -/
theorem encode_uint_eq_u256 (w : Width) (n : w.Carrier) (m : Word) (h : w.value n = m.toNat) :
    encode (.uint w) n = encode .u256 m := by
  simp only [encode]
  rw [to_byte_string_u64_eq_digits (w.value_lt n), to_byte_string_u256_eq_digits, h]

/-- `encode` of a pack of nested tuples is the RLP encoding of its tree, and it does not matter how wide an integer is.
The length of the result is a `size_t`. -/
theorem encode_args_eq_rlp :
    (∀ (ts : List Ty) (vs : Vals ts), Ty.nested_all ts = true → (encode_args ts vs).length < 2 ^ 64 →
      encode_args ts vs = (args_tree ts vs).rlp) ∧
    ∀ (w : Width) (n : w.Carrier) (m : Word), w.value n = m.toNat → encode (.uint w) n = encode .u256 m := by
  refine ⟨?_, encode_uint_eq_u256⟩
  intro ts vs hn hlen
  match ts, vs with
  | [], vs => exact encode_eq_rlp (.tuple []) vs rfl hlen
  | [t], (v, _) =>
    simp only [Ty.nested_all, Bool.and_true] at hn
    exact encode_eq_rlp t v hn hlen
  | t :: u :: ts, vs => exact encode_eq_rlp (.tuple (t :: u :: ts)) vs hn hlen

/-- A string and a byte in a tuple, and a number. -/
theorem encode_args_eq_rlp_pair :
    encode_args [.tuple [.string, .uint .w8], .u256] (([0x61, 0x62], (0x80 : UInt8), ()), (1024 : Word), ()) =
      (Item.list [.list [.str [0x61, 0x62], .str (digits 0x80)], .str (digits 1024)]).rlp :=
  encode_args_eq_rlp.1 [.tuple [.string, .uint .w8], .u256] (([0x61, 0x62], (0x80 : UInt8), ()), (1024 : Word), ()) rfl
    (by decide)

/-! ## Containers -/

/-- The items of a container as the components of a tuple. -/
def as_tuple (t : Ty) : (vs : List (Val t)) → Vals (List.replicate vs.length t)
  | [] => ()
  | v :: vs => (v, as_tuple t vs)

theorem encode_multiple_as_tuple (t : Ty) (vs : List (Val t)) :
    encode_multiple (List.replicate vs.length t) (as_tuple t vs) = vs.map (encode t) := by
  induction vs with
  | nil => rfl
  | cons v vs ih => exact congrArg (encode t v :: ·) ih

theorem encode_as_tuple (t : Ty) (vs : List (Val t)) :
    encode (.tuple (List.replicate vs.length t)) (as_tuple t vs) = encode_list (vs.map (encode t)) := by
  simp only [encode, encode_multiple_as_tuple]

theorem not_le_headD_encode_list (terms : List Bytes) : ¬(encode_list terms).headD 0 ≤ 0x7f := by
  have hfirst : ∀ n, 0xc0 ≤ n → n < 256 → ¬UInt8.ofNat n ≤ 0x7f := by
    intro n h1 h2
    rw [UInt8.le_iff_toNat_le, UInt8.toNat_ofNat', Nat.mod_eq_of_lt h2]
    exact Nat.not_le.2 (Nat.lt_of_lt_of_le (by decide) h1)
  unfold encode_list prefix_multiple_length
  dsimp only
  split
  · exact hfirst _ (by omega) (by omega)
  · have h8 := length_to_byte_string_u64_le terms.flatten.length
    exact hfirst _ (by omega) (by omega)

/-- As a string the encoding of a list gets a header of its own. -/
theorem length_lt_encode_single (terms : List Bytes) :
    (encode_list terms).length < (encode_single (encode_list terms)).length := by
  have hhead := not_le_headD_encode_list terms
  generalize encode_list terms = bytes at hhead ⊢
  unfold encode_single
  rw [if_neg fun h => hhead h.2]
  split
  · simp
  · simp only [List.length_cons, List.length_append]
    omega

/-- Containers go through `encode_single`, so the list of the items is wrapped into a string. -/
theorem encode_vector_eq {t : Ty} (ht : t ≠ .uint .w8) (vs : List (Val t)) :
    encode (.vector t) vs = encode_single (encode (.tuple (List.replicate vs.length t)) (as_tuple t vs)) := by
  rw [encode_as_tuple, ← to_byte_string_vector_of_ne ht]
  simp only [encode]

theorem encode_array_eq {t : Ty} (ht : t ≠ .uint .w8) {N : Nat} (a : List.Vector (Val t) N) :
    encode (.array t N) a = encode_single (encode (.tuple (List.replicate a.toList.length t)) (as_tuple t a.toList)) := by
  rw [encode_as_tuple, ← to_byte_string_array_of_ne ht]
  simp only [encode]

/-- No vector or array, of whatever items, is encoded as the list of them. -/
theorem container_ne_list (t : Ty) (ht : t ≠ .uint .w8) :
    (∀ vs : List (Val t), encode (.vector t) vs ≠ encode (.tuple (List.replicate vs.length t)) (as_tuple t vs)) ∧
    ∀ (N : Nat) (a : List.Vector (Val t) N),
      encode (.array t N) a ≠ encode (.tuple (List.replicate a.toList.length t)) (as_tuple t a.toList) := by
  constructor
  · intro vs h
    have hlen := congrArg List.length h
    rw [encode_vector_eq ht, encode_as_tuple] at hlen
    exact Nat.ne_of_gt (length_lt_encode_single _) hlen
  · intro N a h
    have hlen := congrArg List.length h
    rw [encode_array_eq ht, encode_as_tuple] at hlen
    exact Nat.ne_of_gt (length_lt_encode_single _) hlen

theorem container_ne_list_numbers :
    encode (.vector .u256) [(1 : Word), (2 : Word)] ≠ encode (.tuple [.u256, .u256]) ((1 : Word), (2 : Word), ()) :=
  (container_ne_list .u256 (by simp)).1 [(1 : Word), (2 : Word)]

/-- `84 c3 01 02 03`, and not `c3 01 02 03`. -/
theorem vector_encoded_as_string :
    encode (.vector (.uint .w16)) [(1 : UInt16), (2 : UInt16), (3 : UInt16)] = [0x84, 0xc3, 1, 2, 3] ∧
    encode (.tuple [.uint .w16, .uint .w16, .uint .w16]) ((1 : UInt16), (2 : UInt16), (3 : UInt16), ()) =
      [0xc3, 1, 2, 3] ∧
    encode (.vector (.uint .w16)) [(1 : UInt16), (2 : UInt16), (3 : UInt16)] ≠
      encode (.tuple (List.replicate 3 (.uint .w16))) (as_tuple (.uint .w16) [(1 : UInt16), (2 : UInt16), (3 : UInt16)]) := by
  decide

end EEVM.Rlp

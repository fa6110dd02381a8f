import EEVM.Rlp.Encode
import EEVM.Rlp.Decode
import EEVM.Lib.ExcState
import Mathlib.Algebra.Order.BigOperators.Group.List
/-!
# Decoding undoes encoding

`Yields m d a d'`: from any cursor at `d`, the decoder `m` returns `a` and leaves the cursor at `d'`. Each header
that `encode` writes is read back by `decode_length` (`decode_length_list`, `decode_length_single`), each
`from_bytes` inverts its `to_byte_string`, and `decode_impl_encode` puts the two together by induction on the type.
-/
namespace EEVM.Rlp

open ExcState BigEndian

/-- `m` reads `a` from the front of `d` and leaves `d'`, whatever has been logged. -/
def Yields {α : Type} (m : Decoder α) (d : Bytes) (a : α) (d' : Bytes) : Prop :=
  ∀ log, ∃ log', m ⟨d, log⟩ = .ok a ⟨d', log'⟩

section Yields

variable {α β : Type} {m : Decoder α} {f : α → Decoder β} {d d' d'' : Bytes} {a : α} {b : β}

theorem Yields.pure (a : α) (d : Bytes) : Yields (pure a) d a d := fun log => ⟨log, rfl⟩

/-- One decoder after the other. -/
theorem Yields.bind (hm : Yields m d a d') (hf : Yields (f a) d' b d'') : Yields (m >>= f) d b d'' := by
  intro log
  obtain ⟨log', h1⟩ := hm log
  obtain ⟨log'', h2⟩ := hf log'
  exact ⟨log'', by rw [bind_of_ok h1, h2]⟩

/-- What is read up to the end of the buffer. -/
theorem Yields.at_end (h : Yields m (d ++ []) a []) (log : List Event) : ∃ log', m ⟨d, log⟩ = .ok a ⟨[], log'⟩ := by
  rw [List.append_nil] at h
  exact h log

/-- The two ways to look at the first byte: it is taken, or it stays. -/
theorem yields_next_byte (lim : Nat) (x : UInt8) (d : Bytes) : Yields (next_byte lim) (x :: d) x d :=
  fun _ => ⟨_, rfl⟩

theorem yields_peek (lim : Nat) (x : UInt8) (d : Bytes) : Yields (peek lim) (x :: d) x (x :: d) :=
  fun _ => ⟨_, rfl⟩

/-- The counter goes down by no more than it has. -/
theorem yields_size_sub {size amount : Nat} (h : amount ≤ size) (d : Bytes) :
    Yields (size_sub size amount) d (size - amount) d :=
  fun _ => ⟨_, by rw [size_sub, if_pos h]⟩

theorem yields_payload_end (lim contained : Nat) (d : Bytes) :
    Yields (payload_end lim contained) d (max lim (d.length - contained)) d :=
  fun _ => ⟨_, rfl⟩

theorem yields_loop_fuel (contained : Nat) (d : Bytes) :
    Yields (loop_fuel contained) d (d.length * 2 ^ 64 + contained) d :=
  fun _ => ⟨_, rfl⟩

end Yields

/-! ## The length of a length -/

/-- The loop over the bytes of a length drops the leading zeros: from the first other byte on it keeps everything. -/
theorem foldl_started (bs acc : Bytes) :
    bs.foldl (fun (st : Bool × Bytes) b => if st.1 ∨ b ≠ 0 then (true, st.2 ++ [b]) else st) (true, acc)
      = (true, acc ++ bs) := by
  induction bs generalizing acc with
  | nil => simp
  | cons b bs ih =>
    rw [List.foldl_cons, if_pos (Or.inl rfl), ih]
    simp

theorem foldl_not_started (bs : Bytes) :
    (bs.foldl (fun (st : Bool × Bytes) b => if st.1 ∨ b ≠ 0 then (true, st.2 ++ [b]) else st) (false, [])).2
      = minimal bs := by
  induction bs with
  | nil => rfl
  | cons b bs ih =>
    rw [List.foldl_cons]
    by_cases hb : b = 0
    · rw [if_neg (by simp [hb]), ih]
      simp [minimal, hb]
    · rw [if_pos (Or.inr hb), foldl_started]
      simp [minimal, hb]

/-- So the byte string of a length is its shortest one. -/
theorem to_byte_string_u64_eq (n : Nat) : to_byte_string_u64 n = minimal (toBytes 8 n) := by
  have hbytes : toBytes 8 n = (List.range 8).map fun i => UInt8.ofNat (n / 2 ^ ((7 - i) * 8)) := by
    simp [toBytes, List.range_succ, Nat.div_div_eq_div_mul]
  rw [hbytes, ← foldl_not_started, List.foldl_map]
  rfl

theorem length_to_byte_string_u64_le (n : Nat) : (to_byte_string_u64 n).length ≤ 8 := by
  rw [to_byte_string_u64_eq]
  exact (length_minimal_le _).trans (by simp)

/-- The length can be read off it. -/
theorem ofBytes_to_byte_string_u64 {n : Nat} (h : n < 2 ^ 64) : ofBytes (to_byte_string_u64 n) = n := by
  rw [to_byte_string_u64_eq, ofBytes_minimal, ofBytes_toBytes]
  exact Nat.mod_eq_of_lt h

theorem to_byte_string_u64_ne_nil {n : Nat} (h0 : 0 < n) (h : n < 2 ^ 64) : 0 < (to_byte_string_u64 n).length := by
  refine Nat.pos_of_ne_zero fun hl => ?_
  have := ofBytes_to_byte_string_u64 h
  rw [List.eq_nil_of_length_eq_zero hl] at this
  simp at this
  omega

/-- The word has its leading zeros removed by their number, which comes to the same. -/
theorem to_byte_string_u256_eq (n : Word) : to_byte_string_u256 n = minimal (to_big_endian n) := by
  unfold to_byte_string_u256
  by_cases h : n = 0
  · subst h; decide
  · rw [if_pos h]
    exact drop_toBytes (k := 5) n.isLt

theorem yields_size_t_loop (lim : Nat) (d : Bytes) : ∀ (bs : Bytes) (n : Nat),
    Yields (size_t_loop lim bs.length n) (bs ++ d) (ofBytesFrom n bs) d
  | [], _ => Yields.pure _ d
  | b :: bs, _ => (yields_next_byte lim b (bs ++ d)).bind (yields_size_t_loop lim d bs _)

/-- A length of at most eight bytes is read back. -/
theorem yields_size_t (lim : Nat) (bs d : Bytes) (h : bs.length ≤ 8) :
    Yields (from_bytes_size_t lim bs.length) (bs ++ d) (ofBytes bs) d := by
  rw [from_bytes_size_t, if_neg (by omega)]
  exact yields_size_t_loop lim d bs 0

/-! ## Headers -/

/-- A header is as long before one payload as before another of that length. -/
theorem length_prefix_multiple_length (L : Nat) (bs : Bytes) :
    (prefix_multiple_length L bs).length = (prefix_multiple_length L []).length + bs.length := by
  unfold prefix_multiple_length
  split
  · simp; omega
  · simp; omega

/-- The header of a long item, after its first byte. -/
theorem yields_long_length (what : String) (arity : Arity) (lim size : Nat) {L : Nat} (d : Bytes) (hL : L < 2 ^ 64)
    (hs : (to_byte_string_u64 L).length ≤ size) :
    Yields (long_length what arity lim size (to_byte_string_u64 L).length) (to_byte_string_u64 L ++ d)
      ((arity, L), size - (to_byte_string_u64 L).length) d := by
  have h := yields_size_t lim (to_byte_string_u64 L) d (length_to_byte_string_u64_le L)
  rw [ofBytes_to_byte_string_u64 hL] at h
  rw [long_length, if_neg (by omega)]
  exact (yields_size_sub hs _).bind (h.bind (Yields.pure _ d))

/-- A header byte above `0x7f` is consumed; what it says depends on its range. -/
theorem yields_header {lim size first : Nat} {d d' : Bytes} {res : (Arity × Nat) × Nat} (hs : 1 ≤ size)
    (h1 : 0x7f < first) (h2 : first < 256)
    (h : Yields (if first ≤ 0xb7 then pure ((.single, first - 0x80), size - 1)
      else if first ≤ 0xbf then long_length "element" .single lim (size - 1) (first - 0xb7)
      else if first ≤ 0xf7 then pure ((.multiple, first - 0xc0), size - 1)
      else long_length "list" .multiple lim (size - 1) (first - 0xf7)) d res d') :
    Yields (decode_length lim size) (UInt8.ofNat first :: d) res d' := by
  have hto : (UInt8.ofNat first).toNat = first := by simp; omega
  have hgt : ¬UInt8.ofNat first ≤ 0x7f := by rw [UInt8.le_iff_toNat_le, hto]; simp; omega
  rw [decode_length, if_neg (by omega)]
  refine (yields_peek lim _ d).bind ?_
  rw [if_neg hgt]
  refine (yields_next_byte lim _ d).bind ((yields_size_sub hs d).bind ?_)
  rw [hto]
  exact h

/-- **Headers of lists** are read back, and what they say is the length of the payload. -/
theorem decode_length_list {lim size L : Nat} (bs r : Bytes) (hL : L < 2 ^ 64)
    (hs : (prefix_multiple_length L []).length ≤ size) :
    Yields (decode_length lim size) (prefix_multiple_length L bs ++ r)
      ((.multiple, L), size - (prefix_multiple_length L []).length) (bs ++ r) := by
  unfold prefix_multiple_length at hs ⊢
  by_cases h : L ≤ 55
  · simp only [if_pos h, List.length_cons, List.length_nil, List.cons_append] at hs ⊢
    refine yields_header hs (by omega) (by omega) ?_
    rw [if_neg (by omega), if_neg (by omega), if_pos (by omega), Nat.add_sub_cancel_left]
    exact Yields.pure _ _
  · simp only [if_neg h, List.length_cons, List.append_nil, List.cons_append, List.append_assoc] at hs ⊢
    have h8 := length_to_byte_string_u64_le L
    have h0 := to_byte_string_u64_ne_nil (by omega) hL
    refine yields_header (by omega) (by omega) (by omega) ?_
    rw [if_neg (by omega), if_neg (by omega), if_neg (by omega), Nat.add_sub_cancel_left]
    have := yields_long_length "list" .multiple lim (size - 1) (bs ++ r) hL (by omega)
    rwa [Nat.sub_sub, Nat.add_comm 1] at this

/-- An item is at least as long as its payload. -/
theorem length_encode_single_ge (bytes : Bytes) : bytes.length ≤ (encode_single bytes).length := by
  unfold encode_single
  split
  · exact le_rfl
  · split
    · simp
    · simp only [List.length_cons, List.length_append]
      omega

theorem length_encode_single_le (bytes : Bytes) : (encode_single bytes).length ≤ 9 + bytes.length := by
  have h8 := length_to_byte_string_u64_le bytes.length
  unfold encode_single
  split
  · omega
  · split
    · simp only [List.length_cons]
      omega
    · simp only [List.length_cons, List.length_append]
      omega

theorem one_le_length_encode_single (bytes : Bytes) : 1 ≤ (encode_single bytes).length := by
  unfold encode_single
  split
  · omega
  · split
    · simp
    · simp

/-- **Headers of strings** are read back; one small byte has none. -/
theorem decode_length_single {lim size : Nat} (bytes r : Bytes) (hL : bytes.length < 2 ^ 64)
    (hs : (encode_single bytes).length ≤ size) :
    Yields (decode_length lim size) (encode_single bytes ++ r)
      ((.single, bytes.length), size - ((encode_single bytes).length - bytes.length)) (bytes ++ r) := by
  unfold encode_single at hs ⊢
  by_cases h1 : bytes.length = 1 ∧ bytes.headD 0 ≤ 0x7f
  · -- the byte is its own encoding: nothing is consumed
    simp only [if_pos h1] at hs ⊢
    obtain ⟨x, rfl⟩ := List.length_eq_one_iff.1 h1.1
    rw [decode_length, if_neg (by simp at hs; omega)]
    refine (yields_peek lim x r).bind ?_
    rw [if_pos (by simpa using h1.2)]
    simpa using Yields.pure _ _
  · simp only [if_neg h1] at hs ⊢
    by_cases h : bytes.length ≤ 55
    · simp only [if_pos h, List.length_cons, List.cons_append, Nat.add_sub_cancel_left] at hs ⊢
      refine yields_header (by omega) (by omega) (by omega) ?_
      rw [if_pos (by omega), Nat.add_sub_cancel_left]
      exact Yields.pure _ _
    · simp only [if_neg h, List.length_cons, List.length_append, List.cons_append, List.append_assoc] at hs ⊢
      have h8 := length_to_byte_string_u64_le bytes.length
      have h0 := to_byte_string_u64_ne_nil (by omega) hL
      refine yields_header (by omega) (by omega) (by omega) ?_
      rw [if_neg (by omega), if_pos (by omega), Nat.add_sub_cancel_left]
      have := yields_long_length "element" .single lim (size - 1) (bytes ++ r) hL (by omega)
      rwa [show size - 1 - (to_byte_string_u64 bytes.length).length =
        size - ((to_byte_string_u64 bytes.length).length + bytes.length + 1 - bytes.length) by omega] at this

/-! ## Single items -/

/-- A string is read back when its payload is. -/
theorem yields_decode_one {α : Type} {from_bytes : Nat → Nat → Decoder α} {v : α} {lim size : Nat} {bytes r : Bytes}
    (hL : bytes.length < 2 ^ 64) (hs : (encode_single bytes).length ≤ size)
    (h : ∀ lim, Yields (from_bytes lim bytes.length) (bytes ++ r) v r) :
    Yields (decode_one from_bytes lim size) (encode_single bytes ++ r)
      (v, size - (encode_single bytes).length) r := by
  have hge := length_encode_single_ge bytes
  refine (decode_length_single bytes r hL hs).bind ?_
  simp only [ne_eq, not_true_eq_false, if_false]
  refine (yields_size_sub (by omega) _).bind ((yields_payload_end _ _ _).bind ((h _).bind ?_))
  rw [Nat.sub_sub, Nat.sub_add_cancel hge]
  exact Yields.pure _ _

/-- An integer is in range, so narrowing it changes nothing. -/
theorem yields_uint (w : Width) (n : w.Carrier) (lim : Nat) (r : Bytes) :
    Yields (from_bytes_uint w lim (to_byte_string_u64 (w.value n)).length) (to_byte_string_u64 (w.value n) ++ r) n r := by
  refine (yields_size_t lim _ r (length_to_byte_string_u64_le _)).bind ?_
  rw [ofBytes_to_byte_string_u64 (w.value_lt n), w.cast_value]
  exact Yields.pure n r

theorem yields_read_bytes (lim : Nat) (r : Bytes) : ∀ bs : Bytes,
    Yields (read_bytes lim bs.length) (bs ++ r) bs r
  | [] => Yields.pure [] r
  | b :: bs => (yields_next_byte lim b (bs ++ r)).bind ((yields_read_bytes lim r bs).bind (Yields.pure _ r))

theorem length_to_byte_string_u256_le (n : Word) : (to_byte_string_u256 n).length ≤ 32 := by
  rw [to_byte_string_u256_eq]
  exact (length_minimal_le _).trans (by simp [to_big_endian])

/-- At most 32 bytes are read into a word. -/
theorem yields_u256 (n : Word) (lim : Nat) (r : Bytes) :
    Yields (from_bytes_u256 lim (to_byte_string_u256 n).length) (to_byte_string_u256 n ++ r) n r := by
  have h32 := length_to_byte_string_u256_le n
  have hn : from_big_endian (to_byte_string_u256 n) = n := by
    rw [from_big_endian, to_byte_string_u256_eq, ofBytes_minimal, to_big_endian, ofBytes_toBytes]
    apply BitVec.eq_of_toNat_eq
    simpa using n.isLt
  rw [from_bytes_u256, if_neg (by omega)]
  refine (yields_read_bytes lim r _).bind ?_
  rw [hn]
  exact Yields.pure n r

/-- The index of the loop is 32 bits wide, which is where the bound on the length comes from. The induction is on the
bytes that are left. -/
theorem copy_loop_eq (lim size : Nat) (r : Bytes) (hsize : size < 2 ^ 32) : ∀ (bs : Bytes) (i : UInt32) (log : List Event),
    i.toNat + bs.length = size → ∃ log', copy_loop lim size i (bs ++ r) log = .ok bs ⟨r, log'⟩
  | [], i, log, hi => by
    simp only [List.length_nil, List.nil_append] at hi ⊢
    cases r with
    | nil => exact ⟨log, by rw [copy_loop, if_neg (by omega)]⟩
    | cons x r => exact ⟨log, by rw [copy_loop, if_neg (by omega)]⟩
  | b :: bs, i, log, hi => by
    simp only [List.length_cons] at hi
    have hnext : (i + 1).toNat = i.toNat + 1 := by simp; omega
    obtain ⟨log', h⟩ := copy_loop_eq lim size r hsize bs (i + 1) (.read ((bs ++ r).length + 1) lim :: log) (by omega)
    refine ⟨log', ?_⟩
    rw [List.cons_append, copy_loop, if_pos (by omega), h]

theorem yields_string (s : Bytes) (h : s.length < 2 ^ 32) (lim : Nat) (r : Bytes) :
    Yields (from_bytes_string lim s.length) (s ++ r) s r :=
  fun log => copy_loop_eq lim s.length r h s 0 log (by simp)

theorem yields_read_array (lim : Nat) (r : Bytes) : ∀ {N : Nat} (a : List.Vector UInt8 N),
    Yields (read_array lim N) (a.toList ++ r) a r
  | 0, a => by rw [a.eq_nil]; exact Yields.pure _ r
  | N + 1, a => by
    rw [← a.cons_head_tail, List.Vector.toList_cons]
    exact (yields_next_byte lim _ _).bind ((yields_read_array lim r a.tail).bind (Yields.pure _ r))

theorem yields_byte_array {N : Nat} (a : List.Vector UInt8 N) (lim : Nat) (r : Bytes) :
    Yields (from_bytes_byte_array N lim a.toList.length) (a.toList ++ r) a r := by
  rw [from_bytes_byte_array, if_neg (by simp)]
  exact yields_read_array lim r a

/-! ## Containers -/

section Containers

variable {α : Type} {elem : Nat → Nat → Decoder (α × Nat)} {enc : α → Bytes}

/-- What the induction says of the items: each is read off its encoding, whatever follows. -/
def ReadsBack (elem : Nat → Nat → Decoder (α × Nat)) (enc : α → Bytes) (v : α) : Prop :=
  ∀ (lim size : Nat) (r : Bytes), (enc v).length ≤ size →
    Yields (elem lim size) (enc v ++ r) (v, size - (enc v).length) r

/-- The items of an array, one after the other. -/
theorem yields_array_loop (lim : Nat) (r : Bytes) : ∀ {N : Nat} (a : List.Vector α N) (size : Nat),
    (∀ v ∈ a.toList, ReadsBack elem enc v) → ((a.toList.map enc).flatten).length ≤ size →
    Yields (array_loop elem lim N size) ((a.toList.map enc).flatten ++ r) a r
  | 0, a, size, _, _ => by rw [a.eq_nil]; exact Yields.pure _ r
  | N + 1, a, size, h, hs => by
    rw [← a.cons_head_tail, List.Vector.toList_cons] at h hs ⊢
    simp only [List.map_cons, List.flatten_cons, List.length_append, List.append_assoc] at hs ⊢
    refine (h a.head (by simp) lim size _ (by omega)).bind ?_
    refine (yields_array_loop lim r a.tail _ (fun v hv => h v (by simp [hv])) (by omega)).bind ?_
    exact Yields.pure _ r

/-- Each item uses up a byte at least, so the loop has enough fuel and ends with its payload. -/
theorem yields_vector_loop (lim : Nat) (r : Bytes) : ∀ (vs : List α) (fuel : Nat),
    (∀ v ∈ vs, ReadsBack elem enc v ∧ 1 ≤ (enc v).length) → ((vs.map enc).flatten).length ≤ fuel →
    Yields (vector_loop elem lim fuel ((vs.map enc).flatten).length) ((vs.map enc).flatten ++ r) vs r
  | [], fuel, _, _ => by rw [List.map_nil, List.flatten_nil, List.length_nil, vector_loop]; exact Yields.pure _ r
  | v :: vs, fuel, h, hf => by
    obtain ⟨hv, h1⟩ := h v (by simp)
    simp only [List.map_cons, List.flatten_cons, List.length_append, List.append_assoc] at hf ⊢
    obtain ⟨fuel, rfl⟩ : ∃ k, fuel = k + 1 := ⟨fuel - 1, by omega⟩
    obtain ⟨c, hc⟩ : ∃ k, (enc v).length + ((vs.map enc).flatten).length = k + 1 :=
      ⟨(enc v).length + ((vs.map enc).flatten).length - 1, by omega⟩
    have ih := yields_vector_loop lim r vs fuel (fun u hu => h u (by simp [hu])) (by omega)
    rw [hc, vector_loop, ← hc]
    swap
    · omega
    refine (hv lim _ _ (by omega)).bind ?_
    simp only [Nat.add_sub_cancel_left]
    exact ih.bind (Yields.pure _ r)

/-- There are no more items than bytes. -/
theorem length_le_flatten (l : List α) (h : ∀ v ∈ l, 1 ≤ (enc v).length) :
    l.length ≤ ((l.map enc).flatten).length := by
  induction l with
  | nil => simp
  | cons v l ih =>
    have h1 := h v (by simp)
    have h2 := ih fun u hu => h u (by simp [hu])
    simp only [List.length_cons, List.map_cons, List.flatten_cons, List.length_append]
    omega

theorem length_encode_list (terms : List Bytes) :
    (encode_list terms).length = (prefix_multiple_length terms.flatten.length []).length + terms.flatten.length :=
  length_prefix_multiple_length _ _

theorem length_encode_list_le (terms : List Bytes) : (encode_list terms).length ≤ 9 + terms.flatten.length := by
  have hle := length_encode_list terms
  have h8 := length_to_byte_string_u64_le terms.flatten.length
  have hprefix : (prefix_multiple_length terms.flatten.length []).length ≤ 9 := by
    unfold prefix_multiple_length
    split
    · simp
    · simp only [List.length_cons, List.length_append, List.length_nil]
      omega
  omega

/-- An array reads its own list header. -/
theorem yields_list_array {N : Nat} (a : List.Vector α N) (lim : Nat) (r : Bytes)
    (h : ∀ v ∈ a.toList, ReadsBack elem enc v ∧ 1 ≤ (enc v).length)
    (hlen : (encode_list (a.toList.map enc)).length < 2 ^ 32) :
    Yields (from_bytes_list_array elem N lim (encode_list (a.toList.map enc)).length)
      (encode_list (a.toList.map enc) ++ r) a r := by
  have hle := length_encode_list (a.toList.map enc)
  have hN := length_le_flatten a.toList fun v hv => (h v hv).2
  rw [List.Vector.toList_length] at hN
  refine (decode_length_list _ r (by omega) (by omega)).bind ((yields_payload_end _ _ _).bind ?_)
  rw [if_pos (by omega), hle, Nat.add_sub_cancel_left]
  exact yields_array_loop _ r a _ (fun v hv => (h v hv).1) (by omega)

theorem yields_list_vector (vs : List α) (lim : Nat) (r : Bytes)
    (h : ∀ v ∈ vs, ReadsBack elem enc v ∧ 1 ≤ (enc v).length)
    (hlen : (encode_list (vs.map enc)).length < 2 ^ 32) :
    Yields (from_bytes_list_vector elem lim (encode_list (vs.map enc)).length)
      (encode_list (vs.map enc) ++ r) vs r := by
  have hle := length_encode_list (vs.map enc)
  refine (decode_length_list _ r (by omega) (by omega)).bind ((yields_payload_end _ _ _).bind ?_)
  exact (yields_loop_fuel _ _).bind (yields_vector_loop _ r vs _ h (by omega))

end Containers

/-- A vector of bytes is a string; all others are lists. -/
theorem to_byte_string_vector_of_ne {t : Ty} (h : t ≠ .uint .w8) (enc : Val t → Bytes) (v : List (Val t)) :
    to_byte_string_vector t enc v = encode_list (v.map enc) := by
  cases t with
  | uint w => cases w with
    | w8 => exact absurd rfl h
    | _ => rfl
  | _ => rfl

theorem to_byte_string_array_of_ne {t : Ty} (h : t ≠ .uint .w8) (enc : Val t → Bytes) (v : List (Val t)) :
    to_byte_string_array t enc v = encode_list (v.map enc) := by
  cases t with
  | uint w => cases w with
    | w8 => exact absurd rfl h
    | _ => rfl
  | _ => rfl

/-- The decoder makes the same distinction. -/
theorem from_bytes_vector_of_ne {t : Ty} (h : t ≠ .uint .w8) (elem : Nat → Nat → Decoder (Val t × Nat)) :
    from_bytes_vector t elem = from_bytes_list_vector elem := by
  cases t with
  | uint w => cases w with
    | w8 => exact absurd rfl h
    | _ => rfl
  | _ => rfl

theorem from_bytes_array_of_ne {t : Ty} (h : t ≠ .uint .w8) (elem : Nat → Nat → Decoder (Val t × Nat)) (N : Nat) :
    from_bytes_array t elem N = from_bytes_list_array elem N := by
  cases t with
  | uint w => cases w with
    | w8 => exact absurd rfl h
    | _ => rfl
  | _ => rfl

theorem one_le_length_encode_list (terms : List Bytes) : 1 ≤ (encode_list terms).length := by
  have h := length_encode_list terms
  have h0 : 1 ≤ (prefix_multiple_length terms.flatten.length []).length := by
    unfold prefix_multiple_length
    split
    · simp
    · simp
  omega

/-- No value has an empty encoding. -/
theorem one_le_length_encode : ∀ (t : Ty) (v : Val t), 1 ≤ (encode t v).length
  | .uint _, _ => one_le_length_encode_single _
  | .u256, _ => one_le_length_encode_single _
  | .string, _ => one_le_length_encode_single _
  | .vector _, _ => one_le_length_encode_single _
  | .array _ _, _ => one_le_length_encode_single _
  | .tuple _, _ => one_le_length_encode_list _

theorem length_encode_le_flatten {α : Type} (enc : α → Bytes) {l : List α} {v : α} (h : v ∈ l) :
    (enc v).length ≤ ((l.map enc).flatten).length := by
  rw [List.length_flatten]
  exact List.single_le_sum (by simp) _ (by simpa using ⟨v, h, rfl⟩)

/-- The items are shorter than the vector, so the induction hypothesis is about them. -/
theorem yields_vector {t : Ty} (v : List (Val t)) (lim : Nat) (r : Bytes)
    (h : ∀ u, (encode t u).length < 2 ^ 32 → ReadsBack (decode_impl t) (encode t) u)
    (hlen : (to_byte_string_vector t (encode t) v).length < 2 ^ 32) :
    Yields (from_bytes_vector t (decode_impl t) lim (to_byte_string_vector t (encode t) v).length)
      (to_byte_string_vector t (encode t) v ++ r) v r := by
  by_cases ht : t = .uint .w8
  · subst ht
    exact yields_string (to_byte_string_vector (.uint .w8) (encode (.uint .w8)) v) hlen lim r
  · rw [to_byte_string_vector_of_ne ht] at hlen ⊢
    rw [from_bytes_vector_of_ne ht]
    have hle := length_encode_list (v.map (encode t))
    refine yields_list_vector v lim r (fun u hu => ⟨h u ?_, one_le_length_encode t u⟩) hlen
    have hu' := length_encode_le_flatten (encode t) hu
    omega

theorem yields_array {t : Ty} {N : Nat} (a : List.Vector (Val t) N) (lim : Nat) (r : Bytes)
    (h : ∀ u, (encode t u).length < 2 ^ 32 → ReadsBack (decode_impl t) (encode t) u)
    (hlen : (to_byte_string_array t (encode t) a.toList).length < 2 ^ 32) :
    Yields (from_bytes_array t (decode_impl t) N lim (to_byte_string_array t (encode t) a.toList).length)
      (to_byte_string_array t (encode t) a.toList ++ r) a r := by
  by_cases ht : t = .uint .w8
  · subst ht
    exact yields_byte_array a lim r
  · rw [to_byte_string_array_of_ne ht] at hlen ⊢
    rw [from_bytes_array_of_ne ht]
    have hle := length_encode_list (a.toList.map (encode t))
    refine yields_list_array a lim r (fun u hu => ⟨h u ?_, one_le_length_encode t u⟩) hlen
    have hu' := length_encode_le_flatten (encode t) hu
    omega

/-! ## The round trip -/

/-- A tuple is read back when its items are. -/
theorem yields_decode_list {α : Type} {items : Nat → Nat → Decoder (α × Nat)} {v : α} {terms : List Bytes}
    {lim size : Nat} {r : Bytes} (hlen : (encode_list terms).length < 2 ^ 64) (hs : (encode_list terms).length ≤ size)
    (h : ∀ lim, ∃ k, Yields (items lim terms.flatten.length) (terms.flatten ++ r) (v, k) r) :
    Yields (decode_list items lim size) (encode_list terms ++ r) (v, size - (encode_list terms).length) r := by
  have hle := length_encode_list terms
  refine (decode_length_list _ r (by omega) (by omega)).bind ?_
  simp only [ne_eq, not_true_eq_false, if_false]
  refine (yields_size_sub (by omega) _).bind ((yields_payload_end _ _ _).bind ?_)
  obtain ⟨k, hk⟩ := h (max lim ((terms.flatten ++ r).length - terms.flatten.length))
  refine hk.bind ?_
  rw [Nat.sub_sub, ← hle]
  exact Yields.pure _ r

mutual

/-- By induction on the type. -/
theorem yields_decode_impl : ∀ (t : Ty) (v : Val t) (lim size : Nat) (r : Bytes), (encode t v).length < 2 ^ 32 →
    (encode t v).length ≤ size →
    Yields (decode_impl t lim size) (encode t v ++ r) (v, size - (encode t v).length) r
  | .uint w, n, lim, size, r, _, hs => by
    have h8 := length_to_byte_string_u64_le (w.value n)
    simp only [encode, decode_impl] at hs ⊢
    exact yields_decode_one (by omega) hs fun lim => yields_uint w n lim r
  | .u256, n, lim, size, r, _, hs => by
    have h32 := length_to_byte_string_u256_le n
    simp only [encode, decode_impl] at hs ⊢
    exact yields_decode_one (by omega) hs fun lim => yields_u256 n lim r
  | .string, s, lim, size, r, hlen, hs => by
    have hge := length_encode_single_ge s
    simp only [encode, decode_impl] at hlen hs ⊢
    exact yields_decode_one (by omega) hs fun lim => yields_string s (by omega) lim r
  | .vector t, v, lim, size, r, hlen, hs => by
    have hge := length_encode_single_ge (to_byte_string_vector t (encode t) v)
    simp only [encode, decode_impl] at hlen hs ⊢
    exact yields_decode_one (by omega) hs fun lim => yields_vector v lim r
      (fun u hu lim size r hsz => yields_decode_impl t u lim size r hu hsz) (by omega)
  | .array t N, a, lim, size, r, hlen, hs => by
    have hge := length_encode_single_ge (to_byte_string_array t (encode t) a.toList)
    simp only [encode, decode_impl] at hlen hs ⊢
    exact yields_decode_one (by omega) hs fun lim => yields_array a lim r
      (fun u hu lim size r hsz => yields_decode_impl t u lim size r hu hsz) (by omega)
  | .tuple ts, vs, lim, size, r, hlen, hs => by
    have hle := length_encode_list (encode_multiple ts vs)
    simp only [encode, decode_impl] at hlen hs ⊢
    exact yields_decode_list (by omega) hs fun lim => ⟨_, yields_decode_tuple ts vs lim _ r (by omega) le_rfl⟩

theorem yields_decode_tuple : ∀ (ts : List Ty) (vs : Vals ts) (lim size : Nat) (r : Bytes),
    (encode_multiple ts vs).flatten.length < 2 ^ 32 → (encode_multiple ts vs).flatten.length ≤ size →
    Yields (decode_tuple ts lim size) ((encode_multiple ts vs).flatten ++ r)
      (vs, size - (encode_multiple ts vs).flatten.length) r
  | [], _, _, _, r, _, _ => Yields.pure _ r
  | t :: ts, (v, vs), lim, size, r, hlen, hs => by
    simp only [encode_multiple, List.flatten_cons, List.length_append, List.append_assoc] at hlen hs ⊢
    refine (yields_decode_impl t v lim size _ (by omega) (by omega)).bind ?_
    refine (yields_decode_tuple ts vs lim _ r (by omega) (by omega)).bind ?_
    rw [Nat.sub_sub]
    exact Yields.pure _ r

end

/-- The whole buffer is one value. -/
theorem decode_single_encode (t : Ty) (v : Val t) (h : (encode t v).length < 2 ^ 32) :
    ∃ c, decode_single t (encode t v) = .ok v c := by
  obtain ⟨log', hd⟩ := yields_decode_impl t v 0 (encode t v).length [] h le_rfl []
  rw [List.append_nil, Nat.sub_self] at hd
  refine ⟨⟨[], log'⟩, ?_⟩
  have h1 : decode_impl_args [t] 0 (encode t v).length ⟨encode t v, []⟩ = .ok ((v, ()), 0) ⟨[], log'⟩ := by
    rw [decode_impl_args, bind_of_ok hd]
    rfl
  rw [decode_single, decode, bind_of_ok h1]
  rfl

/-- Different values have different encodings. -/
theorem encode_inj {t : Ty} {v v' : Val t} (h : encode t v = encode t v') (hlen : (encode t v).length < 2 ^ 32) : v = v' := by
  obtain ⟨c, hv⟩ := decode_single_encode t v hlen
  obtain ⟨c', hv'⟩ := decode_single_encode t v' (h ▸ hlen)
  rw [h, hv'] at hv
  cases hv
  rfl

/-- `decode_impl<T>` started on `encode(v)` followed by anything returns `v` and advances `data` and `size` by
exactly the length of `encode(v)`; in particular `decode_single` undoes `encode`. -/
theorem decode_impl_encode (t : Ty) (v : Val t) (h : (encode t v).length < 2 ^ 32) :
    (∀ (r : Bytes) (lim size : Nat) (log : List Event), (encode t v).length ≤ size →
      ∃ log', decode_impl t lim size ⟨encode t v ++ r, log⟩ =
        .ok (v, size - (encode t v).length) ⟨r, log'⟩) ∧
    ∃ c, decode_single t (encode t v) = .ok v c :=
  ⟨fun r lim size log hs => yields_decode_impl t v lim size r h hs log, decode_single_encode t v h⟩

/-- A vector of tuples and an empty tuple in a tuple. -/
theorem decode_impl_encode_nested :
    ∃ c, decode_single (.tuple [.uint .w8, .vector (.tuple [.string, .uint .w8]), .tuple []])
      [0xc7, 0x05, 0x84, 0xc3, 0xc2, 0x61, 0x07, 0xc0] = .ok ((5 : UInt8), [([0x61], (7 : UInt8), ())], (), ()) c :=
  (decode_impl_encode (.tuple [.uint .w8, .vector (.tuple [.string, .uint .w8]), .tuple []])
    ((5 : UInt8), [([0x61], (7 : UInt8), ())], (), ()) (by decide)).2

end EEVM.Rlp

import EEVM.Rlp.RoundTrip
/-!
# `decode<Ts...>` and `decode_single<std::tuple<Ts...>>` (rlp.h:526-666)

`encode` writes the same bytes for a pack and for the tuple of its components. On the way back `decode_tuple` reads
the list header of a component that is a tuple, `decode_item` does not. `agree_iff_plain`: without such components
the two decoders are the same function; with one they differ on the encoding of a value, or on that encoding without
the headers of these components. Why they differ is in the order of the headers alone: a decoder `Expects` arities,
an input is a `Stream` of them, and where the two `Clash` the decoder fails.
-/
namespace EEVM.Rlp

open ExcState

/-! ## Well-formed byte strings -/

/-- What a byte string in RLP stands for. -/
inductive Item
  | str (bytes : Bytes)
  | list (items : List Item)

mutual

def Item.encode : Item → Bytes
  | .str bytes => encode_single bytes
  | .list items => encode_list (encode_all items)

def Item.encode_all : List Item → List Bytes
  | [] => []
  | item :: items => item.encode :: encode_all items

end

structure WellFormed (bs : Bytes) : Prop where
  item : ∃ item : Item, item.encode = bs
  length : bs.length < 2 ^ 64

mutual

theorem exists_item : ∀ (t : Ty) (v : Val t), ∃ item : Item, item.encode = encode t v
  | .uint w, n => ⟨.str (to_byte_string_u64 (w.value n)), by simp only [Item.encode, encode]⟩
  | .u256, n => ⟨.str (to_byte_string_u256 n), by simp only [Item.encode, encode]⟩
  | .string, s => ⟨.str s, by simp only [Item.encode, encode]⟩
  | .vector t, v => ⟨.str (to_byte_string_vector t (encode t) v), by simp only [Item.encode, encode]⟩
  | .array t _, a => ⟨.str (to_byte_string_array t (encode t) a.toList), by simp only [Item.encode, encode]⟩
  | .tuple ts, vs => by
    obtain ⟨items, h⟩ := exists_items ts vs
    exact ⟨.list items, by simp only [Item.encode, encode, h]⟩

theorem exists_items : ∀ (ts : List Ty) (vs : Vals ts), ∃ items, Item.encode_all items = encode_multiple ts vs
  | [], _ => ⟨[], rfl⟩
  | t :: ts, (v, vs) => by
    obtain ⟨item, h⟩ := exists_item t v
    obtain ⟨items, hs⟩ := exists_items ts vs
    exact ⟨item :: items, by simp only [Item.encode_all, encode_multiple, h, hs]⟩

end

/-! ## Agreement -/

/-- Both succeed or neither does, and what they return is the same. -/
def Agree (ts : List Ty) (bs : Bytes) : Prop :=
  ∀ vs : Vals ts, (∃ c, decode ts bs = .ok vs c) ↔ ∃ c, decode_single (.tuple ts) bs = .ok vs c

/-- The pack is not empty and has no tuple among its components. -/
def Plain (ts : List Ty) : Prop := ts ≠ [] ∧ ∀ t ∈ ts, t.is_tuple = false

/-- The check of `decode` that `items` has used up the input. -/
def decode_whole {α : Type} (items : Nat → Nat → Decoder (α × Nat)) (bytes : Bytes) : EStateM.Result Fail Cursor α :=
  (do
    let (res, size) ← items 0 bytes.length
    if size ≠ 0 then
      throw (.decode_error ("Expected to decode entire input, but " ++ toString size ++ " bytes remain"))
    else pure res : Decoder α) { data := bytes }

theorem decode_eq_whole {ts : List Ty} (h : 2 ≤ ts.length) (bytes : Bytes) :
    decode ts bytes = decode_whole (decode_list (decode_multiple ts)) bytes := by
  match ts, h with
  | _ :: _ :: _, _ => rfl

theorem decode_single_eq_whole (t : Ty) (bytes : Bytes) : decode_single t bytes = decode_whole (decode_impl t) bytes := by
  simp only [decode_single, decode, decode_whole, decode_impl_args, run_bind]
  cases decode_impl t 0 bytes.length { data := bytes } with
  | ok r c =>
    obtain ⟨v, size⟩ := r
    simp only [run_pure]
    split_ifs <;> rfl
  | error e c => rfl

theorem decode_item_of_not_tuple {t : Ty} (h : t.is_tuple = false) : decode_item t = decode_impl t := by
  cases t with
  | tuple ts => cases h
  | _ => rfl

theorem decode_multiple_of_plain : ∀ {ts : List Ty}, (∀ t ∈ ts, t.is_tuple = false) → decode_multiple ts = decode_tuple ts
  | [], _ => by
    funext lim size
    simp only [decode_multiple, decode_tuple]
  | t :: ts, h => by
    have h1 := decode_item_of_not_tuple (h t List.mem_cons_self)
    have h2 := decode_multiple_of_plain fun u hu => h u (List.mem_cons_of_mem t hu)
    funext lim size
    simp only [decode_multiple, decode_tuple, h1, h2]

theorem agree_of_plain {ts : List Ty} (hn : ts.length ≠ 1) (h : Plain ts) (bs : Bytes) : Agree ts bs := by
  have hlen : 2 ≤ ts.length := by
    have := List.length_pos_iff.2 h.1
    omega
  intro vs
  rw [decode_eq_whole hlen, decode_single_eq_whole, decode_multiple_of_plain h.2]
  simp only [decode_impl]
  exact Iff.rfl

/-! ## The order of the headers -/

mutual

/-- The arities a decoder of `t` expects in the headers it reads, if lists contain all their elements. -/
def arities : Ty → List Arity
  | .tuple ts => .multiple :: arities_all ts
  | .uint _ | .u256 | .string | .vector _ | .array _ _ => [.single]

def arities_all : List Ty → List Arity
  | [] => []
  | t :: ts => arities t ++ arities_all ts

end

/-- The same for `decode_item`. -/
def item_arities : Ty → List Arity
  | .tuple ts => arities_all ts
  | _ => [.single]

def item_arities_all (ts : List Ty) : List Arity := ts.flatMap item_arities

theorem arities_of_not_tuple {t : Ty} (h : t.is_tuple = false) : arities t = [.single] := by
  cases t with
  | tuple ts => cases h
  | _ => simp only [arities]

theorem item_arities_of_not_tuple {t : Ty} (h : t.is_tuple = false) : item_arities t = [.single] := by
  cases t with
  | tuple ts => cases h
  | _ => rfl

theorem exists_of_is_tuple {t : Ty} (h : t.is_tuple = true) : ∃ ts, t = .tuple ts := by
  cases t with
  | tuple ts => exact ⟨ts, rfl⟩
  | _ => cases h

/-- There is a list header in front of `rest`. -/
def Opens (data rest : Bytes) : Prop := ∀ lim size log, match decode_length lim size ⟨data, log⟩ with
  | .ok res c => res.1.1 = .multiple ∧ c.data = rest
  | .error _ _ => True

/-- The headers in `data`, one after the other, up to the first that is no list header. -/
def Stream : List Arity → Bytes → Prop
  | [], data => data = []
  | .multiple :: arities, data => ∃ rest, Opens data rest ∧ Stream arities rest
  | .single :: _, _ => True

/-- The first difference between what is expected and what is there is a list header too many, or the end. -/
inductive Clash : List Arity → List Arity → Prop
  | ends {e expected} : Clash (e :: expected) []
  | opens {expected actual} : Clash (.single :: expected) (.multiple :: actual)
  | later {expected actual} (h : Clash expected actual) : Clash (.multiple :: expected) (.multiple :: actual)

theorem clash_append : ∀ {e1 e2 actual : List Arity}, Clash (e1 ++ e2) actual →
    Clash e1 actual ∨ (∀ a ∈ e1, a = .multiple) ∧ ∃ rest, actual = e1 ++ rest ∧ Clash e2 rest
  | [], _, actual, h => .inr ⟨by simp, actual, rfl, h⟩
  | _ :: e1, e2, _, h => by
    cases h with
    | ends => exact .inl .ends
    | opens => exact .inl .opens
    | later h =>
      rcases clash_append h with h' | ⟨hall, rest, rfl, h'⟩
      · exact .inl (.later h')
      · exact .inr ⟨by simpa using hall, rest, rfl, h'⟩

/-- A list header more than expected, and the same number of single items. -/
theorem clash_of_sublist : ∀ {expected actual : List Arity}, expected.Sublist actual → .single ∈ expected →
    expected.count .single = actual.count .single → Clash expected (.multiple :: actual)
  | [], _, _, hs, _ => absurd hs List.not_mem_nil
  | .single :: _, _, _, _, _ => .opens
  | .multiple :: expected, [], h, _, _ => by cases h
  | .multiple :: expected, .multiple :: actual, h, hs, hc => by
    have h' : expected.Sublist actual := by
      cases h with
      | cons _ h => exact (List.sublist_cons_self _ _).trans h
      | cons_cons _ h => exact h
    refine .later (clash_of_sublist h' ?_ ?_)
    · simpa using hs
    · simpa using hc
  | .multiple :: expected, .single :: actual, h, _, hc => by
    cases h with
    | cons _ h =>
      have := h.count_le .single
      simp at hc this
      omega

/-- More headers expected than there are. -/
theorem clash_of_length : ∀ {expected actual : List Arity}, (∀ a ∈ actual, a = .multiple) →
    actual.length < expected.length → Clash expected actual
  | [], _, _, h => absurd h (Nat.not_lt_zero _)
  | _ :: _, [], _, _ => .ends
  | .single :: _, a :: _, hall, _ => by
    obtain rfl := hall a List.mem_cons_self
    exact .opens
  | .multiple :: expected, a :: actual, hall, h => by
    obtain rfl := hall a List.mem_cons_self
    exact .later (clash_of_length (fun b hb => hall b (List.mem_cons_of_mem _ hb)) (by simpa using h))

/-! ## What the decoders expect -/

/-- `m` throws, or leaves the model. -/
def Fails {α : Type} (m : Decoder α) (c : Cursor) : Prop := ∃ e c', m c = .error e c'

theorem Fails.bind {α β : Type} {m : Decoder α} {c : Cursor} (h : Fails m c) (f : α → Decoder β) : Fails (m >>= f) c := by
  obtain ⟨e, c', h⟩ := h
  exact ⟨e, c', bind_of_error h⟩

/-- `m` fails on a stream that clashes with the headers it expects, and passes the list headers it expects. -/
structure Expects {α : Type} (expected : List Arity) (m : Decoder α) : Prop where
  fails : ∀ {actual c}, Stream actual c.data → Clash expected actual → Fails m c
  passes : ∀ {rest c}, (∀ a ∈ expected, a = .multiple) → Stream (expected ++ rest) c.data →
    ∀ a c', m c = .ok a c' → Stream rest c'.data

namespace Expects

variable {α β : Type} {e1 e2 : List Arity} {m : Decoder α} {f : α → Decoder β}

theorem pure (a : α) : Expects [] (pure a : Decoder α) := by
  refine ⟨fun _ h => ?_, fun _ hs => ?_⟩
  · cases h
  · rintro a c' ⟨⟩
    exact hs

theorem bind (hm : Expects e1 m) (hf : ∀ a, Expects e2 (f a)) : Expects (e1 ++ e2) (m >>= f) := by
  constructor
  · intro actual c hs h
    rcases clash_append h with h' | ⟨hall, rest, rfl, h'⟩
    · exact (hm.fails hs h').bind f
    · cases hr : m c with
      | ok a c' =>
        obtain ⟨e, c'', he⟩ := (hf a).fails (hm.passes hall hs a c' hr) h'
        exact ⟨e, c'', by rw [bind_of_ok hr, he]⟩
      | error e c' => exact ⟨e, c', bind_of_error hr⟩
  · intro rest c hall hs b c'' hr
    obtain ⟨a, c', h1, h2⟩ := bind_eq_ok.1 hr
    rw [List.append_assoc] at hs
    have hs' := hm.passes (fun a ha => hall a (List.mem_append_left _ ha)) hs a c' h1
    exact (hf a).passes (fun a ha => hall a (List.mem_append_right _ ha)) hs' b c'' h2

theorem map (hm : Expects e1 m) (k : α → β) : Expects e1 (do let a ← m; return k a) := by
  simpa using hm.bind fun a => .pure (k a)

/-- A step that leaves the pointer where it is. -/
theorem of_stays (h : ∀ c a c', m c = .ok a c' → c'.data = c.data) : Expects [] m := by
  refine ⟨fun _ h => ?_, fun _ hs a c' hr => ?_⟩
  · cases h
  · rw [h _ a c' hr]
    exact hs

end Expects

theorem Expects.throw {α : Type} (expected : List Arity) (e : Fail) : Expects expected (throw e : Decoder α) :=
  ⟨fun {_ c} _ _ => ⟨e, c, rfl⟩, fun _ _ => nofun⟩

theorem decode_length_fails_at_end {c : Cursor} (h : c.data = []) (lim size : Nat) : Fails (decode_length lim size) c := by
  unfold decode_length
  split_ifs
  · exact ⟨_, _, rfl⟩
  · have hpeek : Fails (peek lim) c := by
      unfold Fails peek
      rw [h]
      exact ⟨_, _, rfl⟩
    exact hpeek.bind _

theorem Opens.ok {data rest : Bytes} {lim size : Nat} {log : List Event} {res : (Arity × Nat) × Nat} {c : Cursor}
    (h : Opens data rest) (hr : decode_length lim size ⟨data, log⟩ = .ok res c) : res.1.1 = .multiple ∧ c.data = rest := by
  have ho := h lim size log
  rw [hr] at ho
  exact ho

theorem expects_decode_length (lim size : Nat) : Expects [.multiple] (decode_length lim size) := by
  constructor
  · intro actual c hs h
    cases h with
    | ends => exact decode_length_fails_at_end hs lim size
    | later h => cases h
  · rintro rest c _ ⟨r, ho, hs⟩ a c' hr
    rw [(ho.ok hr).2]
    exact hs

theorem expects_decode_one {α : Type} (from_bytes : Nat → Nat → Decoder α) (lim size : Nat) :
    Expects [.single] (decode_one from_bytes lim size) := by
  constructor
  · intro actual c hs h
    cases h with
    | ends => exact (decode_length_fails_at_end hs lim size).bind _
    | opens =>
      obtain ⟨r, ho, -⟩ := hs
      cases hr : decode_length lim size c with
      | ok res c' =>
        obtain ⟨⟨arity, contained⟩, left⟩ := res
        obtain ⟨h1, -⟩ := ho.ok hr
        simp only at h1
        subst h1
        exact ⟨_, c', by rw [decode_one, bind_of_ok hr]; rfl⟩
      | error e c' => exact Fails.bind ⟨e, c', hr⟩ _
  · intro rest c hall
    exact absurd (hall .single List.mem_cons_self) (by decide)

theorem expects_decode_list {α : Type} {items : Nat → Nat → Decoder (α × Nat)} {expected : List Arity}
    (h : ∀ lim size, Expects expected (items lim size)) (lim size : Nat) :
    Expects (.multiple :: expected) (decode_list items lim size) := by
  refine (expects_decode_length lim size).bind ?_
  rintro ⟨⟨arity, contained⟩, left⟩
  simp only
  split
  · exact .throw expected _
  · have hsub : Expects [] (size_sub left contained) := .of_stays fun _ _ _ h => by cases h; rfl
    have hend : Expects [] (payload_end lim contained) := .of_stays fun _ _ _ h => by cases h; rfl
    exact hsub.bind fun left => hend.bind fun lim => (h lim contained).map fun r => (r.1, left)

/-- A pack, one element after the other. -/
theorem expects_pack {α β : Type} {first : Nat → Nat → Decoder (α × Nat)} {rest : Nat → Nat → Decoder (β × Nat)}
    {e1 e2 : List Arity} (h1 : ∀ lim size, Expects e1 (first lim size)) (h2 : ∀ lim size, Expects e2 (rest lim size))
    (lim size : Nat) : Expects (e1 ++ e2) (do
      let (v, size) ← first lim size
      let (vs, size) ← rest lim size
      return ((v, vs), size)) := by
  exact (h1 lim size).bind fun r => (h2 lim r.2).map fun r' => ((r.1, r'.1), r'.2)

mutual

theorem expects_decode_impl : ∀ (t : Ty) (lim size : Nat), Expects (arities t) (decode_impl t lim size)
  | .uint _, lim, size | .u256, lim, size | .string, lim, size | .vector _, lim, size | .array _ _, lim, size => by
    simp only [arities, decode_impl]
    exact expects_decode_one _ lim size
  | .tuple ts, lim, size => by
    simp only [arities, decode_impl]
    exact expects_decode_list (expects_decode_tuple ts) lim size

theorem expects_decode_tuple : ∀ (ts : List Ty) (lim size : Nat), Expects (arities_all ts) (decode_tuple ts lim size)
  | [], _, _ => by
    simp only [arities_all, decode_tuple]
    exact .pure _
  | t :: ts, lim, size => by
    simp only [arities_all, decode_tuple]
    exact expects_pack (expects_decode_impl t) (expects_decode_tuple ts) lim size

end

theorem expects_decode_item (t : Ty) (lim size : Nat) : Expects (item_arities t) (decode_item t lim size) := by
  cases htuple : t.is_tuple with
  | true =>
    obtain ⟨ts, rfl⟩ := exists_of_is_tuple htuple
    exact expects_decode_tuple ts lim size
  | false =>
    rw [item_arities_of_not_tuple htuple, ← arities_of_not_tuple htuple, decode_item_of_not_tuple htuple]
    exact expects_decode_impl t lim size

theorem expects_decode_multiple : ∀ (ts : List Ty) (lim size : Nat),
    Expects (item_arities_all ts) (decode_multiple ts lim size)
  | [], _, _ => .pure _
  | t :: ts, lim, size => expects_pack (expects_decode_item t) (expects_decode_multiple ts) lim size

/-! ## The order in encodings -/

/-- A counter that is too small for the header of a list makes `decode_length` throw. -/
theorem decode_length_list_fails (lim : Nat) {size L : Nat} (bs : Bytes) (log : List Event)
    (hs : size < (prefix_multiple_length L []).length) :
    Fails (decode_length lim size) ⟨prefix_multiple_length L bs, log⟩ := by
  by_cases h0 : size = 0
  · rw [Fails, decode_length, if_pos h0]
    exact ⟨_, _, rfl⟩
  unfold prefix_multiple_length at hs ⊢
  by_cases hL : L ≤ 55
  · rw [if_pos hL] at hs
    simp at hs
    omega
  rw [if_neg hL] at hs ⊢
  simp at hs
  have h8 := length_to_byte_string_u64_le L
  generalize to_byte_string_u64 L = n at *
  have hto : (UInt8.ofNat (0xf7 + n.length)).toNat = 0xf7 + n.length := by
    simp
    omega
  have hgt : ¬UInt8.ofNat (0xf7 + n.length) ≤ 0x7f := by
    rw [UInt8.le_iff_toNat_le, hto]
    simp
    omega
  change Fails (decode_length lim size) ⟨UInt8.ofNat (0xf7 + n.length) :: (n ++ bs), log⟩
  generalize hfirst : UInt8.ofNat (0xf7 + n.length) = first at *
  generalize hdata : n ++ bs = data
  have hpeek : peek lim ⟨first :: data, log⟩ = .ok first ⟨first :: data, .read (data.length + 1) lim :: log⟩ := rfl
  have hnext : ∀ log, next_byte lim ⟨first :: data, log⟩ = .ok first ⟨data, .read (data.length + 1) lim :: log⟩ :=
    fun _ => rfl
  have hsub : ∀ log, size_sub size 1 ⟨data, log⟩ = .ok (size - 1) ⟨data, .sub size 1 :: log⟩ := fun log => by
    rw [size_sub, if_pos (by omega)]
  rw [Fails, decode_length, if_neg h0, bind_of_ok hpeek, if_neg hgt, bind_of_ok (hnext _), bind_of_ok (hsub _), hto,
    if_neg (by omega), if_neg (by omega), if_neg (by omega), Nat.add_sub_cancel_left, long_length, if_pos (by omega)]
  exact ⟨_, _, rfl⟩

theorem opens_encode_list (terms : List Bytes) (r : Bytes) (h : terms.flatten.length < 2 ^ 64) :
    Opens (encode_list terms ++ r) (terms.flatten ++ r) := by
  intro lim size log
  have happend : encode_list terms ++ r = prefix_multiple_length terms.flatten.length (terms.flatten ++ r) := by
    unfold encode_list
    generalize terms.flatten = flattened
    simp only [prefix_multiple_length]
    split <;> simp only [List.cons_append, List.append_assoc]
  by_cases hs : (prefix_multiple_length terms.flatten.length []).length ≤ size
  · rw [happend]
    obtain ⟨log', hr⟩ := decode_length_list (terms.flatten ++ r) [] h hs log
    rw [List.append_nil, List.append_nil] at hr
    rw [hr]
    exact ⟨rfl, rfl⟩
  · obtain ⟨e, c, hr⟩ := decode_length_list_fails lim (terms.flatten ++ r) log (Nat.lt_of_not_le hs)
    rw [happend, hr]
    trivial

mutual

theorem stream_encode : ∀ (t : Ty) (v : Val t) (actual : List Arity) (r : Bytes), (encode t v).length < 2 ^ 64 →
    Stream actual r → Stream (arities t ++ actual) (encode t v ++ r)
  | .uint _, _, _, _, _, _ | .u256, _, _, _, _, _ | .string, _, _, _, _, _ | .vector _, _, _, _, _, _
  | .array _ _, _, _, _, _, _ => by
    simp only [arities]
    exact trivial
  | .tuple ts, vs, actual, r, hlen, hs => by
    have hle := length_encode_list (encode_multiple ts vs)
    simp only [arities, encode] at hlen ⊢
    refine ⟨_, opens_encode_list _ r (by omega), ?_⟩
    exact stream_encode_multiple ts vs actual r (by omega) hs

theorem stream_encode_multiple : ∀ (ts : List Ty) (vs : Vals ts) (actual : List Arity) (r : Bytes),
    (encode_multiple ts vs).flatten.length < 2 ^ 64 → Stream actual r →
    Stream (arities_all ts ++ actual) ((encode_multiple ts vs).flatten ++ r)
  | [], _, _, _, _, hs => by
    simp only [arities_all, encode_multiple, List.flatten_nil, List.nil_append]
    exact hs
  | t :: ts, (v, vs), actual, r, hlen, hs => by
    simp only [arities_all, encode_multiple, List.flatten_cons, List.length_append, List.append_assoc] at hlen ⊢
    exact stream_encode t v _ _ (by omega) (stream_encode_multiple ts vs actual r (by omega) hs)

end

/-- The terms of a component without the list header it has if it is a tuple. -/
def item_terms : (t : Ty) → Val t → List Bytes
  | .tuple ts, vs => encode_multiple ts vs
  | t, v => [encode t v]

def item_terms_all : (ts : List Ty) → Vals ts → List Bytes
  | [], _ => []
  | t :: ts, (v, vs) => item_terms t v ++ item_terms_all ts vs

theorem item_terms_of_not_tuple {t : Ty} (h : t.is_tuple = false) (v : Val t) : item_terms t v = [encode t v] := by
  cases t with
  | tuple ts => cases h
  | _ => rfl

theorem stream_item_terms (t : Ty) (v : Val t) (actual : List Arity) (r : Bytes)
    (hlen : (item_terms t v).flatten.length < 2 ^ 64) (hs : Stream actual r) :
    Stream (item_arities t ++ actual) ((item_terms t v).flatten ++ r) := by
  cases htuple : t.is_tuple with
  | true =>
    obtain ⟨ts, rfl⟩ := exists_of_is_tuple htuple
    exact stream_encode_multiple ts v actual r hlen hs
  | false =>
    rw [item_arities_of_not_tuple htuple]
    exact trivial

theorem stream_item_terms_all : ∀ (ts : List Ty) (vs : Vals ts), (item_terms_all ts vs).flatten.length < 2 ^ 64 →
    Stream (item_arities_all ts) (item_terms_all ts vs).flatten
  | [], _, _ => rfl
  | t :: ts, (v, vs), hlen => by
    simp only [item_terms_all, List.flatten_append, List.length_append] at hlen ⊢
    exact stream_item_terms t v _ _ (by omega) (stream_item_terms_all ts vs (by omega))

theorem length_item_terms_le (t : Ty) (v : Val t) : (item_terms t v).flatten.length ≤ (encode t v).length := by
  cases htuple : t.is_tuple with
  | true =>
    obtain ⟨ts, rfl⟩ := exists_of_is_tuple htuple
    have := length_encode_list (encode_multiple ts v)
    simp only [item_terms, encode]
    omega
  | false => simp [item_terms_of_not_tuple htuple]

theorem length_item_terms_all_le : ∀ (ts : List Ty) (vs : Vals ts),
    (item_terms_all ts vs).flatten.length ≤ (encode_multiple ts vs).flatten.length
  | [], _ => Nat.le_refl _
  | t :: ts, (v, vs) => by
    have h1 := length_item_terms_le t v
    have h2 := length_item_terms_all_le ts vs
    simp only [item_terms_all, encode_multiple, List.flatten_append, List.flatten_cons, List.length_append]
    omega

/-! ## Without the headers of the components that are tuples -/

theorem yields_decode_item (t : Ty) (v : Val t) (lim size : Nat) (r : Bytes) (hlen : (encode t v).length < 2 ^ 32)
    (hs : (item_terms t v).flatten.length ≤ size) :
    Yields (decode_item t lim size) ((item_terms t v).flatten ++ r) (v, size - (item_terms t v).flatten.length) r := by
  cases htuple : t.is_tuple with
  | true =>
    obtain ⟨ts, rfl⟩ := exists_of_is_tuple htuple
    have hle := length_item_terms_le (.tuple ts) v
    exact yields_decode_tuple ts v lim size r (Nat.lt_of_le_of_lt hle hlen) hs
  | false =>
    simp only [item_terms_of_not_tuple htuple, List.flatten_singleton] at hs ⊢
    rw [decode_item_of_not_tuple htuple]
    exact yields_decode_impl t v lim size r hlen hs

theorem yields_decode_multiple : ∀ (ts : List Ty) (vs : Vals ts) (lim size : Nat) (r : Bytes),
    (encode_multiple ts vs).flatten.length < 2 ^ 32 → (item_terms_all ts vs).flatten.length ≤ size →
    Yields (decode_multiple ts lim size) ((item_terms_all ts vs).flatten ++ r)
      (vs, size - (item_terms_all ts vs).flatten.length) r
  | [], _, _, _, r, _, _ => Yields.pure _ r
  | t :: ts, (v, vs), lim, size, r, hlen, hs => by
    simp only [encode_multiple, item_terms_all, List.flatten_cons, List.flatten_append, List.length_append,
      List.append_assoc] at hlen hs ⊢
    refine (yields_decode_item t v lim size _ (by omega) (by omega)).bind ?_
    refine (yields_decode_multiple ts vs lim _ r (by omega) (by omega)).bind ?_
    rw [Nat.sub_sub]
    exact Yields.pure _ r

/-! ## The first component that is a tuple -/

theorem item_arities_sublist (t : Ty) : (item_arities t).Sublist (arities t) := by
  cases htuple : t.is_tuple with
  | true =>
    obtain ⟨ts, rfl⟩ := exists_of_is_tuple htuple
    simp only [item_arities, arities]
    exact List.sublist_cons_self _ _
  | false =>
    rw [item_arities_of_not_tuple htuple, arities_of_not_tuple htuple]

theorem count_item_arities (t : Ty) : (item_arities t).count .single = (arities t).count .single := by
  cases htuple : t.is_tuple with
  | true =>
    obtain ⟨ts, rfl⟩ := exists_of_is_tuple htuple
    simp [item_arities, arities]
  | false =>
    rw [item_arities_of_not_tuple htuple, arities_of_not_tuple htuple]

theorem item_arities_all_sublist : ∀ ts : List Ty, (item_arities_all ts).Sublist (arities_all ts)
  | [] => by
    simp only [arities_all]
    exact List.Sublist.refl _
  | t :: ts => by
    simp only [arities_all]
    exact (item_arities_sublist t).append (item_arities_all_sublist ts)

theorem count_item_arities_all : ∀ ts : List Ty, (item_arities_all ts).count .single = (arities_all ts).count .single
  | [] => by simp only [arities_all]; rfl
  | t :: ts => by
    have h1 := count_item_arities t
    have h2 := count_item_arities_all ts
    simp only [item_arities_all, List.flatMap_cons, arities_all, List.count_append] at h1 h2 ⊢
    omega

section

variable {xs rest : List Ty}

/-- With a component that is no list, the pack meets the header of the tuple where it expects that component. -/
theorem clash_of_single (h : .single ∈ arities_all (.tuple xs :: rest)) :
    Clash (item_arities_all (.tuple xs :: rest)) (arities_all (.tuple xs :: rest)) := by
  have hcount := count_item_arities_all (.tuple xs :: rest)
  have hsub : (item_arities_all (.tuple xs :: rest)).Sublist (arities_all xs ++ arities_all rest) :=
    (List.Sublist.refl _).append (item_arities_all_sublist rest)
  have hmem : .single ∈ item_arities_all (.tuple xs :: rest) := by
    rw [← List.count_pos_iff, hcount, List.count_pos_iff]
    exact h
  simp only [arities_all, arities, List.cons_append] at hcount ⊢
  exact clash_of_sublist hsub hmem (by simpa using hcount)

/-- Without one, the tuple of the pack meets the end too early. -/
theorem clash_of_no_single (h : .single ∉ arities_all (.tuple xs :: rest)) :
    Clash (arities_all (.tuple xs :: rest)) (item_arities_all (.tuple xs :: rest)) := by
  refine clash_of_length ?_ ?_
  · intro a ha
    cases a with
    | multiple => rfl
    | single => exact absurd ((item_arities_all_sublist _).subset ha) h
  · have := (item_arities_all_sublist rest).length_le
    simp only [item_arities_all, arities_all, arities, List.flatMap_cons, item_arities, List.length_append,
      List.length_cons] at this ⊢
    omega

theorem pack_fails {α β : Type} {first : Nat → Nat → Decoder (α × Nat)} {second : Nat → Nat → Decoder (β × Nat)}
    {lim size size' : Nat} {v : α} {d d' : Bytes} (h1 : Yields (first lim size) (d ++ d') (v, size') d')
    (h2 : ∀ log, Fails (second lim size') ⟨d', log⟩) (log : List Event) :
    Fails (do
      let (v, size) ← first lim size
      let (vs, size) ← second lim size
      return ((v, vs), size)) ⟨d ++ d', log⟩ := by
  obtain ⟨log', hr⟩ := h1 log
  obtain ⟨e, c, he⟩ := (h2 log').bind fun r => pure ((v, r.1), r.2)
  exact ⟨e, c, by rw [bind_of_ok hr]; exact he⟩

/-- The pack fails on the encoding of a tuple. -/
theorem decode_multiple_fails (h : .single ∈ arities_all (.tuple xs :: rest)) : ∀ (us : List Ty)
    (_ : ∀ t ∈ us, t.is_tuple = false) (vs : Vals (us ++ .tuple xs :: rest)) (lim size : Nat) (log : List Event),
    (encode_multiple _ vs).flatten.length < 2 ^ 32 → (encode_multiple _ vs).flatten.length ≤ size →
    Fails (decode_multiple (us ++ .tuple xs :: rest) lim size) ⟨(encode_multiple _ vs).flatten, log⟩
  | [], _, vs, lim, size, log, hlen, _ => by
    have hs := stream_encode_multiple _ vs [] [] (by omega) rfl
    rw [List.append_nil, List.append_nil] at hs
    exact (expects_decode_multiple _ lim size).fails hs (clash_of_single h)
  | u :: us, hu, (v, vs), lim, size, log, hlen, hs => by
    have hplain := hu u List.mem_cons_self
    simp only [List.cons_append, encode_multiple, List.flatten_cons, List.length_append] at hlen hs ⊢
    have h1 := yields_decode_impl u v lim size (encode_multiple _ vs).flatten (by omega) (by omega)
    rw [← decode_item_of_not_tuple hplain] at h1
    refine pack_fails h1 (fun log => ?_) log
    exact decode_multiple_fails h us (fun t ht => hu t (List.mem_cons_of_mem u ht)) vs lim _ log (by omega) (by omega)

/-- The tuple of the pack fails on the encoding without headers. -/
theorem decode_tuple_fails (h : .single ∉ arities_all (.tuple xs :: rest)) : ∀ (us : List Ty)
    (_ : ∀ t ∈ us, t.is_tuple = false) (vs : Vals (us ++ .tuple xs :: rest)) (lim size : Nat) (log : List Event),
    (item_terms_all _ vs).flatten.length < 2 ^ 32 → (item_terms_all _ vs).flatten.length ≤ size →
    Fails (decode_tuple (us ++ .tuple xs :: rest) lim size) ⟨(item_terms_all _ vs).flatten, log⟩
  | [], _, vs, lim, size, log, hlen, _ => by
    have hs := stream_item_terms_all _ vs (by omega)
    exact (expects_decode_tuple _ lim size).fails hs (clash_of_no_single h)
  | u :: us, hu, (v, vs), lim, size, log, hlen, hs => by
    have hplain := hu u List.mem_cons_self
    simp only [List.cons_append, item_terms_all, item_terms_of_not_tuple hplain, List.nil_append, List.flatten_cons,
      List.length_append, decode_tuple] at hlen hs ⊢
    have h1 := yields_decode_impl u v lim size (item_terms_all _ vs).flatten (by omega) (by omega)
    refine pack_fails h1 (fun log => ?_) log
    exact decode_tuple_fails h us (fun t ht => hu t (List.mem_cons_of_mem u ht)) vs lim _ log (by omega) (by omega)

end

/-! ## Packs with a tuple -/

theorem decode_list_fails {α : Type} {items : Nat → Nat → Decoder (α × Nat)} {terms : List Bytes} {lim size : Nat}
    {log : List Event} (hlen : (encode_list terms).length < 2 ^ 64) (hs : (encode_list terms).length ≤ size)
    (h : ∀ lim log, Fails (items lim terms.flatten.length) ⟨terms.flatten, log⟩) :
    Fails (decode_list items lim size) ⟨encode_list terms, log⟩ := by
  have hle := length_encode_list terms
  have hL : terms.flatten.length < 2 ^ 64 := by omega
  obtain ⟨log', hr⟩ := decode_length_list terms.flatten [] hL (by omega : _ ≤ size) log
  rw [List.append_nil, List.append_nil] at hr
  change decode_length lim size ⟨encode_list terms, log⟩ = _ at hr
  have hsub : ∀ log, size_sub (size - (prefix_multiple_length terms.flatten.length []).length) terms.flatten.length
      ⟨terms.flatten, log⟩ = .ok _ ⟨terms.flatten, _⟩ := fun log => by rw [size_sub, if_pos (by omega)]
  have hend : ∀ log, payload_end lim terms.flatten.length ⟨terms.flatten, log⟩ = .ok _ ⟨terms.flatten, log⟩ := fun _ => rfl
  rw [decode_list, Fails, bind_of_ok hr]
  simp only [ne_eq, not_true_eq_false, if_false]
  rw [bind_of_ok (hsub _), bind_of_ok (hend _)]
  exact (h _ _).bind _

theorem not_ok_of_fails {α : Type} {items : Nat → Nat → Decoder (α × Nat)} {bytes : Bytes}
    (h : Fails (items 0 bytes.length) { data := bytes }) (v : α) (c : Cursor) : decode_whole items bytes ≠ .ok v c := by
  obtain ⟨e, c', hr⟩ := h
  rw [decode_whole, bind_of_error hr]
  exact nofun

theorem ok_of_yields {α : Type} {items : Nat → Nat → Decoder (α × Nat)} {bytes : Bytes} {v : α}
    (h : Yields (items 0 bytes.length) bytes (v, 0) []) : ∃ c, decode_whole items bytes = .ok v c := by
  obtain ⟨log, hr⟩ := h []
  refine ⟨⟨[], log⟩, ?_⟩
  rw [decode_whole, bind_of_ok hr]
  rfl

theorem exists_first_tuple : ∀ {ts : List Ty}, (∃ t ∈ ts, t.is_tuple = true) →
    ∃ us xs rest, ts = us ++ .tuple xs :: rest ∧ ∀ t ∈ us, t.is_tuple = false
  | [], h => by simp at h
  | t :: ts, h => by
    cases htuple : t.is_tuple with
    | true =>
      obtain ⟨xs, rfl⟩ := exists_of_is_tuple htuple
      exact ⟨[], xs, ts, rfl, by simp⟩
    | false =>
      have h' : ∃ t ∈ ts, t.is_tuple = true := by simpa [htuple] using h
      obtain ⟨us, xs, rest, rfl, hus⟩ := exists_first_tuple h'
      exact ⟨t :: us, xs, rest, rfl, by simpa [htuple] using hus⟩

theorem wellFormed_encode_list {terms : List Bytes} (h : ∃ items, Item.encode_all items = terms)
    (hlen : (encode_list terms).length < 2 ^ 64) : WellFormed (encode_list terms) := by
  obtain ⟨items, rfl⟩ := h
  exact ⟨⟨.list items, by simp only [Item.encode]⟩, hlen⟩

theorem Item.encode_all_append : ∀ as bs : List Item, encode_all (as ++ bs) = encode_all as ++ encode_all bs
  | [], _ => rfl
  | a :: as, bs => by simp only [List.cons_append, encode_all, encode_all_append as bs]

theorem exists_item_terms : ∀ (ts : List Ty) (vs : Vals ts), ∃ items, Item.encode_all items = item_terms_all ts vs
  | [], _ => ⟨[], rfl⟩
  | t :: ts, (v, vs) => by
    obtain ⟨items, hs⟩ := exists_item_terms ts vs
    cases htuple : t.is_tuple with
    | true =>
      obtain ⟨us, rfl⟩ := exists_of_is_tuple htuple
      obtain ⟨first, h⟩ := exists_items us v
      exact ⟨first ++ items, by rw [Item.encode_all_append, h, hs]; rfl⟩
    | false =>
      obtain ⟨item, h⟩ := exists_item t v
      exact ⟨item :: items, by simp only [Item.encode_all, h, hs, item_terms_all, item_terms_of_not_tuple htuple]; rfl⟩

/-- A pack with a tuple among its components is not decoded as the tuple of the pack is. -/
theorem differ_of_tuple {ts : List Ty} (hts : 2 ≤ ts.length) (h : ∃ t ∈ ts, t.is_tuple = true) (vs : Vals ts)
    (hvs : (encode_list (encode_multiple ts vs)).length < 2 ^ 32) : ∃ bs, WellFormed bs ∧ ¬Agree ts bs := by
  have hle := length_encode_list (encode_multiple ts vs)
  obtain ⟨us, xs, rest, rfl, hus⟩ := exists_first_tuple h
  by_cases hleaf : .single ∈ arities_all (.tuple xs :: rest)
  · -- the encoding of a tuple
    refine ⟨_, wellFormed_encode_list (exists_items _ vs) (by omega), fun hagree => ?_⟩
    have hsingle := decode_single_encode (.tuple (us ++ .tuple xs :: rest)) vs (by simpa only [encode] using hvs)
    simp only [encode] at hsingle
    obtain ⟨c, hr⟩ := (hagree vs).2 hsingle
    rw [decode_eq_whole hts] at hr
    refine not_ok_of_fails (decode_list_fails (by omega) (Nat.le_refl _) fun lim log => ?_) vs c hr
    exact decode_multiple_fails hleaf us hus vs lim _ log (by omega) (Nat.le_refl _)
  · -- the same without the headers of the components that are tuples
    have hle' := length_encode_list_le (item_terms_all _ vs)
    have hless := length_item_terms_all_le _ vs
    refine ⟨_, wellFormed_encode_list (exists_item_terms _ vs) (by omega), fun hagree => ?_⟩
    have hyields : Yields (decode_list _ 0 _) (encode_list (item_terms_all _ vs) ++ []) _ _ :=
      yields_decode_list (by omega) (Nat.le_refl _)
        fun lim => ⟨_, yields_decode_multiple _ vs lim _ [] (by omega) (Nat.le_refl _)⟩
    rw [List.append_nil, Nat.sub_self] at hyields
    obtain ⟨c, hr⟩ := ok_of_yields hyields
    rw [← decode_eq_whole hts] at hr
    obtain ⟨c', hr'⟩ := (hagree vs).1 ⟨c, hr⟩
    rw [decode_single_eq_whole] at hr'
    simp only [decode_impl] at hr'
    refine not_ok_of_fails (decode_list_fails (by omega) (Nat.le_refl _) fun lim log => ?_) vs c' hr'
    exact decode_tuple_fails hleaf us hus vs lim _ log (by omega) (Nat.le_refl _)

/-- `decode<>` compares the declared length with 0, `decode_single<std::tuple<>>` does not look at it. -/
theorem differ_of_nil : WellFormed [0xc1, 0x80] ∧ ¬Agree [] [0xc1, 0x80] := by
  refine ⟨⟨⟨.list [.str []], by decide⟩, by decide⟩, fun h => ?_⟩
  obtain ⟨c, hr⟩ := (h ()).2 ⟨_, rfl⟩
  cases hr

/-- **Variadic decoding.** On a pack without tuples `decode` and `decode_single` of its tuple agree on every input. On
every other pack they disagree on a well-formed one, if any value of the pack can be encoded in less than `2^32`
bytes. -/
theorem agree_iff_plain (ts : List Ty) (hn : ts.length ≠ 1) :
    (Plain ts → ∀ bs, Agree ts bs) ∧
      ((∃ vs, (encode_args ts vs).length < 2 ^ 32) → (∀ bs, WellFormed bs → Agree ts bs) → Plain ts) := by
  refine ⟨agree_of_plain hn, ?_⟩
  rintro ⟨vs, hvs⟩ hagree
  have hne : ts ≠ [] := by
    rintro rfl
    exact differ_of_nil.2 (hagree _ differ_of_nil.1)
  refine ⟨hne, fun t ht => ?_⟩
  by_contra htuple
  have hlen : 2 ≤ ts.length := by
    have := List.length_pos_iff.2 hne
    omega
  match ts, hlen with
  | _ :: _ :: _, hlen =>
    obtain ⟨bs, hwf, hdiff⟩ := differ_of_tuple hlen ⟨t, ht, by simpa using htuple⟩ vs hvs
    exact hdiff (hagree bs hwf)

/-- A number and a string; a number in a tuple and a number. -/
theorem agree_iff_plain_pairs : (∀ bs, Agree [.uint .w8, .string] bs) ∧
    ¬∀ bs, WellFormed bs → Agree [.tuple [.uint .w8], .uint .w8] bs := by
  constructor
  · refine (agree_iff_plain [.uint .w8, .string] (by decide)).1 ⟨by simp, ?_⟩
    simp [Ty.is_tuple]
  · intro h
    have hvs : (encode_args [.tuple [.uint .w8], .uint .w8] (((1 : UInt8), ()), (2 : UInt8), ())).length < 2 ^ 32 := by
      decide
    have hplain := (agree_iff_plain [.tuple [.uint .w8], .uint .w8] (by decide)).2 ⟨_, hvs⟩ h
    exact absurd (hplain.2 _ List.mem_cons_self) (by simp [Ty.is_tuple])

/-- `decode<std::tuple<uint8_t>, uint8_t>` on the encoding of `((1), 2)`. -/
theorem not_agree : ¬∀ ts bs, ts.length ≠ 1 → WellFormed bs → Agree ts bs := by
  intro h
  have hbs : encode (.tuple [.tuple [.uint .w8], .uint .w8]) (((1 : UInt8), ()), (2 : UInt8), ()) = [0xc3, 0xc1, 1, 2] := by
    decide
  have hwf : WellFormed [0xc3, 0xc1, 1, 2] := ⟨⟨.list [.list [.str [1]], .str [2]], by decide⟩, by decide⟩
  have hsingle := decode_single_encode (.tuple [.tuple [.uint .w8], .uint .w8]) (((1 : UInt8), ()), (2 : UInt8), ())
    (by rw [hbs]; decide)
  rw [hbs] at hsingle
  obtain ⟨c, hr⟩ := (h [.tuple [.uint .w8], .uint .w8] _ (by decide) hwf _).2 hsingle
  cases hr

end EEVM.Rlp

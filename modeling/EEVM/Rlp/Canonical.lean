import EEVM.Rlp.Exact
import EEVM.Rlp.Reference
/-!
# Which encodings the decoder accepts (rlp.h:301-376, 417-524)

The encoder writes one byte string for each value. The decoder has no check that it reads this one: `decode_length`
takes a header in any form that declares a length, and `from_bytes` takes a number with any number of leading zeros, up
to the width of its type. `Loose` is what it takes and the encoder does not write (`decode_single_canonical`).
-/
namespace EEVM.Rlp

open ExcState BigEndian

/-- The types that one string spells. -/
inductive Scalar
  | uint64 | uint256 | string | byte_string
  | byte_array (N : Nat)
deriving DecidableEq, Repr

namespace Scalar

def ty : Scalar → Ty
  | uint64 => .uint .w64
  | uint256 => .u256
  | string => .string
  | byte_string => .vector (.uint .w8)
  | byte_array N => .array (.uint .w8) N

def is_integer : Scalar → Bool
  | uint64 | uint256 => true
  | _ => false

/-- The lengths of a string that `from_bytes` can convert. -/
def Takes : Scalar → Nat → Prop
  | uint64, size => size ≤ 8
  | uint256, size => size ≤ 32
  | string, size | byte_string, size => size < 2 ^ 32
  | byte_array N, size => size = N

def from_bytes : (s : Scalar) → Nat → Nat → Decoder (Val s.ty)
  | uint64 => from_bytes_uint .w64
  | uint256 => from_bytes_u256
  | string | byte_string => from_bytes_string
  | byte_array N => from_bytes_byte_array N

theorem decode_impl_ty (s : Scalar) : decode_impl s.ty = decode_one s.from_bytes := by
  cases s <;>
  · unfold ty decode_impl
    rfl

theorem scan_ty (s : Scalar) : ∃ payload, scan s.ty = Scan.item .single payload := by
  cases s <;>
  · unfold ty scan
    exact ⟨_, rfl⟩

/-- The string the encoder writes for the value that `payload` spells. -/
def rewritten (s : Scalar) (payload : Bytes) : Bytes := if s.is_integer then minimal payload else payload

end Scalar

/-! ## Forms that the encoder does not write -/

/-- A string behind a header that is not the shortest. -/
inductive Padded : Bytes → Prop
  /-- A header in front of a byte below `0x80`. -/
  | byte {b : UInt8} (h : b ≤ 0x7f) : Padded [0x81, b]
  /-- A long header in front of fewer than 56 bytes. -/
  | long {len payload : Bytes} (h1 : 1 ≤ len.length) (h8 : len.length ≤ 8) (h : ofBytes len = payload.length)
    (h55 : payload.length ≤ 55) : Padded (UInt8.ofNat (0xb7 + len.length) :: (len ++ payload))
  /-- A length with a leading zero. -/
  | length {len payload : Bytes} (h8 : (0 :: len).length ≤ 8) (h : ofBytes (0 :: len) = payload.length) :
    Padded (UInt8.ofNat (0xb7 + (0 :: len).length) :: (0 :: len ++ payload))

/-- A string of type `s` in a form that the encoder does not write: behind such a header, or a number with a leading
zero. -/
def Loose (s : Scalar) (bs : Bytes) : Prop :=
  Padded bs ∨ s.is_integer = true ∧ ∃ payload, Headed .single bs (0 :: payload)

theorem Headed.payload_eq {a a' : Arity} {bs payload payload' : Bytes} (h : Headed a bs payload) (h' : Headed a' bs payload') :
    payload = payload' :=
  (@Headed.unique _ _ _ _ _ _ [] [] h' h rfl).2.1

theorem Headed.length_lt {a : Arity} {bs payload : Bytes} (h : Headed a bs payload) : payload.length < 2 ^ 64 := by
  cases h with
  | byte => simp
  | short h => omega
  | @long _ len _ _ h8 h =>
    have hlt := ofBytes_lt_of_le h8
    omega

theorem headed_encode_single {bytes : Bytes} (h : bytes.length < 2 ^ 64) : Headed .single (encode_single bytes) bytes := by
  unfold encode_single
  split
  case isTrue h1 =>
    obtain ⟨b, rfl⟩ := List.length_eq_one_iff.1 h1.1
    exact .byte (by simpa using h1.2)
  · split
    case isTrue h55 => exact .short h55
    case isFalse h55 =>
      exact .long (to_byte_string_u64_ne_nil (by omega) h) (length_to_byte_string_u64_le _) (ofBytes_to_byte_string_u64 h)

theorem headed_byte (b : UInt8) : Headed .single [0x81, b] [b] := by
  have h := @Headed.short .single [b] (by simp)
  exact h

/-- What is behind a header that is not the shortest. -/
theorem Padded.headed {bs : Bytes} (h : Padded bs) : ∃ payload, Headed .single bs payload := by
  cases h with
  | @byte b hb => exact ⟨[b], headed_byte b⟩
  | @long len payload h1 h8 h h55 => exact ⟨payload, .long (a := .single) h1 h8 h⟩
  | @length len payload h8 h => exact ⟨payload, .long (a := .single) (by simp) h8 h⟩

theorem Padded.ne_encode_single {bs payload : Bytes} (h : Padded bs) (hh : Headed .single bs payload) :
    encode_single payload ≠ bs := by
  cases h with
  | @byte b hb =>
    obtain rfl := hh.payload_eq (headed_byte b)
    have henc : encode_single [b] = [b] := if_pos ⟨rfl, hb⟩
    simp [henc]
  | @long len payload' h1 h8 h h55 =>
    obtain rfl := hh.payload_eq (.long (a := .single) h1 h8 h)
    intro heq
    have hlen := congrArg List.length heq
    unfold encode_single at hlen
    rw [List.length_cons, List.length_append] at hlen
    split at hlen
    · omega
    · simp only [List.length_cons] at hlen
      omega
  | @length len payload' h8 h =>
    obtain rfl := hh.payload_eq (.long (a := .single) (by simp) h8 h)
    intro heq
    unfold encode_single at heq
    split at heq
    · have hlen := congrArg List.length heq
      simp only [List.length_cons, List.length_append] at hlen
      omega
    split at heq
    · have hlen := congrArg List.length heq
      simp only [List.length_cons, List.length_append] at hlen
      omega
    · -- the encoder's length starts with another byte
      have hne := head?_minimal (toBytes 8 payload.length)
      rw [← to_byte_string_u64_eq, List.append_cancel_right (List.cons.inj heq).2] at hne
      simp at hne

/-- The encoder writes the header that is not padded. -/
theorem encode_single_eq_iff {bs payload : Bytes} (h : Headed .single bs payload) : encode_single payload = bs ↔ ¬Padded bs := by
  constructor
  · intro heq hpadded
    exact hpadded.ne_encode_single h heq
  intro hpadded
  cases h with
  | byte hb => exact if_pos ⟨rfl, hb⟩
  | short h55 =>
    rw [encode_single, if_neg, if_pos h55]
    · rfl
    · rintro ⟨h1, hb⟩
      obtain ⟨b, rfl⟩ := List.length_eq_one_iff.1 h1
      exact hpadded (.byte hb)
  | @long _ len _ h1 h8 h =>
    have h55 : ¬payload.length ≤ 55 := fun h55 => hpadded (.long h1 h8 h h55)
    have hzero : len.head? ≠ some 0 := by
      intro hzero
      obtain ⟨len, rfl⟩ := List.head?_eq_some_iff.1 hzero
      exact hpadded (.length h8 h)
    have hlen : to_byte_string_u64 payload.length = len := by
      have hlt := (Headed.long (a := .single) h1 h8 h).length_lt
      rw [to_byte_string_u64_eq_digits hlt, ← h, digits_ofBytes, minimal_eq_self_iff.2 hzero]
    rw [encode_single, if_neg (by omega), if_neg h55, hlen]
    rfl

/-- The encoder writes the strings that are not loose. -/
theorem encode_rewritten_eq_iff {s : Scalar} {bs payload : Bytes} (h : Headed .single bs payload) :
    encode_single (s.rewritten payload) = bs ↔ ¬Loose s bs := by
  have hzero : (∃ rest, Headed .single bs (0 :: rest)) ↔ minimal payload ≠ payload := by
    rw [Ne, minimal_eq_self_iff, not_not, List.head?_eq_some_iff]
    constructor
    · rintro ⟨rest, h'⟩
      exact ⟨rest, h.payload_eq h'⟩
    · rintro ⟨rest, rfl⟩
      exact ⟨rest, h⟩
  rw [Loose, hzero, not_or, ← encode_single_eq_iff h]
  unfold Scalar.rewritten
  cases s.is_integer with
  | false => simp
  | true =>
    simp only [if_true, true_and, not_not]
    constructor
    · intro heq
      have hlt : (minimal payload).length < 2 ^ 64 := (length_minimal_le payload).trans_lt h.length_lt
      have hmin : minimal payload = payload := by
        have h' := headed_encode_single hlt
        rw [heq] at h'
        exact h'.payload_eq h
      rw [hmin] at heq
      exact ⟨heq, hmin⟩
    · rintro ⟨heq, hmin⟩
      rw [hmin, heq]

/-! ## Decoding a headed string -/

/-- Of a headed string the decoder converts the payload. -/
theorem decode_one_of_headed {α : Type} (from_bytes : Nat → Nat → Decoder α) {bs payload : Bytes}
    (h : Headed .single bs payload) :
    ∃ lim log, decode_one from_bytes 0 bs.length ⟨bs, []⟩ =
      (do let v ← from_bytes lim payload.length; return (v, 0) : Decoder (α × Nat)) ⟨payload, log⟩ := by
  have hle := h.length_pos.2.1
  have htracks := (tracks_decode_length 0 bs.length).ends ⟨bs, []⟩ ⟨bs, true⟩ rfl
  have hheader := header_of_headed h [] (Nat.le_refl bs.length)
  rw [List.append_nil, List.append_nil, Nat.sub_sub_self hle] at hheader
  have hscan : Scan.header bs.length ⟨bs, true⟩ = .ok ((.single, payload.length), payload.length) ⟨payload, true⟩ := by
    rw [Scan.header, Scan.lift, hheader]
  rw [hscan] at htracks
  obtain ⟨_, ⟨data, log⟩, hlength, hdata, rfl⟩ := htracks
  obtain rfl : data = payload := hdata
  refine ⟨max 0 (data.length - data.length), .sub data.length data.length :: log, ?_⟩
  have hsub : size_sub data.length data.length ⟨data, log⟩ = .ok 0 ⟨data, .sub data.length data.length :: log⟩ := by
    rw [size_sub, if_pos (Nat.le_refl _), Nat.sub_self]
  rw [decode_one, bind_of_ok hlength]
  simp only [ne_eq, not_true_eq_false, if_false]
  rw [bind_of_ok hsub]
  rfl

theorem decode_single_of_headed {t : Ty} {from_bytes : Nat → Nat → Decoder (Val t)} (ht : decode_impl t = decode_one from_bytes)
    {bs payload : Bytes} (h : Headed .single bs payload) :
    ∃ lim log, decode_single t bs = from_bytes lim payload.length ⟨payload, log⟩ := by
  obtain ⟨lim, log, hone⟩ := decode_one_of_headed from_bytes h
  refine ⟨lim, log, ?_⟩
  have hdecode : decode [t] bs = (do let v ← from_bytes lim payload.length; return (v, ()) : Decoder (Vals [t]))
      ⟨payload, log⟩ := by
    rw [decode, decode_impl_args, ht, bind_assoc, run_bind, hone]
    cases hv : from_bytes lim payload.length ⟨payload, log⟩ with
    | ok v c => rw [bind_of_ok hv, bind_of_ok hv]; rfl
    | error e c => rw [bind_of_error hv, bind_of_error hv]; rfl
  rw [decode_single, hdecode]
  cases hv : from_bytes lim payload.length ⟨payload, log⟩ with
  | ok v c => rw [bind_of_ok hv]; rfl
  | error e c => rw [bind_of_error hv]

/-- What the conversion makes of a payload of a length it takes. -/
theorem from_bytes_of_takes {s : Scalar} {payload : Bytes} (h : s.Takes payload.length) (lim : Nat) (log : List Event) :
    ∃ v c, s.from_bytes lim payload.length ⟨payload, log⟩ = .ok v c ∧
      encode s.ty v = encode_single (s.rewritten payload) := by
  cases s with
  | uint64 =>
    obtain ⟨log', hread⟩ := (yields_size_t lim payload [] h).at_end log
    have hlt : ofBytes payload < 2 ^ 64 := Nat.lt_of_lt_of_eq (ofBytes_lt_of_le h) (by decide)
    have hvalue : Width.w64.value (Width.w64.cast (ofBytes payload)) = ofBytes payload := UInt64.toNat_ofNat_of_lt' hlt
    refine ⟨Width.w64.cast (ofBytes payload), ⟨[], log'⟩, ?_, ?_⟩
    · rw [Scalar.from_bytes, from_bytes_uint, bind_of_ok hread]
      rfl
    · change encode_single (to_byte_string_u64 (Width.w64.value (Width.w64.cast (ofBytes payload)))) = _
      rw [hvalue, to_byte_string_u64_eq_digits hlt, digits_ofBytes]
      rfl
  | uint256 =>
    obtain ⟨log', hread⟩ := (yields_read_bytes lim [] payload).at_end log
    have hlt : ofBytes payload < 2 ^ 256 := Nat.lt_of_lt_of_eq (ofBytes_lt_of_le h) (by decide)
    refine ⟨from_big_endian payload, ⟨[], log'⟩, ?_, ?_⟩
    · rw [Scalar.from_bytes, from_bytes_u256, if_neg (Nat.not_lt.2 h), bind_of_ok hread]
      rfl
    · change encode_single (to_byte_string_u256 (from_big_endian payload)) = _
      rw [to_byte_string_u256_eq_digits, from_big_endian, BitVec.toNat_ofNat, Nat.mod_eq_of_lt hlt, digits_ofBytes]
      rfl
  | string | byte_string =>
    obtain ⟨log', hread⟩ := (yields_string payload h lim []).at_end log
    exact ⟨payload, ⟨[], log'⟩, hread, rfl⟩
  | byte_array N =>
    have hread : Yields (from_bytes_byte_array N lim payload.length) (payload ++ []) _ [] :=
      yields_byte_array (N := N) ⟨payload, h⟩ lim []
    obtain ⟨log', hread⟩ := hread.at_end log
    exact ⟨⟨payload, h⟩, ⟨[], log'⟩, hread, rfl⟩

theorem takes_of_from_bytes {s : Scalar} {payload : Bytes} {lim : Nat} {log : List Event} {v : Val s.ty} {c : Cursor}
    (h : s.from_bytes lim payload.length ⟨payload, log⟩ = .ok v c) : s.Takes payload.length := by
  by_contra hlen
  cases s with
  | uint64 =>
    rw [Scalar.from_bytes, from_bytes_uint, from_bytes_size_t, if_pos (Nat.lt_of_not_le hlen)] at h
    cases h
  | uint256 =>
    rw [Scalar.from_bytes, from_bytes_u256, if_pos (Nat.lt_of_not_le hlen)] at h
    cases h
  | string | byte_string =>
    obtain ⟨log', hloop⟩ := copy_loop_endless lim (Nat.le_of_not_lt hlen) payload 0 log
    cases hloop.symm.trans h
  | byte_array N =>
    have hne : payload.length ≠ N := hlen
    rw [Scalar.from_bytes, from_bytes_byte_array, if_pos hne] at h
    cases h

/-! ## What is accepted -/

/-- A payload that takes the counter to zero is all there is behind its header. -/
theorem headed_of_item {bs : Bytes} {payload : Nat → Scan Unit} {trail : Trail}
    (h : Scan.item .single payload bs.length { bytes := bs } = .ok 0 trail) : ∃ payload, Headed .single bs payload := by
  simp only [Scan.item, bind_eq_ok] at h
  obtain ⟨⟨⟨found, contained⟩, left⟩, t1, h1, h⟩ := h
  simp only at h
  split at h
  · cases h
  rename_i hfound
  obtain rfl : found = .single := not_not.1 hfound
  simp only [bind_eq_ok] at h
  obtain ⟨left', t2, h2, _, t3, -, h⟩ := h
  cases h
  obtain ⟨hle, hzero, -⟩ := sub_eq_ok h2
  obtain ⟨hw, -⟩ := lift_eq_ok h1
  obtain ⟨hdr, hbytes, hlen, hheaded⟩ := header_eq_ok hw
  simp only at hbytes
  have hrest := congrArg List.length hbytes
  rw [List.length_append] at hrest
  refine ⟨t1.bytes, ?_⟩
  rw [hbytes]
  exact hheaded t1.bytes [] (List.append_nil _).symm (by omega)

theorem headed_of_decode {t : Ty} {payload : Nat → Scan Unit} (ht : scan t = Scan.item .single payload) {bs : Bytes}
    (hfit : HeadersFit [t] bs) {v : Val t} {c : Cursor} (h : decode_single t bs = .ok v c) :
    ∃ payload, Headed .single bs payload := by
  obtain ⟨vs, hdecode⟩ : ∃ vs, decode [t] bs = .ok vs c := by
    unfold decode_single at h
    split at h
    case h_1 hd =>
      cases h
      exact ⟨_, hd⟩
    · cases h
  obtain ⟨trail, hs, -⟩ := ends_of_decode hfit hdecode
  rw [scan_args, ht] at hs
  exact headed_of_item hs

/-- **Canonical form.** A string is accepted in any form that declares a length its type takes, and encoding what it was
decoded to gives it back where it is not loose. -/
theorem decode_single_canonical (s : Scalar) (bs : Bytes) (hfit : HeadersFit [s.ty] bs) :
    ((∃ v c, decode_single s.ty bs = .ok v c) ↔ ∃ payload, Headed .single bs payload ∧ s.Takes payload.length) ∧
      ∀ v c, decode_single s.ty bs = .ok v c → (encode s.ty v = bs ↔ ¬Loose s bs) := by
  obtain ⟨payload, hscan⟩ := s.scan_ty
  refine ⟨⟨?_, ?_⟩, ?_⟩
  · rintro ⟨v, c, h⟩
    obtain ⟨payload, hh⟩ := headed_of_decode hscan hfit h
    obtain ⟨lim, log, hsingle⟩ := decode_single_of_headed s.decode_impl_ty hh
    rw [hsingle] at h
    exact ⟨payload, hh, takes_of_from_bytes h⟩
  · rintro ⟨payload, hh, htakes⟩
    obtain ⟨lim, log, hsingle⟩ := decode_single_of_headed s.decode_impl_ty hh
    obtain ⟨v, c, h, -⟩ := from_bytes_of_takes htakes lim log
    exact ⟨v, c, hsingle.trans h⟩
  · intro v c h
    obtain ⟨payload, hh⟩ := headed_of_decode hscan hfit h
    obtain ⟨lim, log, hsingle⟩ := decode_single_of_headed s.decode_impl_ty hh
    rw [hsingle] at h
    obtain ⟨v', c', h', henc⟩ := from_bytes_of_takes (takes_of_from_bytes h) lim log
    cases h.symm.trans h'
    rw [henc]
    exact encode_rewritten_eq_iff hh

set_option maxRecDepth 3000 in
/-- `0x80` as a number, and behind the short header that it needs. -/
theorem decode_single_canonical_byte : HeadersFit [Scalar.uint64.ty] [0x81, 0x80] ∧
    encode Scalar.uint64.ty (0x80 : UInt64) = [0x81, 0x80] ∧ ¬Loose .uint64 [0x81, 0x80] := by
  have hs : scan_args [Scalar.uint64.ty] 2 { bytes := [0x81, 0x80] } = .ok 0 ⟨[], true⟩ := rfl
  have hfit : HeadersFit [Scalar.uint64.ty] [0x81, 0x80] := by
    intro trail h
    cases hs.symm.trans h
  have henc : encode Scalar.uint64.ty (0x80 : UInt64) = [0x81, 0x80] := by decide
  exact ⟨hfit, henc, ((decode_single_canonical .uint64 [0x81, 0x80] hfit).2 (0x80 : UInt64) _ rfl).1 henc⟩

/-- A zero in a byte of its own, which the encoder writes as an empty string. -/
theorem accepts_zero_byte : HeadersFit [Scalar.uint64.ty] [0] ∧
    (∃ c, decode_single Scalar.uint64.ty [0] = .ok (0 : UInt64) c) ∧ encode Scalar.uint64.ty (0 : UInt64) ≠ [0] := by
  have hs : scan_args [Scalar.uint64.ty] 1 { bytes := [0] } = .ok 0 ⟨[], true⟩ := rfl
  refine ⟨?_, ⟨_, rfl⟩, by decide⟩
  intro trail h
  cases hs.symm.trans h

end EEVM.Rlp

import EEVM.Rlp.Canonical
/-!
# Narrow integers (rlp.h:301-335, 435-452)

There is one loop for all built-in integers, `from_bytes<size_t>`. It refuses what does not fit into its own 64 bits, by
the number of bytes; `from_bytes<T>` then casts what it returns to `T`, and the cast keeps the low bits. `decode_single`
of `uint256_t` is the yardstick: it has room for every number that `from_bytes<size_t>` takes.
-/
namespace EEVM.Rlp

open ExcState BigEndian

theorem Width.value_cast (w : Width) (n : Nat) : w.value (w.cast n) = n % 2 ^ w.bits := by
  cases w <;> simp [Width.value, Width.cast, Width.bits]

variable {w : Width} {bs payload : Bytes}

theorem decode_impl_uint (w : Width) : decode_impl (.uint w) = decode_one (from_bytes_uint w) := by
  unfold decode_impl
  rfl

theorem decode_impl_u256 : decode_impl .u256 = decode_one from_bytes_u256 := by
  unfold decode_impl
  rfl

/-- What the narrow decoder makes of a number of at most 8 bytes: its low bits. -/
theorem decode_single_uint_of_le (h : Headed .single bs payload) (h8 : payload.length ≤ 8) :
    ∃ c, decode_single (.uint w) bs = .ok (w.cast (ofBytes payload)) c := by
  obtain ⟨lim, log, hsingle⟩ := decode_single_of_headed (decode_impl_uint w) h
  obtain ⟨log', hread⟩ := (yields_size_t lim payload [] h8).at_end log
  refine ⟨⟨[], log'⟩, ?_⟩
  rw [hsingle, from_bytes_uint, bind_of_ok hread]
  rfl

theorem decode_single_uint_of_lt (h : Headed .single bs payload) (h8 : 8 < payload.length) :
    ∃ what c, decode_single (.uint w) bs = .error (.decode_error what) c := by
  obtain ⟨lim, log, hsingle⟩ := decode_single_of_headed (decode_impl_uint w) h
  have hthrow : from_bytes_size_t lim payload.length ⟨payload, log⟩ = .error (.decode_error
      ("Trying to decode number: " ++ toString payload.length ++ "  is too many bytes for uint64_t")) ⟨payload, log⟩ := by
    rw [from_bytes_size_t, if_pos h8]
    rfl
  exact ⟨_, _, hsingle.trans (bind_of_error hthrow)⟩

/-- The wide decoder keeps the number. -/
theorem toNat_of_decode_u256 (h : Headed .single bs payload) {m : Word} {c : Cursor}
    (hm : decode_single .u256 bs = .ok m c) : m.toNat = ofBytes payload := by
  obtain ⟨lim, log, hsingle⟩ := decode_single_of_headed decode_impl_u256 h
  rw [hsingle, from_bytes_u256] at hm
  by_cases h32 : payload.length > 32
  · rw [if_pos h32] at hm
    cases hm
  · obtain ⟨log', hread⟩ := (yields_read_bytes lim [] payload).at_end log
    have hlt : ofBytes payload < 2 ^ 256 := Nat.lt_of_lt_of_eq (ofBytes_lt_of_le (Nat.le_of_not_lt h32)) (by decide)
    rw [if_neg h32, bind_of_ok hread] at hm
    cases hm
    rw [from_big_endian, BitVec.toNat_ofNat, Nat.mod_eq_of_lt hlt]

/-- The decoder for `w` returns no other number than the one for `uint256_t`, and rejects an integer that has no room in
`w`. -/
structure NeverChanges (w : Width) (bs : Bytes) : Prop where
  same : ∀ (n : w.Carrier) (m : Word) c c', decode_single (.uint w) bs = .ok n c → decode_single .u256 bs = .ok m c' →
    w.value n = m.toNat
  rejects : ∀ payload, Headed .single bs payload → 2 ^ w.bits ≤ ofBytes payload →
    ∃ what c, decode_single (.uint w) bs = .error (.decode_error what) c

/-- **Narrow integers.** The number is not changed exactly when it has room in the type, or more bytes than a 64-bit number. -/
theorem never_changes_iff (w : Width) (bs : Bytes) (hfit : HeadersFit [.uint w] bs) :
    NeverChanges w bs ↔ ∀ payload, Headed .single bs payload → payload.length ≤ 8 → ofBytes payload < 2 ^ w.bits := by
  constructor
  · intro h payload hh h8
    by_contra hlarge
    obtain ⟨what, c, hreject⟩ := h.rejects payload hh (Nat.le_of_not_lt hlarge)
    obtain ⟨c', hok⟩ := decode_single_uint_of_le (w := w) hh h8
    cases hok.symm.trans hreject
  intro h
  refine ⟨?_, ?_⟩
  · intro n m c c' hn hm
    obtain ⟨payload, hh⟩ := headed_of_decode (by unfold scan; rfl) hfit hn
    have h8 : payload.length ≤ 8 := by
      by_contra hlong
      obtain ⟨what, c1, hreject⟩ := decode_single_uint_of_lt (w := w) hh (Nat.lt_of_not_le hlong)
      cases hn.symm.trans hreject
    obtain ⟨c1, hok⟩ := decode_single_uint_of_le (w := w) hh h8
    cases hn.symm.trans hok
    rw [Width.value_cast, Nat.mod_eq_of_lt (h payload hh h8), toNat_of_decode_u256 hh hm]
  · intro payload hh hlarge
    by_cases h8 : payload.length ≤ 8
    · exact absurd (h payload hh h8) (Nat.not_lt.2 hlarge)
    · exact decode_single_uint_of_lt hh (Nat.lt_of_not_le h8)

set_option maxRecDepth 3000 in
/-- The largest number of a byte. -/
theorem never_changes_byte : HeadersFit [.uint .w8] [0x81, 0xff] ∧ NeverChanges .w8 [0x81, 0xff] := by
  have hs : scan_args [.uint .w8] 2 { bytes := [0x81, 0xff] } = .ok 0 ⟨[], true⟩ := rfl
  have hfit : HeadersFit [.uint .w8] [0x81, 0xff] := by
    intro trail h
    cases hs.symm.trans h
  refine ⟨hfit, (never_changes_iff .w8 [0x81, 0xff] hfit).2 ?_⟩
  intro payload hh _
  obtain rfl := hh.payload_eq (@Headed.short .single [0xff] (by simp))
  decide

set_option maxRecDepth 3000 in
/-- 256 becomes 0 as a byte. -/
theorem changes_256 : HeadersFit [.uint .w8] [0x82, 1, 0] ∧ ¬NeverChanges .w8 [0x82, 1, 0] := by
  have hs : scan_args [.uint .w8] 3 { bytes := [0x82, 1, 0] } = .ok 0 ⟨[], true⟩ := rfl
  refine ⟨?_, fun h => ?_⟩
  · intro trail h
    cases hs.symm.trans h
  · have hsame := h.same (0 : UInt8) (256 : Word) _ _ rfl rfl
    cases hsame

end EEVM.Rlp

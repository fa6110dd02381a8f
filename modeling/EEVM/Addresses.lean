import EEVM.Creation
import EEVM.Rlp.Reference
/-!
# The addresses of new accounts (util.cpp:47-58)

`generate_address` is meant to follow the scheme for contract creation of the Yellow Paper, in which the sender is a string
of 20 bytes. It gives `rlp::encode` the sender as the `uint256_t` that an `Address` is, so leading zero bytes of the
sender are lost.
-/
namespace EEVM.Processor

open BigEndian Rlp

/-- The scheme: the list of the sender, as a string of 20 bytes, and the nonce, as an integer. -/
def scheme (sender : Address) (nonce : UInt64) : Item := .list [.str (toBytes 20 sender.toNat), .str (digits nonce.toNat)]

/-- The address of a new account is made as the Yellow Paper says. -/
structure FollowsScheme [Keccak] (sender : Address) (nonce : UInt64) : Prop where
  hashed : preimage sender nonce = (scheme sender nonce).rlp
  low_bits : (generate_address sender nonce).toNat = ofBytes (keccak_256 (preimage sender nonce)).toList % 2 ^ 160

/-- The list of a short string and a nonce is what `encode` makes of the two. -/
theorem rlp_pair_eq {a : Bytes} (ha : a.length ≤ 32) (nonce : UInt64) :
    (encode (.tuple [.string, .uint .w64]) (a, nonce, ())).length < 2 ^ 32 ∧
      (Item.list [.str a, .str (digits nonce.toNat)]).rlp = encode (.tuple [.string, .uint .w64]) (a, nonce, ()) := by
  have hlen : (encode (.tuple [.string, .uint .w64]) (a, nonce, ())).length < 2 ^ 32 := by
    have h8 := length_to_byte_string_u64_le (Width.value .w64 nonce)
    have hs := length_encode_single_le a
    have hn := length_encode_single_le (to_byte_string_u64 (Width.value .w64 nonce))
    have hl := length_encode_list_le (encode_multiple [.string, .uint .w64] (a, nonce, ()))
    simp only [encode_multiple, encode, List.flatten_cons, List.flatten_nil, List.append_nil, List.length_append] at hl ⊢
    omega
  refine ⟨hlen, ?_⟩
  rw [encode_eq_rlp (.tuple [.string, .uint .w64]) (a, nonce, ()) rfl (by omega)]
  rfl

/-- The sender is hashed by its digits. -/
theorem preimage_eq_rlp (sender : Address) (nonce : UInt64) :
    preimage sender nonce = (Item.list [.str (digits sender.toNat), .str (digits nonce.toNat)]).rlp :=
  encode_args_eq_rlp.1 [.u256, .uint .w64] (sender, nonce, ()) rfl (Nat.lt_trans (length_preimage_lt sender nonce) (by decide))

/-- That is the scheme where there are 20 of them. -/
theorem preimage_eq_scheme_iff {sender : Address} (hs : sender.toNat < 2 ^ 160) (nonce : UInt64) :
    preimage sender nonce = (scheme sender nonce).rlp ↔ 2 ^ 152 ≤ sender.toNat := by
  have h20 : digits sender.toNat = toBytes 20 sender.toNat ↔ 2 ^ 152 ≤ sender.toNat :=
    digits_eq_toBytes_iff (k := 19) hs
  have hdigits : (digits sender.toNat).length ≤ 32 := by
    rw [← to_byte_string_u256_eq_digits]
    exact length_to_byte_string_u256_le sender
  rw [← h20, preimage_eq_rlp, scheme]
  constructor
  · intro h
    obtain ⟨hlen, hencode⟩ := rlp_pair_eq hdigits nonce
    rw [hencode, (rlp_pair_eq (by rw [length_toBytes]; decide) nonce).2] at h
    have hv := encode_inj (t := .tuple [.string, .uint .w64]) h hlen
    exact congrArg Prod.fst hv
  · intro h
    rw [h]

variable [Keccak]

/-- The last 20 bytes of the hash are its low 160 bits. -/
theorem generate_address_toNat (sender : Address) (nonce : UInt64) :
    (generate_address sender nonce).toNat = ofBytes (keccak_256 (preimage sender nonce)).toList % 2 ^ 160 := by
  have hlow := ofBytes_drop (keccak_256 (preimage sender nonce)).toList 12
  rw [Vector.length_toList] at hlow
  have hlt : ofBytes (keccak_256 (preimage sender nonce)).toList % 2 ^ 160 < 2 ^ 256 :=
    Nat.lt_of_lt_of_le (Nat.mod_lt _ (by decide)) (by decide)
  change (BitVec.ofNat 256 (ofBytes ((keccak_256 (preimage sender nonce)).toList.drop 12))).toNat = _
  rw [BitVec.toNat_ofNat, hlow]
  exact Nat.mod_eq_of_lt hlt

/-- **Addresses.** They follow the scheme when the first of the sender's 20 bytes is not zero. -/
theorem follows_scheme_iff {sender : Address} (hs : sender.toNat < 2 ^ 160) (nonce : UInt64) :
    FollowsScheme sender nonce ↔ 2 ^ 152 ≤ sender.toNat := by
  constructor
  · intro h
    exact (preimage_eq_scheme_iff hs nonce).1 h.hashed
  · intro h
    exact ⟨(preimage_eq_scheme_iff hs nonce).2 h, generate_address_toNat sender nonce⟩

omit [Keccak] in
theorem follows_scheme_6ac7 : @FollowsScheme no_hash 0x6ac7ea33f8831ea9dcc53393aaa88b25a785dbf0 1 :=
  (@follows_scheme_iff no_hash _ (by decide) 1).2 (by decide)

omit [Keccak] in
/-- Of the sender 1 `c2 01 80` is hashed. -/
theorem sender_1_not_follows_scheme : preimage 1 0 = [0xc2, 0x01, 0x80] ∧ ¬@FollowsScheme no_hash 1 0 := by
  refine ⟨by decide, ?_⟩
  intro h
  exact absurd (@FollowsScheme.hashed no_hash _ _ h) (by decide)

end EEVM.Processor

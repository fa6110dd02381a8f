import EEVM.Isolation
import EEVM.Rlp.RoundTrip
/-!
# Which addresses are created (processor.cpp:1224-1243, util.cpp:47-58, simple/simpleaccount.cpp:30-43)

The address of a new account is a hash of the address and the nonce of the account that creates it, and the nonce never
changes: `increment_nonce` is commented out (`:1234-1237`). So the second creation of an account meets the first one's
address, which is taken by then. Under the assumptions on the hash that hold of one that works, a run creates at fresh
addresses, and `insert` does not fail its assertion, just when no account creates twice (`never_collides_iff`).
-/
namespace EEVM

open Std ExcState

namespace SimpleGlobalState

variable {a acc k addr : Address} {gs gs' : SimpleGlobalState}

/-- What the address of an account's next creation is made of. -/
def address_and_nonce (acc : Address) (gs : SimpleGlobalState) : Address × UInt64 := (get_address acc gs, get_nonce acc gs)

theorem entry_of_getElem?_eq (h : gs'.accounts[k]? = gs.accounts[k]?) : gs'.entry k = gs.entry k := by
  rw [entry_eq, entry_eq, h]

theorem entry_insert_of_mem (h : k ∈ gs.accounts) (e : StateEntry) : entry k (gs.insert e) = gs.entry k := by
  apply entry_of_getElem?_eq
  simp [getElem?_insert, h]

theorem entry_get_of_mem (h : k ∈ gs.accounts) (addr : Address) : entry k (GlobalState.get addr gs).2 = gs.entry k := by
  apply entry_of_getElem?_eq
  simp [getElem?_get, h]

end SimpleGlobalState

namespace Processor

open SimpleGlobalState

/-! ## Addresses are apart -/

theorem from_big_endian_inj {as bs : Bytes} (hlen : as.length = bs.length) (hle : as.length ≤ 32)
    (h : from_big_endian as = from_big_endian bs) : as = bs := by
  refine BigEndian.ofBytes_inj hlen ?_
  have ha := BigEndian.ofBytes_lt_of_le hle
  have hb := BigEndian.ofBytes_lt_of_le (hlen ▸ hle)
  have hnat := congrArg BitVec.toNat h
  simp only [from_big_endian, BitVec.toNat_ofNat] at hnat
  rwa [Nat.mod_eq_of_lt (by omega), Nat.mod_eq_of_lt (by omega)] at hnat

/-- What is hashed for the address of a new account. -/
def preimage (sender : Address) (nonce : UInt64) : Bytes := Rlp.encode_args [.u256, .uint .w64] (sender, nonce, ())

theorem length_preimage_lt (s : Address) (n : UInt64) : (preimage s n).length < 2 ^ 32 := by
  change (Rlp.encode (.tuple [.u256, .uint .w64]) (s, n, ())).length < 2 ^ 32
  have h32 := Rlp.length_to_byte_string_u256_le s
  have h8 := Rlp.length_to_byte_string_u64_le (Rlp.Width.value .w64 n)
  have hs := Rlp.length_encode_single_le (Rlp.to_byte_string_u256 s)
  have hn := Rlp.length_encode_single_le (Rlp.to_byte_string_u64 (Rlp.Width.value .w64 n))
  have hl := Rlp.length_encode_list_le (Rlp.encode_multiple [.u256, .uint .w64] (s, n, ()))
  simp only [Rlp.encode_multiple, Rlp.encode, List.flatten_cons, List.flatten_nil, List.append_nil,
    List.length_append] at hl ⊢
  omega

theorem preimage_inj {s s' : Address} {n n' : UInt64} (h : preimage s n = preimage s' n') : s = s' ∧ n = n' := by
  have hv : (s, n, ()) = (s', n', ()) := Rlp.encode_inj (t := .tuple [.u256, .uint .w64]) h (length_preimage_lt s n)
  exact ⟨congrArg Prod.fst hv, congrArg (·.2.1) hv⟩

section

variable [Keccak]

/-- The part of the hash that is the address. -/
def hash20 (bs : Bytes) : Bytes := (keccak_256 bs).toList.drop 12

theorem hash20_eq_of_generate_address {s s' : Address} {n n' : UInt64}
    (h : generate_address s n = generate_address s' n') : hash20 (preimage s n) = hash20 (preimage s' n') := by
  refine from_big_endian_inj ?_ ?_ h
  · simp [hash20]
  · simp [hash20]

variable {c : Context Address} {gs gs' : SimpleGlobalState} {k : Address}

/-! ## An instruction -/

/-- A field `f` of an account, other than its balance, only changes when init code returns the account's code. -/
theorem WorldCase.field {β : Type} {f : SimpleAccount → β} (h : WorldCase gs c gs')
    (hbalance : ∀ x b, f { x with balance := b } = f x)
    (hcode : c.next_op = some .RETURN → ∀ x code, f { x with code } = f x) (hk : k ∈ gs.accounts) :
    f (gs'.entry k).1 = f (gs.entry k).1 := by
  have htransfer : ∀ this other amount (g : SimpleGlobalState), f (entry k (transfer this other amount g)).1 = f (g.entry k).1 :=
    fun this other amount g => field_entry_transfer f hbalance this other amount g k
  have hget : ∀ addr, f (entry k (GlobalState.get addr gs).2).1 = f (gs.entry k).1 :=
    fun addr => congrArg (fun e => f e.1) (entry_get_of_mem hk addr)
  have hinsert : ∀ e : StateEntry, f (entry k (gs.insert e)).1 = f (gs.entry k).1 :=
    fun e => congrArg (fun e => f e.1) (entry_insert_of_mem hk e)
  cases h with
  | same => rfl
  | stores | removes => exact congrArg f (fst_entry_set_storage k _ _ gs)
  | looks => exact hget _
  | pays => exact (htransfer _ _ _ _).trans (hget _)
  | creates => exact hinsert _
  | endows => exact (htransfer _ _ _ _).trans (hinsert _)
  | gives_code hop _ code => exact field_entry_set_account _ k _ f (fun x => hcode hop x code) gs

/-- An account stays at its address and keeps its nonce. -/
theorem WorldCase.address_and_nonce (h : WorldCase gs c gs') (hk : k ∈ gs.accounts) :
    address_and_nonce k gs' = address_and_nonce k gs :=
  h.field (f := fun x => (x.address, x.nonce)) (fun _ _ => rfl) (fun _ _ _ => rfl) hk

/-- `CREATE` is about to be carried out in `c`, and its operands can be taken. -/
structure Creating (c : Context Address) : Prop where
  op : c.next_op = some .CREATE
  operands : ∃ v code c', create_operands c = .ok (v, code) c'

/-- Where an account that is new has come from. -/
theorem WorldCase.new (h : WorldCase gs c gs') (hk : k ∈ gs'.accounts) :
    k ∈ gs.accounts ∨ Looks c k ∨ (Creating c ∧ k = new_address gs c) := by
  have htransfer : ∀ {this other amount} {g : SimpleGlobalState}, k ∈ (transfer this other amount g).accounts →
      k ∈ g.accounts := fun h => mem_set_balance.1 (mem_set_balance.1 h)
  have hlooks : ∀ {addr}, Looks c addr → k ∈ (GlobalState.get addr gs : Address × _).2.accounts → k ∈ gs.accounts ∨ Looks c k := by
    intro addr h hk
    rcases (mem_get_iff addr gs).1 hk with rfl | hk
    · exact .inr h
    · exact .inl hk
  have hcreated : ∀ {v}, k ∈ (created gs c v).2.accounts → k ∈ gs.accounts ∨ k = new_address gs c :=
    fun hk => ((mem_create_iff _ _ _ gs).1 hk).symm
  cases h with
  | same => exact .inl hk
  | stores | removes => exact .inl ((mem_set_storage _).1 hk)
  | looks h => exact (hlooks h hk).imp_right .inl
  | pays h => exact (hlooks h (htransfer hk)).imp_right .inl
  | creates hop hops => exact (hcreated hk).imp_right fun h => .inr ⟨⟨hop, _, _, _, hops⟩, h⟩
  | endows hop hops => exact (hcreated (htransfer hk)).imp_right fun h => .inr ⟨⟨hop, _, _, _, hops⟩, h⟩
  | gives_code => exact .inl ((mem_set_account _).1 hk)

/-- The assertion of `insert` fails only where an account is created at an address that is taken. -/
theorem WorldCase.assert_failed (h : WorldCase gs c gs') (hnew : Creating c → new_address gs c ∉ gs.accounts) :
    gs'.assert_failed = gs.assert_failed := by
  have hget : ∀ addr, (GlobalState.get addr gs : Address × _).2.assert_failed = gs.assert_failed := by
    intro addr
    by_cases h : addr ∈ gs.accounts
    · rw [get_of_mem h]
    · rw [get_of_not_mem h]
  have hcreated : ∀ {v}, new_address gs c ∉ gs.accounts → (created gs c v).2.assert_failed = gs.assert_failed := by
    intro v h
    have hi := insert_of_not_mem (e := ({ address := new_address gs c, balance := v, code := [] }, ∅)) h
    change (SimpleGlobalState.insert ({ address := new_address gs c, balance := v, code := [] }, ∅) gs).assert_failed = _
    rw [hi]
  cases h with
  | same | stores | removes | gives_code => rfl
  | looks => exact hget _
  | pays => exact hget _
  | creates hop hops => exact hcreated (hnew ⟨hop, _, _, _, hops⟩)
  | endows hop hops => exact hcreated (hnew ⟨hop, _, _, _, hops⟩)

/-- A creation takes its address. -/
theorem CreateCase.mem {p : Processor SimpleGlobalState Address} {cs r} (h : CreateCase p c cs r) (hc : Creating c) :
    new_address p.gs c ∈ (final r).gs.accounts := by
  have hmem : ∀ v, new_address p.gs c ∈ (created p.gs c v).2.accounts := fun v => (mem_create _ v [] p.gs).2
  obtain ⟨v, code, c', hops⟩ := hc.operands
  cases h with
  | refused _ hno => exact absurd hops (hno _ _)
  | unpaid => exact hmem _
  | paid _ _ h =>
    rw [h.sameList.1]
    exact mem_set_balance.2 (mem_set_balance.2 (hmem _))

/-! ## A run -/

/-- A state of a run that is about to create an account. -/
structure Creates (p : Processor SimpleGlobalState Address) (c : Context Address) : Prop where
  top : ∃ cs, p.ctxts = c :: cs
  creating : Creating c

/-- `q` is a later state of the run than `p`. -/
abbrev Later (p q : Processor SimpleGlobalState Address) : Prop := Relation.TransGen (Loop.Next iterate) p q

variable {p q : Processor SimpleGlobalState Address}

theorem Creates.mem_next {p' : Processor SimpleGlobalState Address} (h : Creates p c) (hn : iterate p = .next p') :
    new_address p.gs c ∈ p'.gs.accounts := by
  obtain ⟨cs, hp⟩ := h.top
  have hm := (dispatch_create hp h.creating.op).mem h.creating
  obtain ⟨c', cs', hp', hv, -⟩ := next_cases hn
  rw [hp] at hp'
  cases hp'
  rw [iterate_valid hp hv] at hn
  rw [(after_dispatch_sameWorld.1 p' hn).1]
  exact hm

/-- What is in the world stays there, at its address and with its nonce. -/
theorem stays_of_reaches (hr : Loop.Reaches iterate p q) (hk : k ∈ p.gs.accounts) :
    k ∈ q.gs.accounts ∧ address_and_nonce k q.gs = address_and_nonce k p.gs := by
  refine (run_effect (P := fun q => k ∈ q.gs.accounts ∧ address_and_nonce k q.gs = address_and_nonce k p.gs)
    ⟨hk, rfl⟩ ?_).1 q hr
  intro t c cs t' _ _ h he
  exact ⟨he.world.mem h.1, (he.world.address_and_nonce h.1).trans h.2⟩

theorem Creates.mem_later (h : Creates p c) (hl : Later p q) : new_address p.gs c ∈ q.gs.accounts := by
  obtain ⟨p', hn, hr⟩ := Relation.TransGen.head'_iff.1 hl
  exact (stays_of_reaches hr (h.mem_next hn)).1

/-- Every account of a state was there at the start, or has been looked up or created since. -/
theorem origin_of_mem {p0 : Processor SimpleGlobalState Address} (hr : Loop.Reaches iterate p0 q) (hk : k ∈ q.gs.accounts) :
    k ∈ p0.gs.accounts ∨ ∃ p c cs, Loop.Reaches iterate p0 p ∧ Later p q ∧ p.ctxts = c :: cs ∧
      (Looks c k ∨ (Creating c ∧ k = new_address p.gs c)) := by
  induction hr with
  | refl => exact .inl hk
  | @tail q q' hr hn ih =>
    obtain ⟨c, cs, hq, -, -⟩ := next_cases hn
    rcases ((turn_effect hq).1 q' hn).world.new hk with hk | hk
    · rcases ih hk with hk | ⟨p, c, cs, hp, hl, hrest⟩
      · exact .inl hk
      · exact .inr ⟨p, c, cs, hp, hl.tail hn, hrest⟩
    · exact .inr ⟨q, c, cs, hr, .single hn, hq, hk⟩

/-! ## Fresh addresses -/

/-- The hash tells the preimages apart that occur in the run. -/
structure HashInjective (p0 : Processor SimpleGlobalState Address) : Prop where
  eq : ∀ p q c d, Loop.Reaches iterate p0 p → Loop.Reaches iterate p0 q → Creates p c → Creates q d →
    hash20 (preimage (get_address c.as p.gs) (get_nonce c.as p.gs)) =
      hash20 (preimage (get_address d.as q.gs) (get_nonce d.as q.gs)) →
    preimage (get_address c.as p.gs) (get_nonce c.as p.gs) = preimage (get_address d.as q.gs) (get_nonce d.as q.gs)

/-- No address that the run generates is in the world at the start, or looked up before it is created. -/
structure Untouched (p0 : Processor SimpleGlobalState Address) : Prop where
  absent : ∀ q d, Loop.Reaches iterate p0 q → Creates q d → new_address q.gs d ∉ p0.gs.accounts
  looked_up : ∀ p q c cs d, Loop.Reaches iterate p0 p → Loop.Reaches iterate p q → p.ctxts = c :: cs → Creates q d →
    Looks c (new_address q.gs d) →
    ∃ p1 c1, Loop.Reaches iterate p0 p1 ∧ Later p1 p ∧ Creates p1 c1 ∧ new_address p1.gs c1 = new_address q.gs d

/-- The creations of an account have different addresses or nonces, each is at an address that is free, and the assertion
of `insert` does not fail. -/
structure NeverCollides (p0 : Processor SimpleGlobalState Address) : Prop where
  distinct : ∀ p q c d, Loop.Reaches iterate p0 p → Later p q → Creates p c → Creates q d → c.as = d.as →
    address_and_nonce c.as p.gs ≠ address_and_nonce d.as q.gs
  fresh : ∀ p c, Loop.Reaches iterate p0 p → Creates p c → new_address p.gs c ∉ p.gs.accounts
  assert_reached : ∀ p, Loop.Reaches iterate p0 p → p.gs.assert_failed = false
  assert_end : ∀ r, Loop.Ends iterate p0 r → (final r).gs.assert_failed = false

/-- No two creations of the run are by one account, or by two that have one address and one nonce. -/
structure CreatesOnce (p0 : Processor SimpleGlobalState Address) : Prop where
  once : ∀ p q c d, Loop.Reaches iterate p0 p → Later p q → Creates p c → Creates q d → c.as ≠ d.as
  apart : ∀ p q c d, Loop.Reaches iterate p0 p → Later p q → Creates p c → Creates q d → c.as ≠ d.as →
    address_and_nonce c.as q.gs ≠ address_and_nonce d.as q.gs

omit [Keccak] in
theorem Creates.mem_ctxts (h : Creates p c) : c ∈ p.ctxts := by
  obtain ⟨cs, hp⟩ := h.top
  simp [hp]

/-- Accounts of one address and nonce create at one address. -/
theorem new_address_eq {d : Context Address} (h : address_and_nonce c.as gs = address_and_nonce d.as gs') :
    new_address gs c = new_address gs' d := by
  unfold new_address
  rw [show get_address c.as gs = get_address d.as gs' from congrArg Prod.fst h,
    show get_nonce c.as gs = get_nonce d.as gs' from congrArg Prod.snd h]

variable {gs0 : SimpleGlobalState} {tx : Transaction} {tr : Option (List TraceEvent)} {caller callee : Address}
  {input : Bytes} {call_value : Word}

/-- The account that creates is in the world from then on, at its address and with its nonce. -/
theorem Creates.creator_stays (h : Creates p c) (hcallee : callee ∈ gs0.accounts)
    (hp : Loop.Reaches iterate (start gs0 tx tr caller callee input call_value) p) (hl : Later p q) :
    c.as ∈ q.gs.accounts ∧ address_and_nonce c.as q.gs = address_and_nonce c.as p.gs :=
  stays_of_reaches hl.to_reflTransGen (mem_of_reaches hcallee hp h.mem_ctxts)

/-- In a run that creates once for each account every creation is at an address that is free. -/
theorem fresh_of_createsOnce (hcallee : callee ∈ gs0.accounts)
    (hinj : HashInjective (start gs0 tx tr caller callee input call_value))
    (huntouched : Untouched (start gs0 tx tr caller callee input call_value))
    (h : CreatesOnce (start gs0 tx tr caller callee input call_value))
    (hr : Loop.Reaches iterate (start gs0 tx tr caller callee input call_value) q) {d : Context Address}
    (hd : Creates q d) : new_address q.gs d ∉ q.gs.accounts := by
  intro hmem
  -- an earlier creation at this address would be by the same account or by one of the same address and nonce
  have key : ∀ p c, Loop.Reaches iterate (start gs0 tx tr caller callee input call_value) p → Later p q →
      Creates p c → new_address p.gs c ≠ new_address q.gs d := by
    intro p c hp hl hc heq
    have hne := h.once p q c d hp hl hc hd
    obtain ⟨ha, hn⟩ := preimage_inj (hinj.eq p q c d hp hr hc hd (hash20_eq_of_generate_address heq))
    have hstays := (hc.creator_stays hcallee hp hl).2
    refine h.apart p q c d hp hl hc hd hne (hstays.trans ?_)
    exact Prod.ext ha hn
  rcases origin_of_mem hr hmem with hstart | ⟨p, c, cs, hp, hl, hctxts, hlooks | ⟨hc, heq⟩⟩
  · exact huntouched.absent q d hr hd hstart
  · obtain ⟨p1, c1, hp1, hl1, hc1, heq⟩ := huntouched.looked_up p q c cs d hp hl.to_reflTransGen hctxts hd hlooks
    exact key p1 c1 hp1 (hl1.trans hl) hc1 heq
  · exact key p c hp hl ⟨⟨cs, hctxts⟩, hc⟩ heq.symm

/-- **Creations.** Under the assumptions on the hash and on the addresses, the creations of a run do not collide just when
no account creates twice. -/
theorem never_collides_iff (hcallee : callee ∈ gs0.accounts) (hassert : gs0.assert_failed = false)
    (hinj : HashInjective (start gs0 tx tr caller callee input call_value))
    (huntouched : Untouched (start gs0 tx tr caller callee input call_value)) :
    NeverCollides (start gs0 tx tr caller callee input call_value) ↔
      CreatesOnce (start gs0 tx tr caller callee input call_value) := by
  constructor
  · intro h
    -- the second of two creations meets the address of the first
    have key : ∀ p q c d, Loop.Reaches iterate (start gs0 tx tr caller callee input call_value) p → Later p q →
        Creates p c → Creates q d → address_and_nonce c.as q.gs ≠ address_and_nonce d.as q.gs := by
      intro p q c d hp hl hc hd heq
      have hstays := (hc.creator_stays hcallee hp hl).2
      have hnew := new_address_eq (hstays.symm.trans heq)
      exact h.fresh q d (hp.trans hl.to_reflTransGen) hd (hnew ▸ hc.mem_later hl)
    refine ⟨?_, fun p q c d hp hl hc hd _ => key p q c d hp hl hc hd⟩
    intro p q c d hp hl hc hd heq
    exact key p q c d hp hl hc hd (by rw [heq])
  · intro h
    have hfresh := fun p c hp hc => fresh_of_createsOnce hcallee hinj huntouched h (q := p) hp (d := c) hc
    have hassert : (∀ p, Loop.Reaches iterate (start gs0 tx tr caller callee input call_value) p →
        p.gs.assert_failed = false) ∧ ∀ r, Loop.Ends iterate (start gs0 tx tr caller callee input call_value) r →
        (final r).gs.assert_failed = false := by
      refine run_effect (P := fun p : Processor SimpleGlobalState Address => p.gs.assert_failed = false) hassert ?_
      intro p c cs p' hp hctxts hf he
      rw [he.world.assert_failed fun hc => hfresh p c hp ⟨⟨cs, hctxts⟩, hc⟩]
      exact hf
    refine ⟨?_, hfresh, hassert.1, hassert.2⟩
    intro p q c d hp hl hc hd heq
    exact absurd heq (h.once p q c d hp hl hc hd)

/-- Where each account is at its own address, only creations by one account have one address and one nonce. -/
theorem createsOnce_of_keyed (hkeyed : Keyed gs0) (hcallee : callee ∈ gs0.accounts)
    (hone : ∀ p q c d, Loop.Reaches iterate (start gs0 tx tr caller callee input call_value) p → Later p q → Creates p c →
      Creates q d → c.as ≠ d.as) : CreatesOnce (start gs0 tx tr caller callee input call_value) := by
  refine ⟨hone, ?_⟩
  intro p q c d hp hl hc hd hne heq
  have hq : Loop.Reaches iterate (start gs0 tx tr caller callee input call_value) q := hp.trans hl.to_reflTransGen
  have hk : Keyed q.gs := by
    refine (run_effect (P := fun q => Keyed q.gs) hkeyed ?_).1 q hq
    intro _ _ _ _ _ _ h he
    exact he.world.keyed h
  have hcm := (hc.creator_stays hcallee hp hl).1
  have hdm := mem_of_reaches hcallee hq hd.mem_ctxts
  have ha : get_address c.as q.gs = get_address d.as q.gs := congrArg Prod.fst heq
  rw [hk.address hcm, hk.address hdm] at ha
  exact hne ha

end

/-! ## Two runs -/

/-- The code of account 100 creates an account for each `CREATE` of it; the init code is a lone `STOP`. -/
def creating_world (code : Code) : SimpleGlobalState := .of_accounts [{ address := 100, code }]

def creating_start (code : Code) : Processor SimpleGlobalState Address :=
  start (creating_world code) { origin := 1 } none 1 100 [] 0

def once_code : Code := [0x60, 1, 0x60, 0, 0x60, 0, 0xf0, 0x00]
def twice_code : Code := [0x60, 1, 0x60, 0, 0x60, 0, 0xf0, 0x60, 1, 0x60, 0, 0x60, 0, 0xf0, 0x00]

/-- Only account 100 creates, and nothing is looked up. -/
def creates_only (p : Processor SimpleGlobalState Address) : Bool :=
  p.ctxts.all fun c => (c.next_op = some .CREATE → address_and_nonce c.as p.gs = (100, 0)) ∧
    c.next_op ∉ [some .BALANCE, some .EXTCODESIZE, some .EXTCODECOPY, some .SELFDESTRUCT, some .CALL, some .CALLCODE,
      some .DELEGATECALL]

/-- The assumptions hold of such a run: one preimage occurs in it. -/
theorem assumptions_of_creates_only {code : Code} {fuel : Nat}
    (h : Loop.all (@iterate _ _ _ no_hash) creates_only fuel (creating_start code) = true)
    (h0 : 0 ∉ (creating_world code).accounts) :
    @HashInjective no_hash (creating_start code) ∧ @Untouched no_hash (creating_start code) := by
  have hall : ∀ p c, @Loop.Reaches _ _ (@iterate _ _ _ no_hash) (creating_start code) p → c ∈ p.ctxts →
      (c.next_op = some .CREATE → address_and_nonce c.as p.gs = (100, 0)) ∧
        c.next_op ∉ [some .BALANCE, some .EXTCODESIZE, some .EXTCODECOPY, some .SELFDESTRUCT, some .CALL, some .CALLCODE,
          some .DELEGATECALL] := by
    intro p c hr hc
    exact of_decide_eq_true (List.all_eq_true.1 (hr.of_all h) c hc)
  refine ⟨@HashInjective.mk no_hash _ ?_, @Untouched.mk no_hash _ ?_ ?_⟩
  · intro p q c d hp hq hc hd _
    have heq := ((hall p c hp hc.mem_ctxts).1 hc.creating.op).trans ((hall q d hq hd.mem_ctxts).1 hd.creating.op).symm
    rw [show get_address c.as p.gs = get_address d.as q.gs from congrArg Prod.fst heq,
      show get_nonce c.as p.gs = get_nonce d.as q.gs from congrArg Prod.snd heq]
  · intro q d hq hd
    exact h0
  · intro p q c cs d hp _ hctxts _ hlooks
    have hno := (hall p c hp (by simp [hctxts])).2
    generalize @new_address _ _ _ no_hash q.gs d = k at hlooks
    cases hlooks with
    | account hop =>
      simp only [List.mem_cons, not_or] at hop hno
      simp_all
    | call hop hcall =>
      rcases hcall with rfl | rfl | rfl <;> simp [hop] at hno

/-- The next instruction is no `CREATE`. -/
def creates_not (p : Processor SimpleGlobalState Address) : Bool := (p.ctxts.take 1).all (·.next_op ≠ some .CREATE)

/-- If it is one, none comes after it. -/
def creates_last (p : Processor SimpleGlobalState Address) : Bool :=
  creates_not p ||
    match @iterate _ _ _ no_hash p with
    | .next p' => Loop.all (@iterate _ _ _ no_hash) creates_not 10 p'
    | .exit _ => true

theorem not_creates {p : Processor SimpleGlobalState Address} {c : Context Address} (h : creates_not p = true) :
    ¬Creates p c := by
  intro hc
  obtain ⟨cs, hp⟩ := hc.top
  simp [creates_not, hp, hc.creating.op] at h

theorem never_collides_once : @NeverCollides no_hash (creating_start once_code) := by
  have ha := @assumptions_of_creates_only once_code 20 (by rfl) (by decide)
  refine (@never_collides_iff no_hash _ _ _ 1 100 [] 0 (by decide) rfl ha.1 ha.2).2 ?_
  refine @createsOnce_of_keyed no_hash _ _ _ 1 100 [] 0 (keyed_of_accounts _) (by decide) ?_
  intro p q c d hp hl hc hd
  obtain ⟨p', hn, hr⟩ := Relation.TransGen.head'_iff.1 hl
  have hlast : creates_last p = true :=
    @Loop.Reaches.of_all _ _ (@iterate _ _ _ no_hash) creates_last 20 (creating_start once_code) p hp (by rfl)
  rw [creates_last, show @iterate _ _ _ no_hash p = .next p' from hn, Bool.or_eq_true] at hlast
  rcases hlast with hno | hlater
  · exact absurd hc (not_creates hno)
  · exact absurd hd (not_creates (@Loop.Reaches.of_all _ _ (@iterate _ _ _ no_hash) _ 10 p' q hr hlater))

/-- The second `CREATE` of an account is at the address of the first, and the assertion fails. -/
theorem creations_collide : @HashInjective no_hash (creating_start twice_code) ∧
    @Untouched no_hash (creating_start twice_code) ∧ ¬@NeverCollides no_hash (creating_start twice_code) := by
  have ha := @assumptions_of_creates_only twice_code 20 (by rfl) (by decide)
  refine ⟨ha.1, ha.2, ?_⟩
  intro h
  have hr : @Loop.Reaches _ _ (@iterate _ _ _ no_hash) (creating_start twice_code) _ :=
    .of_steps (show @Loop.steps _ _ (@iterate _ _ _ no_hash) 9 (creating_start twice_code) = some _ from rfl)
  have hf := @NeverCollides.assert_reached no_hash _ h _ hr
  exact absurd hf (by decide)

end Processor

end EEVM

import EEVM.Codes
/-!
# How a creation is reported (processor.cpp:206-233, 1196-1222, 1245-1263)

The three closures of `create` tell the creator how the init code has ended. The one for a return is to set the code of the
new account and to report its address, but its reference to the account dangles by then. The other two push a 0. So init
code that halts, with `STOP` or by running off its end, is reported as a failure, though the account is there, and what
is left is exceptions, where the new account has not had code before.
-/
namespace EEVM

open Std ExcState

namespace Processor

open SimpleGlobalState

variable {p p' q s q1 : Processor SimpleGlobalState Address} {c c' f g : Context Address} {cs : List (Context Address)}
  {way : Finish} {newAcc k : Address} {gs gs' : SimpleGlobalState} {ex : Exception}

/-- Whether the init code has succeeded. -/
def Finish.succeeds : Finish → Bool
  | .returns _ | .halts => true
  | .throws => false

/-- What the init code has returned. -/
def Finish.output : Finish → Bytes
  | .returns o => o
  | .halts | .throws => []

/-- In `s` the creator is on top again, above `cs`, with the report on its stack `st`: the address of `newAcc` if its init
code has succeeded, 0 if not. What has been returned is the code of `newAcc`. And nothing undefined has been done. -/
structure Reports (newAcc : Address) (way : Finish) (st : Stack) (cs : List (Context Address))
    (s : Processor SimpleGlobalState Address) : Prop where
  creator : ∃ d, s.ctxts = d :: cs ∧ d.s = (if way.succeeds then get_address newAcc s.gs else 0) :: st
  code : get_code newAcc s.gs = way.output
  defined : s.dangling = false

/-- The address of the account at `newAcc` once it has been created in `gs`, where it may have been before. -/
def created_address (newAcc : Address) (gs : SimpleGlobalState) : Address :=
  if newAcc ∈ gs.accounts then get_address newAcc gs else newAcc

/-- The report of `way` is right, where `gs` is the world before the creation. -/
def Reportable (newAcc : Address) (gs : SimpleGlobalState) : Finish → Prop
  | .returns _ => False
  | .halts => created_address newAcc gs = 0 ∧ get_code newAcc gs = []
  | .throws => get_code newAcc gs = []

section

variable [Keccak]

/-! ## What has been created -/

theorem get_address_created (gs : SimpleGlobalState) (c : Context Address) (v : Word) :
    get_address (new_address gs c) (created gs c v).2 = created_address (new_address gs c) gs := by
  have hi : (created gs c v).2 = gs.insert ({ address := new_address gs c, balance := v, code := [] }, ∅) := rfl
  change (entry (new_address gs c) (created gs c v).2).1.address = _
  rw [created_address, hi]
  by_cases h : new_address gs c ∈ gs.accounts
  · rw [entry_insert_of_mem h, if_pos h]
    rfl
  · rw [entry_eq, getElem?_insert, if_pos ⟨rfl, h⟩, if_neg h]
    rfl

/-- A creation that opens a context: the handlers are those of the new account, which is there, at its address. -/
theorem create_opens (hp : p.ctxts = c :: cs) (hop : c.next_op = some .CREATE) (hn : iterate p = .next p')
    (hp' : p'.ctxts = f :: c' :: cs) :
    f.handlers = .create (new_address p.gs c) ∧ c'.s = c.s.drop 3 ∧ new_address p.gs c ∈ p'.gs.accounts ∧
      get_address (new_address p.gs c) p'.gs = created_address (new_address p.gs c) p.gs := by
  obtain ⟨p1, g, op, hop', hcall, hd, h1, rfl, hworld⟩ := opened_of_next hp hn hp'
  obtain rfl : op = .CREATE := Option.some.inj (hop'.symm.trans hop)
  have hd' : create (traced p c) = .ok () p1 := by
    rw [← hd, dispatch_eq hp, hop]
    rfl
  obtain ⟨v, code, d, hops, -, rfl⟩ := create_eq_ok (p := traced p c) hp hd'
  cases h1
  refine ⟨step_handlers _, ?_, ?_, ?_⟩
  · rw [(create_operands_eq_ok hops).1]
  · rw [hworld.1]
    exact mem_set_balance.2 (mem_set_balance.2 (mem_create (new_address p.gs c) v [] p.gs).2)
  · rw [hworld.1, ← get_address_created p.gs c v]
    exact field_entry_transfer SimpleAccount.address (fun _ _ => rfl) _ _ _ _ _

/-- The turn from `p` to `p'` is a creation: `c` opens the context `f` of the init code and waits as `c'` above `cs`. The
init code has been carried out up to `q`. -/
structure Initialises (p p' q : Processor SimpleGlobalState Address) (c c' f : Context Address)
    (cs : List (Context Address)) : Prop where
  creator : p.ctxts = c :: cs
  next_op : c.next_op = some .CREATE
  opens : iterate p = .next p'
  opened : p'.ctxts = f :: c' :: cs
  above : Above p.ctxts.length p' q

namespace Initialises

theorem stands (h : Initialises p p' q c c' f cs) (hs : Shaped p.ctxts) :
    Shaped q.ctxts ∧ Nesting.Stands SameFrame f (c' :: cs) q.ctxts :=
  stands_of_opened hs h.creator h.opens h.opened h.above

theorem reaches (h : Initialises p p' q c c' f cs) : Loop.Reaches iterate p q := .of_next h.opens (Above.reaches h.above)

end Initialises

/-! ## The turn in which the init code ends -/

theorem TurnsTo.turned {ds : List (Context Address)} (ht : TurnsTo q s) (hq : q.ctxts = g :: ds) : Turned q g s ∧ WorldCase q.gs g s.gs := by
  rcases ht with hn | hx
  · exact ⟨(Processor.turned hq).1 s hn, ((turn_effect hq).1 s hn).world⟩
  · exact ⟨(Processor.turned hq).2 _ hx, ((turn_effect hq).2 _ hx).world⟩

theorem TurnsTo.dangling_iff {p0 : Processor SimpleGlobalState Address} (ht : TurnsTo q s) (h0 : p0.dangling = false)
    (hr : Loop.Reaches iterate p0 q) :
    s.dangling = false ↔ ∀ t, Loop.Reaches iterate p0 t → Loop.Reaches iterate t q → ¬ReturnsInit t := by
  have hs : iterate q = .next s ∨ ∃ r, iterate q = .exit r ∧ final r = s := ht.imp_right fun hx => ⟨_, hx, rfl⟩
  rw [← Bool.not_eq_true, Processor.dangling_iff h0 hr hs]
  simp only [not_exists, not_and]

/-- As long as no init code returns, the new account has the code it had, at its address. -/
theorem Initialises.account (h : Initialises p p' q c c' f cs)
    (hno : ∀ t, Loop.Reaches iterate p t → Loop.Reaches iterate t q → ¬ReturnsInit t) (hq : q.ctxts ≠ [])
    (ht : TurnsTo q s) :
    get_address (new_address p.gs c) s.gs = created_address (new_address p.gs c) p.gs ∧
      get_code (new_address p.gs c) s.gs = get_code (new_address p.gs c) p.gs := by
  obtain ⟨g, gs, hg⟩ := List.exists_cons_of_ne_nil hq
  obtain ⟨hturned, hworld⟩ := ht.turned hg
  obtain ⟨-, -, hmem, haddress⟩ := create_opens h.creator h.next_op h.opens h.opened
  obtain ⟨hmem', hsame⟩ := stays_of_reaches (Above.reaches h.above) hmem
  constructor
  · rw [← haddress]
    exact congrArg Prod.fst ((hworld.address_and_nonce hmem').trans hsame)
  · rw [hturned.code_same hg (hno q h.reaches .refl), code_of_reaches h.reaches hno]

/-- The context of the init code is the one of the new account when it ends. -/
theorem Initialises.returnsInit {o : Bytes} (h : Initialises p p' q c c' f cs) (hs : Shaped p.ctxts)
    (hf : Finishes q (c' :: cs) (.returns o)) : ReturnsInit q := by
  obtain ⟨-, hst⟩ := h.stands hs
  cases hf with
  | returns hq hv hop hops =>
    rw [hq] at hst
    have hsame := (hst.eq_of_length_le (Nat.le_refl _)).2
    have hh := (create_opens h.creator h.next_op h.opens h.opened).1
    exact ⟨_, _, hq, hop, ⟨_, hsame.handlers.trans hh⟩, o, _, hops⟩

/-- What is left of a creation whose init code halts or throws: the creator has to have room for the 0, and it has to be
the right report. -/
theorem Initialises.reports_iff {p0 : Processor SimpleGlobalState Address} (h : Initialises p p' q c c' f cs)
    (hs : Shaped p.ctxts) (h0 : p0.dangling = false) (hr : Loop.Reaches iterate p0 p)
    (hno : ∀ t, Loop.Reaches iterate p0 t → Loop.Reaches iterate t q → ¬ReturnsInit t) (hf : Finishes q (c' :: cs) way)
    (hway : ∀ o, way ≠ .returns o) :
    (∃ s, TurnsTo q s ∧ Reports (new_address p.gs c) way c'.s cs s) ↔ c'.s.length ≠ Stack.MAX_SIZE ∧
      (if way.succeeds then created_address (new_address p.gs c) p.gs else 0) = 0 ∧
        get_code (new_address p.gs c) p.gs = way.output := by
  obtain ⟨hshaped, hst⟩ := h.stands hs
  have hne : q.ctxts ≠ [] := by
    intro hnil
    have hlt := hst.length_lt
    simp [hnil] at hlt
  have haccount : ∀ s, TurnsTo q s → get_address (new_address p.gs c) s.gs = created_address (new_address p.gs c) p.gs ∧
      get_code (new_address p.gs c) s.gs = get_code (new_address p.gs c) p.gs :=
    fun s ht => h.account (fun t hpt => hno t (hr.trans hpt)) hne ht
  have hword : way.word f.handlers = 0 := by
    rw [(create_opens h.creator h.next_op h.opens h.opened).1]
    cases way <;> rfl
  obtain ⟨htold, htold'⟩ := hf.told hshaped hst hway
  constructor
  · rintro ⟨s, ht, ⟨d, hd, hds⟩, hcode, -⟩
    obtain ⟨hroom, -, hds'⟩ := htold' s d ht hd
    obtain ⟨haddress, hsame⟩ := haccount s ht
    rw [hds', hword, haddress] at hds
    exact ⟨hroom, (List.cons.inj hds).1.symm, hsame.symm.trans hcode⟩
  · rintro ⟨hroom, hzero, hcode⟩
    obtain ⟨s, d, ht, hd⟩ := htold hroom
    obtain ⟨haddress, hsame⟩ := haccount s ht
    refine ⟨s, ht, ⟨d, hd, ?_⟩, hsame.trans hcode, (ht.dangling_iff h0 (hr.trans h.reaches)).2 hno⟩
    rw [(htold' s d ht hd).2.2, hword, haddress, hzero]

/-- **Creations.** Of every creation in every run, and every way its init code ends (there is no further one): the creator
is told what has happened just where its stack has room for it, no init code has returned before or does so now, and an
exception has ended the init code of an account without code, or it has halted and 0 is the address of such an account. -/
theorem creation_reported_iff {gs : SimpleGlobalState} {tx : Transaction} {tr : Option (List TraceEvent)} {caller : Address}
    {callee : Address} {input : Bytes} {call_value : Word}
    (hr : Loop.Reaches iterate (start gs tx tr caller callee input call_value) p) (h : Initialises p p' q c c' f cs) :
    (∀ s, TurnsTo q s → s.ctxts.length ≤ (c' :: cs).length → ∃ way, Finishes q (c' :: cs) way) ∧
      ∀ way, Finishes q (c' :: cs) way →
        ((∃ s, TurnsTo q s ∧ Reports (new_address p.gs c) way (c.s.drop 3) cs s) ↔
          (c.s.drop 3).length ≠ Stack.MAX_SIZE ∧
            (∀ t, Loop.Reaches iterate (start gs tx tr caller callee input call_value) t → Loop.Reaches iterate t q →
              ¬ReturnsInit t) ∧
            Reportable (new_address p.gs c) p.gs way) := by
  have hs := (shaped_of_reaches hr).1
  obtain ⟨hshaped, hst⟩ := h.stands hs
  have hrq := hr.trans h.reaches
  refine ⟨fun s => finishes_of_length_le hshaped hst, fun way hf => ?_⟩
  rw [← (create_opens h.creator h.next_op h.opens h.opened).2.1]
  by_cases hno : ∀ t, Loop.Reaches iterate (start gs tx tr caller callee input call_value) t → Loop.Reaches iterate t q →
      ¬ReturnsInit t
  case neg =>
    constructor
    · rintro ⟨s, ht, hreports⟩
      exact absurd ((ht.dangling_iff rfl hrq).1 hreports.defined) hno
    · exact fun hright => absurd hright.2.1 hno
  rw [and_iff_right hno]
  have hother := h.reports_iff hs rfl hr hno hf
  cases way with
  | returns o => exact absurd (h.returnsInit hs hf) (hno q hrq .refl)
  | halts => exact hother nofun
  | throws =>
    rw [hother nofun]
    simp [Finish.succeeds, Finish.output, Reportable]

end

/-- Keccak-256 of `c26480`, the RLP of account 100 and its nonce 0; nothing else is hashed in the runs below. -/
@[reducible] def hash_of_100 : Keccak :=
  ⟨fun _ => #v[0x6b, 0xdb, 0xa2, 0xfb, 0x84, 0xc7, 0x86, 0x26, 0x6e, 0xec, 0xb3, 0x92, 0xac, 0x1b, 0x5a, 0x03, 0x99, 0x76,
    0xbc, 0x86, 0xe9, 0xd7, 0x34, 0x6d, 0x75, 0xb7, 0xf6, 0xac, 0x8a, 0x5b, 0xc4, 0x50]⟩

/-- Creates an account with the init code `fe`, which is no instruction. -/
def failing_init_code : Bytes := [0x60, 0xfe, 0x60, 0, 0x53, 0x60, 1, 0x60, 0, 0x60, 0, 0xf0]

theorem creation_reported_of_throw : ∃ p p' q c c' f,
    @Loop.Reaches _ _ (@iterate _ _ _ hash_of_100) (init_code_start failing_init_code) p ∧
    @Initialises hash_of_100 p p' q c c' f [] ∧ @Finishes _ _ _ hash_of_100 q [c'] .throws ∧
    ∃ s, @TurnsTo _ _ _ hash_of_100 q s ∧ Reports (@new_address _ _ _ hash_of_100 p.gs c) .throws (c.s.drop 3) [] s := by
  have hr : @Loop.Reaches _ _ (@iterate _ _ _ hash_of_100) (init_code_start failing_init_code) _ :=
    .of_steps (show @Loop.steps _ _ (@iterate _ _ _ hash_of_100) 6 (init_code_start failing_init_code) = some _ from rfl)
  have hno := @not_returnsInit_of_all _ _ _ hash_of_100 (init_code_start failing_init_code) 12 rfl
  have key := fun p p' q c c' f (hr : @Loop.Reaches _ _ (@iterate _ _ _ hash_of_100) (init_code_start failing_init_code) p)
    (h : @Initialises hash_of_100 p p' q c c' f []) (hf : @Finishes _ _ _ hash_of_100 q [c'] .throws)
    (hroom : (c.s.drop 3).length ≠ Stack.MAX_SIZE)
    (hcode : get_code (@new_address _ _ _ hash_of_100 p.gs c) p.gs = []) =>
      And.intro h (And.intro hf ((((@creation_reported_iff _ _ _ _ _ _ _ hash_of_100 _ _ _ _ _ _ _ hr h).2 _ hf).2
        ⟨hroom, fun t ht _ => hno t ht, hcode⟩)))
  exact ⟨_, _, _, _, _, _, hr, key _ _ _ _ _ _ hr
    (@Initialises.mk hash_of_100 _ _ _ _ _ _ _ rfl rfl rfl rfl .refl)
    (@Finishes.throws _ _ _ hash_of_100 _ _ _ _ _ (@Raises.mk _ _ _ hash_of_100 _ _ _ ⟨_, _, rfl, rfl⟩ rfl) rfl) (by decide) rfl⟩

/-- The init code is a lone `STOP`; the account is there, with the address the creator is not told. -/
theorem halt_reported_as_failure : ∃ p p' q c c' f,
    @Loop.Reaches _ _ (@iterate _ _ _ hash_of_100) (init_code_start [0x60, 1, 0x60, 0, 0x60, 0, 0xf0]) p ∧
    @Initialises hash_of_100 p p' q c c' f [] ∧ @Finishes _ _ _ hash_of_100 q [c'] .halts ∧
    ¬∃ s, @TurnsTo _ _ _ hash_of_100 q s ∧ Reports (@new_address _ _ _ hash_of_100 p.gs c) .halts (c.s.drop 3) [] s := by
  have hr : @Loop.Reaches _ _ (@iterate _ _ _ hash_of_100) (init_code_start [0x60, 1, 0x60, 0, 0x60, 0, 0xf0]) _ :=
    .of_steps (show @Loop.steps _ _ (@iterate _ _ _ hash_of_100) 3 (init_code_start [0x60, 1, 0x60, 0, 0x60, 0, 0xf0]) = some _
      from rfl)
  refine ⟨_, _, _, _, _, _, hr, @Initialises.mk hash_of_100 _ _ _ _ _ _ _ rfl rfl rfl rfl .refl,
    @finishes_of_stop _ _ _ hash_of_100 _ _ _ rfl rfl rfl, ?_⟩
  rintro ⟨s, ht | ht, ⟨d, hd, hds⟩, -⟩
  · cases ht
    cases hd
    exact absurd hds (by decide)
  · cases ht

end Processor

end EEVM

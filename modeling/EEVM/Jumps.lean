import EEVM.JumpComments
/-!
# Jump targets (processor.cpp:47-66, 369-376, 948-960)

`JUMP` and `JUMPI` look their destination up in the set that `compute_jump_dests` has made, in which an opcode in the
immediate of a `PUSH` is not. `jumpi` pops the destination with `pop64` before it looks at the condition, so that a
destination above 2^64 - 1 throws although the jump is not taken.
-/
namespace EEVM

open ExcState Disassembler

/-- An opcode that a sweep over the code meets, and a `JUMPDEST`. -/
def AlignedDest (code : Bytes) (i : Nat) : Prop :=
  Sweep.Visits (width code) i ∧ i < code.length ∧ code.getD i 0 = JUMPDEST

theorem mem_jump_dests {prog : Program} {i : Nat} : i ∈ prog.jump_dests ↔ AlignedDest prog.code i := by
  rw [prog.jump_dests_eq, compute_jump_dests_eq, List.mem_filter, mem_positions, decide_eq_true_iff, AlignedDest, and_assoc]

namespace Context

variable {R : Type} {c : Context R} {d cond : Word}

/-- The instruction at the pc is a jump to `d` under the condition `cond`, which for a `JUMP` counts as 1. -/
inductive JumpTo (c : Context R) (d : Word) : Word → Prop
  | jump {s} (hop : c.next_op = some .JUMP) (hs : c.s = d :: s) : c.JumpTo d 1
  | jumpi {cond s} (hop : c.next_op = some .JUMPI) (hs : c.s = d :: cond :: s) : c.JumpTo d cond

theorem JumpTo.jumps (h : c.JumpTo d cond) (hcond : cond ≠ 0) : c.Jumps := by
  cases h with
  | jump hop => exact .inl hop
  | jumpi hop hs => exact .inr ⟨hop, d, cond, _, hs, hcond⟩

theorem JumpTo.top (h : c.JumpTo d cond) : ∃ s, c.s = d :: s := by
  cases h with
  | jump hop hs => exact ⟨_, hs⟩
  | jumpi hop hs => exact ⟨_, hs⟩

end Context

namespace Processor

variable {W R : Type} [GlobalState W R] [Keccak] {p : Processor W R} {c : Context R} {cs : List (Context R)} {d cond : Word}

/-- After the turn the context on top is the one that was there, at `pc`. -/
def ContinuesAt (p : Processor W R) (cs : List (Context R)) (pc : Nat) : Prop :=
  ∃ p' c', iterate p = .next p' ∧ p'.ctxts = c' :: cs ∧ c'.pc = pc

/-- The instruction raises an `eevm::Exception`. -/
def RaisesException (p : Processor W R) : Prop := ∃ ex p1, dispatch p = .error (.exception ex) p1

/-- A jump to `d` under the condition `cond` goes to the instruction-aligned `JUMPDEST`s only, if it is taken. -/
structure JumpExact (p : Processor W R) (c : Context R) (cs : List (Context R)) (d cond : Word) : Prop where
  goes : cond ≠ 0 → (ContinuesAt p cs d.toNat ↔ AlignedDest c.prog.code d.toNat)
  throws : cond ≠ 0 → ¬AlignedDest c.prog.code d.toNat → RaisesException p
  falls : cond = 0 → ContinuesAt p cs (c.pc + 1)

/-- A turn whose instruction raises does not continue in its context. -/
theorem RaisesException.not_continuesAt (h : RaisesException p) (hp : p.ctxts = c :: cs) (pc : Nat) : ¬ContinuesAt p cs pc := by
  rintro ⟨p', c', hn, hp', -⟩
  obtain ⟨ex, p1, herr⟩ := h
  obtain ⟨p2, c2, hok, -⟩ := stays_of_length hn hp hp'
  cases herr.symm.trans hok

/-- A jump that is taken goes to an aligned `JUMPDEST` below 2^64. -/
theorem taken_continuesAt (hp : p.ctxts = c :: cs) (hv : c.pc_valid = true) (hj : c.JumpTo d cond) (hcond : cond ≠ 0)
    (hd : d.toNat < 2 ^ 64) (hdest : AlignedDest c.prog.code d.toNat) : ContinuesAt p cs d.toNat := by
  obtain ⟨s, hs⟩ := hj.top
  obtain ⟨c1, hok, hpc, hch, -⟩ := jump_goes hp (hj.jumps hcond) hs hd (mem_jump_dests.2 hdest)
  refine ⟨{ traced p c with ctxts := c1.step :: cs }, c1.step, ?_, rfl, ?_⟩
  · simp only [iterate_valid hp hv, hok, after_dispatch, step_or_break]
  · simp only [Context.step, hch, if_true, hpc]

/-- And raises at any other destination. -/
theorem taken_raises (hp : p.ctxts = c :: cs) (hj : c.JumpTo d cond) (hcond : cond ≠ 0)
    (hd : 2 ^ 64 ≤ d.toNat ∨ ¬AlignedDest c.prog.code d.toNat) : RaisesException p := by
  obtain ⟨s, hs⟩ := hj.top
  apply jump_throws hp (hj.jumps hcond) hs
  rcases Nat.lt_or_ge d.toNat (2 ^ 64) with hlt | hge
  · right
    rw [toNat_toUInt64 hlt, mem_jump_dests]
    exact hd.resolve_left (Nat.not_le.2 hlt)
  · exact .inl hge

/-- A `JUMPI` that is not taken moves on, when it can pop its destination. -/
theorem not_taken_continuesAt (hp : p.ctxts = c :: cs) (hv : c.pc_valid = true) (hflag : c.pc_changed = false)
    (hj : c.JumpTo d 0) (hd : d.toNat < 2 ^ 64) : ContinuesAt p cs (c.pc + 1) := by
  cases hj with
  | @jumpi _ s hop hs =>
    have hpt : (traced p c).ctxts = c :: cs := hp
    have hm : Op.jumpi c = .ok () { c with s } := by
      rw [Op.jumpi, bind_of_ok (s_pop64_of_lt hs hd), bind_of_ok (s_pop_of_cons rfl), if_neg (not_not.2 rfl)]
      rfl
    have hok : dispatch p = .ok () { traced p c with ctxts := { c with s } :: cs } := by
      rw [dispatch_eq hp, hop]
      change onCtxt Op.jumpi (traced p c) = _
      rw [onCtxt_cons hpt, hm]
    refine ⟨{ traced p c with ctxts := Context.step { c with s } :: cs }, _, ?_, rfl, ?_⟩
    · simp only [iterate_valid hp hv, hok, after_dispatch, step_or_break]
    · simp only [Context.step, hflag, Bool.false_eq_true, if_false]

/-- One whose destination has more than 64 bits raises all the same. -/
theorem not_taken_raises (hp : p.ctxts = c :: cs) (hj : c.JumpTo d 0) (hd : 2 ^ 64 ≤ d.toNat) : RaisesException p := by
  cases hj with
  | jumpi hop hs =>
    have hpt : (traced p c).ctxts = c :: cs := hp
    obtain ⟨ex, c1, hpop⟩ := s_pop64_of_le hs hd
    refine ⟨ex, { traced p c with ctxts := c1 :: cs }, ?_⟩
    rw [dispatch_eq hp, hop]
    change onCtxt Op.jumpi (traced p c) = _
    rw [onCtxt_cons hpt, Op.jumpi, bind_of_error hpop]

/-- **Jumps.** They go to the aligned `JUMPDEST`s only, but a destination of more than 64 bits raises where none is
needed. -/
theorem jump_exact_iff (hp : p.ctxts = c :: cs) (hv : c.pc_valid = true) (hflag : c.pc_changed = false)
    (hj : c.JumpTo d cond) :
    JumpExact p c cs d cond ↔ d.toNat < 2 ^ 64 ∨ cond ≠ 0 ∧ ¬AlignedDest c.prog.code d.toNat := by
  constructor
  · intro h
    by_contra hno
    obtain ⟨hge, hdest⟩ := not_or.1 hno
    have hge : 2 ^ 64 ≤ d.toNat := Nat.le_of_not_lt hge
    by_cases hcond : cond = 0
    · subst hcond
      exact (not_taken_raises hp hj hge).not_continuesAt hp _ (h.falls rfl)
    · have haligned := not_not.1 fun hn => hdest ⟨hcond, hn⟩
      exact (taken_raises hp hj hcond (.inl hge)).not_continuesAt hp _ ((h.goes hcond).2 haligned)
  · intro h
    refine ⟨?_, ?_, ?_⟩
    · intro hcond
      constructor
      · intro hgoes
        by_contra hno
        exact (taken_raises hp hj hcond (.inr hno)).not_continuesAt hp _ hgoes
      · intro haligned
        have hlt := h.resolve_right fun hn => hn.2 haligned
        exact taken_continuesAt hp hv hj hcond hlt haligned
    · intro hcond hno
      exact taken_raises hp hj hcond (.inr hno)
    · rintro rfl
      have hlt := h.resolve_right fun hn => hn.1 rfl
      exact not_taken_continuesAt hp hv hflag hj hlt

/-- A processor at the `JUMPI` of `JUMPI; PUSH1 JUMPDEST; JUMPDEST`, with the destination 3 and the condition 1. -/
def jumpi_to_3 : Processor SimpleGlobalState Address where
  gs := {}
  tx := { origin := 1 }
  ctxts := [{ as := 100, caller := 1, input := [], call_value := 0, prog := .ofCode [0x57, 0x60, 0x5b, 0x5b], handlers := .run
              pc_changed := false, s := [3, 1] }]

omit [Keccak] in
theorem jumpi_to_3_exact : ∃ c, jumpi_to_3.ctxts = [c] ∧ @JumpExact _ _ _ no_hash jumpi_to_3 c [] 3 1 :=
  ⟨_, rfl, (@jump_exact_iff _ _ _ no_hash jumpi_to_3 _ [] 3 1 rfl rfl rfl (.jumpi rfl rfl)).2 (.inl (by decide))⟩

/-- Account 100 has the code `PUSH1 0; PUSH9 2^64; JUMPI; STOP`. -/
def wide_jumpi_start : Processor SimpleGlobalState Address :=
  start (.of_accounts [{ address := 100, code := [0x60, 0, 0x68, 0x01, 0, 0, 0, 0, 0, 0, 0, 0, 0x57, 0x00] }])
    { origin := 1 } none 1 100 [] 0

omit [Keccak] in
/-- Its `JUMPI`, whose condition is 0, does not continue at the `STOP`. -/
theorem wide_jumpi_not_exact : ∃ p c, @Loop.Reaches _ _ (@iterate _ _ _ no_hash) wide_jumpi_start p ∧ p.ctxts = [c] ∧
    c.pc_valid = true ∧ c.pc_changed = false ∧ c.JumpTo 0x10000000000000000 0 ∧
      ¬@JumpExact _ _ _ no_hash p c [] 0x10000000000000000 0 := by
  refine ⟨_, _, .of_steps (show @Loop.steps _ _ (@iterate _ _ _ no_hash) 2 wide_jumpi_start = some _ from rfl), rfl, rfl, rfl,
    .jumpi rfl rfl, ?_⟩
  intro h
  obtain ⟨p', c', hn, hp', -⟩ := @JumpExact.falls _ _ _ no_hash _ _ _ _ _ h rfl
  cases hn

end Processor

end EEVM

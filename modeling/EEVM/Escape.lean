import EEVM.Handlers
import EEVM.Simple
/-!
# What escapes from `run` (processor.cpp:206-227, 378-388, 1035-1056)

`run` catches `eevm::Exception` around `dispatch`. Two things get past it. `safeAdd` throws a `std::overflow_error`, and
`CALLDATALOAD` calls it with every offset a word of up to 64 bits can hold. And a handler that pushes on the stack of
the parent can throw inside the catch block or in the `stop()` after the loop; for that the parent's stack has to hold
exactly `MAX_SIZE` words, which a call leaves behind only where `DUPn` has gone past the limit.
-/
namespace EEVM

open ExcState

/-- `CALLDATALOAD` with an offset from which 32 bytes reach past 2^64. -/
def Context.OffsetOverflow {R : Type} (c : Context R) : Prop :=
  c.next_op = some .CALLDATALOAD ∧ ∃ w s, c.s = w :: s ∧ 2 ^ 64 - 32 ≤ w.toNat ∧ w.toNat < 2 ^ 64

theorem calldataload_overflow {R : Type} {c c' : Context R} {what : String}
    (h : Op.calldataload c = .error (.overflow_error what) c') :
    ∃ w s, c.s = w :: s ∧ 2 ^ 64 - 32 ≤ w.toNat ∧ w.toNat < 2 ^ 64 := by
  have caught : ¬(Thrown.overflow_error what).Caught := by
    rintro ⟨ex, hex⟩
    cases hex
  unfold Op.calldataload at h
  rw [bind_eq_error] at h
  rcases h with h | ⟨offset, c1, h1, h⟩
  · exact absurd (s_pop64_quiet.error h).2 caught
  obtain ⟨w, hs, -, hw⟩ := s_pop64_eq_ok h1
  refine ⟨w, c1.s, hs, ?_⟩
  rw [hw]
  refine ⟨?_, offset.toNat_lt⟩
  rw [bind_eq_error] at h
  rcases h with h | ⟨_, c2, -, h⟩
  · unfold safeAdd at h
    by_cases hlt : offset + WORD_SIZE < offset
    · rw [UInt64.lt_iff_toNat_lt, UInt64.toNat_add] at hlt
      have h32 : WORD_SIZE.toNat = 32 := rfl
      have := offset.toNat_lt
      omega
    · simp only [if_neg hlt] at h
      cases h
  · exact absurd ((get_quiet.bind fun _ => s_push_quiet _).error h).2 caught

namespace Processor

variable {W R : Type}

/-- The context right below the one on top has a full stack. -/
def FullParent (p : Processor W R) : Prop :=
  ∃ c d ds, p.ctxts = c :: d :: ds ∧ d.s.length = Stack.MAX_SIZE

/-- The turn starts with `CALLDATALOAD` of an offset too close to 2^64. -/
def OffsetOverflow (p : Processor W R) : Prop :=
  ∃ c cs, p.ctxts = c :: cs ∧ c.pc_valid = true ∧ c.OffsetOverflow

section

variable {p : Processor W R} {c d : Context R} {cs ds : List (Context R)}

/-- The catch block ends the context on top, and no other, through its own handler. -/
theorem catch_handles (hp : p.ctxts = c :: cs) (hs : Shaped (c :: cs))
    (hf : ∀ d ds, cs = d :: ds → d.s.length ≠ Stack.MAX_SIZE) (ex : Exception) :
    ∃ p', catch_exception ex p = .ok () p' ∧ p'.invoked = (p.ctxts.length, .eh) :: p.invoked ∧
      p'.ctxts.length + 1 = p.ctxts.length := by
  cases cs with
  | nil => exact ⟨_, catch_outer hp hs ex, rfl, by simp [hp]⟩
  | cons d ds =>
    refine ⟨{ p with invoked := p.noted .eh, ctxts := { d with s := 0 :: d.s } :: ds }, ?_, rfl, by simp [hp]⟩
    rw [catch_nested hp hs.1, s_push_of_not_full (hf d ds rfl)]

theorem stop_ends (hp : p.ctxts = c :: cs) (hs : Shaped (c :: cs))
    (hf : ∀ d ds, cs = d :: ds → d.s.length ≠ Stack.MAX_SIZE) : ∃ p', stop p = .ok () p' := by
  cases cs with
  | nil => exact ⟨_, stop_outer hp hs⟩
  | cons d ds =>
    refine ⟨{ p with invoked := p.noted .hh, ctxts := { d with s := c.handlers.hh_word :: d.s } :: ds }, ?_⟩
    rw [stop_nested hp hs.1, s_push_of_not_full (hf d ds rfl)]

end

section

variable [GlobalState W R]

/-- `RETURN` ends the context, or its output does not fit into the parent's memory: then the context is still there,
above the unchanged stack of the parent. -/
theorem returning_ends {p : Processor W R} {c : Context R} {cs} (hp : p.ctxts = c :: cs) (hs : Shaped (c :: cs))
    (hf : ∀ d ds, cs = d :: ds → d.s.length ≠ Stack.MAX_SIZE) (output : Bytes) :
    (∃ p', returning output p = .ok () p') ∨ ∃ ex p', returning output p = .error (.exception ex) p' ∧
      p'.ctxts = c :: cs := by
  cases cs with
  | nil => exact .inl ⟨_, returning_outer hp hs output⟩
  | cons d ds =>
    have hd := hf d ds rfl
    rw [returning_nested hp hs.1]
    cases hh : c.handlers with
    | run => exact absurd hh hs.1
    | create newAcc =>
      simp only [Handlers.rh_report, s_push_of_not_full hd]
      exact .inl ⟨_, rfl⟩
    | call offOut sizeOut =>
      simp only [Handlers.rh_report, run_bind]
      cases hm : copy_to_mem offOut 0 sizeOut output 0 d with
      | ok u d' =>
        have hq : d'.s = d.s := by
          unfold copy_to_mem at hm
          split at hm
          · cases hm
            rfl
          · cases hm
        simp only [s_push_of_not_full (hq ▸ hd)]
        exact .inl ⟨_, rfl⟩
      | error e d' =>
        have hq : d' = d ∧ e.Caught := by
          unfold copy_to_mem at hm
          split at hm
          · cases hm
          · cases hm
            exact ⟨rfl, caught_exception _⟩
        obtain ⟨rfl, ex, rfl⟩ := hq
        exact .inr ⟨ex, _, rfl, rfl⟩

variable [Keccak]

/-- In the run that starts in `p0` every failure of an instruction is an `eevm::Exception` that ends the context of the
instruction through its exception handler, and nothing escapes from the loop. -/
structure Contained (p0 : Processor W R) : Prop where
  handled : ∀ p c cs e p1, Loop.Reaches iterate p0 p → p.ctxts = c :: cs → c.pc_valid = true →
    dispatch p = .error e p1 → ∃ ex p2, e = .exception ex ∧ catch_exception ex p1 = .ok () p2 ∧
      p2.invoked = (p.ctxts.length, .eh) :: p1.invoked ∧ p2.ctxts.length + 1 = p.ctxts.length
  no_escape : ∀ e p, ¬Loop.Ends iterate p0 (.error e p)

/-- What a failing instruction throws is caught, unless it is the overflow of `CALLDATALOAD`. -/
theorem dispatch_fails {p p1 : Processor W R} {c cs e} (hp : p.ctxts = c :: cs) (hv : c.pc_valid = true)
    (hs : Shaped (c :: cs)) (hw : ¬OffsetOverflow p) (hf : ¬FullParent p) (hd : dispatch p = .error e p1) :
    ∃ ex c1, e = .exception ex ∧ p1.ctxts = c1 :: cs ∧ SameFrame c c1 := by
  have hfull : ∀ d ds, cs = d :: ds → d.s.length ≠ Stack.MAX_SIZE := by
    rintro d ds rfl hlen
    exact hf ⟨c, d, ds, hp, hlen⟩
  obtain ⟨p2, hc, ht⟩ := dispatch_cases hp
  obtain ⟨c1, h1, hsame⟩ := hc.top hp
  generalize hr : dispatch p = r at ht
  rw [hr] at hd
  cases ht with
  | done => cases hd
  | throws ht =>
    cases hd
    rcases ht with ⟨ex, rfl⟩ | ⟨hop, rfl⟩ | ⟨rfl, hnil⟩
    · exact ⟨ex, c1, rfl, h1, hsame⟩
    · refine absurd ⟨c, cs, hp, hv, hop, ?_⟩ hw
      rw [dispatch_eq hp, hop] at hr
      simp only [exec] at hr
      rw [onCtxt_cons (show (traced p c).ctxts = c :: cs from hp)] at hr
      cases hm : Op.calldataload c with
      | ok u c' => rw [hm] at hr; cases hr
      | error e c' =>
        rw [hm] at hr
        cases hr
        exact calldataload_overflow hm
    · rw [h1] at hnil
      cases hnil
  | opens hop hcall hc =>
    unfold push_context at hd
    rw [bind_of_ok (run_get p2)] at hd
    split at hd
    · cases hd
      exact ⟨_, c1, rfl, h1, hsame⟩
    · cases hd
  | returns hop output =>
    rcases returning_ends h1 (hs.top hsame.handlers) hfull output with ⟨p', h⟩ | ⟨ex, p', h, h'⟩
    · rw [h] at hd
      cases hd
    · rw [h] at hd
      cases hd
      exact ⟨ex, c1, rfl, h', hsame⟩
  | stops hop =>
    obtain ⟨p', h⟩ := stop_ends h1 (hs.top hsame.handlers) hfull
    rw [h] at hd
    cases hd

/-- **Containment.** A run in which no `CALLDATALOAD` reads so close to 2^64 and no context reports to a parent with a
full stack lets nothing escape. -/
theorem contained_of_no_overflow (gs : W) (tx : Transaction) (tr : Option (List TraceEvent)) (caller : Address)
    (callee : R) (input : Bytes) (call_value : Word)
    (h : ∀ p, Loop.Reaches iterate (start gs tx tr caller callee input call_value) p →
      ¬OffsetOverflow p ∧ ¬FullParent p) :
    Contained (start gs tx tr caller callee input call_value) := by
  have hhandled : ∀ p c cs e p1, Loop.Reaches iterate (start gs tx tr caller callee input call_value) p →
      p.ctxts = c :: cs → c.pc_valid = true → dispatch p = .error e p1 → ∃ ex p2, e = .exception ex ∧
        catch_exception ex p1 = .ok () p2 ∧ p2.invoked = (p.ctxts.length, .eh) :: p1.invoked ∧
          p2.ctxts.length + 1 = p.ctxts.length := by
    intro p c cs e p1 hr hp hv hd
    have hs := (shaped_of_reaches hr).1
    rw [hp] at hs
    obtain ⟨ex, c1, rfl, h1, hsame⟩ := dispatch_fails hp hv hs (h p hr).1 (h p hr).2 hd
    have hfull : ∀ d ds, cs = d :: ds → d.s.length ≠ Stack.MAX_SIZE := by
      rintro d ds rfl hlen
      exact (h p hr).2 ⟨c, d, ds, hp, hlen⟩
    obtain ⟨p2, h2, hi, hl⟩ := catch_handles h1 (hs.top hsame.handlers) hfull ex
    have hlen : p1.ctxts.length = p.ctxts.length := by rw [h1, hp]; rfl
    exact ⟨ex, p2, rfl, h2, hlen ▸ hi, hlen ▸ hl⟩
  refine ⟨hhandled, ?_⟩
  rintro e p' ⟨p, hr, hx⟩
  obtain ⟨hs, hne⟩ := shaped_of_reaches hr
  cases hp : p.ctxts with
  | nil => exact hne hp
  | cons c cs =>
    rw [hp] at hs
    cases hv : c.pc_valid with
    | false =>
      obtain ⟨p1, h1⟩ := stop_ends hp hs fun d ds hcs hlen => (h p hr).2 ⟨c, d, ds, hcs ▸ hp, hlen⟩
      rw [iterate_off_end hp hv, h1] at hx
      cases hx
    | true =>
      have hi : after_dispatch (dispatch p) = .exit (.error e p') := by
        rw [← iterate_valid hp hv, hx]
      cases hd : dispatch p with
      | ok u p1 =>
        rw [hd, after_dispatch] at hi
        cases (step_or_break_exit hi).2
      | error e1 p1 =>
        obtain ⟨ex, p2, rfl, h2, -⟩ := hhandled p c cs e1 p1 hr hp hv hd
        rw [hd, after_dispatch, h2] at hi
        cases (step_or_break_exit hi).2

end

/-! ## Runs -/

/-- A run of `code`, the code of account 100, called by account 1 without input or value. -/
def code_start (code : Code) : Processor SimpleGlobalState Address :=
  start (.of_accounts [{ address := 100, code }]) { origin := 1 } none 1 100 [] 0

/-- The two conditions on a state, as a test. -/
def contained_here {W R : Type} (p : Processor W R) : Bool :=
  p.ctxts.head?.all (fun c => c.next_op ≠ some .CALLDATALOAD || c.s.head?.all fun w => w.toNat < 2 ^ 64 - 32) &&
    p.ctxts.tail.head?.all fun d => d.s.length ≠ Stack.MAX_SIZE

theorem no_overflow_of_all {W R : Type} [GlobalState W R] [Keccak] {p0 p : Processor W R} {fuel : Nat}
    (h : Loop.all iterate contained_here fuel p0 = true) (hr : Loop.Reaches iterate p0 p) :
    ¬OffsetOverflow p ∧ ¬FullParent p := by
  have hp := Loop.Reaches.of_all hr h
  constructor
  · rintro ⟨c, cs, hc, -, hop, w, s, hs, hle, -⟩
    simp [contained_here, hc, hop, hs] at hp
    omega
  · rintro ⟨c, d, ds, hc, hlen⟩
    simp [contained_here, hc, hlen] at hp

/-- Account 100 reads the first word of its input and calls account 200, whose second instruction is no opcode. -/
def failing_call_start : Processor SimpleGlobalState Address :=
  start (.of_accounts
    [{ address := 100
       code := [0x60, 0, 0x35, 0x60, 0, 0x60, 0, 0x60, 0, 0x60, 0, 0x60, 0, 0x60, 200, 0x60, 0, 0xf1, 0] },
      { address := 200, code := [0x60, 0, 0xfe] }]) { origin := 1 } none 1 100 [] 0

theorem contained_failing_call : @Contained _ _ _ no_hash failing_call_start :=
  @contained_of_no_overflow _ _ _ no_hash _ _ _ _ _ _ _ fun _ =>
    @no_overflow_of_all _ _ _ no_hash _ _ 20 (by decide +kernel)

/-- `PUSH8 0xffffffffffffffff`, `CALLDATALOAD` throws `std::overflow_error` out of `run`. -/
theorem calldataload_escapes : ¬@Contained _ _ _ no_hash (code_start (0x67 :: List.replicate 8 0xff ++ [0x35])) :=
  fun h => @Contained.no_escape _ _ _ no_hash _ h _ _ ⟨_, .single rfl, rfl⟩

end Processor

end EEVM

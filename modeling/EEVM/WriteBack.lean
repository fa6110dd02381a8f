import EEVM.Frames
import EEVM.Operands
/-!
# What a call leaves in its caller's memory (processor.cpp:289-332, 1196-1204, 1292-1302)

The return handler of a call copies the output into the window of the caller's memory with `copy_mem_raw`, which fills up
with zeros what the output leaves of the window. So bytes the callee has not returned are written where the output is
shorter than the window; that cannot be seen just where the caller had zeros there (`write_back_iff`).
-/
namespace EEVM

open ExcState

/-! ## Memory -/

section

variable {v v' v'' bs : Bytes} {off n : Nat}

/-- `v'` is `v`, with zeros behind it. -/
def Expanded (v v' : Bytes) : Prop := ∃ k, v' = v ++ List.replicate k 0

theorem Expanded.trans (h1 : Expanded v v') (h2 : Expanded v' v'') : Expanded v v'' := by
  obtain ⟨k, rfl⟩ := h1
  obtain ⟨j, rfl⟩ := h2
  exact ⟨k + j, by simp [List.append_assoc]⟩

theorem expanded_grow (v : Bytes) (n : Nat) : Expanded v (grow v n) := ⟨n - v.length, rfl⟩

theorem Expanded.length_le (h : Expanded v v') : v.length ≤ v'.length := by
  obtain ⟨k, rfl⟩ := h
  simp

theorem Expanded.getD_eq (h : Expanded v v') (j : Nat) : v'.getD j 0 = v.getD j 0 := by
  obtain ⟨k, rfl⟩ := h
  have hgrow : v ++ List.replicate k 0 = grow v (v.length + k) := by rw [grow, Nat.add_sub_cancel_left]
  rw [hgrow, getD_grow]

/-- Into memory that is there already, `copy_mem_raw` copies what it can of `size` bytes, and zeros for the rest. -/
theorem copy_mem_raw_eq {offDst size : UInt64} {dst src mem : Bytes} (h : copy_mem_raw offDst 0 size dst src 0 = .ok mem)
    (hdst : offDst.toNat + size.toNat ≤ dst.length) (hsrc : src.length < 2 ^ 63) :
    mem = overwrite dst offDst.toNat (src.take size.toNat ++ List.replicate (size.toNat - src.length) 0) := by
  by_cases h0 : size = 0
  · subst h0
    rw [copy_mem_raw_zero] at h
    simp [← Except.ok.inj h, overwrite]
  · obtain ⟨bs, -, hbs, heq⟩ := copy_mem_raw_of_le h0 (length_copy_mem_raw h0 h).2 0 dst src 0
    rw [heq, hbs hsrc, grow_of_le hdst, copied_eq, UInt64.toNat_zero, List.drop_zero, Nat.sub_zero] at h
    exact (Except.ok.inj h).symm

/-- What a write-back of the output `o` into the window of `size` bytes at `off` is for: the bytes of `o` that fit are
there, and every other byte is as it was in `v`. -/
structure WrittenBack (off size : Nat) (o v v' : Bytes) : Prop where
  written : ∀ i, i < min size o.length → v'[off + i]? = o[i]?
  kept : ∀ j, (∀ i, i < min size o.length → j ≠ off + i) → v'.getD j 0 = v.getD j 0
  length_le : v.length ≤ v'.length

/-- Filling the rest of the window with zeros is not seen where there were zeros. -/
theorem written_back_iff {size : Nat} {o : Bytes} (hexp : Expanded v v') (hlen : off + size ≤ v'.length) :
    WrittenBack off size o v (overwrite v' off (o.take size ++ List.replicate (size - o.length) 0)) ↔
      ∀ j, off + o.length ≤ j → j < off + size → v.getD j 0 = 0 := by
  have hpiece : (o.take size ++ List.replicate (size - o.length) (0 : UInt8)).length = size := by
    simp
    omega
  have hget : ∀ j, (overwrite v' off (o.take size ++ List.replicate (size - o.length) 0))[j]? =
      if off ≤ j ∧ j < off + size then (o.take size ++ List.replicate (size - o.length) 0)[j - off]? else v'[j]? := by
    intro j
    rw [getElem?_overwrite (by rwa [hpiece]), hpiece]
  have hzero : ∀ j, off + o.length ≤ j → j < off + size →
      (overwrite v' off (o.take size ++ List.replicate (size - o.length) 0)).getD j 0 = 0 := by
    intro j h1 h2
    have htake : (o.take size).length ≤ j - off := by
      rw [List.length_take]
      omega
    rw [List.getD_eq_getElem?_getD, hget, if_pos ⟨by omega, h2⟩, List.getElem?_append_right htake, List.getElem?_replicate]
    split <;> rfl
  constructor
  · intro h j h1 h2
    rw [← h.kept j fun i hi => by omega]
    exact hzero j h1 h2
  · intro h
    constructor
    · intro i hi
      have htake : i < (o.take size).length := by
        rw [List.length_take]
        omega
      rw [hget, if_pos (by omega), Nat.add_sub_cancel_left, List.getElem?_append_left htake, List.getElem?_take_of_lt (by omega)]
    · intro j hj
      by_cases hin : off ≤ j ∧ j < off + size
      · -- in the window, but not in the output
        have hout : off + o.length ≤ j := by
          by_contra hlt
          exact hj (j - off) (by omega) (by omega)
        rw [hzero j hout hin.2, h j hout hin.2]
      · rw [List.getD_eq_getElem?_getD, hget, if_neg hin, ← hexp.getD_eq j, List.getD_eq_getElem?_getD]
    · rw [length_overwrite (by rwa [hpiece])]
      exact hexp.length_le

end

/-! ## Handlers -/

section

variable {R : Type} {c c' d : Context R} {o : Bytes}

/-- `RETURN` cannot return more bytes than a memory access is allowed. -/
theorem length_return_operands (h : return_operands c = .ok o d) : o.length < 2 ^ 63 := by
  have hmax : MAX_MEM_SIZE.toNat = 33554432 := rfl
  rw [return_operands, bind_eq_ok] at h
  obtain ⟨offset, c1, -, h⟩ := h
  rw [bind_eq_ok] at h
  obtain ⟨size, c2, -, h⟩ := h
  obtain ⟨-, hrange, rfl⟩ := copy_from_mem_eq_ok h
  rw [List.length_take]
  omega

/-- The report of a call's return: the output has been copied to the window. -/
theorem rh_report_mem {offOut sizeOut : UInt64} {addr : Address} (h : (Handlers.call offOut sizeOut).rh_report addr o c =
      .ok () c') (hmem : offOut.toNat + sizeOut.toNat ≤ c.mem.length) (ho : o.length < 2 ^ 63) :
    c'.mem = overwrite c.mem offOut.toNat (o.take sizeOut.toNat ++ List.replicate (sizeOut.toNat - o.length) 0) := by
  rw [Handlers.rh_report, bind_eq_ok] at h
  obtain ⟨_, c1, hcopy, hpush⟩ := h
  have hc' : c'.mem = c1.mem := by
    rcases Processor.s_push_cases 1 c1 with ⟨-, hr⟩ | ⟨-, ex, hr⟩
    · rw [hr] at hpush
      cases hpush
      rfl
    · rw [hr] at hpush
      cases hpush
  unfold copy_to_mem at hcopy
  split at hcopy
  case h_1 mem hraw =>
    cases hcopy
    rw [hc']
    exact copy_mem_raw_eq hraw hmem ho
  case h_2 => cases hcopy

end

namespace Processor

variable {W R : Type} [GlobalState W R] {p p' : Processor W R} {c c' d f : Context R} {cs : List (Context R)} {op : Opcode}
  {args : CallOperands}

/-! ## The call -/

theorem prepare_mem_access_expands {offset size : UInt64} {u : Unit} (h : prepare_mem_access offset size c = .ok u c') :
    Expanded c.mem c'.mem ∧ offset.toNat + size.toNat ≤ c'.mem.length := by
  obtain ⟨rfl, -⟩ := prepare_mem_access_eq_ok h
  refine ⟨expanded_grow c.mem _, ?_⟩
  rw [length_grow]
  omega

theorem copy_from_mem_expands {offset size : UInt64} {bs : Bytes} (h : copy_from_mem offset size c = .ok bs c') :
    Expanded c.mem c'.mem := by
  rw [copy_from_mem, copy_from_mem_by, bind_eq_ok] at h
  obtain ⟨_, c1, h1, h2⟩ := h
  cases h2
  exact (prepare_mem_access_expands h1).1

/-- A call that opens a context has made room for the output in the caller's memory, and expanded it with zeros only. -/
theorem call_opens (hcall : op = .CALL ∨ op = .CALLCODE ∨ op = .DELEGATECALL) (hp : p.ctxts = c :: cs)
    (hops : call_operands op c = .ok args d) (h : call op p = .ok () p') (hp' : p'.ctxts = f :: c' :: cs) :
    f.handlers = .call args.offOut args.sizeOut ∧ Expanded c.mem c'.mem ∧
      args.offOut.toNat + args.sizeOut.toNat ≤ c'.mem.length := by
  have hmem : d.mem = c.mem := by
    rw [(call_operands_eq_ok hops hcall).eq]
  obtain ⟨args', d', hops', -, -, hcalled⟩ := call_eq_ok hp hcall h
  rw [hops] at hops'
  cases hops'
  cases hcalled with
  | answers =>
    -- without code no context is opened
    simp at hp'
  | opens _ hout hin =>
    cases hp'
    obtain ⟨hexp, hroom⟩ := prepare_mem_access_expands hout
    have hexp' := copy_from_mem_expands hin
    rw [hmem] at hexp
    exact ⟨rfl, hexp.trans hexp', Nat.le_trans hroom hexp'.length_le⟩

/-! ## The write-back -/

section

variable [Keccak] {q s : Processor W R} {way : Finish} {offOut sizeOut : UInt64} {addr : Address} {o : Bytes}

/-- What is in the caller's memory when its callee has ended, where it was `v` at the call and the window has `size` bytes
at `off`: only what has been returned is written back. -/
def OnlyReturned (off size : Nat) (v v' : Bytes) : Finish → Prop
  | .returns o => WrittenBack off size o v v'
  | .halts | .throws => Expanded v v'

/-- The turn from `p` to `p'` is a call: `c` opens `f` and waits as `c'` above `cs`. The callee has been carried out up to
`q`, and with the turn to `s` the caller is on top again, as `d`. -/
structure CallsAndEnds (p p' q s : Processor W R) (op : Opcode) (args : CallOperands) (c c' f d : Context R)
    (cs : List (Context R)) : Prop where
  caller : p.ctxts = c :: cs
  next_op : c.next_op = some op
  is_call : op = .CALL ∨ op = .CALLCODE ∨ op = .DELEGATECALL
  operands : ∃ c1, call_operands op c = .ok args c1
  opens : iterate p = .next p'
  opened : p'.ctxts = f :: c' :: cs
  above : Above p.ctxts.length p' q
  ends : TurnsTo q s
  back : s.ctxts = d :: cs

omit [GlobalState W R] [Keccak] in
/-- The window is in range, so only the push of the result can fail. -/
theorem rh_report_fails {e} (hw : (Handlers.call (R := R) offOut sizeOut).InRange)
    (h : (Handlers.call offOut sizeOut).rh_report addr o c = .error e c') : c'.s.length = Stack.MAX_SIZE := by
  obtain ⟨mem, hmem⟩ := copy_to_mem_of_inRange hw 0 o 0 c
  rw [Handlers.rh_report, bind_of_ok hmem] at h
  rcases s_push_cases 1 { c with mem } with ⟨-, hr⟩ | ⟨hfull, ex, hr⟩
  · rw [hr] at h
    cases h
  · rw [hr] at h
    cases h
    exact hfull

/-- What a call has opened. -/
theorem CallsAndEnds.window (h : CallsAndEnds p p' q s op args c c' f d cs) :
    f.handlers = .call args.offOut args.sizeOut ∧ f.handlers.InRange ∧ Expanded c.mem c'.mem ∧
      args.offOut.toNat + args.sizeOut.toNat ≤ c'.mem.length := by
  obtain ⟨p1, g, op', hop', hcall', hd, h1, rfl, -⟩ := opened_of_next h.caller h.opens h.opened
  obtain rfl : op' = op := Option.some.inj (hop'.symm.trans h.next_op)
  obtain ⟨c1, hops⟩ := h.operands
  obtain ⟨-, -, -, hw⟩ := opens_eq h.caller h.next_op hcall' hd h1
  have hd' : call op' (traced p c) = .ok () p1 := by
    rw [← hd, dispatch_eq h.caller, h.next_op]
    rcases h.is_call with rfl | rfl | rfl <;> rfl
  rw [step_handlers]
  obtain ⟨hh, hmem⟩ := call_opens (p := traced p c) h.is_call h.caller hops hd' h1
  exact ⟨hh, hw, hmem⟩

/-- A callee that returns leaves the output in the window, and zeros behind it. -/
theorem CallsAndEnds.mem_of_returns (h : CallsAndEnds p p' q s op args c c' f d cs) (hs : Shaped q.ctxts)
    (hst : Nesting.Stands SameFrame f (c' :: cs) q.ctxts) (hf : Finishes q (c' :: cs) (.returns o)) :
    d.mem = overwrite c'.mem args.offOut.toNat
      (o.take args.sizeOut.toNat ++ List.replicate (args.sizeOut.toNat - o.length) 0) := by
  obtain ⟨hh, hw, -, hroom⟩ := h.window
  have hback := h.back
  obtain ⟨g, q1, hit, -, hq1, hs', hg⟩ := hf.returning hs hst
  have ho : o.length < 2 ^ 63 := by
    cases hf with
    | returns _ _ _ hops => exact length_return_operands hops
  rcases h.ends with hn | hx
  · rw [hit] at hn
    obtain ⟨c2, ds, he, ⟨d', hr, rfl⟩ | ⟨ex, d', hr, hroom, -⟩⟩ := returning_next hq1 hs' hn
    · cases he
      rw [hg, hh] at hr
      obtain ⟨rfl, -⟩ := List.cons.inj hback
      rw [Context.step_mem]
      exact rh_report_mem hr hroom ho
    · cases he
      rw [hg, hh] at hr
      rw [hh] at hw
      exact absurd (rh_report_fails hw hr) hroom
  · rw [hit] at hx
    cases (returning_exit hq1 hs' hx).1

/-- **Write-back.** Of every call in every run, and every way its callee ends: what is in the caller's memory afterwards is
right, unless less has been returned than the window holds, and the rest of the window was not zero at the call. -/
theorem write_back_iff {gs : W} {tx : Transaction} {tr : Option (List TraceEvent)} {caller : Address} {callee : R}
    {input : Bytes} {call_value : Word} (hr : Loop.Reaches iterate (start gs tx tr caller callee input call_value) p)
    (h : CallsAndEnds p p' q s op args c c' f d cs) :
    (∃ way, Finishes q (c' :: cs) way) ∧ ∀ way, Finishes q (c' :: cs) way →
      (OnlyReturned args.offOut.toNat args.sizeOut.toNat c.mem d.mem way ↔ ∀ o, way = .returns o →
        ∀ j, args.offOut.toNat + o.length ≤ j → j < args.offOut.toNat + args.sizeOut.toNat → c.mem.getD j 0 = 0) := by
  obtain ⟨hs, hst⟩ := stands_of_opened (shaped_of_reaches hr).1 h.caller h.opens h.opened h.above
  obtain ⟨-, -, hexp, hroom⟩ := h.window
  refine ⟨finishes_of_length_le hs hst h.ends (by rw [h.back]; exact Nat.le_refl _), fun way hf => ?_⟩
  cases way with
  | returns o =>
    rw [OnlyReturned, h.mem_of_returns hs hst hf, written_back_iff hexp hroom]
    constructor
    · rintro hzero o' ⟨⟩
      exact hzero
    · exact fun hzero => hzero o rfl
  | halts | throws =>
    obtain ⟨-, hmem, -⟩ := (hf.told hs hst nofun).2 s d h.ends h.back
    rw [OnlyReturned, hmem]
    exact iff_of_true hexp nofun

end

/-- Account 100 writes `b` to its memory and calls account 200, which returns nothing, with a window of that byte. -/
def window_start (b : UInt8) : Processor SimpleGlobalState Address :=
  start (.of_accounts
    [{ address := 100, code := [0x60, b, 0x60, 0, 0x53, 0x60, 1, 0x60, 0, 0x60, 0, 0x60, 0, 0x60, 0, 0x60, 200, 0x60, 0, 0xf1] },
      { address := 200, code := [0x60, 0, 0x60, 0, 0xf3] }]) { origin := 1 } none 1 100 [] 0

def window_args : CallOperands where
  addr := 200
  value := 0
  offIn := 0
  sizeIn := 0
  offOut := 0
  sizeOut := 1

theorem write_back_of_zero : ∃ p p' q s c c' f d, @Loop.Reaches _ _ (@iterate _ _ _ no_hash) (window_start 0) p ∧
    @CallsAndEnds _ _ _ no_hash p p' q s .CALL window_args c c' f d [] ∧ (∃ way, @Finishes _ _ _ no_hash q [c'] way) ∧
    ∀ way, @Finishes _ _ _ no_hash q [c'] way →
      (OnlyReturned window_args.offOut.toNat window_args.sizeOut.toNat c.mem d.mem way ↔ ∀ o, way = .returns o →
        ∀ j, window_args.offOut.toNat + o.length ≤ j → j < window_args.offOut.toNat + window_args.sizeOut.toNat →
          c.mem.getD j 0 = 0) := by
  have hr : @Loop.Reaches _ _ (@iterate _ _ _ no_hash) (window_start 0) _ :=
    .of_steps (show @Loop.steps _ _ (@iterate _ _ _ no_hash) 10 (window_start 0) = some _ from rfl)
  have key := fun p p' q s c c' f d (hr : @Loop.Reaches _ _ (@iterate _ _ _ no_hash) (window_start 0) p)
    (h : @CallsAndEnds _ _ _ no_hash p p' q s .CALL window_args c c' f d []) =>
      And.intro h (@write_back_iff _ _ _ _ _ _ _ _ _ _ _ _ no_hash _ _ _ _ _ _ _ _ _ hr h)
  exact ⟨_, _, _, _, _, _, _, _, hr, key _ _ _ _ _ _ _ _ hr
    (@CallsAndEnds.mk _ _ _ no_hash _ _ _ _ _ _ _ _ _ _ _ rfl rfl (.inl rfl) ⟨_, rfl⟩ rfl rfl
      (.tail (.tail .refl ⟨rfl, by decide⟩) ⟨rfl, by decide⟩) (.inl rfl) rfl)⟩

/-- The byte of the caller's memory is gone, though nothing has been returned. -/
theorem window_is_padded : ∃ p p' q s c c' f d, @Loop.Reaches _ _ (@iterate _ _ _ no_hash) (window_start 255) p ∧
    @CallsAndEnds _ _ _ no_hash p p' q s .CALL window_args c c' f d [] ∧ @Finishes _ _ _ no_hash q [c'] (.returns []) ∧
    c.mem.getD 0 0 = 255 ∧ d.mem.getD 0 0 = 0 ∧
    ¬OnlyReturned window_args.offOut.toNat window_args.sizeOut.toNat c.mem d.mem (.returns []) := by
  have hr : @Loop.Reaches _ _ (@iterate _ _ _ no_hash) (window_start 255) _ :=
    .of_steps (show @Loop.steps _ _ (@iterate _ _ _ no_hash) 10 (window_start 255) = some _ from rfl)
  refine ⟨_, _, _, _, _, _, _, _, hr,
    @CallsAndEnds.mk _ _ _ no_hash _ _ _ _ _ _ _ _ _ _ _ rfl rfl (.inl rfl) ⟨_, rfl⟩ rfl rfl
      (.tail (.tail .refl ⟨rfl, by decide⟩) ⟨rfl, by decide⟩) (.inl rfl) rfl,
    @Finishes.returns _ _ _ no_hash _ _ _ _ _ rfl rfl rfl rfl, by decide, by decide, fun h => ?_⟩
  have hkept := h.kept 0 (by simp)
  exact absurd hkept (by decide)

end Processor

end EEVM

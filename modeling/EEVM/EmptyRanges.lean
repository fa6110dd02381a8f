import EEVM.FrameMemory
import EEVM.Operands
/-!
# Empty ranges of the memory (processor.cpp:289-367, 1185-1204, 1224-1294)

`copy_mem_raw` returns at once when there is nothing to copy; `prepare_mem_access` has no such exit, and makes room up to
the start of an empty range, or refuses it. `exec_by` is `exec` with the two as parameters: they make it the code's, and
`access_unless_empty` and `copy_unless_empty` make it what an empty range is harmless to. For the copy instructions the
two are the same (`copy_unless_empty_eq`).
-/
namespace EEVM

open ExcState

variable {W R : Type}

/-! ## One access -/

/-- An access that has the early exit of `copy_mem_raw`. -/
def access_unless_empty (offset size : UInt64) : CtxM R Unit := if size = 0 then pure () else prepare_mem_access offset size

/-- `x` makes room up to `n`, or refuses to. -/
structure Reaches (x : CtxM R Unit) (c : Context R) (n : Nat) : Prop where
  of_le : n ≤ MAX_MEM_SIZE.toNat → x c = .ok () { c with mem := grow c.mem n }
  of_lt : MAX_MEM_SIZE.toNat < n → ∃ e c', x c = .error e c'

theorem reaches_prepare_mem_access (offset size : UInt64) (c : Context R) :
    Reaches (prepare_mem_access offset size) c (offset.toNat + size.toNat) := by
  refine ⟨fun h => prepare_mem_access_of_le h c, ?_⟩
  intro h
  obtain ⟨ex, hx⟩ := prepare_mem_access_of_lt h c
  exact ⟨_, _, hx⟩

theorem reaches_access_unless_empty (offset size : UInt64) (c : Context R) :
    Reaches (access_unless_empty offset size) c (if size.toNat = 0 then 0 else offset.toNat + size.toNat) := by
  by_cases h : size = 0
  · subst h
    rw [if_pos (show (0 : UInt64).toNat = 0 from rfl)]
    refine ⟨fun _ => ?_, fun hlt => absurd hlt (by decide)⟩
    rw [grow_of_le (Nat.zero_le _)]
    rfl
  · have h' : size.toNat ≠ 0 := fun h0 => h (UInt64.toNat.inj h0)
    rw [if_neg h', access_unless_empty, if_neg h]
    exact reaches_prepare_mem_access offset size c

theorem Reaches.bind {x y : CtxM R Unit} {c : Context R} {n m : Nat} (hx : Reaches x c n)
    (hy : ∀ mem, Reaches y { c with mem } m) : Reaches (x >>= fun _ => y) c (max n m) := by
  constructor
  · intro h
    rw [bind_of_ok (hx.of_le (Nat.le_trans (Nat.le_max_left _ _) h)),
      (hy _).of_le (Nat.le_trans (Nat.le_max_right _ _) h), grow_grow]
  · intro h
    by_cases hn : n ≤ MAX_MEM_SIZE.toNat
    · rw [bind_of_ok (hx.of_le hn)]
      exact (hy _).of_lt (by omega)
    · obtain ⟨e, c', hx⟩ := hx.of_lt (Nat.lt_of_not_le hn)
      exact ⟨e, c', bind_of_error hx⟩

/-! ## The instructions and their access -/

/-- A copy that has it, whatever `copy_mem_raw` does. -/
def copy_unless_empty (offDst offSrc size : UInt64) (src : Bytes) (pad : UInt8) : CtxM R Unit :=
  if size = 0 then pure () else copy_to_mem offDst offSrc size src pad

/-- The early exit of `copy_mem_raw` leaves an empty range alone, at every offset. -/
theorem copy_unless_empty_eq : copy_unless_empty (R := R) = copy_to_mem := by
  funext offDst offSrc size src pad c
  by_cases h : size = 0
  · subst h
    simp only [copy_unless_empty, if_true, copy_to_mem, copy_mem_raw_zero, run_pure]
  · rw [copy_unless_empty, if_neg h]

section

variable (access : UInt64 → UInt64 → CtxM R Unit) (copy : UInt64 → UInt64 → UInt64 → Bytes → UInt8 → CtxM R Unit)

namespace Processor

variable [GlobalState W R]

/-- `exec`, with `access` in place of `prepare_mem_access` and `copy` in place of `copy_mem_raw` where the range can be
of any size. -/
def exec_by [Keccak] : Opcode → M W R Unit
  | .SHA3 => onCtxt (Op.sha3_by access)
  | .RETURN => return_by access
  | .LOG n => log_by access n
  | .CREATE => create_by access
  | .CALL => call_by access .CALL
  | .CALLCODE => call_by access .CALLCODE
  | .DELEGATECALL => call_by access .DELEGATECALL
  | .CALLDATACOPY => onCtxt (Op.calldatacopy_by copy)
  | .CODECOPY => onCtxt (Op.codecopy_by copy)
  | .EXTCODECOPY => extcodecopy_by copy
  | op => exec op

def dispatch_by [Keccak] : M W R Unit := do
  let op ← onCtxt get_op
  trace_add op
  match Opcode.ofByte op with
  | some op => exec_by access copy op
  | none => unknown_opcode op

end Processor

end

namespace Processor

variable {p : Processor W R} {c : Context R} {cs : List (Context R)}

theorem run_access {x : CtxM R Unit} {n : Nat} (hp : p.ctxts = c :: cs) (hx : Reaches x c n) (hn : n ≤ MAX_MEM_SIZE.toNat)
    (k : M W R Unit) :
    (onCtxt x >>= fun _ => k) p = k { p with ctxts := { c with mem := grow c.mem n } :: cs } := by
  have hx' : onCtxt x p = .ok () { p with ctxts := { c with mem := grow c.mem n } :: cs } := by
    rw [onCtxt_cons hp, hx.of_le hn]
  exact bind_of_ok hx'

theorem run_access_of_lt {x : CtxM R Unit} {n : Nat} (hp : p.ctxts = c :: cs) (hx : Reaches x c n) (hn : MAX_MEM_SIZE.toNat < n)
    (k : M W R Unit) : ∃ e p', (onCtxt x >>= fun _ => k) p = .error e p' := by
  obtain ⟨e, c', he⟩ := hx.of_lt hn
  have hx' : onCtxt x p = .error e { p with ctxts := c' :: cs } := by
    rw [onCtxt_cons hp, he]
  exact ⟨_, _, bind_of_error hx'⟩

/-- The frame that had memory `mem` is there, with the frames `cs` below it. -/
def Holds (cs : List (Context R)) (mem : Bytes) (p : Processor W R) : Prop :=
  ∃ above c, p.ctxts = above ++ c :: cs ∧ c.mem = mem

theorem Holds.unique {mem mem' : Bytes} (h : Holds cs mem p) (h' : Holds cs mem' p) : mem = mem' := by
  obtain ⟨above, c, hp, rfl⟩ := h
  obtain ⟨above', c', hp', rfl⟩ := h'
  have heq := List.append_inj_right' (hp.symm.trans hp') rfl
  cases heq
  rfl

/-- Where `k` succeeds, the frame on top is still there, with the memory it had. -/
def KeepsMemory {α : Type} (k : M W R α) : Prop :=
  ∀ p a p' c cs, p.ctxts = c :: cs → k p = .ok a p' → Holds cs c.mem p'

/-- Where `x` succeeds, the frames are as they were. -/
def KeepsFrames {α : Type} (x : M W R α) : Prop := ∀ p a p', x p = .ok a p' → p'.ctxts = p.ctxts

theorem KeepsFrames.bind {α β : Type} {x : M W R α} {f : α → M W R β} (hx : KeepsFrames x) (hf : ∀ a, KeepsMemory (f a)) :
    KeepsMemory (x >>= f) := by
  intro p b p' c cs hp h
  obtain ⟨a, q, hq, h⟩ := bind_eq_ok.1 h
  exact hf a q b p' c cs ((hx p a q hq).trans hp) h

/-- The access comes before anything that depends on the memory, and the frame is still there afterwards. -/
theorem agrees_access {x y : CtxM R Unit} {n m : Nat} (hp : p.ctxts = c :: cs) (hx : Reaches x c n) (hy : Reaches y c m)
    (hle : m ≤ n) {k : M W R Unit} (hk : KeepsMemory k) :
    AgreesIf (n ≤ MAX_MEM_SIZE.toNat ∧ n ≤ max c.mem.length m) (onCtxt x >>= fun _ => k) (onCtxt y >>= fun _ => k) p := by
  by_cases hm : m ≤ MAX_MEM_SIZE.toNat
  case neg =>
    obtain ⟨e, p', he⟩ := run_access_of_lt hp hy (Nat.lt_of_not_le hm) k
    exact .of_error he
  by_cases hn : n ≤ MAX_MEM_SIZE.toNat
  case neg =>
    obtain ⟨e, p', he⟩ := run_access_of_lt hp hx (Nat.lt_of_not_le hn) k
    refine .of_not (fun h => hn h.1) ?_
    rw [he]
    exact fun _ _ _ => nofun
  by_cases hreach : n ≤ max c.mem.length m
  · have hsame : grow c.mem n = grow c.mem m := by
      have hmax : max c.mem.length n = max c.mem.length m := by omega
      simp only [grow]
      congr 2
      omega
    exact .of_eq ⟨hn, hreach⟩ (by rw [run_access hp hx hn, run_access hp hy hm, hsame])
  · refine .of_not (fun h => hreach h.2) ?_
    intro u p' hy' hx'
    rw [run_access hp hy hm] at hy'
    rw [run_access hp hx hn] at hx'
    have hlen := congrArg List.length ((hk _ _ _ _ _ rfl hx').unique (hk _ _ _ _ _ rfl hy'))
    rw [length_grow, length_grow] at hlen
    omega

/-- The largest end of a range. -/
def reach (rs : List (Nat × Nat)) : Nat := (rs.map fun r => r.1 + r.2).foldl max 0

theorem reach_singleton (o n : Nat) : reach [(o, n)] = o + n := by
  simp [reach]

theorem reach_filter_singleton (o n : Nat) :
    reach ([(o, n)].filter fun r => r.2 ≠ 0) = if n = 0 then 0 else o + n := by
  by_cases h : n = 0 <;> simp [h, reach]

theorem reach_pair (o n i m : Nat) : reach [(o, n), (i, m)] = max (o + n) (i + m) := by
  simp [reach]

theorem reach_filter_pair (o n i m : Nat) : reach ([(o, n), (i, m)].filter fun r => r.2 ≠ 0) =
    max (if n = 0 then 0 else o + n) (if m = 0 then 0 else i + m) := by
  by_cases hn : n = 0 <;> by_cases hm : m = 0 <;> simp [hn, hm, reach]

/-- One range. -/
theorem agrees_range (o n : UInt64) (hp : p.ctxts = c :: cs) {k : M W R Unit} (hk : KeepsMemory k) :
    AgreesIf (reach [(o.toNat, n.toNat)] ≤ MAX_MEM_SIZE.toNat ∧
        reach [(o.toNat, n.toNat)] ≤ max c.mem.length (reach ([(o.toNat, n.toNat)].filter fun r => r.2 ≠ 0)))
      (onCtxt (prepare_mem_access o n) >>= fun _ => k) (onCtxt (access_unless_empty o n) >>= fun _ => k) p := by
  rw [reach_singleton, reach_filter_singleton]
  refine agrees_access hp (reaches_prepare_mem_access o n c) (reaches_access_unless_empty o n c) ?_ hk
  split <;> omega

theorem push_keepsMemory (f : Context R → Word) : KeepsMemory (W := W) (onCtxt (get >>= fun c => s_push (f c))) := by
  intro p u p' c cs hp h
  rw [onCtxt_cons hp, bind_of_ok (run_get c)] at h
  rcases s_push_cases (f c) c with ⟨-, hpush⟩ | ⟨-, ex, hpush⟩
  all_goals rw [hpush] at h
  · cases h
    exact ⟨[], _, rfl, rfl⟩
  · cases h

/-- A context is opened on top of the frame. -/
theorem push_context_keepsMemory (f : Context R) : KeepsMemory (W := W) (push_context f) := by
  intro p u p' c cs hp h
  rw [push_context_eq_ok h]
  exact ⟨[f], c, by rw [hp]; rfl, rfl⟩

theorem onCtxt_keepsFrames {α : Type} {x : CtxM R α} (hx : ∀ c a d, x c = .ok a d → d = c) : KeepsFrames (W := W) (onCtxt x) := by
  intro p a p' h
  cases hp : p.ctxts with
  | nil =>
    rw [onCtxt_nil hp] at h
    cases h
  | cons c cs =>
    obtain ⟨d, hd, rfl⟩ := onCtxt_eq_ok hp h
    rw [hx c a d hd]

theorem onCtxt_get_keepsFrames : KeepsFrames (W := W) (R := R) (onCtxt get) := by
  refine onCtxt_keepsFrames ?_
  rintro c a d ⟨⟩
  rfl

theorem onCtxt_pure_keepsFrames {α : Type} (a : α) : KeepsFrames (W := W) (R := R) (onCtxt (pure a)) := by
  refine onCtxt_keepsFrames ?_
  rintro c b d ⟨⟩
  rfl

theorem get_keepsFrames : KeepsFrames (W := W) (R := R) get := by
  rintro p a p' ⟨⟩
  rfl

/-- Two ranges. -/
theorem agrees_ranges (o n i m : UInt64) (hp : p.ctxts = c :: cs) {k : M W R Unit} (hk : KeepsMemory k) :
    AgreesIf (reach [(o.toNat, n.toNat), (i.toNat, m.toNat)] ≤ MAX_MEM_SIZE.toNat ∧
        reach [(o.toNat, n.toNat), (i.toNat, m.toNat)] ≤
          max c.mem.length (reach ([(o.toNat, n.toNat), (i.toNat, m.toNat)].filter fun r => r.2 ≠ 0)))
      (onCtxt (prepare_mem_access o n) >>= fun _ => onCtxt (prepare_mem_access i m) >>= fun _ => k)
      (onCtxt (access_unless_empty o n) >>= fun _ => onCtxt (access_unless_empty i m) >>= fun _ => k) p := by
  have hx := (reaches_prepare_mem_access o n c).bind fun mem => reaches_prepare_mem_access i m { c with mem }
  have hy := (reaches_access_unless_empty o n c).bind fun mem => reaches_access_unless_empty i m { c with mem }
  have h := agrees_access hp hx hy (by split <;> split <;> omega) hk
  rw [reach_pair, reach_filter_pair]
  simpa only [onCtxt_bind, bind_assoc] using h

/-! ## Operands -/

theorem s_pop64_of_ok {n : UInt64} {p' : Processor W R} (hp : p.ctxts = c :: cs) (h : onCtxt s_pop64 p = .ok n p') :
    ∃ w st, c.s = w :: st ∧ n.toNat = w.toNat ∧ p' = { p with ctxts := { c with s := st } :: cs } := by
  obtain ⟨d, hd, rfl⟩ := onCtxt_eq_ok hp h
  obtain ⟨w, hs, hc, hw⟩ := s_pop64_eq_ok hd
  exact ⟨w, _, hs, hw.symm, by rw [← hc]⟩

theorem s_pop_of_ok {w : Word} {p' : Processor W R} (hp : p.ctxts = c :: cs) (h : onCtxt s_pop p = .ok w p') :
    ∃ st, c.s = w :: st ∧ p' = { p with ctxts := { c with s := st } :: cs } := by
  obtain ⟨d, hd, rfl⟩ := onCtxt_eq_ok hp h
  obtain ⟨hs, hc⟩ := s_pop_eq_ok hd
  exact ⟨_, hs, by rw [← hc]⟩

/-- The two words of a range are popped first. -/
theorem agrees_pops {C : Prop} {f g : UInt64 → UInt64 → M W R Unit} (hp : p.ctxts = c :: cs)
    (h : ∀ w w' st o n, c.s = w :: w' :: st → o.toNat = w.toNat → n.toNat = w'.toNat →
      AgreesIf C (f o n) (g o n) { p with ctxts := { c with s := st } :: cs }) :
    AgreesIf C (onCtxt s_pop64 >>= fun o => onCtxt s_pop64 >>= fun n => f o n)
      (onCtxt s_pop64 >>= fun o => onCtxt s_pop64 >>= fun n => g o n) p := by
  refine .bind fun o p1 h1 => .bind fun n p2 h2 => ?_
  obtain ⟨w, st, hs, ho, rfl⟩ := s_pop64_of_ok hp h1
  obtain ⟨w', st', hs', hn, rfl⟩ := s_pop64_of_ok rfl h2
  cases hs'
  exact h w w' st' o n hs ho hn

theorem pop_topics_of_ok {n : Nat} {topics : List Word} {p' : Processor W R} (hp : p.ctxts = c :: cs)
    (h : pop_topics n p = .ok topics p') : ∃ st, p' = { p with ctxts := { c with s := st } :: cs } := by
  induction n generalizing p c topics with
  | zero =>
    cases h
    exact ⟨c.s, by rw [← hp]⟩
  | succ n ih =>
    rw [pop_topics, bind_eq_ok] at h
    obtain ⟨w, p1, h1, h⟩ := h
    rw [bind_eq_ok] at h
    obtain ⟨ws, p2, h2, ⟨⟩⟩ := h
    obtain ⟨st, hs, rfl⟩ := s_pop_of_ok hp h1
    obtain ⟨st', rfl⟩ := ih rfl h2
    exact ⟨st', rfl⟩

variable [GlobalState W R] [Keccak]

/-! ## The code and what is meant -/

theorem exec_by_code (op : Opcode) : exec_by (W := W) (R := R) prepare_mem_access copy_to_mem op = exec op := by
  cases op <;> rfl

theorem dispatch_by_code : dispatch_by (W := W) (R := R) prepare_mem_access copy_to_mem = dispatch := by
  let turn (exec : Opcode → M W R Unit) : M W R Unit := do
    let op ← onCtxt get_op
    trace_add op
    match Opcode.ofByte op with
    | some op => exec op
    | none => unknown_opcode op
  exact congrArg turn (funext exec_by_code)

/-- The instruction, its empty ranges left alone. -/
abbrev dispatch_unless_empty : M W R Unit := dispatch_by access_unless_empty copy_unless_empty

/-- It succeeds. -/
def Succeeds (p : Processor W R) : Prop := ∃ u p', dispatch_unless_empty p = .ok u p'

/-- Empty ranges do nothing: where the instruction succeeds with its empty ranges left alone, it succeeds with the same
outcome. -/
def Harmless (p : Processor W R) : Prop := ∀ u p', dispatch_unless_empty p = .ok u p' → dispatch p = .ok u p'

/-! ## The ranges -/

/-- The windows of a call, which are accessed when the callee has code. -/
def windows (op : Opcode) (gs : W) (c : Context R) : List (Nat × Nat) :=
  match call_operands op c with
  | .ok args _ =>
    let found := found gs args
    if has_code found.1 (transfer c.as found.1 (Word.ofUInt64 args.value) found.2) then
      [(args.offOut.toNat, args.sizeOut.toNat), (args.offIn.toNat, args.sizeIn.toNat)]
    else []
  | .error _ _ => []

/-- The offsets and sizes that the instruction accesses, `MLOAD`, `MSTORE` and `MSTORE8` apart. -/
def ranges (gs : W) (c : Context R) : List (Nat × Nat) :=
  match c.next_op with
  | some .SHA3 | some .RETURN | some (.LOG _) => [((c.s.getD 0 0).toNat, (c.s.getD 1 0).toNat)]
  | some .CREATE => [((c.s.getD 1 0).toNat, (c.s.getD 2 0).toNat)]
  | some .CALL => windows .CALL gs c
  | some .CALLCODE => windows .CALLCODE gs c
  | some .DELEGATECALL => windows .DELEGATECALL gs c
  | _ => []

/-- The empty ranges start within the memory limit and, but for a `RETURN`, where the frame's memory or another range of
the instruction reaches. -/
def Reached (gs : W) (c : Context R) : Prop :=
  reach (ranges gs c) ≤ MAX_MEM_SIZE.toNat ∧
    (c.next_op = some .RETURN ∨
      reach (ranges gs c) ≤ max c.mem.length (reach ((ranges gs c).filter fun r => r.2 ≠ 0)))

/-! ## Each instruction -/

omit [Keccak] in
theorem reached_iff {gs : W} {rs : List (Nat × Nat)} (hr : ranges gs c = rs) (hop : c.next_op ≠ some .RETURN) :
    Reached gs c ↔ reach rs ≤ MAX_MEM_SIZE.toNat ∧ reach rs ≤ max c.mem.length (reach (rs.filter fun r => r.2 ≠ 0)) := by
  rw [Reached, hr, or_iff_right hop]

theorem agrees_sha3 (gs : W) (hp : p.ctxts = c :: cs) (hop : c.next_op = some .SHA3) :
    AgreesIf (Reached gs c) (exec_by prepare_mem_access copy_to_mem .SHA3)
      (exec_by access_unless_empty copy_unless_empty .SHA3) p := by
  have hr : ranges gs c = [((c.s.getD 0 0).toNat, (c.s.getD 1 0).toNat)] := by
    rw [ranges, hop]
  rw [reached_iff hr (by rw [hop]; nofun)]
  simp only [exec_by, Op.sha3_by, onCtxt_bind]
  refine agrees_pops hp fun w w' st o n hs ho hn => ?_
  rw [hs]
  simp only [List.getD_cons_zero, List.getD_cons_succ, ← ho, ← hn]
  refine agrees_range (c := { c with s := st }) o n rfl ?_
  rw [← onCtxt_bind]
  exact push_keepsMemory _

theorem agrees_log (gs : W) {i : Fin 5} (hp : p.ctxts = c :: cs) (hop : c.next_op = some (.LOG i)) :
    AgreesIf (Reached gs c) (exec_by prepare_mem_access copy_to_mem (.LOG i))
      (exec_by access_unless_empty copy_unless_empty (.LOG i)) p := by
  have hr : ranges gs c = [((c.s.getD 0 0).toNat, (c.s.getD 1 0).toNat)] := by
    rw [ranges, hop]
  rw [reached_iff hr (by rw [hop]; nofun)]
  simp only [exec_by, log_by, copy_from_mem_by, onCtxt_bind, bind_assoc]
  refine agrees_pops hp fun w w' st o n hs ho hn => .bind fun topics q hq => ?_
  obtain ⟨st', rfl⟩ := pop_topics_of_ok rfl hq
  refine .bind fun c' q hq => .bind fun p1 q' hq' => ?_
  rw [ctxt_cons rfl] at hq
  cases hq
  cases hq'
  rw [hs]
  simp only [List.getD_cons_zero, List.getD_cons_succ, ← ho, ← hn]
  refine agrees_range (c := { c with s := st' }) o n rfl ?_
  refine onCtxt_get_keepsFrames.bind fun d => (onCtxt_pure_keepsFrames _).bind fun data => ?_
  rintro q u q' d ds hq ⟨⟩
  exact ⟨[], d, hq, rfl⟩

omit [Keccak] in
theorem gs_create_keepsFrames (addr : Address) (balance : Word) (code : Code) :
    KeepsFrames (W := W) (R := R) (gs_create addr balance code) := by
  rintro p a p' ⟨⟩
  rfl

omit [Keccak] in
theorem pay_to_keepsFrames (this other : R) (amount : Word) : KeepsFrames (W := W) (pay_to this other amount) := by
  intro p u p' h
  rw [(pay_to_eq_ok h).2]

theorem agrees_create (gs : W) (hp : p.ctxts = c :: cs) (hop : c.next_op = some .CREATE) :
    AgreesIf (Reached gs c) (exec_by prepare_mem_access copy_to_mem .CREATE)
      (exec_by access_unless_empty copy_unless_empty .CREATE) p := by
  have hr : ranges gs c = [((c.s.getD 1 0).toNat, (c.s.getD 2 0).toNat)] := by
    rw [ranges, hop]
  rw [reached_iff hr (by rw [hop]; nofun)]
  simp only [exec_by, create_by, create_operands_by, copy_from_mem_by, onCtxt_bind, bind_assoc]
  refine .bind fun v p1 h1 => ?_
  obtain ⟨st, hs, rfl⟩ := s_pop_of_ok hp h1
  refine agrees_pops rfl fun w w' st' o n hs' ho hn => ?_
  cases hs'
  rw [hs]
  simp only [List.getD_cons_zero, List.getD_cons_succ, ← ho, ← hn]
  refine agrees_range (c := { c with s := st' }) o n rfl ?_
  refine onCtxt_get_keepsFrames.bind fun d => (onCtxt_pure_keepsFrames _).bind fun code =>
    (onCtxt_pure_keepsFrames _).bind fun operands => onCtxt_get_keepsFrames.bind fun d => get_keepsFrames.bind fun q =>
      (gs_create_keepsFrames _ _ _).bind fun newAcc => (pay_to_keepsFrames _ _ _).bind fun _ => get_keepsFrames.bind fun q => ?_
  exact push_context_keepsMemory _

omit [Keccak] in
theorem agrees_call {op : Opcode} (hcall : op = .CALL ∨ op = .CALLCODE ∨ op = .DELEGATECALL) (hp : p.ctxts = c :: cs)
    (hop : c.next_op = some op) : AgreesIf (Reached p.gs c) (call_by prepare_mem_access op) (call_by access_unless_empty op) p := by
  have hr : ranges p.gs c = windows op p.gs c := by
    rcases hcall with rfl | rfl | rfl <;> rw [ranges, hop]
  have hreturn : c.next_op ≠ some .RETURN := by
    rcases hcall with rfl | rfl | rfl <;> rw [hop] <;> nofun
  rw [reached_iff hr hreturn]
  unfold call_by
  refine .bind fun args q hq => ?_
  obtain ⟨c', hops, rfl⟩ := onCtxt_eq_ok hp hq
  have hmem : c'.mem = c.mem := by rw [(call_operands_eq_ok hops hcall).eq]
  have has : c'.as = c.as := by rw [(call_operands_eq_ok hops hcall).eq]
  simp only [windows, hops]
  by_cases hpre : args.addr ≥ 1 ∧ args.addr ≤ 8
  · simp only [if_pos hpre]
    exact .of_error rfl
  simp only [if_neg hpre]
  refine .bind fun callee q hq => .bind fun d q' hq' => .bind fun u q'' hpay => .bind fun q3 q4 hget => ?_
  have hgs : gs_get args.addr ({ p with ctxts := c' :: cs } : Processor W R) =
      .ok (found p.gs args).1 { p with gs := (found p.gs args).2, ctxts := c' :: cs } := rfl
  cases hgs.symm.trans hq
  rw [ctxt_cons rfl] at hq'
  cases hq'
  cases hget
  obtain ⟨-, rfl⟩ := pay_to_eq_ok hpay
  rw [← hmem, ← has]
  cases has_code (found p.gs args).1
    (transfer c'.as (found p.gs args).1 (Word.ofUInt64 args.value) (found p.gs args).2) with
  | false => exact .of_eq ⟨Nat.zero_le _, Nat.zero_le _⟩ rfl
  | true =>
    simp only [copy_from_mem_by, onCtxt_bind, bind_assoc]
    refine agrees_ranges (c := c') _ _ _ _ rfl ?_
    refine onCtxt_get_keepsFrames.bind fun d => (onCtxt_pure_keepsFrames _).bind fun input => ?_
    rcases hcall with rfl | rfl | rfl
    all_goals exact push_context_keepsMemory _

omit [Keccak] in
/-- A context that returns is gone, and its memory with it. -/
theorem returning_mem {output mem mem' : Bytes} {u : Unit} {p' : Processor W R}
    (h : returning output { p with ctxts := { c with mem } :: cs } = .ok u p') :
    returning output { p with ctxts := { c with mem := mem' } :: cs } = .ok u p' := by
  by_cases hrun : c.handlers = .run
  · rw [returning_outer (c := { c with mem }) rfl hrun] at h
    rw [returning_outer (c := { c with mem := mem' }) rfl hrun, ← h]
    rfl
  · cases cs with
    | nil =>
      rw [returning, bind_of_ok (ctxt_cons rfl)] at h
      cases hh : c.handlers with
      | run => exact absurd hh hrun
      | create | call => simp [hh, rh, invoke, onCtxtAt, update, run_bind] at h
    | cons d ds =>
      rw [returning_nested (c := { c with mem }) rfl hrun] at h
      rw [returning_nested (c := { c with mem := mem' }) rfl hrun]
      simp only at h ⊢
      cases hr : c.handlers.rh_report (rh_address c.handlers output p.gs) output d with
      | ok a d' =>
        rw [hr] at h
        exact h
      | error e d' =>
        rw [hr] at h
        cases h

omit [Keccak] in
theorem returning_read (o n : Nat) (hp : p.ctxts = c :: cs) :
    (onCtxt get >>= fun c => onCtxt (pure ((c.mem.drop o).take n)) >>= returning) p = returning ((c.mem.drop o).take n) p := by
  have hget : onCtxt get p = .ok c p := ctxt_cons hp
  have hpure : onCtxt (pure ((c.mem.drop o).take n)) p = .ok ((c.mem.drop o).take n) p := by
    rw [onCtxt_cons hp, run_pure]
    simp only [← hp]
  rw [bind_of_ok hget, bind_of_ok hpure]

omit [Keccak] in
theorem agrees_return (gs : W) (hp : p.ctxts = c :: cs) (hop : c.next_op = some .RETURN) :
    AgreesIf (Reached gs c) (return_by prepare_mem_access) (return_by access_unless_empty) p := by
  have hr : ranges gs c = [((c.s.getD 0 0).toNat, (c.s.getD 1 0).toNat)] := by
    rw [ranges, hop]
  have hiff : Reached gs c ↔ (c.s.getD 0 0).toNat + (c.s.getD 1 0).toNat ≤ MAX_MEM_SIZE.toNat := by
    rw [Reached, hr, reach_singleton]
    simp [hop]
  rw [hiff]
  simp only [return_by, copy_from_mem_by, onCtxt_bind, bind_assoc]
  refine agrees_pops hp fun w w' st o n hs ho hn => ?_
  rw [hs]
  simp only [List.getD_cons_zero, List.getD_cons_succ, ← ho, ← hn]
  by_cases h0 : n = 0
  · subst h0
    have hskip := reaches_access_unless_empty o 0 { c with s := st }
    have hcode := reaches_prepare_mem_access o 0 { c with s := st }
    by_cases hle : o.toNat + (0 : UInt64).toNat ≤ MAX_MEM_SIZE.toNat
    · refine .of_imp hle fun u p' h => ?_
      rw [run_access rfl hskip (Nat.zero_le _), returning_read _ _ rfl, UInt64.toNat_zero, List.take_zero] at h
      rw [run_access rfl hcode hle, returning_read _ _ rfl, UInt64.toNat_zero, List.take_zero]
      exact returning_mem (p := p) (c := { c with s := st }) h
    · refine .of_not hle fun u p' _ => ?_
      obtain ⟨e, q, he⟩ := run_access_of_lt (p := { p with ctxts := { c with s := st } :: cs }) rfl hcode (Nat.lt_of_not_le hle) _
      rw [he]
      intro h
      cases h
  · have hsame : access_unless_empty (R := R) o n = prepare_mem_access o n := if_neg h0
    rw [hsame]
    by_cases hle : o.toNat + n.toNat ≤ MAX_MEM_SIZE.toNat
    · exact .of_eq hle rfl
    · obtain ⟨e, q, he⟩ := run_access_of_lt (p := { p with ctxts := { c with s := st } :: cs }) rfl
        (reaches_prepare_mem_access o n _) (Nat.lt_of_not_le hle) _
      exact .of_error he

omit [Keccak] in
theorem reached_of_nil {gs : W} (h : ranges gs c = []) : Reached gs c := by
  rw [Reached, h]
  exact ⟨Nat.zero_le _, .inr (Nat.zero_le _)⟩

theorem dispatch_by_eq (access : UInt64 → UInt64 → CtxM R Unit)
    (copy : UInt64 → UInt64 → UInt64 → Bytes → UInt8 → CtxM R Unit) (hp : p.ctxts = c :: cs) :
    dispatch_by access copy p = (match c.next_op with
      | some op => exec_by access copy op
      | none => unknown_opcode (c.prog.code.getD c.pc 0)) (traced p c) := by
  rw [dispatch_by, fetch_of_cons hp]
  rfl

theorem agrees_exec {op : Opcode} (hp : p.ctxts = c :: cs) (hop : c.next_op = some op) :
    AgreesIf (Reached p.gs c) (exec_by prepare_mem_access copy_to_mem op)
      (exec_by access_unless_empty copy_unless_empty op) p := by
  cases op with
  | SHA3 => exact agrees_sha3 _ hp hop
  | RETURN => exact agrees_return _ hp hop
  | LOG => exact agrees_log _ hp hop
  | CREATE => exact agrees_create _ hp hop
  | CALL => exact agrees_call (.inl rfl) hp hop
  | CALLCODE => exact agrees_call (.inr (.inl rfl)) hp hop
  | DELEGATECALL => exact agrees_call (.inr (.inr rfl)) hp hop
  | CALLDATACOPY | CODECOPY | EXTCODECOPY =>
    -- the copies have the early exit in the code
    refine .of_eq (reached_of_nil (by rw [ranges, hop])) ?_
    rw [copy_unless_empty_eq]
    rfl
  | _ => exact .of_eq (reached_of_nil (by rw [ranges, hop])) rfl

/-- **Empty ranges.** They are harmless exactly when the memory, or another range of the instruction, reaches up to them,
unless the instruction fails anyway; for a `RETURN` it is enough that they are within the memory limit. -/
theorem harmless_iff_reached (p : Processor W R) :
    Harmless p ↔ (Succeeds p → ∀ c cs, p.ctxts = c :: cs → Reached p.gs c) := by
  cases hp : p.ctxts with
  | nil =>
    have herr : dispatch_unless_empty p = .error .null_ctxt p := by
      rw [dispatch_unless_empty, dispatch_by, bind_of_error (onCtxt_nil hp)]
    constructor
    · exact fun _ _ _ _ => nofun
    · intro _ u p' h
      rw [herr] at h
      cases h
  | cons c cs =>
    have hpt : (traced p c).ctxts = c :: cs := hp
    have hagree : AgreesIf (Reached p.gs c) dispatch dispatch_unless_empty p := by
      rw [← dispatch_by_code, AgreesIf, dispatch_unless_empty, dispatch_by_eq _ _ hp, dispatch_by_eq _ _ hp]
      cases hop : c.next_op with
      | some op => exact agrees_exec hpt hop
      | none => exact AgreesIf.of_eq (reached_of_nil (by rw [ranges, hop])) rfl
    refine Iff.trans hagree ?_
    constructor
    · rintro h hs c' cs' ⟨⟩
      exact h hs
    · exact fun h hs => h hs c cs rfl

omit [GlobalState W R] [Keccak]

/-- A processor at a `SHA3` of nothing at `offset`. -/
def hashing_nothing (offset : Word) : Processor SimpleGlobalState Address where
  gs := SimpleGlobalState.of_accounts []
  tx := { origin := 1 }
  ctxts := [{
    as := 100, caller := 1, input := [], call_value := 0, prog := .ofCode [0x20], handlers := .run, s := [offset, 0] }]

/-- Past the memory limit, nothing cannot be hashed. -/
theorem sha3_of_nothing_not_harmless : ¬@Harmless _ _ _ no_hash (hashing_nothing 0x2000001) := by
  intro h
  have hrefused : ∃ e p, @dispatch _ _ _ no_hash (hashing_nothing 0x2000001) = .error e p := ⟨_, _, rfl⟩
  obtain ⟨e, p, he⟩ := hrefused
  have hok := h () _ rfl
  rw [he] at hok
  cases hok

end Processor

end EEVM

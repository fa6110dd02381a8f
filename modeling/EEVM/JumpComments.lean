import EEVM.InstructionStream
/-!
# The comments at jumps (disassembler.h:143-177, processor.cpp:369-376, 948-960)

`dis` guesses where a jump goes from the immediate of the `PUSH` before it. A jump can only be reached by falling
through that `PUSH`, as it is no `JUMPDEST`, so the immediate is indeed what the jump pops (`top_of_push`). But `dis`
looks up its low 64 bits, where `pop64` throws on a word that has more.
-/
namespace EEVM

open ExcState

namespace Disassembler

variable {prog : Bytes} {d : Disassembly} {k q : Nat} {i : Instr} {n : Fin 32}

/-! ## Which comment a jump gets -/

/-- There is a `PUSH` at `q`, in front of the instruction at `k`. -/
structure PushBefore (prog : Bytes) (q : Nat) (n : Fin 32) (k : Nat) : Prop where
  visits : Sweep.Visits (width prog) q
  push : Opcode.ofByte (prog.getD q 0) = some (.PUSH n)
  next : q + width prog q = k

theorem PushBefore.eq (h : PushBefore prog q n k) : q + (n.val + 1) + 1 = k := by
  have hw := width_of_next_op h.push
  rw [Opcode.immediate_bytes] at hw
  have := h.next
  omega

theorem PushBefore.unique {q' : Nat} {n' : Fin 32} (h : PushBefore prog q n k) (h' : PushBefore prog q' n' k) :
    q' = q ∧ n' = n := by
  obtain rfl := Sweep.Visits.eq_of_next_eq (width_pos prog) h'.visits h.visits (h'.next.trans h.next.symm)
  have hpush := h'.push.symm.trans h.push
  simp only [Option.some.injEq, Opcode.PUSH.injEq] at hpush
  exact ⟨rfl, hpush⟩

/-- The word a `PUSH` at `q` pushes. -/
def pushed (prog : Bytes) (q : Nat) (n : Fin 32) : Word := Op.immediate prog (n.val + 1) (q + 1) 0

/-- What `dis` writes at a jump it expects to go to `t`. -/
def target_comment (prog : Bytes) (t : Nat) : String :=
  if t ∈ compute_jump_dests prog then "branches to " ++ ("loc_" ++ toString t) else "illegal target"

theorem branches_inj {t t' : Nat} (h : "branches to " ++ ("loc_" ++ toString t) = "branches to " ++ ("loc_" ++ toString t')) :
    t = t' := by
  rw [String.append_right_inj, String.append_right_inj] at h
  have hdigits := congrArg (fun s => Nat.ofDigitChars 10 s.toList 0) (show t.repr = t'.repr from h)
  simpa only [Nat.toList_repr, Nat.ofDigitChars_ten_toDigits] using hdigits

theorem branches_ne_illegal (s : String) : "branches to " ++ s ≠ "illegal target" := by
  intro h
  have hhead := congrArg (fun s => s.toList.head?) h
  simp at hhead

theorem branches_ne_empty (s : String) : "branches to " ++ s ≠ "" := by
  intro h
  have hhead := congrArg (fun s => s.toList.head?) h
  simp at hhead

/-- The entry that `resolve_jumps` makes of one looks at the one before it. -/
theorem mem_resolve_jumps {all : List (Nat × Instr)} {prev : Option Instr} {l : List (Nat × Instr)} {i' : Instr}
    (h : (k, i') ∈ resolve_jumps all prev l) :
    ∃ pre i post, l = pre ++ (k, i) :: post ∧
      resolve_jumps all ((pre.getLast?.map Prod.snd).or prev) [(k, i)] = [(k, i')] := by
  induction l generalizing prev with
  | nil => cases h
  | cons e es ih =>
    obtain ⟨k0, i0⟩ := e
    rcases List.mem_cons.1 h with heq | h
    · refine ⟨[], i0, es, ?_⟩
      obtain ⟨rfl, rfl⟩ := Prod.mk.inj heq
      exact ⟨rfl, rfl⟩
    · obtain ⟨pre, i, post, rfl, hi⟩ := ih h
      refine ⟨(k0, i0) :: pre, i, post, rfl, ?_⟩
      rw [List.getLast?_cons]
      cases hlast : pre.getLast? with
      | none => simpa [hlast] using hi
      | some e => simpa [hlast] using hi

theorem dis_from_comment {turns pc : Nat} {instrs : List (Nat × Instr)} (h : dis_from prog turns pc = .ok instrs)
    (hmem : (k, i) ∈ instrs) : i.comment = "" := by
  induction turns generalizing pc instrs with
  | zero =>
    cases h
    cases hmem
  | succ turns ih =>
    unfold dis_from at h
    by_cases hpc : pc < prog.length
    case neg =>
      simp only [dif_neg hpc] at h
      cases h
      cases hmem
    simp only [dif_pos hpc] at h
    split at h
    · cases h
    cases hrest : dis_from prog turns (pc + 1 + (getOp prog[pc]).immediate_bytes) with
    | error e => simp [hrest] at h
    | ok rest =>
      rw [hrest] at h
      cases h
      rcases List.mem_cons.1 hmem with heq | hmem
      · cases heq
        rfl
      · exact ih hrest hmem

/-- The disassembly before jumps are resolved. -/
structure Named (prog : Bytes) (l : List (Nat × Instr)) : Prop where
  keys : l.map Prod.fst = positions prog
  describes : ∀ k i, (k, i) ∈ l → Describes prog k i
  comment : ∀ k i, (k, i) ∈ l → i.comment = if prog.getD k 0 = JUMPDEST then "loc_" ++ toString k else ""

theorem named_of_dis_from {instrs : List (Nat × Instr)} (h : dis_from prog prog.length 0 = .ok instrs) :
    Named prog (name_jump_dests instrs) := by
  obtain ⟨hkeys, hentries⟩ := dis_from_ok h
  obtain ⟨hkeys', hentries'⟩ := describes_of_same (name_jump_dests_same instrs) hentries
  refine ⟨hkeys'.trans hkeys, hentries', ?_⟩
  intro k i hmem
  obtain ⟨⟨k0, i0⟩, hmem0, heq⟩ := List.mem_map.1 hmem
  obtain ⟨rfl, rfl⟩ := Prod.mk.inj heq
  have hd := hentries k0 i0 hmem0
  rw [hd.op, getOp_opcode, hd.pc]
  split
  · rfl
  · exact dis_from_comment h hmem0

/-- Looking a target up in the disassembly is looking it up among the jump destinations. -/
theorem jump_comment_eq {l : List (Nat × Instr)} (hl : Named prog l) (j : Instr) :
    jump_comment l j = target_comment prog (from_big_endian j.raw_imm).toUInt64.toNat := by
  have hdests : ∀ t, t ∈ compute_jump_dests prog ↔ t ∈ l.map Prod.fst ∧ prog.getD t 0 = JUMPDEST := by
    intro t
    rw [compute_jump_dests_eq, List.mem_filter, hl.keys, decide_eq_true_iff]
  unfold jump_comment target_comment
  simp only [hdests]
  generalize (from_big_endian j.raw_imm).toUInt64.toNat = t
  cases hlook : l.lookup t with
  | none =>
    have hnot : t ∉ l.map Prod.fst := by
      rw [List.mem_map]
      rintro ⟨⟨k, i⟩, hmem, rfl⟩
      have := List.lookup_eq_none_iff.1 hlook (k, i) hmem
      simp at this
    simp [hnot]
  | some i =>
    have hmem : (t, i) ∈ l := by
      obtain ⟨l1, l2, rfl, -⟩ := List.lookup_eq_some_iff.1 hlook
      simp
    have hkey : t ∈ l.map Prod.fst := List.mem_map.2 ⟨_, hmem, rfl⟩
    have hop : i.op.opcode = prog.getD t 0 := by rw [(hl.describes t i hmem).op, getOp_opcode]
    dsimp only
    rw [hop, hl.comment t i hmem]
    by_cases hdest : prog.getD t 0 = JUMPDEST
    · rw [if_neg (not_not.2 hdest), if_pos hdest, if_pos ⟨hkey, hdest⟩]
    · rw [if_pos hdest, if_neg fun h => hdest h.2]

/-- An immediate belongs to a `PUSH`. -/
theorem push_of_immediate {b : UInt8} (h : (getOp b).immediate_bytes > 0) : ∃ n, Opcode.ofByte b = some (.PUSH n) := by
  unfold getOp at h
  cases hop : Opcode.ofByte b with
  | none =>
    rw [hop] at h
    exact absurd h (Nat.lt_irrefl 0)
  | some op =>
    rw [hop] at h
    cases op <;> first | exact ⟨_, rfl⟩ | exact absurd h (Nat.lt_irrefl 0)

theorem ne_jumpdest_of_jump {b : UInt8} (h : Opcode.ofByte b = some .JUMP ∨ Opcode.ofByte b = some .JUMPI) :
    b ≠ JUMPDEST := by
  rintro rfl
  revert h
  decide

/-- The immediate that `dis` has read at a `PUSH` is what the `PUSH` pushes. -/
theorem PushBefore.raw_imm {j : Instr} (h : PushBefore prog q n k) (hk : k < prog.length) (hj : Describes prog q j) :
    from_big_endian j.raw_imm = pushed prog q n := by
  have heq := h.eq
  have hw := width_of_next_op h.push
  rw [width, Opcode.immediate_bytes] at hw
  rw [hj.raw_imm, pushed, immediate_eq_from_big_endian (by omega)]
  congr 2
  omega

/-- The entry of a jump, where the entries before it are `pre`, is resolved by the last of them. -/
theorem comment_of_resolved {l pre post : List (Nat × Instr)} {i0 : Instr} (hl : Named prog l) (heq : l = pre ++ (k, i0) :: post)
    (hempty : i0.comment = "") (his : i0.op.opcode = Opcode.JUMP.toByte ∨ i0.op.opcode = Opcode.JUMPI.toByte)
    (hi : resolve_jumps l ((pre.getLast?.map Prod.snd).or none) [(k, i0)] = [(k, i)]) :
    (i.comment = "" ∧ ∀ q n, ¬PushBefore prog q n k) ∨
      ∃ q n, PushBefore prog q n k ∧ i.comment = target_comment prog (pushed prog q n).toUInt64.toNat := by
  have hmem : ∀ k i, (k, i) ∈ l → k ∈ positions prog := by
    intro k i h
    rw [← hl.keys]
    exact List.mem_map.2 ⟨_, h, rfl⟩
  have hkeys := hl.keys
  rw [heq, List.map_append, List.map_cons] at hkeys
  rcases Sweep.eq_or_next_of_positions_eq hkeys.symm with ⟨hpre, hk⟩ | ⟨pre', q, hpre, hk⟩
  · -- it is the first instruction
    left
    obtain rfl := List.map_eq_nil_iff.1 hpre
    cases hi
    refine ⟨hempty, ?_⟩
    intro q n hq
    have := hq.eq
    dsimp only at hk
    omega
  · obtain ⟨pre, last, rfl, -, hlast⟩ := List.map_eq_append_iff.1 hpre
    obtain ⟨⟨q', j⟩, rfl, hq⟩ := List.map_eq_singleton_iff.1 hlast
    dsimp only at hk hq
    subst hq
    have hj : (q', j) ∈ l := by
      rw [heq]
      simp
    have hdesc := hl.describes q' j hj
    have hvisits : Sweep.Visits (width prog) q' := (mem_positions.1 (hmem q' j hj)).1
    rw [List.getLast?_concat] at hi
    by_cases himm : j.op.immediate_bytes > 0
    · right
      obtain ⟨n, hpush⟩ := push_of_immediate (b := prog.getD q' 0) (by rwa [← hdesc.op])
      have hbefore : PushBefore prog q' n k := ⟨hvisits, hpush, hk.symm⟩
      have hklt : k < prog.length := (mem_positions.1 (hmem k i0 (by rw [heq]; simp))).2
      refine ⟨q', n, hbefore, ?_⟩
      simp only [resolve_jumps, Option.map_some, Option.some_or, his, himm, and_self, if_true] at hi
      cases hi
      rw [← hbefore.raw_imm hklt hdesc]
      exact jump_comment_eq hl j
    · left
      simp only [resolve_jumps, Option.map_some, Option.some_or, himm, and_false, if_false] at hi
      cases hi
      refine ⟨hempty, ?_⟩
      intro q n hq
      obtain rfl := Sweep.Visits.eq_of_next_eq (width_pos prog) hq.visits hvisits (hq.next.trans hk)
      rw [hdesc.op, getOp, hq.push] at himm
      exact himm (Nat.succ_pos _)

/-- The comment at a jump is about the `PUSH` before it, if there is one. -/
theorem comment_of_jump (hd : dis prog = .ok d) (hmem : (k, i) ∈ d.instrs)
    (hjump : Opcode.ofByte (prog.getD k 0) = some .JUMP ∨ Opcode.ofByte (prog.getD k 0) = some .JUMPI) :
    (i.comment = "" ∧ ∀ q n, ¬PushBefore prog q n k) ∨
      ∃ q n, PushBefore prog q n k ∧ i.comment = target_comment prog (pushed prog q n).toUInt64.toNat := by
  unfold dis at hd
  cases hfrom : dis_from prog prog.length 0 with
  | error e => simp [hfrom] at hd
  | ok instrs =>
    rw [hfrom] at hd
    cases hd
    have hl := named_of_dis_from hfrom
    obtain ⟨pre, i0, post, heq, hi⟩ := mem_resolve_jumps hmem
    have hmem0 : (k, i0) ∈ name_jump_dests instrs := by
      rw [heq]
      simp
    -- a jump has no comment before
    have hempty : i0.comment = "" := by
      rw [hl.comment k i0 hmem0, if_neg (ne_jumpdest_of_jump hjump)]
    have his : i0.op.opcode = Opcode.JUMP.toByte ∨ i0.op.opcode = Opcode.JUMPI.toByte := by
      rw [(hl.describes k i0 hmem0).op, getOp_opcode]
      exact hjump.imp (fun h => (toByte_of_ofByte h).symm) fun h => (toByte_of_ofByte h).symm
    exact comment_of_resolved hl heq hempty his hi

end Disassembler

open Disassembler

namespace Context

variable {R : Type} {c : Context R} {q : Nat} {n : Fin 32}

/-- `c` is at a jump that is taken, right behind a `PUSH` of a word that has more than 64 bits, of which the low 64
spell a jump destination. -/
def WideJump (c : Context R) : Prop :=
  c.Jumps ∧ ∃ q n, PushBefore c.prog.code q n c.pc ∧ 2 ^ 64 ≤ (pushed c.prog.code q n).toNat ∧
    (pushed c.prog.code q n).toUInt64.toNat ∈ c.prog.jump_dests

theorem Jumps.op (h : c.Jumps) : c.next_op = some .JUMP ∨ c.next_op = some .JUMPI :=
  h.imp_right And.left

theorem Jumps.not_dest (h : c.Jumps) : c.prog.code.getD c.pc 0 ≠ JUMPDEST :=
  ne_jumpdest_of_jump h.op

/-- Right behind a `PUSH`, but for a `JUMPDEST`, the word it has pushed is on top: it is the only way to get there. -/
theorem Lands.top_of_push {c1 : Context R} (h : c.Lands c1) (hs : c.InStream) (hsame : Processor.SameFrame c c1)
    (hflag : c.pc_changed = false ∨ c.pc = 0) (hno : c1.step.prog.code.getD c1.step.pc 0 ≠ JUMPDEST)
    (hq : PushBefore c1.step.prog.code q n c1.step.pc) : ∃ s, c1.step.s = pushed c1.step.prog.code q n :: s := by
  have hprog : c1.step.prog = c.prog := by rw [(Processor.step_sameFrame c1).prog, hsame.prog]
  rw [hprog] at hq hno ⊢
  have heq := hq.eq
  cases h with
  | falls hop hnj hpc hch =>
    exfalso
    rcases hflag with hflag | hzero
    · have hpc' : c1.step.pc = c.pc + width c.prog.code c.pc := by
        rw [Processor.step_of_not_changed (hch.trans hflag), width_of_not_push hop, hpc]
      obtain rfl := Sweep.Visits.eq_of_next_eq (width_pos _) hq.visits hs (hq.next.trans hpc')
      exact hop n hq.push
    · cases hchanged : c1.pc_changed with
      | true =>
        have hpc' : c1.step.pc = c.pc := by simp [step, hchanged, hpc]
        omega
      | false =>
        have hpc' : c1.step.pc = c.pc + 1 := by simp [step, hchanged, hpc]
        omega
  | @pushes m hop hfits h =>
    have hpc' : c1.step.pc = c.pc + width c.prog.code c.pc := by
      rw [h, width_of_next_op hop, Opcode.immediate_bytes]
      simp [Context.step]
      omega
    obtain ⟨rfl, rfl⟩ := PushBefore.unique ⟨hs, hop, hpc'.symm⟩ hq
    rw [step_s, h]
    exact ⟨c.s, rfl⟩
  | jumps hj hpc hch =>
    have hpc' : c1.step.pc = c1.pc := by simp [step, hch]
    rw [hpc'] at hno
    rw [c.prog.jump_dests_eq, compute_jump_dests_eq, List.mem_filter] at hpc
    exact absurd (of_decide_eq_true hpc.2) hno

end Context

namespace Processor

variable {W R : Type} [GlobalState W R] [Keccak] {p p' : Processor W R} {c c' : Context R} {cs : List (Context R)}
  {q : Nat} {n : Fin 32} {w : Word} {s : Stack}

/-! ## What a jump finds on the stack -/

theorem next_top_of_push (hs : InStream p) (hn : iterate p = .next p') (hp' : p'.ctxts = c' :: cs)
    (hflag : ∀ c cs, p.ctxts = c :: cs → c.pc_changed = false ∨ c.pc = 0)
    (hno : c'.prog.code.getD c'.pc 0 ≠ JUMPDEST) (hq : PushBefore c'.prog.code q n c'.pc) :
    ∃ s, c'.s = pushed c'.prog.code q n :: s := by
  obtain ⟨c, cs0, hp, hv, hc⟩ := next_cases hn
  have heq := hq.eq
  cases hc with
  | @stays p1 c1 hc h1 hop hd =>
    have hsame := hc.sameFrame hp h1
    obtain ⟨rfl, -⟩ := List.cons.inj hp'
    exact (stays_lands hp hd h1 hc).top_of_push (hs.top c cs0 hp) hsame (hflag c cs0 hp) hno hq
  | opens hc h1 hop hcall hf hdepth hd =>
    obtain ⟨rfl, -⟩ := List.cons.inj hp'
    simp [Context.step, hf.pc_changed, hf.pc] at heq
  | @ends p1 c1 p2 k x xs hc h1 hop hk hd h2 =>
    -- the instruction before the pc is the call that has returned
    exfalso
    obtain ⟨rfl, -⟩ := List.cons.inj hp'
    obtain ⟨d, ds, hdrop, hquiet, -⟩ := dropped_below hd hk h1 h2
    have hd' : d ∈ cs0 := List.mem_of_mem_drop (by rw [hdrop]; exact List.mem_cons_self)
    have hx : AtCall x := (hs.below d (by rw [hp]; exact hd')).of_quiet hquiet
    rw [(step_sameFrame x).prog, step_of_not_changed hx.pc_changed] at hq
    have hnext : q + width x.prog.code q = x.pc + width x.prog.code x.pc := by rw [hq.next, hx.width]
    obtain rfl := Sweep.Visits.eq_of_next_eq (width_pos _) hq.visits hx.in_stream hnext
    obtain ⟨op, hop, hcall⟩ := hx.calls
    rw [Context.next_op, hq.push] at hop
    cases hop
    cases hcall

variable {gs : W} {tx : Transaction} {tr : Option (List TraceEvent)} {caller : Address} {callee : R} {input : Bytes}
  {call_value : Word}

/-- What a `PUSH` has pushed is on top of the stack at the instruction after it. -/
theorem top_of_push (hr : Loop.Reaches iterate (start gs tx tr caller callee input call_value) p)
    (hp : p.ctxts = c :: cs) (hno : c.prog.code.getD c.pc 0 ≠ JUMPDEST) (hq : PushBefore c.prog.code q n c.pc) :
    ∃ s, c.s = pushed c.prog.code q n :: s := by
  rcases hr.cases_tail with rfl | ⟨p0, hr0, hn⟩
  · cases hp
    have := hq.eq
    simp at this
  · refine next_top_of_push (inStream_of_reaches hr0) hn hp ?_ hno hq
    intro c0 cs0 hp0
    rcases stepped_of_reaches hr0 hp0 with rfl | h
    · cases hp0
      exact .inr rfl
    · exact .inl h

/-! ## What a jump does with it -/

omit [GlobalState W R] [Keccak] in
theorem jump_to_of_mem {t : UInt64} (h : t.toNat ∈ c.prog.jump_dests) : jump_to t c = .ok () (c.set_pc t.toNat) := by
  unfold jump_to
  rw [bind_of_ok (run_get c), if_neg (not_not.2 h)]
  rfl

omit [GlobalState W R] [Keccak] in
theorem jump_to_of_not_mem {t : UInt64} (h : t.toNat ∉ c.prog.jump_dests) :
    ∃ ex, jump_to t c = .error (.exception ex) c := by
  unfold jump_to
  rw [bind_of_ok (run_get c), if_pos h]
  exact ⟨_, rfl⟩

/-- A jump that is taken pops its target, and nothing but the condition before it jumps there. -/
theorem dispatch_jump (hp : p.ctxts = c :: cs) (hj : c.Jumps) :
    ∃ m : CtxM R Unit, dispatch p = onCtxt m (traced p c) ∧
      (∀ t c1, s_pop64 c = .ok t c1 → ∃ s, m c = jump_to t { c with s }) ∧
      ∀ e c1, s_pop64 c = .error e c1 → m c = .error e c1 := by
  rcases hj with hop | ⟨hop, dest, cond, s, hs, hcond⟩
  · refine ⟨Op.jump, by rw [dispatch_eq hp, hop]; rfl, ?_, ?_⟩
    · intro t c1 h
      obtain ⟨-, -, hc1, -⟩ := s_pop64_eq_ok h
      exact ⟨c1.s, by rw [Op.jump, bind_of_ok h, hc1]⟩
    · intro e c1 h
      rw [Op.jump, bind_of_error h]
  · refine ⟨Op.jumpi, by rw [dispatch_eq hp, hop]; rfl, ?_, ?_⟩
    · intro t c1 h
      obtain ⟨w, hs1, hc1, -⟩ := s_pop64_eq_ok h
      obtain ⟨-, hs1⟩ := List.cons.inj (hs.symm.trans hs1)
      have hpop : s_pop c1 = .ok cond { c with s } := by
        rw [hc1, ← hs1]
        rfl
      exact ⟨s, by rw [Op.jumpi, bind_of_ok h, bind_of_ok hpop, if_pos hcond]⟩
    · intro e c1 h
      rw [Op.jumpi, bind_of_error h]

/-- It goes to a jump destination of at most 64 bits. -/
theorem jump_goes (hp : p.ctxts = c :: cs) (hj : c.Jumps) (hs : c.s = w :: s) (hw : w.toNat < 2 ^ 64)
    (hmem : w.toNat ∈ c.prog.jump_dests) :
    ∃ c1, dispatch p = .ok () { traced p c with ctxts := c1 :: cs } ∧ c1.pc = w.toNat ∧ c1.pc_changed = true ∧
      c1.prog = c.prog := by
  obtain ⟨m, hd, hok, -⟩ := dispatch_jump hp hj
  obtain ⟨s', hm⟩ := hok _ _ (s_pop64_of_lt hs hw)
  have ht := toNat_toUInt64 hw
  have hpt : (traced p c).ctxts = c :: cs := hp
  refine ⟨Context.set_pc w.toNat { c with s := s' }, ?_, rfl, rfl, rfl⟩
  rw [hd, onCtxt_cons hpt, hm, jump_to_of_mem (by rw [ht]; exact hmem), ht]

/-- Any other target throws. -/
theorem jump_throws (hp : p.ctxts = c :: cs) (hj : c.Jumps) (hs : c.s = w :: s)
    (hw : 2 ^ 64 ≤ w.toNat ∨ w.toUInt64.toNat ∉ c.prog.jump_dests) :
    ∃ ex p1, dispatch p = .error (.exception ex) p1 := by
  obtain ⟨m, hd, hok, herr⟩ := dispatch_jump hp hj
  have hpt : (traced p c).ctxts = c :: cs := hp
  suffices h : ∃ ex c1, m c = .error (.exception ex) c1 by
    obtain ⟨ex, c1, h⟩ := h
    exact ⟨ex, _, by rw [hd, onCtxt_cons hpt, h]⟩
  rcases Nat.lt_or_ge w.toNat (2 ^ 64) with hlt | hge
  · obtain ⟨s', hm⟩ := hok _ _ (s_pop64_of_lt hs hlt)
    have hnot : w.toUInt64.toNat ∉ c.prog.jump_dests := hw.resolve_left (Nat.not_le.2 hlt)
    obtain ⟨ex, hx⟩ := jump_to_of_not_mem (c := { c with s := s' }) hnot
    exact ⟨ex, _, hm.trans hx⟩
  · obtain ⟨ex, c1, hx⟩ := s_pop64_of_le hs hge
    exact ⟨ex, c1, herr _ _ hx⟩

/-! ## The comments and the run -/

/-- The comments `dis` writes at jumps are true of the run that starts in `p0`. -/
structure JumpComments (p0 : Processor W R) : Prop where
  branches : ∀ p c cs d i t, Loop.Reaches iterate p0 p → p.ctxts = c :: cs → c.pc_valid = true → c.Jumps →
    dis c.prog.code = .ok d → (c.pc, i) ∈ d.instrs → i.comment = "branches to " ++ ("loc_" ++ toString (t : Nat)) →
      ∃ p' c', iterate p = .next p' ∧ p'.ctxts = c' :: cs ∧ c'.pc = t ∧ c'.pc_valid = true
  illegal : ∀ p c cs d i, Loop.Reaches iterate p0 p → p.ctxts = c :: cs → c.pc_valid = true → c.Jumps →
    dis c.prog.code = .ok d → (c.pc, i) ∈ d.instrs → i.comment = "illegal target" →
      ∃ ex p1, dispatch p = .error (.exception ex) p1

/-- A comment at a taken jump is about the word on top of the stack. -/
theorem comment_of_reaches (hr : Loop.Reaches iterate (start gs tx tr caller callee input call_value) p)
    (hp : p.ctxts = c :: cs) (hj : c.Jumps) {d : Disassembly} (hd : dis c.prog.code = .ok d) {i : Instr}
    (hi : (c.pc, i) ∈ d.instrs) (hne : i.comment ≠ "") :
    ∃ q n s, PushBefore c.prog.code q n c.pc ∧ c.s = pushed c.prog.code q n :: s ∧
      i.comment = target_comment c.prog.code (pushed c.prog.code q n).toUInt64.toNat := by
  rcases comment_of_jump hd hi hj.op with ⟨hempty, -⟩ | ⟨q, n, hq, hcomment⟩
  · exact absurd hempty hne
  · obtain ⟨s, hs⟩ := top_of_push hr hp hj.not_dest hq
    exact ⟨q, n, s, hq, hs, hcomment⟩

/-- A wide jump is commented as a branch, but it throws. -/
theorem wide_commented (hr : Loop.Reaches iterate (start gs tx tr caller callee input call_value) p)
    (hp : p.ctxts = c :: cs) (hv : c.pc_valid = true) {d : Disassembly} (hd : dis c.prog.code = .ok d) (hw : c.WideJump) :
    (∃ i t, (c.pc, i) ∈ d.instrs ∧ i.comment = "branches to " ++ ("loc_" ++ toString (t : Nat))) ∧
      ∃ ex p1, dispatch p = .error (.exception ex) p1 := by
  obtain ⟨hj, q, n, hq, hwide, hmem⟩ := hw
  have hpos : c.pc ∈ positions c.prog.code :=
    mem_positions.2 ⟨(inStream_of_reaches hr).top c cs hp, by simpa [Context.pc_valid] using hv⟩
  rw [← (dis_ok hd).1, List.mem_map] at hpos
  obtain ⟨⟨k, i⟩, hi, hk⟩ := hpos
  obtain rfl : k = c.pc := hk
  obtain ⟨s, hs⟩ := top_of_push hr hp hj.not_dest hq
  refine ⟨⟨i, (pushed c.prog.code q n).toUInt64.toNat, hi, ?_⟩, jump_throws hp hj hs (.inl hwide)⟩
  rcases comment_of_jump hd hi hj.op with ⟨-, hno⟩ | ⟨q', n', hq', hcomment⟩
  · exact absurd hq (hno q n)
  · obtain ⟨rfl, rfl⟩ := hq.unique hq'
    rw [c.prog.jump_dests_eq] at hmem
    rw [hcomment, target_comment, if_pos hmem]

/-- A jump commented as a branch goes there, unless it is wide. -/
theorem branch_taken (hr : Loop.Reaches iterate (start gs tx tr caller callee input call_value) p)
    (hp : p.ctxts = c :: cs) (hv : c.pc_valid = true) (hj : c.Jumps) {d : Disassembly} (hd : dis c.prog.code = .ok d)
    {i : Instr} (hi : (c.pc, i) ∈ d.instrs) {t : Nat} (hcomment : i.comment = "branches to " ++ ("loc_" ++ toString t))
    (hwide : ¬c.WideJump) : ∃ p' c', iterate p = .next p' ∧ p'.ctxts = c' :: cs ∧ c'.pc = t ∧ c'.pc_valid = true := by
  obtain ⟨q, n, s, hq, hs, htarget⟩ := comment_of_reaches hr hp hj hd hi (by rw [hcomment]; exact branches_ne_empty _)
  rw [htarget, target_comment] at hcomment
  split at hcomment
  case isFalse => exact absurd hcomment.symm (branches_ne_illegal _)
  case isTrue hmem =>
    have ht := branches_inj hcomment
    rw [← c.prog.jump_dests_eq] at hmem
    have hlt : (pushed c.prog.code q n).toNat < 2 ^ 64 := by
      by_contra hge
      exact hwide ⟨hj, q, n, hq, Nat.le_of_not_lt hge, hmem⟩
    rw [Word.toUInt64, UInt64.toNat_ofNat', Nat.mod_eq_of_lt hlt] at ht hmem
    obtain ⟨c1, hok, hpc, hch, hprog⟩ := jump_goes hp hj hs hlt hmem
    have hn : iterate p = .next { traced p c with ctxts := c1.step :: cs } := by
      simp only [iterate_valid hp hv, hok, after_dispatch, step_or_break]
    have hpc' : c1.step.pc = t := by simp [Context.step, hch, hpc, ht]
    refine ⟨_, _, hn, rfl, hpc', ?_⟩
    rw [Context.pc_valid, hpc', (step_sameFrame c1).prog, hprog, ← ht]
    exact decide_eq_true (visits_of_mem_jump_dests hmem).2

/-- And one whose target is called illegal throws. -/
theorem illegal_throws (hr : Loop.Reaches iterate (start gs tx tr caller callee input call_value) p)
    (hp : p.ctxts = c :: cs) (hj : c.Jumps) {d : Disassembly} (hd : dis c.prog.code = .ok d) {i : Instr}
    (hi : (c.pc, i) ∈ d.instrs) (hcomment : i.comment = "illegal target") :
    ∃ ex p1, dispatch p = .error (.exception ex) p1 := by
  obtain ⟨q, n, s, hq, hs, htarget⟩ := comment_of_reaches hr hp hj hd hi (by rw [hcomment]; decide)
  rw [htarget, target_comment] at hcomment
  split at hcomment
  case isTrue => exact absurd hcomment (branches_ne_illegal _)
  case isFalse hmem =>
    rw [← c.prog.jump_dests_eq] at hmem
    exact jump_throws hp hj hs (.inr hmem)

/-- **Comments.** They are true of a run unless it gets to a jump to a word of more than 64 bits that `dis` has cut
down to a jump destination. -/
theorem jump_comments_iff (gs : W) (tx : Transaction) (tr : Option (List TraceEvent)) (caller : Address) (callee : R)
    (input : Bytes) (call_value : Word) :
    JumpComments (start gs tx tr caller callee input call_value) ↔
      ∀ p c cs d, Loop.Reaches iterate (start gs tx tr caller callee input call_value) p → p.ctxts = c :: cs →
        c.pc_valid = true → dis c.prog.code = .ok d → ¬c.WideJump := by
  constructor
  · intro h p c cs d hr hp hv hd hw
    obtain ⟨⟨i, t, hi, hcomment⟩, ex, p1, herr⟩ := wide_commented hr hp hv hd hw
    obtain ⟨p', c', hn, hp', -, -⟩ := h.branches p c cs d i t hr hp hv hw.1 hd hi hcomment
    obtain ⟨p2, c2, hok, -⟩ := stays_of_length hn hp hp'
    cases herr.symm.trans hok
  · intro hwide
    constructor
    · intro p c cs d i t hr hp hv hj hd hi hcomment
      exact branch_taken hr hp hv hj hd hi hcomment (hwide p c cs d hr hp hv hd)
    · intro p c cs d i hr hp hv hj hd hi hcomment
      exact illegal_throws hr hp hj hd hi hcomment

/-- Account 100 has the code `PUSH9 2^64+11; JUMP; JUMPDEST; STOP`, where the `JUMPDEST` is at 11. -/
def wide_start : Processor SimpleGlobalState Address :=
  start (.of_accounts [{ address := 100, code := [0x68, 0x01, 0, 0, 0, 0, 0, 0, 0, 0x0b, 0x56, 0x5b, 0x00] }])
    { origin := 1 } none 1 100 [] 0

omit [Keccak] in
/-- Its jump is commented as a branch to 11, and throws. -/
theorem wide_jump_throws : ¬@JumpComments _ _ _ no_hash wide_start := by
  intro h
  have hr : @Loop.Reaches _ _ (@iterate _ _ _ no_hash) wide_start _ :=
    .of_steps (show @Loop.steps _ _ (@iterate _ _ _ no_hash) 1 wide_start = some _ from rfl)
  obtain ⟨p', c', hn, -⟩ := @JumpComments.branches _ _ _ no_hash _ h _ _ _ _ _ 11 hr rfl rfl (.inl (by decide)) rfl
    (List.mem_cons_of_mem _ List.mem_cons_self) (by decide)
  cases hn

end Processor

end EEVM

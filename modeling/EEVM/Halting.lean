import EEVM.Codes
import EEVM.Jumps
import EEVM.Lib.Descent
import EEVM.Lib.MapSum
/-!
# Runs without jump targets (processor.cpp:120-138, 206-262)

There is no gas: what ends a run is that its contexts come to the end of their code. In a code without a `JUMPDEST` no
jump is taken, and the pc only grows; without a `CREATE` the code of every context is one that the world started with,
so that there is a longest one; and there are at most `MAX_CALL_DEPTH` contexts. A context below the top one still has
the step in front of it that `run` makes when it resumes it, which is what the call has cost it (`Context.left`).
-/
namespace EEVM

open Std ExcState Disassembler

/-- A sweep over the code meets neither a `JUMPDEST` nor a `CREATE`. -/
def Straight (code : Code) : Prop :=
  ∀ i ∈ positions code, Opcode.ofByte (code.getD i 0) ≠ some .JUMPDEST ∧ Opcode.ofByte (code.getD i 0) ≠ some .CREATE

instance (code : Code) : Decidable (Straight code) :=
  inferInstanceAs (Decidable (∀ i ∈ positions code, _))

namespace Context

variable {R : Type} {c c1 d : Context R}

/-- More steps than the context can take before it is at the end of its code. -/
def left (c : Context R) : Nat := 2 * (c.prog.code.length - c.pc) + if c.pc_changed then 1 else 0

/-- What is left to the contexts, and to those below the top one behind their call. -/
def lefts : List (Context R) → List Nat
  | [] => []
  | c :: cs => c.left :: cs.map fun d => d.step.left

theorem left_le (c : Context R) : c.left ≤ 2 * c.prog.code.length + 1 := by
  unfold left
  split <;> omega

theorem step_left_lt (hv : c.pc_valid = true) : c.step.left < c.left := by
  have hlt : c.pc < c.prog.code.length := by simpa [pc_valid] using hv
  cases hch : c.pc_changed with
  | false =>
    simp [left, step, hch]
    omega
  | true => simp [left, step, hch]

theorem step_left_eq (hpc : c1.pc = c.pc) (hch : c1.pc_changed = c.pc_changed) (hprog : c1.prog = c.prog) :
    c1.step.left = c.step.left := by
  cases hc : c.pc_changed <;> simp [left, step, hch, hc, hpc, hprog]

/-- An instruction of a straight code that stays in its context takes a step off what is left. -/
theorem Lands.left_lt (h : c.Lands c1) (hv : c.pc_valid = true) (hprog : c1.prog = c.prog) (hs : Straight c.prog.code) :
    c1.step.left < c.left := by
  cases h with
  | falls hop hno hpc hch =>
    rw [step_left_eq hpc hch hprog]
    exact step_left_lt hv
  | pushes hop hfits h =>
    rw [h]
    simp only [left, step, if_true]
    simp
    omega
  | jumps hj hpc =>
    obtain ⟨hvisits, hlt, hdest⟩ := mem_jump_dests.1 hpc
    exact absurd (by rw [hdest]; rfl) (hs _ (mem_positions.2 ⟨hvisits, hlt⟩)).1

theorem lefts_quiet {cs ds : List (Context R)} (h : List.Forall₂ Quiet cs ds) :
    ds.map (fun d => d.step.left) = cs.map fun d => d.step.left := by
  induction h with
  | nil => rfl
  | cons hq _ ih => rw [List.map_cons, List.map_cons, ih, step_left_eq hq.pc hq.pc_changed hq.prog]

end Context

namespace Processor

open SimpleGlobalState

variable [Keccak] {gs : SimpleGlobalState} {tx : Transaction} {tr : Option (List TraceEvent)} {caller callee : Address}
  {input : Bytes} {call_value : Word} {p p' : Processor SimpleGlobalState Address} {c : Context Address}
  {cs : List (Context Address)}

/-- In a run from `gs` without a `CREATE`: no code has changed, and no context has another one. -/
structure Uncreated (gs : SimpleGlobalState) (p : Processor SimpleGlobalState Address) : Prop where
  shaped : Shaped p.ctxts
  depth : p.ctxts.length ≤ MAX_CALL_DEPTH
  code : ∀ k, get_code k p.gs = get_code k gs
  prog : ∀ c ∈ p.ctxts, ∃ k, c.prog = Program.ofCode (get_code k gs)
  handlers : ∀ c ∈ p.ctxts, ∀ newAcc, c.handlers ≠ .create newAcc

omit [Keccak] in
theorem Uncreated.straight (h : Uncreated gs p) (hgs : ∀ k, Straight (get_code k gs)) (hp : p.ctxts = c :: cs) :
    Straight c.prog.code := by
  obtain ⟨k, hk⟩ := h.prog c (by rw [hp]; exact List.mem_cons_self)
  rw [hk]
  exact hgs k

omit [Keccak] in
theorem no_create (hs : Straight c.prog.code) (hin : c.InStream) (hv : c.pc_valid = true) : c.next_op ≠ some .CREATE :=
  (hs c.pc (mem_positions.2 ⟨hin, by simpa [Context.pc_valid] using hv⟩)).2

/-- A turn opens one context more at most, and none at the greatest depth. -/
theorem depth_next (h : p.ctxts.length ≤ MAX_CALL_DEPTH) (hn : iterate p = .next p') : p'.ctxts.length ≤ MAX_CALL_DEPTH := by
  obtain ⟨c, cs, hp, hv, hcase⟩ := next_cases hn
  rw [hp] at h
  cases hcase with
  | stays => exact h
  | opens hc h1 hop hcall hf hdepth =>
    have hlt : (c :: cs).length < 2 ^ 16 := Nat.lt_of_le_of_lt h (by decide)
    have hroom : (c :: cs).length % 2 ^ 16 < MAX_CALL_DEPTH := hdepth
    rw [Nat.mod_eq_of_lt hlt] at hroom
    exact hroom
  | ends hc h1 hop hk hd h2 =>
    obtain ⟨d, ds, hdrop, -, hqs⟩ := dropped_below hd hk h1 h2
    have hlen := congrArg List.length hdrop
    have := hqs.length_eq
    simp only [List.length_drop, List.length_cons] at hlen h ⊢
    omega

theorem Uncreated.next (h : Uncreated gs p) (hgs : ∀ k, Straight (get_code k gs)) (hin : InStream p)
    (hn : iterate p = .next p') : Uncreated gs p' := by
  obtain ⟨c, cs, hp, hv, -⟩ := next_cases hn
  have hcode : ∀ k, get_code k p'.gs = get_code k gs := by
    intro k
    have hnot : ∀ newAcc o, ¬Deploys c newAcc o := fun newAcc o hd =>
      h.handlers c (by rw [hp]; exact List.mem_cons_self) newAcc hd.handlers
    rw [world_of_next hp hn, code_of_not_deploys hp hnot, h.code]
  have hnew : ∀ f ∈ p'.ctxts, (∃ d ∈ p.ctxts, SameFrame d f) ∨
      ∃ op args input, f = (callee_frame op p'.gs c args.addr args input).step := by
    intro f hf
    rcases (moves_of_next h.shaped hn).mem hf with hold | ⟨c0, c', cs0, h0, hp', -⟩
    · exact .inl hold
    · obtain ⟨rfl, rfl⟩ := List.cons.inj (hp.symm.trans h0)
      cases opens_of_next hp hn hp' with
      | init hop => exact absurd hop (no_create (h.straight hgs hp) (hin.top c cs hp) hv)
      | call hop hcall hops hmem hf => exact .inr ⟨_, _, _, hf⟩
  refine ⟨(h.shaped.next hn).1, depth_next h.depth hn, hcode, ?_, ?_⟩
  · intro f hf
    rcases hnew f hf with ⟨d, hd, hsame⟩ | ⟨op, args, input, rfl⟩
    · obtain ⟨k, hk⟩ := h.prog d hd
      exact ⟨k, by rw [hsame.prog, hk]⟩
    · refine ⟨args.addr, ?_⟩
      rw [(step_sameFrame _).prog, callee_frame, hcode]
  · intro f hf newAcc
    rcases hnew f hf with ⟨d, hd, hsame⟩ | ⟨op, args, input, rfl⟩
    · rw [hsame.handlers]
      exact h.handlers d hd newAcc
    · rw [step_handlers]
      exact nofun

/-- A turn takes a step off what is left on top. It may open a context, whose code is no longer than `longest`. -/
theorem lefts_next {longest : Nat} (h : Uncreated gs p) (hgs : ∀ k, Straight (get_code k gs)) (hin : InStream p)
    (hlong : ∀ k, (get_code k gs).length ≤ longest) (hn : iterate p = .next p') :
    Descent.Step (2 * longest + 1) MAX_CALL_DEPTH (Context.lefts p.ctxts) (Context.lefts p'.ctxts) := by
  have hnext := h.next hgs hin hn
  obtain ⟨c, cs, hp, hv, hcase⟩ := next_cases hn
  have hstraight := h.straight hgs hp
  rw [hp]
  cases hcase with
  | @stays p1 c1 hc h1 hop hd =>
    have hlands := stays_lands hp hd h1 hc
    exact .works (hlands.left_lt hv (hc.sameFrame hp h1).prog hstraight)
  | @opens p1 c1 f op hc h1 hop hcall hf hdepth hd =>
    obtain ⟨c2, h2, hpc, hch⟩ := hc.pc hp (by rintro n hn; rw [hop] at hn; cases hn; cases hcall)
      (by rw [hop]; rintro ⟨⟩; cases hcall) (by rw [hop]; rintro ⟨⟩; cases hcall)
    obtain ⟨rfl, -⟩ := List.cons.inj (h1.symm.trans h2)
    have hlt : c1.step.left < c.left := by
      rw [Context.step_left_eq hpc hch (hc.sameFrame hp h1).prog]
      exact Context.step_left_lt hv
    refine .opens hlt ?_ ?_
    · obtain ⟨k, hk⟩ := hnext.prog f.step List.mem_cons_self
      have hle := f.step.left_le
      rw [hk] at hle
      have := hlong k
      exact hle.trans (by change 2 * (get_code k gs).length + 1 ≤ _; omega)
    · have hdepth' := hnext.depth
      simpa [Context.lefts] using hdepth'
  | @ends p1 c1 p2 k x xs hc h1 hop hk hd h2 =>
    obtain ⟨d, ds, hdrop, hq, hqs⟩ := dropped_below hd hk h1 h2
    have hcs : cs = cs.take (k - 1) ++ d :: ds := by rw [← hdrop, List.take_append_drop]
    have hx : x.step.left = d.step.left := Context.step_left_eq hq.pc hq.pc_changed hq.prog
    simp only [Context.lefts]
    rw [hx, Context.lefts_quiet hqs, hcs, List.map_append, List.map_cons]
    exact .closes

omit [Keccak] in
theorem uncreated_start : Uncreated gs (start gs tx tr caller callee input call_value) := by
  refine ⟨rfl, by simp [start, MAX_CALL_DEPTH], fun _ => rfl, ?_, fun c hc => start_handlers hc⟩
  rintro c (_ | ⟨_, hc⟩)
  · exact ⟨callee, rfl⟩
  · cases hc

omit [Keccak] in
/-- There is a longest code. -/
theorem exists_longest (gs : SimpleGlobalState) : ∃ longest, ∀ k, (get_code k gs).length ≤ longest := by
  refine ⟨MapSum.sum (fun a => a.1.code.length) gs.accounts, fun k => ?_⟩
  by_cases hk : k ∈ gs.accounts
  · obtain ⟨a, ha⟩ := mem_iff_exists.1 hk
    have hcode : get_code k gs = a.1.code := by
      change (gs.entry k).1.code = _
      rw [entry_eq, ha]
      rfl
    rw [hcode, MapSum.sum_eq_add_erase _ ha]
    exact Nat.le_add_right _ _
  · simp [get_code_of_not_mem hk]

/-- **Termination.** In a world of straight codes every run ends. -/
theorem run_ends_of_straight (gs : SimpleGlobalState) (hgs : ∀ k ∈ gs.accounts, Straight (get_code k gs)) (tx : Transaction)
    (tr : Option (List TraceEvent)) (caller callee : Address) (input : Bytes) (call_value : Word) :
    ∃ fuel o, run fuel gs tx caller callee input call_value tr = some o := by
  have hall : ∀ k, Straight (get_code k gs) := by
    intro k
    by_cases hk : k ∈ gs.accounts
    · exact hgs k hk
    · rw [get_code_of_not_mem hk]
      exact fun i hi => absurd (mem_positions.1 hi).2 (Nat.not_lt_zero i)
  obtain ⟨longest, hlong⟩ := exists_longest gs
  have hrun : ∀ p, Loop.Reaches iterate (start gs tx tr caller callee input call_value) p → Uncreated gs p := fun p hr =>
    hr.invariant uncreated_start fun t t' ht h hn => h.next hall (inStream_of_reaches ht) hn
  obtain ⟨r, hr⟩ := Descent.exists_ends (fun p : Processor SimpleGlobalState Address => Context.lefts p.ctxts)
    fun t t' ht hn => lefts_next (hrun t ht) hall (inStream_of_reaches ht) hlong hn
  obtain ⟨fuel, hfuel⟩ := exists_run_iff.2 ⟨r, hr, rfl⟩
  exact ⟨fuel, _, hfuel⟩

/-- Account 100 calls itself, over and over. -/
def recursing_world : SimpleGlobalState := .of_accounts
  [{ address := 100, code := [0x60, 0, 0x60, 0, 0x60, 0, 0x60, 0, 0x60, 0, 0x60, 100, 0x60, 0, 0xf1, 0x00] }]

omit [Keccak] in
theorem recursing_world_ends :
    ∃ fuel o, @run _ _ _ no_hash fuel recursing_world { origin := 1 } 1 100 [] 0 none = some o := by
  refine @run_ends_of_straight no_hash recursing_world ?_ { origin := 1 } none 1 100 [] 0
  intro k hk
  obtain rfl : 100 = k := by simpa [recursing_world, of_accounts, SimpleGlobalState.insert] using hk
  have hcode : get_code 100 recursing_world =
      [0x60, 0, 0x60, 0, 0x60, 0, 0x60, 0, 0x60, 0, 0x60, 100, 0x60, 0, 0xf1, 0x00] := rfl
  rw [hcode]
  decide

end Processor

end EEVM

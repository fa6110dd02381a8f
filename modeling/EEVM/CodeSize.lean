import EEVM.Codes
import EEVM.FrameMemory
/-!
# `CODESIZE` and `CODECOPY` (processor.cpp:99-118, 1014-1033, 1253-1263, 1304-1341)

`CODESIZE` pushes the size of the code of the current account, `CODECOPY` copies from the program of the context. They
belong together in the outermost context and in those of a `CALL`; in init code, in the contexts of `CALLCODE` and
`DELEGATECALL`, and in a context whose account is given its code meanwhile, only by coincidence (`measures_iff`).
-/
namespace EEVM

open ExcState

namespace Processor

open SimpleGlobalState

variable [Keccak] {p p' : Processor SimpleGlobalState Address} {c c' d f : Context Address} {cs : List (Context Address)}
  {gs : SimpleGlobalState}

/-- The code of the account of `c` is as long as the program of `c`. -/
def Sized (gs : SimpleGlobalState) (c : Context Address) : Prop := (get_code c.as gs).length = c.prog.code.length

/-- In every open context `CODESIZE` measures what `CODECOPY` copies. -/
structure Measures (p : Processor SimpleGlobalState Address) : Prop where
  sized : ∀ c ∈ p.ctxts, Sized p.gs c
  codesize : ∀ c cs, p.ctxts = c :: cs → c.next_op = some .CODESIZE →
    dispatch p = onCtxt (s_push (BitVec.ofNat 256 c.prog.code.length)) (traced p c)
  codecopy : ∀ c cs m st, p.ctxts = c :: cs → c.next_op = some .CODECOPY →
    c.s = m :: 0 :: BitVec.ofNat 256 (get_code c.as p.gs).length :: st → m.toNat + c.prog.code.length ≤ MAX_MEM_SIZE.toNat →
    dispatch p = .ok () { traced p c with ctxts := { c with
      s := st, mem := overwrite (grow c.mem (m.toNat + c.prog.code.length)) m.toNat c.prog.code } :: cs }

/-! ## The two instructions -/

theorem dispatch_codesize (hp : p.ctxts = c :: cs) (hop : c.next_op = some .CODESIZE) :
    dispatch p = onCtxt (s_push (BitVec.ofNat 256 (get_code c.as p.gs).length)) (traced p c) := by
  have hctxt : ctxt (traced p c) = .ok c (traced p c) := ctxt_cons hp
  rw [dispatch_eq hp, hop]
  change codesize (traced p c) = _
  rw [codesize, push_env, bind_of_ok hctxt, bind_of_ok (run_get _)]
  rfl

omit [Keccak] in
theorem code_ne_nil (hop : c.next_op = some .CODECOPY) : c.prog.code.length ≠ 0 := by
  intro hnil
  rw [Context.next_op, List.length_eq_zero_iff.1 hnil] at hop
  cases hop

omit [Keccak] in
theorem copied_all (bs : Bytes) (pad : UInt8) : copied bs 0 bs.length pad = bs := by
  simp [copied_eq]

/-- The copy of the whole program. -/
theorem dispatch_codecopy {m w : Word} {st : Stack} (hp : p.ctxts = c :: cs) (hop : c.next_op = some .CODECOPY)
    (hs : c.s = m :: 0 :: w :: st) (hw : w.toNat = c.prog.code.length)
    (hm : m.toNat + c.prog.code.length ≤ MAX_MEM_SIZE.toNat) :
    dispatch p = .ok () { traced p c with ctxts := { c with
      s := st, mem := overwrite (grow c.mem (m.toNat + c.prog.code.length)) m.toNat c.prog.code } :: cs } := by
  have hmax : MAX_MEM_SIZE.toNat = 33554432 := rfl
  have hm64 : m.toUInt64.toNat = m.toNat := toNat_toUInt64 (by omega)
  have hw64 : w.toUInt64.toNat = c.prog.code.length := by rw [toNat_toUInt64 (by omega), hw]
  have h0 : w ≠ 0 := by
    rintro rfl
    exact code_ne_nil hop hw.symm
  have hcopied : copied c.prog.code (0 : Word).toNat w.toNat 0 = c.prog.code := by
    rw [hw]
    exact copied_all c.prog.code 0
  have hperf := copy_mem_performs hs (by omega) (by decide) (by omega) h0 (show c.prog.code.length < 2 ^ 63 by omega) 0
  have hok := hperf.fits (show m.toUInt64.toNat + w.toUInt64.toNat ≤ MAX_MEM_SIZE.toNat by rw [hm64, hw64]; exact hm)
  have hcopy : Op.codecopy c = .ok () { c with
      s := st, mem := overwrite (grow c.mem (m.toNat + c.prog.code.length)) m.toNat c.prog.code } := by
    rw [hcopied] at hok
    rw [show Op.codecopy c = copy_mem c.prog.code 0 c from rfl, hok, MemAccess.apply, MemAccess.last, hm64, hw64]
    rfl
  rw [dispatch_eq hp, hop]
  change onCtxt Op.codecopy (traced p c) = _
  rw [onCtxt_cons (show (traced p c).ctxts = c :: cs from hp), hcopy]

theorem measures_of_sized (h : ∀ c ∈ p.ctxts, Sized p.gs c) : Measures p := by
  refine ⟨h, ?_, ?_⟩
  · intro c cs hp hop
    have hc : (get_code c.as p.gs).length = c.prog.code.length := h c (by simp [hp])
    rw [dispatch_codesize hp hop, hc]
  · intro c cs m st hp hop hs hm
    have hc : (get_code c.as p.gs).length = c.prog.code.length := h c (by simp [hp])
    have hmax : MAX_MEM_SIZE.toNat = 33554432 := rfl
    refine dispatch_codecopy hp hop hs ?_ hm
    rw [hc, BitVec.toNat_ofNat, Nat.mod_eq_of_lt (by omega)]

/-! ## A turn -/

/-- What the turn from `p` to `p'` has to do for every context to be sized: init code is as long as the code at the new
address, which is none unless the address is taken; a callee's code that runs as the caller is as long as the caller's;
what init code returns is as long as the program of every open context of its account. -/
structure TurnSized (p p' : Processor SimpleGlobalState Address) : Prop where
  init : ∀ c c' f cs v code d, p.ctxts = c :: cs → p'.ctxts = f :: c' :: cs → c.next_op = some .CREATE →
    create_operands c = .ok (v, code) d → (get_code (new_address p.gs c) p.gs).length = code.length
  borrows : ∀ c c' f cs op args d, p.ctxts = c :: cs → p'.ctxts = f :: c' :: cs → c.next_op = some op →
    op = .CALLCODE ∨ op = .DELEGATECALL → call_operands op c = .ok args d →
    (get_code c.as p.gs).length = (get_code args.addr p.gs).length
  deploys : ∀ c cs newAcc o, p.ctxts = c :: cs → Deploys c newAcc o → ∀ d ∈ cs, d.as = newAcc →
    o.length = d.prog.code.length

omit [Keccak] in
theorem Sized.of_sameFrame (h : SameFrame c c') : Sized gs c' ↔ Sized gs c := by
  rw [Sized, Sized, h.as, h.prog]

omit [Keccak] in
theorem sized_set_code {newAcc : Address} {o : Code} (hin : newAcc ∈ gs.accounts) (h : Sized gs c) :
    Sized (set_code newAcc o gs) c ↔ (c.as = newAcc → o.length = c.prog.code.length) := by
  rw [Sized, get_code_set_code hin]
  by_cases hc : c.as = newAcc
  · simp [hc]
  · simp only [hc, if_false, false_implies, iff_true]
    exact h

omit [Keccak] in
theorem sized_init_frame (gs' : SimpleGlobalState) (c : Context Address) (newAcc : Address) (code : Code) :
    Sized gs (init_frame gs' c newAcc code).step ↔ (get_code newAcc gs).length = code.length := by
  rw [Sized.of_sameFrame (step_sameFrame _)]
  rfl

omit [Keccak] in
/-- The code of a callee only runs as another account in a `CALLCODE` or `DELEGATECALL`. -/
theorem sized_callee_frame (op : Opcode) (c : Context Address) (callee : Address) (args : CallOperands) (input : Bytes) :
    Sized gs (callee_frame op gs c callee args input).step ↔
      op = .CALL ∨ (get_code c.as gs).length = (get_code callee gs).length := by
  rw [Sized.of_sameFrame (step_sameFrame _)]
  by_cases hop : op = .CALL <;> simp [Sized, callee_frame, Program.ofCode, hop]

/-- The turn gives an account its code. -/
theorem sized_next_of_deploys {newAcc : Address} {o : Code} (hs : Shaped p.ctxts) (hnew : NewInWorld p)
    (h : ∀ c ∈ p.ctxts, Sized p.gs c) (hp : p.ctxts = c :: cs) (hn : iterate p = .next p') (hdep : Deploys c newAcc o) :
    (∀ c ∈ p'.ctxts, Sized p'.gs c) ↔ TurnSized p p' := by
  obtain ⟨d, d', ds, rfl, hp', hsame⟩ := deploys_next hs hp hdep hn
  have hin : newAcc ∈ p.gs.accounts := hnew c (by simp [hp]) newAcc hdep.handlers
  have hgs : p'.gs = set_code newAcc o p.gs := (world_of_next hp hn).trans (world_of_deploys hp hdep)
  have hbelow : ∀ e ∈ d :: ds, Sized p'.gs e ↔ (e.as = newAcc → o.length = e.prog.code.length) := by
    intro e he
    rw [hgs]
    exact sized_set_code hin (h e (by rw [hp]; exact List.mem_cons_of_mem c he))
  have hall : (∀ c ∈ p'.ctxts, Sized p'.gs c) ↔ ∀ e ∈ d :: ds, e.as = newAcc → o.length = e.prog.code.length := by
    rw [hp', List.forall_mem_cons, List.forall_mem_cons, Sized.of_sameFrame hsame, hbelow d (by simp)]
    exact and_congr_right fun _ => forall₂_congr fun e he => hbelow e (by simp [he])
  rw [hall]
  constructor
  · intro hdeploys
    refine ⟨?_, ?_, ?_⟩
    · intro c0 c' f cs v code d0 h0 _ hop
      obtain ⟨rfl, -⟩ := List.cons.inj (hp.symm.trans h0)
      rw [hdep.next_op] at hop
      cases hop
    · intro c0 c' f cs op args d0 h0 _ hop hborrow
      obtain ⟨rfl, -⟩ := List.cons.inj (hp.symm.trans h0)
      rw [hdep.next_op] at hop
      cases hop
      simp at hborrow
    · intro c0 cs newAcc' o' h0 hdep' e he has
      obtain ⟨rfl, rfl⟩ := List.cons.inj (hp.symm.trans h0)
      obtain ⟨rfl, rfl⟩ := hdep.unique hdep'
      exact hdeploys e he has
  · exact fun hturn e he has => hturn.deploys c _ newAcc o hp hdep e he has

/-- The turn leaves all codes alone. -/
theorem sized_next_of_not_deploys (hs : Shaped p.ctxts) (h : ∀ c ∈ p.ctxts, Sized p.gs c) (hp : p.ctxts = c :: cs)
    (hn : iterate p = .next p') (hdep : ∀ newAcc o, ¬Deploys c newAcc o) :
    (∀ c ∈ p'.ctxts, Sized p'.gs c) ↔ TurnSized p p' := by
  have hcode : ∀ k, get_code k p'.gs = get_code k p.gs := by
    intro k
    rw [world_of_next hp hn]
    exact code_of_not_deploys hp hdep k
  constructor
  · intro h'
    refine ⟨?_, ?_, ?_⟩
    · intro c0 c' f cs v code d h0 hp' hop hops
      have hf : Sized p'.gs f := h' f (by simp [hp'])
      cases opens_of_next h0 hn hp' with
      | init hop' hops' hf' hin =>
        cases hops.symm.trans hops'
        rwa [hf', sized_init_frame, hcode] at hf
      | call hop' hcall =>
        rw [hop] at hop'
        cases hop'
        simp at hcall
    · intro c0 c' f cs op args d h0 hp' hop hborrow hops
      have hf : Sized p'.gs f := h' f (by simp [hp'])
      cases opens_of_next h0 hn hp' with
      | init hop' hops' hf' hin =>
        rw [hop] at hop'
        cases hop'
        simp at hborrow
      | call hop' hcall hops' hin hf' =>
        cases hop.symm.trans hop'
        cases hops.symm.trans hops'
        rw [hf', sized_callee_frame, hcode, hcode] at hf
        refine hf.resolve_left ?_
        rcases hborrow with rfl | rfl <;> nofun
    · intro c0 cs newAcc o h0 hdep'
      obtain ⟨rfl, rfl⟩ := List.cons.inj (hp.symm.trans h0)
      exact absurd hdep' (hdep newAcc o)
  · intro hturn e he
    rcases (moves_of_next hs hn).mem he with ⟨g, hg, hsame⟩ | ⟨c0, c', cs0, h0, hp', -⟩
    · rw [Sized.of_sameFrame hsame, Sized, hcode]
      exact h g hg
    · cases opens_of_next h0 hn hp' with
      | init hop hops hf hin =>
        rw [hf, sized_init_frame, hcode]
        exact hturn.init _ _ _ _ _ _ _ h0 hp' hop hops
      | call hop hcall hops hin hf =>
        rw [hf, sized_callee_frame, hcode, hcode]
        exact hcall.imp_right fun hborrow => hturn.borrows _ _ _ _ _ _ _ h0 hp' hop hborrow hops

theorem sized_next (hs : Shaped p.ctxts) (hnew : NewInWorld p) (h : ∀ c ∈ p.ctxts, Sized p.gs c) (hn : iterate p = .next p') :
    (∀ c ∈ p'.ctxts, Sized p'.gs c) ↔ TurnSized p p' := by
  obtain ⟨c, cs, hp, -, -⟩ := next_cases hn
  by_cases hdep : ∃ newAcc o, Deploys c newAcc o
  · obtain ⟨newAcc, o, hdep⟩ := hdep
    exact sized_next_of_deploys hs hnew h hp hn hdep
  · exact sized_next_of_not_deploys hs h hp hn fun newAcc o hd => hdep ⟨newAcc, o, hd⟩

/-! ## A run -/

variable {tx : Transaction} {tr : Option (List TraceEvent)} {caller callee : Address} {input : Bytes} {call_value : Word}

/-- **The size of the code.** In every state of a run `CODESIZE` measures what `CODECOPY` copies, in every open context,
exactly when every turn of the run keeps the contexts sized. -/
theorem measures_iff (gs : SimpleGlobalState) (tx : Transaction) (tr : Option (List TraceEvent)) (caller callee : Address)
    (input : Bytes) (call_value : Word) :
    (∀ p, Loop.Reaches iterate (start gs tx tr caller callee input call_value) p → Measures p) ↔
      ∀ p p', Loop.Reaches iterate (start gs tx tr caller callee input call_value) p → iterate p = .next p' → TurnSized p p' := by
  constructor
  · intro h p p' hr hn
    exact (sized_next (shaped_of_reaches hr).1 (newInWorld_of_reaches hr) (h p hr).sized hn).1 (h p' (hr.tail hn)).sized
  · intro h p hr
    apply measures_of_sized
    refine hr.invariant (P := fun p : Processor SimpleGlobalState Address => ∀ c ∈ p.ctxts, Sized p.gs c) ?_ ?_
    · intro c hc
      rw [List.mem_singleton.1 hc]
      rfl
    · exact fun q q' hq hs hn => (sized_next (shaped_of_reaches hq).1 (newInWorld_of_reaches hq) hs hn).2 (h q q' hq hn)

omit [Keccak]

/-- Account 100 creates an account with one byte of init code, a `CODESIZE`. -/
def sizing_start : Processor SimpleGlobalState Address :=
  start (.of_accounts [{ address := 100, code := [0x60, 0x38, 0x60, 0, 0x53, 0x60, 1, 0x60, 0, 0x60, 0, 0xf0] }])
    { origin := 1 } none 1 100 [] 0

/-- The init code runs in a new account, which has no code yet: its `CODESIZE` pushes 0. -/
theorem codesize_of_init_code :
    ¬∀ p, @Loop.Reaches _ _ (@iterate _ _ _ no_hash) sizing_start p → @Measures no_hash p := by
  intro h
  have hr : ∃ p c, @Loop.Reaches _ _ (@iterate _ _ _ no_hash) sizing_start p ∧ c ∈ p.ctxts ∧
      (get_code c.as p.gs).length = 0 ∧ c.prog.code.length = 1 :=
    ⟨_, _, .of_steps (show @Loop.steps _ _ (@iterate _ _ _ no_hash) 7 sizing_start = some _ from rfl), .head _, rfl, rfl⟩
  obtain ⟨p, c, hr, hc, h0, h1⟩ := hr
  have hsized : (get_code c.as p.gs).length = c.prog.code.length := @Measures.sized no_hash _ (h p hr) c hc
  rw [h0, h1] at hsized
  cases hsized

end Processor

end EEVM

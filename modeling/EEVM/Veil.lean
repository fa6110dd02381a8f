import EEVM.Calls
import EEVM.Handlers
import EEVM.Lib.Commute
/-!
# Worlds a run cannot tell apart (processor.cpp:396-678, 998-1357)

A `Veil` is a change of the world that is not seen through the methods a processor calls: what they read of the accounts
it has references to is the same, and what they write can be written before or after the change. The laws may ask that a
reference is `ok`, that a storage is `own`, and that an address is `free` where an account is created.

Then a run under the veil is the veiled run (`iterate_covered`, `runs_covered`), as long as each context owns its storage
and no instruction creates an account at an address that is not free. Each instruction is followed by a `Commutes`; what
is known before an instruction is still known after each change it makes (`Ready.changes`).
-/
namespace EEVM

open ExcState

/-- From `gs` to `gs'` no invariant and no reference is lost. -/
def Grows {W R : Type} (inv : W → Prop) (ok : R → W → Prop) (gs gs' : W) : Prop :=
  (inv gs → inv gs') ∧ ∀ acc, ok acc gs → ok acc gs'

structure Veil (W R : Type) [GlobalState W R] where
  cover : W → W
  inv : W → Prop
  ok : R → W → Prop
  own : R → Prop
  free : Address → W → Prop
  -- what is read
  cover_block : ∀ gs, get_current_block (cover gs) = get_current_block gs
  cover_block_hash : ∀ i gs, get_block_hash i (cover gs) = get_block_hash i gs
  cover_address : ∀ {acc gs}, ok acc gs → get_address acc (cover gs) = get_address acc gs
  cover_balance : ∀ {acc gs}, ok acc gs → get_balance acc (cover gs) = get_balance acc gs
  cover_nonce : ∀ {acc gs}, ok acc gs → get_nonce acc (cover gs) = get_nonce acc gs
  cover_code : ∀ {acc gs}, ok acc gs → get_code acc (cover gs) = get_code acc gs
  cover_load : ∀ {acc gs} k, ok acc gs → own acc → GlobalState.load acc k (cover gs) = GlobalState.load acc k gs
  -- what is written
  cover_set_balance : ∀ {acc gs} b, ok acc gs → set_balance acc b (cover gs) = cover (set_balance acc b gs)
  cover_set_code : ∀ {acc gs} code, ok acc gs → set_code acc code (cover gs) = cover (set_code acc code gs)
  cover_store : ∀ {acc gs} k v, ok acc gs → own acc →
    GlobalState.store acc k v (cover gs) = cover (GlobalState.store acc k v gs)
  cover_remove_key : ∀ {acc gs} k, ok acc gs → own acc →
    GlobalState.remove_key acc k (cover gs) = cover (GlobalState.remove_key acc k gs)
  cover_get : ∀ {gs} addr, inv gs →
    GlobalState.get addr (cover gs) = ((GlobalState.get addr gs).1, cover (GlobalState.get addr gs).2)
  cover_create : ∀ {gs} addr b code, inv gs → free addr gs → GlobalState.create addr b code (cover gs) =
    ((GlobalState.create addr b code gs).1, cover (GlobalState.create addr b code gs).2)
  -- what stays
  grows_set_balance : ∀ acc b gs, Grows inv ok gs (set_balance acc b gs)
  grows_set_code : ∀ acc code gs, Grows inv ok gs (set_code acc code gs)
  grows_store : ∀ acc k v gs, Grows inv ok gs (GlobalState.store acc k v gs)
  grows_remove_key : ∀ acc k gs, Grows inv ok gs (GlobalState.remove_key acc k gs)
  grows_get : ∀ addr gs, Grows inv ok gs (GlobalState.get addr gs).2
  grows_create : ∀ addr b code gs, Grows inv ok gs (GlobalState.create addr b code gs).2
  ok_get : ∀ addr gs, ok (GlobalState.get addr gs).1 (GlobalState.get addr gs).2
  ok_create : ∀ addr b code gs, ok (GlobalState.create addr b code gs).1 (GlobalState.create addr b code gs).2

namespace Veil

open Processor

variable {W R α : Type} [GlobalState W R] (v : Veil W R)

/-- The processor under the veil. -/
def covered (p : Processor W R) : Processor W R := { p with gs := v.cover p.gs }

@[simp] theorem covered_gs (p : Processor W R) : (v.covered p).gs = v.cover p.gs := rfl
@[simp] theorem covered_tx (p : Processor W R) : (v.covered p).tx = p.tx := rfl
@[simp] theorem covered_ctxts (p : Processor W R) : (v.covered p).ctxts = p.ctxts := rfl

/-- The references a context holds. -/
structure Sound (gs : W) (c : Context R) : Prop where
  as : v.ok c.as gs
  newAcc : ∀ newAcc, c.handlers = .create newAcc → v.ok newAcc gs

structure Safe (p : Processor W R) : Prop where
  inv : v.inv p.gs
  ctxts : ∀ c ∈ p.ctxts, v.Sound p.gs c

/-- What is known while an instruction of a context of the account `acc` is carried out: the references `accs` as well. -/
structure Ready (acc : R) (accs : List R) (p : Processor W R) : Prop where
  safe : v.Safe p
  top : ∀ c cs, p.ctxts = c :: cs → c.as = acc
  known : ∀ a ∈ accs, v.ok a p.gs

variable {v}

/-! ## What is still known after a change -/

theorem grows_refl (gs : W) : Grows v.inv v.ok gs gs := ⟨id, fun _ => id⟩

theorem grows_trans {gs gs' gs'' : W} (h : Grows v.inv v.ok gs gs') (h' : Grows v.inv v.ok gs' gs'') :
    Grows v.inv v.ok gs gs'' := ⟨h'.1 ∘ h.1, fun acc => h'.2 acc ∘ h.2 acc⟩

theorem grows_transfer (this other : R) (amount : Word) (gs : W) : Grows v.inv v.ok gs (transfer this other amount gs) :=
  grows_trans (v.grows_set_balance ..) (v.grows_set_balance ..)

theorem Sound.grows {gs gs' : W} {c : Context R} (h : v.Sound gs c) (hg : Grows v.inv v.ok gs gs') : v.Sound gs' c :=
  ⟨hg.2 _ h.as, fun newAcc hn => hg.2 _ (h.newAcc newAcc hn)⟩

theorem Sound.frame {gs : W} {c c' : Context R} (h : v.Sound gs c) (hs : SameFrame c c') : v.Sound gs c' :=
  ⟨by rw [hs.as]; exact h.as, fun newAcc hn => h.newAcc newAcc (by rw [← hs.handlers, hn])⟩

theorem grows_change {op : Option Opcode} {p p' : Processor W R} (h : Change op p p') : Grows v.inv v.ok p.gs p'.gs := by
  cases h with
  | quiet | dup | goto | trace | log | selfdestruct => exact grows_refl _
  | get _ addr => exact v.grows_get ..
  | store => exact v.grows_store ..
  | remove_key => exact v.grows_remove_key ..
  | create => exact v.grows_create ..
  | pay => exact grows_transfer ..

theorem Safe.change {op : Option Opcode} {p p' : Processor W R} (h : v.Safe p) (hc : Change op p p') : v.Safe p' := by
  have hg := grows_change (v := v) hc
  refine ⟨hg.1 h.inv, ?_⟩
  intro c' hc'
  cases hp : p.ctxts with
  | nil =>
    simp [hc.ctxts_nil hp] at hc'
  | cons c cs =>
    obtain ⟨c1, h1, hs⟩ := hc.top hp
    rw [h1] at hc'
    rcases List.mem_cons.1 hc' with rfl | hc'
    · exact ((h.ctxts c (by simp [hp])).frame hs).grows hg
    · exact (h.ctxts c' (by simp [hp, hc'])).grows hg

theorem Ready.change {op : Option Opcode} {acc : R} {accs : List R} {p p' : Processor W R} (h : v.Ready acc accs p)
    (hc : Change op p p') : v.Ready acc accs p' := by
  refine ⟨h.safe.change hc, ?_, fun a ha => (grows_change hc).2 a (h.known a ha)⟩
  intro c' cs' hp'
  cases hp : p.ctxts with
  | nil =>
    rw [hc.ctxts_nil hp] at hp'
    cases hp'
  | cons c cs =>
    obtain ⟨c1, h1, hs⟩ := hc.top hp
    rw [h1] at hp'
    obtain ⟨rfl, rfl⟩ := List.cons.inj hp'
    rw [hs.as, h.top c cs hp]

theorem Ready.changes {op : Option Opcode} {acc : R} {accs : List R} {p p' : Processor W R} (h : v.Ready acc accs p)
    (hc : Changes op p p') : v.Ready acc accs p' := by
  induction hc with
  | refl => exact h
  | tail _ hc ih => exact ih.change hc

theorem Safe.changes {op : Option Opcode} {p p' : Processor W R} (h : v.Safe p) (hc : Changes op p p') : v.Safe p' := by
  induction hc with
  | refl => exact h
  | tail _ hc ih => exact ih.change hc

theorem Safe.settled {p p' : Processor W R} (h : v.Safe p) (hs : Settled p p') : v.Safe p' := by
  have hg : Grows v.inv v.ok p.gs p'.gs := by
    have hgs := hs.gs
    generalize p.gs = gs, p'.gs = gs' at hgs
    induction hgs with
    | refl => exact grows_refl _
    | tail _ h ih =>
      obtain ⟨acc, code, rfl⟩ := h
      exact grows_trans ih (v.grows_set_code ..)
  refine ⟨hg.1 h.inv, ?_⟩
  intro c' hc'
  obtain ⟨i, hi, rfl⟩ := List.getElem_of_mem hc'
  have hi' : i < p.ctxts.length := by rw [hs.ctxts.length_eq]; exact hi
  exact ((h.ctxts _ (List.getElem_mem hi')).frame (.of_quiet (hs.ctxts.get hi' hi))).grows hg

theorem Safe.dropped {k : Nat} {p p' : Processor W R} (h : v.Safe p) (hd : Dropped k p p') : v.Safe p' := by
  have hdrop : v.Safe { p with ctxts := p.ctxts.drop k } := ⟨h.inv, fun c hc => h.ctxts c (List.mem_of_mem_drop hc)⟩
  exact hdrop.settled hd

/-! ## The parts of instructions -/

section

variable {acc other : R} {accs : List R} {op : Option Opcode}

/-- A computation that makes changes only keeps what is known. -/
theorem commutes_of_makes {m : M W R α} (h : Makes op m)
    (heq : ∀ p, v.Ready acc accs p → m (v.covered p) = mapState v.covered (m p)) :
    Commutes v.covered (v.Ready acc accs) (fun _ => v.Ready acc accs) v.Safe m := by
  refine ⟨heq, ?_⟩
  intro p hp
  cases hm : m p with
  | ok a p' => exact hp.changes (h.ok hm)
  | error e p' => exact (hp.changes (h.error hm).1).safe

theorem onCtxtAt_covered (k : Nat) (m : CtxM R α) (p : Processor W R) :
    onCtxtAt k m (v.covered p) = mapState v.covered (onCtxtAt k m p) := by
  unfold onCtxtAt
  rw [covered_ctxts]
  cases p.ctxts[k]? with
  | none => rfl
  | some c =>
    dsimp only
    cases m c <;> rfl

theorem covered_onCtxt {m : CtxM R α} (h : Makes op (onCtxt (W := W) m)) :
    Commutes v.covered (v.Ready acc accs) (fun _ => v.Ready acc accs) v.Safe (onCtxt m) :=
  commutes_of_makes h fun p _ => onCtxtAt_covered 0 m p

theorem covered_quiet {m : CtxM R α} (h : CtxM.Quiet m) :
    Commutes v.covered (v.Ready acc accs) (fun _ => v.Ready acc accs) v.Safe (onCtxt m) :=
  covered_onCtxt (onCtxt_makes h : Makes none _)

/-- What is known of the context on top. -/
theorem covered_ctxt : Commutes v.covered (v.Ready acc accs)
    (fun c p => v.Ready acc accs p ∧ c.as = acc ∧ v.Sound p.gs c) v.Safe ctxt := by
  refine ⟨fun p _ => onCtxtAt_covered 0 (get : CtxM R (Context R)) p, ?_⟩
  intro p hp
  cases hc : p.ctxts with
  | nil =>
    rw [ctxt, onCtxt_nil hc]
    exact hp.safe
  | cons c cs =>
    rw [ctxt_cons hc]
    exact ⟨hp, hp.top c cs hc, hp.safe.ctxts c (by simp [hc])⟩

/-- The account of the context on top, known from here on. -/
theorem covered_ctxt_bind {k : Context R → M W R α} {Q : α → Processor W R → Prop}
    (h : ∀ c, c.as = acc → Commutes v.covered (v.Ready acc (acc :: accs)) Q v.Safe (k c)) :
    Commutes v.covered (v.Ready acc accs) Q v.Safe (ctxt >>= k) := by
  refine covered_ctxt.bind fun c => .assuming (φ := c.as = acc) (fun p hp => hp.2.1) fun has => ?_
  refine (h c has).mono ?_ fun _ _ hq => hq
  rintro p ⟨hp, -, hs⟩
  refine ⟨hp.safe, hp.top, ?_⟩
  intro a ha
  rcases List.mem_cons.1 ha with rfl | ha
  · rw [← has]
    exact hs.as
  · exact hp.known a ha

theorem covered_gs_get (addr : Address) :
    Commutes v.covered (v.Ready acc accs) (fun a => v.Ready acc (a :: accs)) v.Safe (gs_get addr) := by
  constructor
  · intro p hp
    have hg := v.cover_get addr hp.safe.inv
    unfold gs_get
    rw [covered_gs, hg]
    rfl
  · intro p hp
    have hr : v.Ready acc accs { p with gs := (GlobalState.get addr p.gs).2 } := hp.change (@Change.get _ _ _ none p addr)
    refine ⟨hr.safe, hr.top, ?_⟩
    intro a ha
    rcases List.mem_cons.1 ha with rfl | ha
    · exact v.ok_get addr p.gs
    · exact hr.known a ha

/-- An account that is created where it is free to be. -/
theorem covered_gs_create {p : Processor W R} (hp : v.Ready acc accs p) {addr : Address} (hfree : v.free addr p.gs)
    (b : Word) (code : Code) :
    Commutes v.covered (· = p) (fun a => v.Ready acc (a :: accs)) v.Safe (gs_create addr b code) := by
  constructor
  · rintro q rfl
    have hg := v.cover_create addr b code hp.safe.inv hfree
    unfold gs_create
    rw [covered_gs, hg]
    rfl
  · rintro q rfl
    have hg := v.grows_create addr b code q.gs
    refine ⟨⟨hg.1 hp.safe.inv, fun c hc => (hp.safe.ctxts c hc).grows hg⟩, hp.top, ?_⟩
    intro a ha
    rcases List.mem_cons.1 ha with rfl | ha
    · exact v.ok_create addr b code q.gs
    · exact hg.2 a (hp.known a ha)

theorem covered_update {f : W → W} (heq : ∀ p, v.Ready acc accs p → f (v.cover p.gs) = v.cover (f p.gs))
    (hg : ∀ gs, Grows v.inv v.ok gs (f gs)) :
    Commutes v.covered (v.Ready acc accs) (fun _ => v.Ready acc accs) v.Safe (update (R := R) f) := by
  refine .modify ?_ ?_
  · intro p hp
    change { p with gs := f (v.cover p.gs) } = { p with gs := v.cover (f p.gs) }
    rw [heq p hp]
  · intro p hp
    exact ⟨⟨(hg p.gs).1 hp.safe.inv, fun c hc => (hp.safe.ctxts c hc).grows (hg p.gs)⟩, hp.top,
      fun a ha => (hg p.gs).2 a (hp.known a ha)⟩

theorem covered_pay_to {this : R} (hthis : this ∈ accs) (hother : other ∈ accs) (amount : Word) :
    Commutes v.covered (v.Ready acc accs) (fun _ => v.Ready acc accs) v.Safe (pay_to this other amount) := by
  unfold pay_to
  refine .get_bind ?_ ?_
  · intro p hp
    rw [covered_gs, v.cover_balance (hp.known this hthis), v.cover_balance (hp.known other hother),
      v.cover_address (hp.known this hthis), v.cover_address (hp.known other hother)]
  · intro p _
    refine .ite (fun _ => .throw fun q hq => hq.safe) fun _ => ?_
    refine .ite (fun _ => .throw fun q hq => hq.safe) fun _ => ?_
    refine (covered_update ?_ fun gs => v.grows_set_balance ..).bind fun _ =>
      covered_update ?_ fun gs => v.grows_set_balance ..
    · intro q hq
      exact v.cover_set_balance _ (hq.known this hthis)
    · intro q hq
      exact v.cover_set_balance _ (hq.known other hother)

theorem covered_push_context {f : Context R} {P : Processor W R → Prop}
    (hP : ∀ p, P p → v.Safe p ∧ v.Sound p.gs f) :
    Commutes v.covered P (fun _ => v.Safe) v.Safe (push_context f) := by
  refine .get_bind (fun _ _ => rfl) fun p _ => .ite (fun _ => .throw fun q hq => (hP q hq).1) fun _ => ?_
  refine .modify (fun _ _ => rfl) ?_
  intro q hq
  obtain ⟨hs, hf⟩ := hP q hq
  refine ⟨hs.inv, ?_⟩
  intro c hc
  rcases List.mem_cons.1 hc with rfl | hc
  · exact hf
  · exact hs.ctxts c hc

end

/-! ## Instructions that neither open nor end a context -/

section

variable {acc : R} {accs : List R}

theorem Ready.safe_of {m : M W R α}
    (h : Commutes v.covered (v.Ready acc accs) (fun _ => v.Ready acc accs) v.Safe m) :
    Commutes v.covered (v.Ready acc accs) (fun _ => v.Safe) v.Safe m := h.mono (fun _ hp => hp) fun _ _ hp => hp.safe

theorem covered_push (val : Word) :
    Commutes v.covered (v.Ready acc accs) (fun _ => v.Safe) v.Safe (onCtxt (W := W) (s_push val)) :=
  Ready.safe_of (covered_quiet (s_push_quiet val))

theorem covered_push_env {f : Context R → W → Transaction → Word}
    (hf : ∀ c gs tx, v.ok c.as gs → f c (v.cover gs) tx = f c gs tx) :
    Commutes v.covered (v.Ready acc accs) (fun _ => v.Safe) v.Safe (push_env f) := by
  refine covered_ctxt_bind fun c has => .get_bind ?_ fun p _ => covered_push _
  intro p hp
  rw [covered_gs, covered_tx, hf c p.gs p.tx (hp.known _ (by simp [has]))]

theorem covered_push_account {f : R → W → Word} (hf : ∀ a gs, v.ok a gs → f a (v.cover gs) = f a gs) :
    Commutes v.covered (v.Ready acc accs) (fun _ => v.Safe) v.Safe (push_account f) := by
  refine (covered_quiet pop_addr_quiet).bind fun addr => (covered_gs_get addr).bind fun a =>
    .get_bind ?_ fun p _ => covered_push _
  intro p hp
  rw [covered_gs, hf a p.gs (hp.known a List.mem_cons_self)]

theorem covered_extcodecopy : Commutes v.covered (v.Ready acc accs) (fun _ => v.Safe) v.Safe extcodecopy := by
  refine (covered_quiet pop_addr_quiet).bind fun addr => (covered_gs_get addr).bind fun a =>
    .get_bind ?_ fun p _ => Ready.safe_of (covered_quiet (copy_mem_quiet _ _))
  intro p hp
  rw [covered_gs, v.cover_code (hp.known a List.mem_cons_self)]

theorem covered_sload (hown : v.own acc) :
    Commutes v.covered (v.Ready acc accs) (fun _ => v.Safe) v.Safe sload := by
  refine (covered_quiet s_pop_quiet).bind fun k => covered_ctxt_bind fun c has => .get_bind ?_ fun p _ => covered_push _
  subst has
  intro p hp
  rw [covered_gs, v.cover_load k (hp.known _ List.mem_cons_self) hown]

theorem covered_sstore (hown : v.own acc) :
    Commutes v.covered (v.Ready acc accs) (fun _ => v.Safe) v.Safe sstore := by
  refine (covered_quiet s_pop_quiet).bind fun k => (covered_quiet s_pop_quiet).bind fun x =>
    covered_ctxt_bind fun c has => ?_
  subst has
  refine Ready.safe_of (.ite (fun _ => ?_) fun _ => ?_)
  · refine covered_update ?_ fun gs => v.grows_remove_key ..
    intro p hp
    exact v.cover_remove_key k (hp.known _ List.mem_cons_self) hown
  · refine covered_update ?_ fun gs => v.grows_store ..
    intro p hp
    exact v.cover_store k x (hp.known _ List.mem_cons_self) hown

theorem covered_blockhash : Commutes v.covered (v.Ready acc accs) (fun _ => v.Safe) v.Safe blockhash := by
  refine (covered_quiet s_pop64_quiet).bind fun i => .get_bind ?_ fun p _ =>
    .ite (fun _ => covered_push _) fun _ => covered_push _
  intro p _
  rw [covered_gs, v.cover_block_hash]

theorem covered_pop_topics : ∀ n, Commutes v.covered (v.Ready acc accs) (fun _ => v.Ready acc accs) v.Safe (pop_topics n)
  | 0 => .pure fun _ hp => hp
  | n + 1 => (covered_quiet s_pop_quiet).bind fun _ => (covered_pop_topics n).bind fun _ => .pure fun _ hp => hp

theorem covered_log (n : Nat) : Commutes v.covered (v.Ready acc accs) (fun _ => v.Safe) v.Safe (log n) := by
  refine (covered_quiet s_pop64_quiet).bind fun offset => (covered_quiet s_pop64_quiet).bind fun size =>
    (covered_pop_topics n).bind fun topics => covered_ctxt_bind fun c has => .get_bind ?_ fun p _ =>
      (covered_quiet (copy_from_mem_quiet _ _)).bind fun data => .modify (fun _ _ => rfl) ?_
  · intro p hp
    rw [covered_gs, v.cover_address (hp.known _ (by simp [has]))]
  · intro p hp
    exact ⟨hp.safe.inv, hp.safe.ctxts⟩

theorem covered_unknown_opcode [Keccak] (op : UInt8) :
    Commutes v.covered (v.Ready acc accs) (fun _ => v.Safe) v.Safe (unknown_opcode op) := by
  refine covered_ctxt_bind fun c has => .get_bind ?_ fun p _ => .throw fun q hq => hq.safe
  intro p hp
  have hdepth : (v.covered p).get_call_depth = p.get_call_depth := rfl
  rw [covered_gs, v.cover_address (hp.known _ (by simp [has])), hdepth]

theorem covered_exec [Keccak] (hown : v.own acc) (op : Opcode) (h1 : op.is_call = false) (h2 : op.ends_context = false) :
    Commutes v.covered (v.Ready acc accs) (fun _ => v.Safe) v.Safe (exec op) := by
  cases op
  case CREATE | CALL | CALLCODE | DELEGATECALL => cases h1
  case RETURN | STOP | SELFDESTRUCT => cases h2
  case SLOAD => exact covered_sload hown
  case SSTORE => exact covered_sstore hown
  case EXTCODESIZE =>
    simp only [exec, extcodesize]
    refine covered_push_account fun a gs ha => ?_
    rw [v.cover_code ha]
  case BALANCE =>
    simp only [exec, balance]
    exact covered_push_account fun a gs ha => v.cover_balance ha
  case EXTCODECOPY => exact covered_extcodecopy
  case CODESIZE =>
    simp only [exec, codesize]
    refine covered_push_env fun c gs _ ha => ?_
    rw [v.cover_code ha]
  case ADDRESS =>
    simp only [exec, address]
    exact covered_push_env fun c gs _ ha => v.cover_address ha
  case ORIGIN | GASPRICE | GAS =>
    simp only [exec, origin, gasprice, gas]
    exact covered_push_env fun _ _ _ _ => rfl
  case NUMBER | COINBASE | TIMESTAMP | DIFFICULTY | GASLIMIT =>
    simp only [exec, number, coinbase, timestamp, difficulty, gaslimit]
    refine covered_push_env fun _ gs _ _ => ?_
    rw [v.cover_block]
  case BLOCKHASH => exact covered_blockhash
  case LOG n => exact covered_log n
  -- the instructions of one context do not see the world
  all_goals exact Ready.safe_of (covered_onCtxt (exec_makes _ h1 h2))

end

/-! ## Ending a context -/

theorem lands_of_final {r : EStateM.Result Thrown (Processor W R) α} (h : v.Safe (final r)) :
    Lands (fun _ => v.Safe) v.Safe r := by
  cases r <;> exact h

section

variable {P : Processor W R → Prop}

theorem onCtxtAt_commutes (k : Nat) (m : CtxM R α) :
    Commutes v.covered P (fun _ _ => True) (fun _ => True) (onCtxtAt k m) := by
  refine ⟨fun p _ => onCtxtAt_covered k m p, ?_⟩
  intro p _
  cases onCtxtAt k m p <;> trivial

theorem invoke_commutes (G : W → Prop) (kind : HandlerKind) (k : Nat) :
    Commutes v.covered (fun p => G p.gs) (fun _ p => G p.gs) (fun _ => True) (invoke (R := R) kind k) :=
  .modify (fun _ _ => rfl) fun _ hp => hp

theorem hh_commutes (h : Handlers R) (k : Nat) : Commutes v.covered P (fun _ _ => True) (fun _ => True) (hh h k) := by
  refine ((invoke_commutes (fun _ => True) .hh k).bind fun _ => ?_).mono (fun _ _ => trivial) fun _ _ h => h
  cases h with
  | run => exact .modify (fun _ _ => rfl) fun _ _ => trivial
  | create | call => exact onCtxtAt_commutes _ _

theorem eh_commutes (h : Handlers R) (k : Nat) (ex : Exception) :
    Commutes v.covered P (fun _ _ => True) (fun _ => True) (eh h k ex) := by
  refine ((invoke_commutes (fun _ => True) .eh k).bind fun _ => ?_).mono (fun _ _ => trivial) fun _ _ h => h
  cases h with
  | run => exact .modify (fun _ _ => rfl) fun _ _ => trivial
  | create | call => exact onCtxtAt_commutes _ _

theorem pop_context_commutes : Commutes v.covered P (fun _ _ => True) (fun _ => True) (pop_context (W := W) (R := R)) :=
  .modify (fun _ _ => rfl) fun _ _ => trivial

theorem stop_commutes : Commutes v.covered P (fun _ _ => True) (fun _ => True) (stop (W := W) (R := R)) :=
  (onCtxtAt_commutes 0 get).bind fun c => pop_context_commutes.bind fun _ => hh_commutes c.handlers 0

theorem catch_commutes (ex : Exception) :
    Commutes v.covered P (fun _ _ => True) (fun _ => True) (catch_exception (W := W) (R := R) ex) :=
  (onCtxtAt_commutes 0 get).bind fun c => (eh_commutes c.handlers 1 ex).bind fun _ => pop_context_commutes

end

theorem covered_stop : Commutes v.covered v.Safe (fun _ => v.Safe) v.Safe (stop (W := W) (R := R)) := by
  refine ⟨stop_commutes.eq, ?_⟩
  intro p hp
  obtain ⟨k, hd⟩ := (Ending.stops (p := p)).final_dropped
  exact lands_of_final (hp.dropped hd)

/-- `rh` writes the code of an account that its context has a reference to. -/
theorem rh_commutes (h : Handlers R) (k : Nat) (output : Bytes) :
    Commutes v.covered (fun p => ∀ newAcc, h = .create newAcc → v.ok newAcc p.gs) (fun _ _ => True) (fun _ => True)
      (rh h k output) := by
  refine (invoke_commutes (fun gs => ∀ newAcc, h = .create newAcc → v.ok newAcc gs) .rh k).bind fun _ => ?_
  cases h with
  | run => exact .modify (fun _ _ => rfl) fun _ _ => trivial
  | call => exact onCtxtAt_commutes _ _
  | create newAcc =>
    refine Commutes.bind (Q := fun _ p => v.ok newAcc p.gs) (.modify (fun _ _ => rfl) fun p hp => hp newAcc rfl) fun _ =>
      (Commutes.modify (Q := fun _ p => v.ok newAcc p.gs) ?_ ?_).bind fun _ => .get_bind ?_ fun p _ => onCtxtAt_commutes _ _
    · intro p hp
      change { p with gs := set_code newAcc output (v.cover p.gs) } = _
      rw [v.cover_set_code output hp]
      rfl
    · intro p hp
      exact (v.grows_set_code newAcc output p.gs).2 newAcc hp
    · intro p hp
      rw [covered_gs, v.cover_address hp]

theorem covered_returning (output : Bytes) :
    Commutes v.covered v.Safe (fun _ => v.Safe) v.Safe (returning (W := W) (R := R) output) := by
  have heq : Commutes v.covered v.Safe (fun _ _ => True) (fun _ => True) (returning (W := W) (R := R) output) := by
    refine Commutes.bind (Q := fun c p => v.Sound p.gs c) ⟨fun p _ => onCtxtAt_covered 0 get p, ?_⟩ fun c =>
      (((rh_commutes c.handlers 1 output).mono ?_ fun _ _ h => h).bind fun _ => pop_context_commutes)
    · intro p hp
      cases hc : p.ctxts with
      | nil =>
        rw [ctxt, onCtxt_nil hc]
        trivial
      | cons c cs =>
        rw [ctxt_cons hc]
        exact hp.ctxts c (by simp [hc])
    · intro p hp
      exact hp.newAcc
  refine ⟨heq.eq, ?_⟩
  intro p hp
  obtain ⟨k, hd⟩ := (Ending.returns (p := p) output).final_dropped
  exact lands_of_final (hp.dropped hd)

section

variable {acc : R}

theorem covered_return : Commutes v.covered (v.Ready acc []) (fun _ => v.Safe) v.Safe (return_ (W := W) (R := R)) :=
  (covered_quiet s_pop64_quiet).bind fun offset => (covered_quiet s_pop64_quiet).bind fun size =>
    (covered_quiet (copy_from_mem_quiet offset size)).bind fun output =>
      (covered_returning output).mono (fun _ hp => hp.safe) fun _ _ hp => hp

theorem covered_selfdestruct :
    Commutes v.covered (v.Ready acc []) (fun _ => v.Safe) v.Safe (selfdestruct (W := W) (R := R)) := by
  refine (covered_quiet pop_addr_quiet).bind fun addr => (covered_gs_get addr).bind fun recipient =>
    covered_ctxt_bind fun c has => .get_bind ?_ fun p _ => (covered_pay_to (by simp [has]) (by simp) _).bind fun _ =>
      .get_bind ?_ fun q _ => (Commutes.modify (Q := fun _ => v.Safe) ?_ ?_).bind fun _ => covered_stop
  · intro p hp
    rw [covered_gs, v.cover_balance (hp.known _ (by simp [has]))]
  · intro q hq
    rw [covered_gs, v.cover_address (hq.known _ (by simp [has]))]
  · intro _ _
    rfl
  · intro q hq
    exact ⟨hq.safe.inv, hq.safe.ctxts⟩

/-! ## Opening a context -/

variable (v) in
/-- What `CREATE` takes from its context, if it does, is for an address that is free. -/
def CreatesFree [Keccak] (gs : W) (c : Context R) : Prop :=
  ∀ x code c', create_operands c = .ok (x, code) c' → v.free (new_address gs c) gs

/-- The address of the new account is read after the operands have been taken. -/
theorem covered_create_operands [Keccak] :
    Commutes v.covered (fun p => v.Ready acc [] p ∧ ∀ c cs, p.ctxts = c :: cs → CreatesFree v p.gs c)
      (fun _ p => v.Ready acc [] p ∧ v.free (generate_address (get_address acc p.gs) (get_nonce acc p.gs)) p.gs) v.Safe
      (onCtxt (W := W) create_operands) := by
  refine ⟨fun p _ => onCtxtAt_covered 0 _ p, ?_⟩
  rintro p ⟨hp, hfree⟩
  have hl := (@covered_quiet _ _ _ _ v acc [] _ create_operands_quiet).lands p hp
  cases hc : p.ctxts with
  | nil =>
    rw [onCtxt_nil hc] at hl ⊢
    exact hl
  | cons c cs =>
    rw [onCtxt_cons hc] at hl ⊢
    cases hops : create_operands c with
    | ok xc c' =>
      rw [hops] at hl
      refine ⟨hl, ?_⟩
      rw [← hp.top c cs hc]
      exact hfree c cs hc xc.1 xc.2 c' hops
    | error e c' =>
      rw [hops] at hl
      exact hl

/-- What else is known is known after the context on top has been read. -/
theorem covered_ctxt_and {P : Processor W R → Prop} :
    Commutes v.covered (fun p => v.Ready acc [] p ∧ P p) (fun c p => c.as = acc ∧ v.Ready acc [acc] p ∧ P p) v.Safe
      (ctxt (W := W) (R := R)) := by
  refine ⟨fun p _ => onCtxtAt_covered 0 (get : CtxM R (Context R)) p, ?_⟩
  rintro p ⟨hp, hP⟩
  cases hc : p.ctxts with
  | nil =>
    rw [ctxt, onCtxt_nil hc]
    exact hp.safe
  | cons c cs =>
    rw [ctxt_cons hc]
    have has := hp.top c cs hc
    refine ⟨has, ⟨hp.safe, hp.top, ?_⟩, hP⟩
    intro a ha
    rw [List.mem_singleton.1 ha, ← has]
    exact (hp.safe.ctxts c (by simp [hc])).as

theorem covered_create [Keccak] :
    Commutes v.covered (fun p => v.Ready acc [] p ∧ ∀ c cs, p.ctxts = c :: cs → CreatesFree v p.gs c)
      (fun _ => v.Safe) v.Safe (create (W := W) (R := R)) := by
  refine covered_create_operands.bind ?_
  rintro ⟨contractValue, initCode⟩
  dsimp only
  refine covered_ctxt_and.bind fun c => .assuming (φ := c.as = acc) (fun p hp => hp.1) fun has =>
    .get_bind_at ?_ fun p hp => ?_
  · rintro p ⟨-, hp, -⟩
    have hok := hp.known acc (by simp)
    rw [covered_gs, has, v.cover_address hok, v.cover_nonce hok]
  obtain ⟨-, hp, hfree⟩ := hp
  rw [has]
  refine (covered_gs_create hp hfree contractValue []).bind fun newAcc =>
    (covered_pay_to (by simp) (by simp) contractValue).bind fun _ => .get_bind ?_ fun q _ => covered_push_context ?_
  · intro q hq
    rw [covered_gs, v.cover_address (hq.known acc (by simp))]
  · intro q hq
    refine ⟨hq.safe, hq.known newAcc (by simp), ?_⟩
    rintro a ⟨⟩
    exact hq.known newAcc (by simp)

theorem covered_call {op : Opcode} (hop : op = .CALL ∨ op = .CALLCODE ∨ op = .DELEGATECALL) :
    Commutes v.covered (v.Ready acc []) (fun _ => v.Safe) v.Safe (call (W := W) (R := R) op) := by
  refine (covered_quiet (call_operands_quiet op)).bind fun args => .ite (fun _ => .throw fun p hp => hp.safe) fun _ => ?_
  refine (covered_gs_get args.addr).bind fun callee => covered_ctxt_bind fun c has =>
    (covered_pay_to (by simp [has]) (by simp) _).bind fun _ => .get_bind ?_ fun p _ => ?_
  · intro p hp
    have hcode : has_code callee (v.cover p.gs) = has_code callee p.gs := by
      rw [has_code, has_code, v.cover_code (hp.known callee (by simp))]
    rw [covered_gs, hcode, v.cover_code (hp.known callee (by simp)), v.cover_address (hp.known c.as (by simp [has]))]
  refine .ite (fun _ => covered_push 1) fun _ => ?_
  refine (covered_quiet (prepare_mem_access_quiet _ _)).bind fun _ =>
    (covered_quiet (copy_from_mem_quiet _ _)).bind fun input => ?_
  -- a context of the callee, or of the account that calls
  rcases hop with rfl | rfl | rfl
  · refine covered_push_context fun q hq => ⟨hq.safe, hq.known callee (by simp), nofun⟩
  · refine covered_push_context fun q hq => ⟨hq.safe, hq.known c.as (by simp [has]), nofun⟩
  · refine covered_push_context fun q hq => ⟨hq.safe, hq.known c.as (by simp [has]), nofun⟩

end

/-! ## Turns -/

section

variable [Keccak] {p p' : Processor W R}

variable (v) in
/-- The instruction about to be carried out sees nothing of what is behind the veil. -/
structure Blind (p : Processor W R) : Prop where
  own : ∀ c cs, p.ctxts = c :: cs → v.own c.as
  free : ∀ c cs, p.ctxts = c :: cs → c.next_op = some .CREATE → CreatesFree v p.gs c

/-- `dispatch` under the veil. -/
theorem covered_dispatch (hs : v.Safe p) (hb : v.Blind p) :
    dispatch (v.covered p) = mapState v.covered (dispatch p) ∧ v.Safe (final (dispatch p)) := by
  cases hp : p.ctxts with
  | nil =>
    have hop : ∀ q : Processor W R, q.ctxts = [] → dispatch q = .error .null_ctxt q := by
      intro q hq
      rw [dispatch, bind_of_error (onCtxt_nil hq)]
    rw [hop p hp, hop (v.covered p) hp]
    exact ⟨rfl, hs⟩
  | cons c cs =>
    have hr : v.Ready c.as [] (traced p c) := by
      refine ⟨⟨hs.inv, hs.ctxts⟩, ?_, by simp⟩
      intro c' cs' hp'
      rw [show (traced p c).ctxts = c :: cs from hp] at hp'
      cases hp'
      rfl
    have key : ∀ {m : M W R Unit} {P : Processor W R → Prop}, Commutes v.covered P (fun _ => v.Safe) v.Safe m →
        P (traced p c) → m (traced (v.covered p) c) = mapState v.covered (m (traced p c)) ∧
          v.Safe (final (m (traced p c))) := by
      intro m P h hP
      refine ⟨h.eq _ hP, ?_⟩
      have hl := h.lands _ hP
      cases hm : m (traced p c) <;>
      · rw [hm] at hl
        exact hl
    rw [dispatch_eq hp, dispatch_eq (show (v.covered p).ctxts = c :: cs from hp)]
    cases hop : c.next_op with
    | none => exact key (covered_unknown_opcode _) hr
    | some op =>
      by_cases h1 : op.is_call = true
      · rcases Opcode.is_call_iff.1 h1 with rfl | hcall
        · refine key covered_create ⟨hr, ?_⟩
          intro c' cs' hp'
          rw [show (traced p c).ctxts = c :: cs from hp] at hp'
          cases hp'
          exact hb.free c cs hp hop
        · rcases hcall with rfl | rfl | rfl
          · exact key (covered_call (.inl rfl)) hr
          · exact key (covered_call (.inr (.inl rfl))) hr
          · exact key (covered_call (.inr (.inr rfl))) hr
      by_cases h2 : op.ends_context = true
      · rcases Opcode.ends_context_iff.1 h2 with rfl | rfl | rfl
        · exact key covered_return hr
        · exact key covered_stop hr.safe
        · exact key covered_selfdestruct hr
      · exact key (covered_exec (hb.own c cs hp) op (by simpa using h1) (by simpa using h2)) hr

omit [Keccak] in
theorem step_or_break_covered (p : Processor W R) :
    step_or_break (v.covered p) = (step_or_break p).map v.covered (mapState v.covered) := by
  obtain ⟨gs, tx, tr, ctxts, result, invoked⟩ := p
  cases ctxts <;> rfl

omit [Keccak] in
theorem Safe.step_or_break (hs : v.Safe p) : (∀ p', step_or_break p = .next p' → v.Safe p') := by
  intro p' h
  obtain ⟨c, cs, hp, rfl⟩ := step_or_break_next h
  refine ⟨hs.inv, ?_⟩
  intro c' hc'
  rcases List.mem_cons.1 hc' with rfl | hc'
  · exact (hs.ctxts c (by simp [hp])).frame (step_sameFrame c)
  · exact hs.ctxts c' (by simp [hp, hc'])

omit [Keccak] in
/-- What follows `dispatch` does not look at the world. -/
theorem covered_after_dispatch {r : EStateM.Result Thrown (Processor W R) Unit} (hs : v.Safe (final r)) :
    after_dispatch (mapState v.covered r) = (after_dispatch r).map v.covered (mapState v.covered) ∧
      ∀ p', after_dispatch r = .next p' → v.Safe p' := by
  cases r with
  | ok u p => exact ⟨step_or_break_covered p, Safe.step_or_break hs⟩
  | error e p =>
    cases e with
    | exception ex =>
      have hc := (catch_commutes (v := v) (P := fun _ => True) ex).eq p trivial
      simp only [mapState_error, after_dispatch, hc]
      cases hr : catch_exception ex p with
      | ok u p1 => exact ⟨step_or_break_covered p1, Safe.step_or_break (Safe.dropped hs (catch_dropped hr))⟩
      | error e p1 =>
        refine ⟨rfl, ?_⟩
        rintro p' ⟨⟩
    | overflow_error | unexpected_state | null_ctxt =>
      refine ⟨rfl, ?_⟩
      rintro p' ⟨⟩

/-- **A turn under the veil** is the veiled turn. -/
theorem iterate_covered (hs : v.Safe p) (hb : v.Blind p) :
    iterate (v.covered p) = (iterate p).map v.covered (mapState v.covered) ∧
      ∀ p', iterate p = .next p' → v.Safe p' := by
  obtain ⟨hd, hsafe⟩ := covered_dispatch hs hb
  have ha := covered_after_dispatch hsafe
  unfold iterate
  rw [covered_ctxts, hd]
  cases p.ctxts with
  | nil => exact ⟨rfl, nofun⟩
  | cons c cs =>
    dsimp only
    split
    · exact ha
    · rw [stop_commutes.eq (P := fun _ => True) p trivial]
      exact ⟨rfl, nofun⟩

/-! ## Runs -/

theorem Safe.reaches {p0 : Processor W R} (h0 : v.Safe p0) (hb : ∀ p, Loop.Reaches iterate p0 p → v.Blind p)
    (hr : Loop.Reaches iterate p0 p) : v.Safe p :=
  hr.invariant h0 fun q _ hq hs hn => (iterate_covered hs (hb q hq)).2 _ hn

/-- **A run under the veil** is the veiled run. -/
theorem runs_covered {p0 : Processor W R} (h0 : v.Safe p0) (hb : ∀ p, Loop.Reaches iterate p0 p → v.Blind p) :
    (∀ n, Loop.steps iterate n (v.covered p0) = (Loop.steps iterate n p0).map v.covered) ∧
    ∀ fuel, Loop.run iterate fuel (v.covered p0) = (Loop.run iterate fuel p0).map (mapState v.covered) := by
  have hturns : ∀ p, Loop.Reaches iterate p0 p →
      iterate (v.covered p) = (iterate p).map v.covered (mapState v.covered) :=
    fun p hr => (iterate_covered (h0.reaches hb hr) (hb p hr)).1
  exact ⟨fun n => Loop.steps_map hturns n, fun fuel => Loop.run_map hturns fuel⟩

end

end Veil

end EEVM

import EEVM.Calls
import EEVM.Simple
import EEVM.Lib.StackEffect
/-!
# The stack effect of an instruction (processor.cpp:396-1194, stack.cpp)

`Opcode.popped` and `Opcode.pushed` are the Yellow Paper's numbers of words for each opcode that neither opens nor ends a
frame. The handlers pop and push word by word and some return early; `exec_takes` adds up what they do. `BYTE` is the one
whose numbers depend on an operand.
-/
namespace EEVM

open ExcState StackEffect

/-! ## The numbers -/

/-- The operands of each opcode, as the Yellow Paper has them. -/
def Opcode.popped : Opcode → Nat
  | ADD | MUL | SUB | DIV | SDIV | MOD | SMOD | EXP | SIGNEXTEND | LT | GT | SLT | SGT | EQ | AND | OR | XOR | BYTE | SHA3
  | MSTORE | MSTORE8 | SSTORE | JUMPI => 2
  | ADDMOD | MULMOD | CALLDATACOPY | CODECOPY => 3
  | ISZERO | NOT | BALANCE | CALLDATALOAD | EXTCODESIZE | BLOCKHASH | POP | MLOAD | SLOAD | JUMP => 1
  | EXTCODECOPY => 4
  | DUP n => n + 1
  | SWAP n => n + 2
  | LOG n => n + 2
  | _ => 0

/-- The results that it pushes. -/
def Opcode.pushed : Opcode → Nat
  | ADD | MUL | SUB | DIV | SDIV | MOD | SMOD | EXP | SIGNEXTEND | LT | GT | SLT | SGT | EQ | AND | OR | XOR | BYTE | SHA3
  | ADDMOD | MULMOD | ISZERO | NOT | ADDRESS | BALANCE | ORIGIN | CALLER | CALLVALUE | CALLDATALOAD | CALLDATASIZE | CODESIZE
  | GASPRICE | EXTCODESIZE | BLOCKHASH | COINBASE | TIMESTAMP | NUMBER | DIFFICULTY | GASLIMIT | MLOAD | SLOAD | PC | MSIZE
  | GAS | PUSH _ => 1
  | DUP n => n + 2
  | SWAP n => n + 2
  | _ => 0

/-! ## Computations of one context -/

namespace CtxM

/-- The effect of `m` on the stack of its context. -/
abbrev Takes {R α : Type} (n k : Nat) (m : CtxM R α) : Prop := StackEffect.Takes (fun c => some c.s) n k m

end CtxM

section

variable {R α : Type}

/-- A pop takes one. -/
theorem takes_of_popped {m : CtxM R α} (h : ∀ c a c', m c = .ok a c' → Popped 1 c c') : CtxM.Takes 1 0 m := by
  rintro c st a c' ⟨⟩ hm
  have hp := h c a c' hm
  exact ⟨_, rfl, hp.le, [], rfl, by rw [hp.eq]; rfl⟩

/-- What leaves the stack alone takes nothing. -/
theorem takes_of_s_eq {m : CtxM R α} (h : ∀ c a c', m c = .ok a c' → c'.s = c.s) : CtxM.Takes 0 0 m :=
  .of_view_eq fun c a c' hm => congrArg some (h c a c' hm)

theorem s_pop_takes : CtxM.Takes (R := R) 1 0 s_pop := takes_of_popped fun _ _ _ => popped_of_s_pop
theorem s_pop64_takes : CtxM.Takes (R := R) 1 0 s_pop64 := takes_of_popped fun _ _ _ => popped_of_s_pop64
theorem pop_addr_takes : CtxM.Takes (R := R) 1 0 pop_addr := takes_of_popped fun _ _ _ => popped_of_pop_addr

/-- A method of the stack. -/
theorem onStack_takes {m : StackM α} {n k : Nat} (h : ∀ st a st', m st = .ok a st' → Replaces n k st st') :
    CtxM.Takes (R := R) n k (onStack m) := by
  rintro c st a c' ⟨⟩ hm
  unfold onStack at hm
  split at hm
  · cases hm
    rename_i hm
    exact ⟨_, rfl, h _ _ _ hm⟩
  · cases hm

theorem s_push_takes (w : Word) : CtxM.Takes (R := R) 0 1 (s_push w) := by
  refine onStack_takes fun st a st' hm => ?_
  unfold Stack.push at hm
  split at hm
  · cases hm
  · cases hm
    exact ⟨Nat.zero_le _, [w], rfl, rfl⟩

theorem prepare_mem_access_takes (offset size : UInt64) : CtxM.Takes (R := R) 0 0 (prepare_mem_access offset size) :=
  takes_of_s_eq fun _ _ _ h => by rw [(prepare_mem_access_eq_ok h).1]

theorem copy_from_mem_takes (offset size : UInt64) : CtxM.Takes (R := R) 0 0 (copy_from_mem offset size) :=
  takes_of_s_eq fun _ _ _ h => by rw [(copy_from_mem_eq_ok h).1]

theorem copy_to_mem_takes (offDst offSrc size : UInt64) (src : Bytes) (pad : UInt8) :
    CtxM.Takes (R := R) 0 0 (copy_to_mem offDst offSrc size src pad) := by
  refine takes_of_s_eq fun c a c' h => ?_
  unfold copy_to_mem at h
  split at h
  · cases h
    rfl
  · cases h

theorem copy_mem_takes (src : Bytes) (pad : UInt8) : CtxM.Takes (R := R) 3 0 (copy_mem src pad) :=
  s_pop64_takes.bind fun _ => s_pop64_takes.bind fun _ => s_pop64_takes.bind fun _ => copy_to_mem_takes _ _ _ _ _

theorem jump_to_takes (newPc : UInt64) : CtxM.Takes (R := R) 0 0 (jump_to newPc) :=
  Takes.get.bind fun _ => .ite (.throw _) (.modify fun _ => by rfl)

theorem safeAdd_takes (x y : UInt64) : CtxM.Takes (R := R) 0 0 (safeAdd x y) := .ite (.throw _) (.pure _)

namespace Op

/-- The effects add up along a sequence. -/
theorem push_value_takes (f : Context R → Word) : CtxM.Takes 0 1 (push_value f) := Takes.get.bind fun _ => s_push_takes _

theorem unary_takes (f : Word → Word) : CtxM.Takes (R := R) 1 1 (unary f) := s_pop_takes.bind fun _ => s_push_takes _

theorem binary_takes (f : Word → Word → Word) : CtxM.Takes (R := R) 2 1 (binary f) :=
  s_pop_takes.bind fun _ => s_pop_takes.bind fun _ => s_push_takes _

theorem ternary_takes (f : Word → Word → Word → Word) : CtxM.Takes (R := R) 3 1 (ternary f) :=
  s_pop_takes.bind fun _ => s_pop_takes.bind fun _ => s_pop_takes.bind fun _ => s_push_takes _

/-- The elements down to the one that is swapped are replaced. -/
theorem swap_takes (n : Nat) : CtxM.Takes (R := R) (n + 2) (n + 2) (swap n) := by
  refine onStack_takes fun st a st' hm => ?_
  unfold Stack.swap at hm
  split at hm
  · cases hm
  · rename_i hlt
    cases hm
    refine ⟨by omega, ((st.set 0 (st.getD (n + 1) 0)).set (n + 1) (st.getD 0 0)).take (n + 2), ?_, ?_⟩
    · simp
      omega
    · conv_lhs => rw [← List.take_append_drop (n + 2) ((st.set 0 _).set (n + 1) _)]
      rw [List.drop_set_of_lt (by omega), List.drop_set_of_lt (by omega)]

/-- The elements down to the one that is copied are left, and there is one more. -/
theorem dup_takes (n : Nat) : CtxM.Takes (R := R) (n + 1) (n + 2) (dup n) := by
  refine onStack_takes fun st a st' hm => ?_
  unfold Stack.dup at hm
  split at hm
  · cases hm
  · rename_i hlt
    cases hm
    refine ⟨by omega, st.getD n 0 :: st.take (n + 1), ?_, ?_⟩
    · simp
      omega
    · simp

theorem push_takes (n : Nat) : CtxM.Takes (R := R) 0 1 (push n) :=
  Takes.get.bind fun _ => .ite (.throw _) (.ite (.throw _) ((s_push_takes _).bind fun _ => .modify fun _ => by rfl))

theorem exp_takes : CtxM.Takes (R := R) 2 1 exp := s_pop_takes.bind fun _ => s_pop64_takes.bind fun _ => s_push_takes _

theorem sgt_takes : CtxM.Takes (R := R) 2 1 sgt := (swap_takes 0).bind fun _ => binary_takes _

theorem jump_takes : CtxM.Takes (R := R) 1 0 jump := s_pop64_takes.bind fun _ => jump_to_takes _

theorem jumpi_takes : CtxM.Takes (R := R) 2 0 jumpi :=
  s_pop64_takes.bind fun _ => s_pop_takes.bind fun _ => .ite (jump_to_takes _) (.pure _)

theorem mload_takes : CtxM.Takes (R := R) 1 1 mload :=
  s_pop64_takes.bind fun _ => (prepare_mem_access_takes _ _).bind fun _ => Takes.get.bind fun _ => s_push_takes _

theorem mstore_takes : CtxM.Takes (R := R) 2 0 mstore :=
  s_pop64_takes.bind fun _ => s_pop_takes.bind fun _ => (prepare_mem_access_takes _ _).bind fun _ => .modify fun _ => by rfl

theorem mstore8_takes : CtxM.Takes (R := R) 2 0 mstore8 :=
  s_pop64_takes.bind fun _ => s_pop_takes.bind fun _ => (prepare_mem_access_takes _ _).bind fun _ => .modify fun _ => by rfl

theorem calldataload_takes : CtxM.Takes (R := R) 1 1 calldataload :=
  s_pop64_takes.bind fun _ => (safeAdd_takes _ _).bind fun _ => Takes.get.bind fun _ => s_push_takes _

theorem sha3_takes [Keccak] : CtxM.Takes (R := R) 2 1 sha3 :=
  s_pop64_takes.bind fun _ => s_pop64_takes.bind fun _ => (prepare_mem_access_takes _ _).bind fun _ =>
    Takes.get.bind fun _ => s_push_takes _

end Op

end

namespace Processor

variable {W R α : Type}

/-! ## Instructions -/

/-- The stack of the context on top. -/
def top_stack (p : Processor W R) : Option Stack := p.ctxts.head?.map Context.s

/-- The effect of `m` on the stack on top. -/
abbrev Takes (n k : Nat) (m : M W R α) : Prop := StackEffect.Takes top_stack n k m

theorem onCtxt_takes {n k : Nat} {m : CtxM R α} (h : CtxM.Takes n k m) : Takes (W := W) n k (onCtxt m) := by
  intro p st a p' hst hm
  cases hp : p.ctxts with
  | nil => simp [top_stack, hp] at hst
  | cons c cs =>
    rw [onCtxt_cons hp] at hm
    rw [top_stack, hp] at hst
    cases hc : m c with
    | ok b c' =>
      rw [hc] at hm
      cases hm
      exact h c st _ c' hst hc
    | error e c' =>
      rw [hc] at hm
      cases hm

theorem ctxt_takes : Takes (W := W) (R := R) 0 0 ctxt := onCtxt_takes .get

/-- By induction on the number of topics. -/
theorem pop_topics_takes : ∀ n, Takes (W := W) (R := R) n 0 (pop_topics n)
  | 0 => .pure _
  | n + 1 => by
    have h := (onCtxt_takes (W := W) (R := R) s_pop_takes).bind fun topic => (pop_topics_takes n).bind fun topics =>
      Takes.pure (topic :: topics)
    simp only [Nat.zero_sub, Nat.sub_zero, Nat.add_zero] at h
    rwa [Nat.add_comm] at h

section

variable [GlobalState W R]

theorem gs_get_takes (addr : Address) : Takes (W := W) 0 0 (gs_get addr) := .of_view_eq fun _ _ _ h => by cases h; rfl

omit [GlobalState W R] in
theorem push_env_takes (f : Context R → W → Transaction → Word) : Takes 0 1 (push_env f) :=
  ctxt_takes.bind fun _ => Takes.get.bind fun _ => onCtxt_takes (s_push_takes _)

theorem push_account_takes (f : R → W → Word) : Takes 1 1 (push_account f) :=
  (onCtxt_takes pop_addr_takes).bind fun _ => (gs_get_takes _).bind fun _ => Takes.get.bind fun _ =>
    onCtxt_takes (s_push_takes _)

theorem sload_takes : Takes (W := W) (R := R) 1 1 sload :=
  (onCtxt_takes s_pop_takes).bind fun _ => ctxt_takes.bind fun _ => Takes.get.bind fun _ => onCtxt_takes (s_push_takes _)

theorem sstore_takes : Takes (W := W) (R := R) 2 0 sstore :=
  (onCtxt_takes s_pop_takes).bind fun _ => (onCtxt_takes s_pop_takes).bind fun _ => ctxt_takes.bind fun _ =>
    .ite (.modify fun _ => by rfl) (.modify fun _ => by rfl)

theorem extcodecopy_takes : Takes (W := W) (R := R) 4 0 extcodecopy :=
  (onCtxt_takes pop_addr_takes).bind fun _ => (gs_get_takes _).bind fun _ => Takes.get.bind fun _ =>
    onCtxt_takes (copy_mem_takes _ _)

theorem blockhash_takes : Takes (W := W) (R := R) 1 1 blockhash :=
  (onCtxt_takes s_pop64_takes).bind fun _ => Takes.get.bind fun _ =>
    .ite (onCtxt_takes (s_push_takes _)) (onCtxt_takes (s_push_takes _))

theorem log_takes (n : Nat) : Takes (W := W) (R := R) (n + 2) 0 (log n) := by
  have h := (onCtxt_takes (W := W) (R := R) s_pop64_takes).bind fun offset => (onCtxt_takes s_pop64_takes).bind fun size =>
    (pop_topics_takes n).bind fun topics => ctxt_takes.bind fun c => Takes.get.bind fun p =>
      (onCtxt_takes (copy_from_mem_takes offset size)).bind fun data => Takes.modify (f := fun q => { q with
        tx := { q.tx with logs := q.tx.logs ++ [{ address := get_address c.as p.gs, data, topics }] } }) fun _ => rfl
  simp only [Nat.zero_sub, Nat.sub_zero, Nat.add_zero] at h
  rwa [show 1 + (1 + n) = n + 2 by omega] at h

/-- What the handlers pop and push adds up to the numbers of the opcode, but for `BYTE`. -/
theorem exec_takes [Keccak] (op : Opcode) (h1 : op.is_call = false) (h2 : op.ends_context = false) (h3 : op ≠ .BYTE) :
    Takes (W := W) (R := R) op.popped op.pushed (exec op) := by
  cases op
  case CREATE | CALL | CALLCODE | DELEGATECALL => cases h1
  case RETURN | STOP | SELFDESTRUCT => cases h2
  case BYTE => exact absurd rfl h3
  case PUSH n => exact onCtxt_takes (Op.push_takes _)
  case DUP n => exact onCtxt_takes (Op.dup_takes n)
  case SWAP n => exact onCtxt_takes (Op.swap_takes n)
  case POP => exact onCtxt_takes (s_pop_takes.bind fun _ => .pure _)
  case ADD | MUL | SUB | DIV | SDIV | MOD | SMOD | SIGNEXTEND | LT | GT | SLT | EQ | AND | OR | XOR =>
    exact onCtxt_takes (Op.binary_takes _)
  case ADDMOD | MULMOD => exact onCtxt_takes (Op.ternary_takes _)
  case ISZERO | NOT => exact onCtxt_takes (Op.unary_takes _)
  case PC | MSIZE | CALLER | CALLVALUE | CALLDATASIZE => exact onCtxt_takes (Op.push_value_takes _)
  case EXP => exact onCtxt_takes Op.exp_takes
  case SGT => exact onCtxt_takes Op.sgt_takes
  case JUMP => exact onCtxt_takes Op.jump_takes
  case JUMPI => exact onCtxt_takes Op.jumpi_takes
  case JUMPDEST => exact onCtxt_takes (.pure _)
  case MLOAD => exact onCtxt_takes Op.mload_takes
  case MSTORE => exact onCtxt_takes Op.mstore_takes
  case MSTORE8 => exact onCtxt_takes Op.mstore8_takes
  case CODECOPY | CALLDATACOPY => exact onCtxt_takes (Takes.get.bind fun _ => copy_mem_takes _ _)
  case CALLDATALOAD => exact onCtxt_takes Op.calldataload_takes
  case SHA3 => exact onCtxt_takes Op.sha3_takes
  case SLOAD => exact sload_takes
  case SSTORE => exact sstore_takes
  case EXTCODESIZE | BALANCE =>
    simp only [exec, extcodesize, balance]
    exact push_account_takes _
  case EXTCODECOPY => exact extcodecopy_takes
  case CODESIZE | ADDRESS | ORIGIN | GASPRICE | GAS | NUMBER | COINBASE | TIMESTAMP | DIFFICULTY | GASLIMIT =>
    simp only [exec, codesize, address, origin, gasprice, gas, number, coinbase, timestamp, difficulty, gaslimit]
    exact push_env_takes _
  case BLOCKHASH => exact blockhash_takes
  case LOG n => exact log_takes n

/-! ## `BYTE` -/

omit [GlobalState W R] in
/-- Out of range the index alone is popped, in range the value as well. -/
theorem byte_replaces {c c' : Context R} {idx : Word} {st : Stack} {u : Unit} (hs : c.s = idx :: st)
    (h : Op.byte c = .ok u c') :
    (32 ≤ idx.toNat → Replaces 1 1 c.s c'.s) ∧ (¬32 ≤ idx.toNat → Replaces 2 1 c.s c'.s) := by
  rw [Op.byte, bind_of_ok (s_pop_of_cons hs)] at h
  rw [hs]
  constructor
  · intro hidx
    rw [if_pos hidx] at h
    obtain ⟨_, ⟨⟩, -, ws, hws, hc'⟩ := s_push_takes 0 _ _ _ _ rfl h
    exact ⟨by simp, ws, hws, hc'⟩
  · intro hidx
    rw [if_neg hidx] at h
    let shift := 256 - 8 - 8 * (idx.toNat % 2 ^ 8)
    obtain ⟨_, ⟨⟩, hlen, ws, hws, hc'⟩ :=
      Op.unary_takes (fun val => (val &&& (255 : Word) <<< shift) >>> shift) _ _ _ _ rfl h
    exact ⟨by simpa using hlen, ws, hws, hc'⟩

/-- The instruction `op` of `c` has had the effect on the stack that the Yellow Paper gives it. -/
def FixedEffect (op : Opcode) (c : Context R) (cs : List (Context R)) (p' : Processor W R) : Prop :=
  ∃ c', p'.ctxts = c' :: cs ∧ Replaces op.popped op.pushed c.s c'.s

variable [Keccak] {p p' : Processor W R} {c : Context R} {cs : List (Context R)} {op : Opcode}

/-- **Stack effects.** An instruction that completes has the stack effect of its opcode, unless it is a `BYTE` whose index
is out of range. -/
theorem fixed_effect_iff (hp : p.ctxts = c :: cs) (hop : c.next_op = some op) (h1 : op.is_call = false)
    (h2 : op.ends_context = false) (hd : dispatch p = .ok () p') :
    FixedEffect op c cs p' ↔ ¬(op = .BYTE ∧ ∃ idx st, c.s = idx :: st ∧ 32 ≤ idx.toNat) := by
  have hp' : (traced p c).ctxts = c :: cs := hp
  have hview : top_stack (traced p c) = some c.s := by
    rw [top_stack, hp']
    rfl
  rw [dispatch_eq hp, hop] at hd
  obtain ⟨c', hc', -⟩ := ((exec_makes op h1 h2).ok hd).top hp'
  have heffect : FixedEffect op c cs p' ↔ Replaces op.popped op.pushed c.s c'.s := by
    simp [FixedEffect, hc']
  rw [heffect]
  by_cases hbyte : op = .BYTE
  · subst hbyte
    simp only [true_and]
    -- the index is on the stack, or it could not have been popped
    have hd' : onCtxt Op.byte (traced p c) = .ok () p' := hd
    rw [onCtxt_cons hp'] at hd'
    cases hm : Op.byte c with
    | error e c1 =>
      rw [hm] at hd'
      cases hd'
    | ok u c1 =>
      rw [hm] at hd'
      cases hd'
      obtain rfl : c1 = c' := (List.cons.inj hc').1
      obtain ⟨idx, c2, hpop, -⟩ := bind_eq_ok.1 hm
      have hs := (s_pop_eq_ok hpop).1
      obtain ⟨hout, hin⟩ := byte_replaces hs hm
      constructor
      · rintro hr ⟨idx', st, hs', hidx⟩
        obtain ⟨rfl, rfl⟩ := List.cons.inj (hs.symm.trans hs')
        have h1 := (hout hidx).length_eq
        have h2 := hr.length_eq
        simp only [Opcode.popped, Opcode.pushed] at h2
        omega
      · intro hno
        exact hin fun hidx => hno ⟨idx, c2.s, hs, hidx⟩
  · obtain ⟨st', hst', hr⟩ := exec_takes op h1 h2 hbyte _ _ _ _ hview hd
    rw [top_stack, hc'] at hst'
    cases hst'
    simp [hbyte, hr]

end

/-- Account 100 pushes 7 and 32 and carries out one more instruction. -/
def effect_start (op : UInt8) : Processor SimpleGlobalState Address :=
  start (.of_accounts [{ address := 100, code := [0x60, 7, 0x60, 32, op] }]) { origin := 1 } none 1 100 [] 0

/-- The sum takes its two operands. -/
theorem fixed_effect_add : ∃ p p' c, @Loop.Reaches _ _ (@iterate _ _ _ no_hash) (effect_start 0x01) p ∧
    p.ctxts = [c] ∧ @dispatch _ _ _ no_hash p = .ok () p' ∧
    (FixedEffect .ADD c [] p' ↔ ¬(Opcode.ADD = .BYTE ∧ ∃ idx st, c.s = idx :: st ∧ 32 ≤ idx.toNat)) := by
  have hr : @Loop.Reaches _ _ (@iterate _ _ _ no_hash) (effect_start 0x01) _ :=
    .of_steps (show @Loop.steps _ _ (@iterate _ _ _ no_hash) 2 (effect_start 0x01) = some _ from rfl)
  have key := fun p p' c (_ : @Loop.Reaches _ _ (@iterate _ _ _ no_hash) (effect_start 0x01) p) hp hop hd =>
    @fixed_effect_iff _ _ _ no_hash p p' c [] .ADD hp hop rfl rfl hd
  exact ⟨_, _, _, hr, rfl, rfl, key _ _ _ hr rfl rfl rfl⟩

/-- Byte 32 of 7 is 0, and the 7 is still there below it. -/
theorem byte_leaves_value : ∃ p p' c, @Loop.Reaches _ _ (@iterate _ _ _ no_hash) (effect_start 0x1a) p ∧
    p.ctxts = [c] ∧ c.next_op = some .BYTE ∧ @dispatch _ _ _ no_hash p = .ok () p' ∧ ¬FixedEffect .BYTE c [] p' := by
  have hr : @Loop.Reaches _ _ (@iterate _ _ _ no_hash) (effect_start 0x1a) _ :=
    .of_steps (show @Loop.steps _ _ (@iterate _ _ _ no_hash) 2 (effect_start 0x1a) = some _ from rfl)
  refine ⟨_, _, _, hr, rfl, rfl, rfl, ?_⟩
  rintro ⟨c', hc', hreplaces⟩
  cases hc'
  exact absurd hreplaces.length_eq (by decide)

end Processor

end EEVM

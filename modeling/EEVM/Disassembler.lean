import EEVM.Instructions
import EEVM.Lib.Sweep
/-!
# The disassembler (disassembler.h, disassembler.cpp:26-180)

| here | there |
| --- | --- |
| `Op`, `Instr`, `Disassembly` | `disassembler.h:20`, `:48`, `:84`; `gas` is 0 throughout and left out |
| `getOp` | `:104`, over the table `ops` |
| `dis` | `:116`: `dis_from` is its first loop, `name_jump_dests` and `resolve_jumps` are the two after it |
| `width` | how far both `compute_jump_dests` and `dis` move on from an opcode |

The map `instrs` is the list of its entries in the order of the keys, in which `dis` inserts them. The second part
compares the two loops: `positions` are where both of them look at an opcode.
-/
namespace EEVM

/-! ## Opcodes -/

/-- The name of the enumerator. -/
def Opcode.mnemonic : Opcode → String
  | STOP => "STOP" | ADD => "ADD" | MUL => "MUL" | SUB => "SUB" | DIV => "DIV" | SDIV => "SDIV" | MOD => "MOD"
  | SMOD => "SMOD" | ADDMOD => "ADDMOD" | MULMOD => "MULMOD" | EXP => "EXP" | SIGNEXTEND => "SIGNEXTEND"
  | LT => "LT" | GT => "GT" | SLT => "SLT" | SGT => "SGT" | EQ => "EQ" | ISZERO => "ISZERO" | AND => "AND"
  | OR => "OR" | XOR => "XOR" | NOT => "NOT" | BYTE => "BYTE" | SHA3 => "SHA3"
  | ADDRESS => "ADDRESS" | BALANCE => "BALANCE" | ORIGIN => "ORIGIN" | CALLER => "CALLER" | CALLVALUE => "CALLVALUE"
  | CALLDATALOAD => "CALLDATALOAD" | CALLDATASIZE => "CALLDATASIZE" | CALLDATACOPY => "CALLDATACOPY"
  | CODESIZE => "CODESIZE" | CODECOPY => "CODECOPY" | GASPRICE => "GASPRICE" | EXTCODESIZE => "EXTCODESIZE"
  | EXTCODECOPY => "EXTCODECOPY" | BLOCKHASH => "BLOCKHASH" | COINBASE => "COINBASE" | TIMESTAMP => "TIMESTAMP"
  | NUMBER => "NUMBER" | DIFFICULTY => "DIFFICULTY" | GASLIMIT => "GASLIMIT"
  | POP => "POP" | MLOAD => "MLOAD" | MSTORE => "MSTORE" | MSTORE8 => "MSTORE8" | SLOAD => "SLOAD"
  | SSTORE => "SSTORE" | JUMP => "JUMP" | JUMPI => "JUMPI" | PC => "PC" | MSIZE => "MSIZE" | GAS => "GAS"
  | JUMPDEST => "JUMPDEST" | PUSH n => "PUSH" ++ toString (n.val + 1) | DUP n => "DUP" ++ toString (n.val + 1)
  | SWAP n => "SWAP" ++ toString (n.val + 1) | LOG n => "LOG" ++ toString n.val
  | CREATE => "CREATE" | CALL => "CALL" | CALLCODE => "CALLCODE" | RETURN => "RETURN"
  | DELEGATECALL => "DELEGATECALL" | SELFDESTRUCT => "SELFDESTRUCT"

/-- How many bytes follow the opcode. -/
def Opcode.immediate_bytes : Opcode → Nat
  | PUSH n => n.val + 1
  | _ => 0

namespace Disassembler

structure Op where
  opcode : UInt8
  mnemonic : String
  immediate_bytes : Nat
deriving DecidableEq, Repr

structure Instr where
  op : Op
  pc : Nat
  raw_imm : Bytes
  comment : String := ""
deriving DecidableEq, Repr

/-- `std::logic_error` and `std::out_of_range`. -/
inductive Error
  | logic_error (what : String)
  | out_of_range (what : String)
deriving DecidableEq, Repr

def Instr.get_immediate (i : Instr) : Except Error Word :=
  if i.raw_imm.isEmpty then .error (.logic_error "Instruction does not have immediate.")
  else .ok (from_big_endian i.raw_imm)

/-- `instrs`, in the order of the keys. -/
structure Disassembly where
  instrs : List (Nat × Instr)
deriving DecidableEq, Repr

def getOp (oc : UInt8) : Op :=
  match Opcode.ofByte oc with
  | some op => { opcode := oc, mnemonic := op.mnemonic, immediate_bytes := op.immediate_bytes }
  | none => { opcode := oc, mnemonic := "INVALID", immediate_bytes := 0 }

/-- The loop that constructs the initial disassembly, from `pc` on. -/
def dis_from (prog : Bytes) : Nat → Nat → Except Error (List (Nat × Instr))
  | 0, _ => .ok []
  | turns + 1, pc =>
    if h : pc < prog.length then
      let op := getOp prog[pc]
      let bytes_left := prog.length - (pc + 1)
      if bytes_left < op.immediate_bytes then
        .error (.out_of_range ("Immediate exceeds instruction stream (op " ++ op.mnemonic ++ " at instruction " ++
          toString (pc + 1) ++ " wants " ++ toString op.immediate_bytes ++ " bytes, only " ++ toString bytes_left ++
          " remain)"))
      else
        let raw_imm := (prog.drop (pc + 1)).take op.immediate_bytes
        match dis_from prog turns (pc + 1 + op.immediate_bytes) with
        | .ok instrs => .ok ((pc, { op, pc, raw_imm }) :: instrs)
        | .error e => .error e
    else .ok []

/-- "give names to jump dests" -/
def name_jump_dests (instrs : List (Nat × Instr)) : List (Nat × Instr) :=
  instrs.map fun (k, i) => (k, if i.op.opcode = JUMPDEST then { i with comment := "loc_" ++ toString i.pc } else i)

/-- The comment of a jump that comes right after `prev`. -/
def jump_comment (instrs : List (Nat × Instr)) (prev : Instr) : String :=
  let target_address := (from_big_endian prev.raw_imm).toUInt64
  match instrs.lookup target_address.toNat with
  | none => "illegal target"
  | some target => if target.op.opcode ≠ JUMPDEST then "illegal target" else "branches to " ++ target.comment

/-- "resolve jumps using simple heuristics": the instruction before the jump is looked at, if there is one and it has
an immediate. -/
def resolve_jumps (instrs : List (Nat × Instr)) : Option Instr → List (Nat × Instr) → List (Nat × Instr)
  | _, [] => []
  | prev, (k, i) :: rest =>
    let is_jump := i.op.opcode = Opcode.JUMP.toByte ∨ i.op.opcode = Opcode.JUMPI.toByte
    let i' := match prev with
      | some prev => if is_jump ∧ prev.op.immediate_bytes > 0 then { i with comment := jump_comment instrs prev } else i
      | none => i
    (k, i') :: resolve_jumps instrs (some i) rest

def dis (prog : Bytes) : Except Error Disassembly :=
  match dis_from prog prog.length 0 with
  | .ok instrs =>
    let instrs := name_jump_dests instrs
    .ok { instrs := resolve_jumps instrs none instrs }
  | .error e => .error e

/-! ## The positions of the opcodes -/

/-- From an opcode to the next one. -/
def width (code : Bytes) (i : Nat) : Nat := 1 + (getOp (code.getD i 0)).immediate_bytes

/-- The positions at which a sweep over the code finds an opcode. -/
def positions (code : Bytes) : List Nat := Sweep.positions (width code) code.length code.length 0

theorem width_pos (code : Bytes) (i : Nat) : 0 < width code i := by
  unfold width
  omega

theorem mem_positions {code : Bytes} {i : Nat} : i ∈ positions code ↔ Sweep.Visits (width code) i ∧ i < code.length :=
  Sweep.mem_positions (width_pos code) (Nat.le_add_left _ _)

theorem immediate_bytes_of_lt : ∀ n : Fin 256, (getOp (UInt8.ofNat n)).immediate_bytes =
    if UInt8.ofNat n ≥ PUSH1 ∧ UInt8.ofNat n ≤ PUSH32 then (UInt8.ofNat n - PUSH1 + 1).toNat else 0 := by
  decide +kernel

/-- The bytes after an opcode, in the arithmetic of `compute_jump_dests`. -/
theorem immediate_bytes_getOp (b : UInt8) :
    (getOp b).immediate_bytes = if b ≥ PUSH1 ∧ b ≤ PUSH32 then (b - PUSH1 + 1).toNat else 0 := by
  simpa using immediate_bytes_of_lt ⟨b.toNat, b.toNat_lt⟩

theorem width_of_next_op {code : Bytes} {i : Nat} {op : Opcode} (h : Opcode.ofByte (code.getD i 0) = some op) :
    width code i = 1 + op.immediate_bytes := by
  rw [width, getOp, h]

theorem width_of_unknown {code : Bytes} {i : Nat} (h : Opcode.ofByte (code.getD i 0) = none) : width code i = 1 := by
  rw [width, getOp, h]
  rfl

/-! ## `compute_jump_dests` -/

theorem jump_dests_from_eq (code : Bytes) (turns i : Nat) :
    jump_dests_from code turns i =
      (Sweep.positions (width code) code.length turns i).filter fun i => code.getD i 0 = JUMPDEST := by
  induction turns generalizing i with
  | zero => rfl
  | succ turns ih =>
    unfold jump_dests_from Sweep.positions
    by_cases h : i < code.length
    · have hget : code.getD i 0 = code[i] := by simp [List.getD, h]
      simp only [dif_pos h, if_pos h]
      by_cases hpush : code[i] ≥ PUSH1 ∧ code[i] ≤ PUSH32
      · have hw : i + width code i = i + (code[i] - PUSH1 + 1).toNat + 1 := by
          rw [width, immediate_bytes_getOp, hget, if_pos hpush]
          omega
        -- a `PUSH` is no `JUMPDEST`
        have hne : code[i] ≠ JUMPDEST := by
          intro he
          rw [he] at hpush
          exact absurd hpush.1 (by decide)
        rw [if_pos hpush, ih, hw, List.filter_cons_of_neg (by simp only [hget]; simpa using hne)]
      · have hw : i + width code i = i + 1 := by
          rw [width, immediate_bytes_getOp, hget, if_neg hpush]
        rw [if_neg hpush, ih, hw]
        by_cases hd : code[i] = JUMPDEST
        · rw [if_pos hd, List.filter_cons_of_pos (by simp only [hget]; simpa using hd)]
        · rw [if_neg hd, List.filter_cons_of_neg (by simp only [hget]; simpa using hd)]
    · simp only [dif_neg h, if_neg h, List.filter_nil]

/-- The jump destinations are the positions with a `JUMPDEST`. -/
theorem compute_jump_dests_eq (code : Bytes) :
    compute_jump_dests code = (positions code).filter fun i => code.getD i 0 = JUMPDEST :=
  jump_dests_from_eq code code.length 0

theorem visits_of_mem_jump_dests {prog : Program} {i : Nat} (h : i ∈ prog.jump_dests) :
    Sweep.Visits (width prog.code) i ∧ i < prog.code.length := by
  rw [prog.jump_dests_eq, compute_jump_dests_eq] at h
  exact mem_positions.1 (List.mem_of_mem_filter h)

/-! ## `dis` -/

/-- What the entry at `k` of the disassembly of `code` holds, apart from its comment. -/
structure Describes (code : Bytes) (k : Nat) (i : Instr) : Prop where
  pc : i.pc = k
  op : i.op = getOp (code.getD k 0)
  raw_imm : i.raw_imm = (code.drop (k + 1)).take (getOp (code.getD k 0)).immediate_bytes
  fits : k + width code k ≤ code.length

theorem dis_from_ok {prog : Bytes} {turns pc : Nat} {instrs : List (Nat × Instr)}
    (h : dis_from prog turns pc = .ok instrs) :
    instrs.map Prod.fst = Sweep.positions (width prog) prog.length turns pc ∧
      ∀ k i, (k, i) ∈ instrs → Describes prog k i := by
  induction turns generalizing pc instrs with
  | zero =>
    cases h
    simp [Sweep.positions]
  | succ turns ih =>
    unfold dis_from at h
    unfold Sweep.positions
    by_cases hpc : pc < prog.length
    case neg =>
      simp only [dif_neg hpc] at h
      cases h
      simp [hpc]
    have hget : prog[pc] = prog.getD pc 0 := by simp [List.getD, hpc]
    simp only [dif_pos hpc] at h
    rw [if_pos hpc]
    split at h
    · cases h
    rename_i hfits
    cases hrest : dis_from prog turns (pc + 1 + (getOp prog[pc]).immediate_bytes) with
    | error e => simp [hrest] at h
    | ok rest =>
      rw [hrest] at h
      cases h
      obtain ⟨hkeys, hentries⟩ := ih hrest
      have hw : pc + 1 + (getOp prog[pc]).immediate_bytes = pc + width prog pc := by
        rw [width, hget]
        omega
      rw [hw] at hkeys
      refine ⟨by simp [hkeys], ?_⟩
      intro k i hmem
      rcases List.mem_cons.1 hmem with heq | hmem
      · cases heq
        exact ⟨rfl, by rw [hget], by rw [hget], by omega⟩
      · exact hentries k i hmem

/-- A comment is all the last two loops write. -/
def SameEntry (e e' : Nat × Instr) : Prop := e'.1 = e.1 ∧ ∃ comment, e'.2 = { e.2 with comment }

theorem name_jump_dests_same (instrs : List (Nat × Instr)) :
    List.Forall₂ SameEntry instrs (name_jump_dests instrs) := by
  induction instrs with
  | nil => exact .nil
  | cons e es ih =>
    refine .cons ⟨rfl, ?_⟩ ih
    dsimp only
    split
    · exact ⟨_, rfl⟩
    · exact ⟨e.2.comment, rfl⟩

theorem resolve_jumps_same (all : List (Nat × Instr)) (prev : Option Instr) (instrs : List (Nat × Instr)) :
    List.Forall₂ SameEntry instrs (resolve_jumps all prev instrs) := by
  induction instrs generalizing prev with
  | nil => exact .nil
  | cons e es ih =>
    refine .cons ⟨rfl, ?_⟩ (ih (some e.2))
    dsimp only
    cases prev with
    | none => exact ⟨e.2.comment, rfl⟩
    | some prev =>
      dsimp only
      split
      · exact ⟨_, rfl⟩
      · exact ⟨e.2.comment, rfl⟩

theorem describes_of_same {code : Bytes} {l l' : List (Nat × Instr)} (h : List.Forall₂ SameEntry l l')
    (hl : ∀ k i, (k, i) ∈ l → Describes code k i) :
    l'.map Prod.fst = l.map Prod.fst ∧ ∀ k i, (k, i) ∈ l' → Describes code k i := by
  induction h with
  | nil => exact ⟨rfl, nofun⟩
  | @cons e e' es es' he _ ih =>
    obtain ⟨hkey, comment, hi⟩ := he
    obtain ⟨hkeys, hentries⟩ := ih fun k i hmem => hl k i (List.mem_cons_of_mem _ hmem)
    refine ⟨by simp [hkey, hkeys], ?_⟩
    intro k i hmem
    rcases List.mem_cons.1 hmem with heq | hmem
    · have hd := hl e.1 e.2 (by simp)
      cases heq
      simp only at hkey hi
      subst hkey hi
      exact ⟨hd.pc, hd.op, hd.raw_imm, hd.fits⟩
    · exact hentries k i hmem

/-- The disassembly has an entry for each position, and it is the one the code has there. -/
theorem dis_ok {prog : Bytes} {d : Disassembly} (h : dis prog = .ok d) :
    d.instrs.map Prod.fst = positions prog ∧ ∀ k i, (k, i) ∈ d.instrs → Describes prog k i := by
  unfold dis at h
  cases hd : dis_from prog prog.length 0 with
  | error e => simp [hd] at h
  | ok instrs =>
    rw [hd] at h
    cases h
    obtain ⟨hkeys, hentries⟩ := dis_from_ok hd
    obtain ⟨hk1, he1⟩ := describes_of_same (name_jump_dests_same instrs) hentries
    obtain ⟨hk2, he2⟩ := describes_of_same (resolve_jumps_same (name_jump_dests instrs) none (name_jump_dests instrs)) he1
    exact ⟨hk2.trans (hk1.trans hkeys), he2⟩

/-- The keys of the entries for `JUMPDEST`. -/
def jump_dest_keys (d : Disassembly) : List Nat :=
  (d.instrs.filter fun e => e.2.op.opcode = JUMPDEST).map Prod.fst

theorem getOp_opcode (b : UInt8) : (getOp b).opcode = b := by
  unfold getOp
  split <;> rfl

theorem jump_dest_keys_eq {prog : Bytes} {d : Disassembly} (h : dis prog = .ok d) :
    jump_dest_keys d = compute_jump_dests prog := by
  obtain ⟨hkeys, hentries⟩ := dis_ok h
  have hfilter : d.instrs.filter (fun e => e.2.op.opcode = JUMPDEST) =
      d.instrs.filter ((fun i => decide (prog.getD i 0 = JUMPDEST)) ∘ Prod.fst) := by
    refine List.filter_congr fun e he => ?_
    have hop := (hentries e.1 e.2 he).op
    rw [hop, getOp_opcode]
    rfl
  rw [jump_dest_keys, hfilter, ← List.filter_map, hkeys, compute_jump_dests_eq]

/-- The key after `pc`, or the end of the code. -/
def next_key (d : Disassembly) (prog : Bytes) (pc : Nat) : Nat :=
  ((d.instrs.map Prod.fst).find? fun k => pc < k).getD prog.length

/-- Where an instruction ends the next one starts. -/
theorem next_key_eq {prog : Bytes} {d : Disassembly} {pc : Nat} (h : dis prog = .ok d)
    (hpc : Sweep.Visits (width prog) pc ∧ pc < prog.length) : next_key d prog pc = pc + width prog pc := by
  obtain ⟨hkeys, hentries⟩ := dis_ok h
  have hmem : pc ∈ positions prog := mem_positions.2 hpc
  have hfits : pc + width prog pc ≤ prog.length := by
    rw [← hkeys, List.mem_map] at hmem
    obtain ⟨⟨k, i⟩, hk, rfl⟩ := hmem
    exact (hentries k i hk).fits
  rw [next_key, hkeys]
  unfold positions
  rw [Sweep.find_positions (width_pos prog) (Nat.le_add_left _ _) (mem_positions.2 hpc)]
  split
  · rfl
  · rw [Option.getD_none]
    omega

/-! ## Immediates -/

theorem immediate_eq {code : Bytes} {bytes pc : Nat} (h : pc + bytes ≤ code.length) (imm : Nat) :
    Op.immediate code bytes pc (BitVec.ofNat 256 imm) =
      BitVec.ofNat 256 (BigEndian.ofBytesFrom imm ((code.drop pc).take bytes)) := by
  induction bytes generalizing pc imm with
  | zero => rfl
  | succ bytes ih =>
    have hdrop : code.drop pc = code.getD pc 0 :: code.drop (pc + 1) := by
      rw [List.drop_eq_getElem_cons (by omega)]
      simp [List.getD, show pc < code.length by omega]
    have hstep : ((BitVec.ofNat 256 imm <<< 8) ||| BitVec.ofNat 256 (code.getD pc 0).toNat) =
        BitVec.ofNat 256 (imm * 256 + (code.getD pc 0).toNat) := by
      rw [shiftLeft_or _ (by omega) (code.getD pc 0).toNat_lt]
      apply BitVec.eq_of_toNat_eq
      simp only [BitVec.toNat_ofNat]
      omega
    rw [Op.immediate, hstep, ih (by omega), hdrop]
    rfl

/-- What `PUSHn` reads is the number its immediate spells. -/
theorem immediate_eq_from_big_endian {code : Bytes} {bytes pc : Nat} (h : pc + bytes ≤ code.length) :
    Op.immediate code bytes pc 0 = from_big_endian ((code.drop pc).take bytes) :=
  immediate_eq h 0

end Disassembler

end EEVM

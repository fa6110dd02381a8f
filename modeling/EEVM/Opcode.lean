import EEVM.Word
/-!
# Opcodes (opcode.h)

The families `PUSH1`..`PUSH32`, `DUP1`..`DUP16`, `SWAP1`..`SWAP16` and `LOG0`..`LOG4` are one constructor each;
the index counts from the first member, so `PUSH 0` is `PUSH1` and `LOG 0` is `LOG0`.
-/
namespace EEVM

inductive Opcode
  -- 0s: stop and arithmetic
  | STOP | ADD | MUL | SUB | DIV | SDIV | MOD | SMOD | ADDMOD | MULMOD | EXP | SIGNEXTEND
  -- 10s: comparison and bitwise logic
  | LT | GT | SLT | SGT | EQ | ISZERO | AND | OR | XOR | NOT | BYTE
  -- 20s: SHA3
  | SHA3
  -- 30s: environmental information
  | ADDRESS | BALANCE | ORIGIN | CALLER | CALLVALUE | CALLDATALOAD | CALLDATASIZE | CALLDATACOPY
  | CODESIZE | CODECOPY | GASPRICE | EXTCODESIZE | EXTCODECOPY
  -- 40s: block information
  | BLOCKHASH | COINBASE | TIMESTAMP | NUMBER | DIFFICULTY | GASLIMIT
  -- 50s: stack, memory, storage and flow
  | POP | MLOAD | MSTORE | MSTORE8 | SLOAD | SSTORE | JUMP | JUMPI | PC | MSIZE | GAS | JUMPDEST
  -- 60s to a0s: the families
  | PUSH (n : Fin 32) | DUP (n : Fin 16) | SWAP (n : Fin 16) | LOG (n : Fin 5)
  -- f0s: system operations
  | CREATE | CALL | CALLCODE | RETURN | DELEGATECALL | SELFDESTRUCT
deriving DecidableEq, Repr

namespace Opcode

def toByte : Opcode → UInt8
  | STOP => 0x00 | ADD => 0x01 | MUL => 0x02 | SUB => 0x03 | DIV => 0x04 | SDIV => 0x05 | MOD => 0x06
  | SMOD => 0x07 | ADDMOD => 0x08 | MULMOD => 0x09 | EXP => 0x0a | SIGNEXTEND => 0x0b
  | LT => 0x10 | GT => 0x11 | SLT => 0x12 | SGT => 0x13 | EQ => 0x14 | ISZERO => 0x15 | AND => 0x16
  | OR => 0x17 | XOR => 0x18 | NOT => 0x19 | BYTE => 0x1a
  | SHA3 => 0x20
  | ADDRESS => 0x30 | BALANCE => 0x31 | ORIGIN => 0x32 | CALLER => 0x33 | CALLVALUE => 0x34
  | CALLDATALOAD => 0x35 | CALLDATASIZE => 0x36 | CALLDATACOPY => 0x37 | CODESIZE => 0x38
  | CODECOPY => 0x39 | GASPRICE => 0x3a | EXTCODESIZE => 0x3b | EXTCODECOPY => 0x3c
  | BLOCKHASH => 0x40 | COINBASE => 0x41 | TIMESTAMP => 0x42 | NUMBER => 0x43 | DIFFICULTY => 0x44
  | GASLIMIT => 0x45
  | POP => 0x50 | MLOAD => 0x51 | MSTORE => 0x52 | MSTORE8 => 0x53 | SLOAD => 0x54 | SSTORE => 0x55
  | JUMP => 0x56 | JUMPI => 0x57 | PC => 0x58 | MSIZE => 0x59 | GAS => 0x5a | JUMPDEST => 0x5b
  | PUSH n => 0x60 + UInt8.ofNat n | DUP n => 0x80 + UInt8.ofNat n | SWAP n => 0x90 + UInt8.ofNat n
  | LOG n => 0xa0 + UInt8.ofNat n
  | CREATE => 0xf0 | CALL => 0xf1 | CALLCODE => 0xf2 | RETURN => 0xf3 | DELEGATECALL => 0xf4
  | SELFDESTRUCT => 0xff

/-- `static_cast<Opcode>(byte)`, as far as the byte is the value of an enumerator. -/
def ofByte (b : UInt8) : Option Opcode :=
  if h : 0x60 ≤ b.toNat ∧ b.toNat ≤ 0x7f then some (PUSH ⟨b.toNat - 0x60, by omega⟩)
  else if h : 0x80 ≤ b.toNat ∧ b.toNat ≤ 0x8f then some (DUP ⟨b.toNat - 0x80, by omega⟩)
  else if h : 0x90 ≤ b.toNat ∧ b.toNat ≤ 0x9f then some (SWAP ⟨b.toNat - 0x90, by omega⟩)
  else if h : 0xa0 ≤ b.toNat ∧ b.toNat ≤ 0xa4 then some (LOG ⟨b.toNat - 0xa0, by omega⟩)
  else match b.toNat with
    | 0x00 => some STOP | 0x01 => some ADD | 0x02 => some MUL | 0x03 => some SUB | 0x04 => some DIV
    | 0x05 => some SDIV | 0x06 => some MOD | 0x07 => some SMOD | 0x08 => some ADDMOD | 0x09 => some MULMOD
    | 0x0a => some EXP | 0x0b => some SIGNEXTEND
    | 0x10 => some LT | 0x11 => some GT | 0x12 => some SLT | 0x13 => some SGT | 0x14 => some EQ
    | 0x15 => some ISZERO | 0x16 => some AND | 0x17 => some OR | 0x18 => some XOR | 0x19 => some NOT
    | 0x1a => some BYTE
    | 0x20 => some SHA3
    | 0x30 => some ADDRESS | 0x31 => some BALANCE | 0x32 => some ORIGIN | 0x33 => some CALLER
    | 0x34 => some CALLVALUE | 0x35 => some CALLDATALOAD | 0x36 => some CALLDATASIZE
    | 0x37 => some CALLDATACOPY | 0x38 => some CODESIZE | 0x39 => some CODECOPY | 0x3a => some GASPRICE
    | 0x3b => some EXTCODESIZE | 0x3c => some EXTCODECOPY
    | 0x40 => some BLOCKHASH | 0x41 => some COINBASE | 0x42 => some TIMESTAMP | 0x43 => some NUMBER
    | 0x44 => some DIFFICULTY | 0x45 => some GASLIMIT
    | 0x50 => some POP | 0x51 => some MLOAD | 0x52 => some MSTORE | 0x53 => some MSTORE8
    | 0x54 => some SLOAD | 0x55 => some SSTORE | 0x56 => some JUMP | 0x57 => some JUMPI | 0x58 => some PC
    | 0x59 => some MSIZE | 0x5a => some GAS | 0x5b => some JUMPDEST
    | 0xf0 => some CREATE | 0xf1 => some CALL | 0xf2 => some CALLCODE | 0xf3 => some RETURN
    | 0xf4 => some DELEGATECALL | 0xff => some SELFDESTRUCT
    | _ => none

/-- The opcodes that may open a context. -/
def is_call : Opcode → Bool
  | CREATE | CALL | CALLCODE | DELEGATECALL => true
  | _ => false

/-- The opcodes that end a context when they succeed. -/
def ends_context : Opcode → Bool
  | RETURN | STOP | SELFDESTRUCT => true
  | _ => false

theorem is_call_iff {op : Opcode} :
    op.is_call = true ↔ op = CREATE ∨ op = CALL ∨ op = CALLCODE ∨ op = DELEGATECALL := by
  cases op <;> simp [is_call]

theorem ends_context_iff {op : Opcode} :
    op.ends_context = true ↔ op = RETURN ∨ op = STOP ∨ op = SELFDESTRUCT := by
  cases op <;> simp [ends_context]

end Opcode

theorem ofByte_toByte_of_lt : ∀ n : Fin 256,
    ((Opcode.ofByte (UInt8.ofNat n)).all fun op => op.toByte = UInt8.ofNat n) = true := by
  decide +kernel

/-- A byte that is an opcode is that opcode's byte. -/
theorem toByte_of_ofByte {b : UInt8} {op : Opcode} (h : Opcode.ofByte b = some op) : op.toByte = b := by
  have hb := ofByte_toByte_of_lt ⟨b.toNat, b.toNat_lt⟩
  simpa [h] using hb

end EEVM

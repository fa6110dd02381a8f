import EEVM.Context
/-!
# Instructions that work on the current context only (processor.cpp:680-1194)

Every member function of `_Processor` that touches nothing but `*ctxt`, under its own name. Those that pop one, two
or three words and push one that depends on these alone are `unary`, `binary` and `ternary`; those that only push are
`push_value`. intx's 256-bit operators are those of `BitVec 256`; a 512-bit intermediate is a `Nat`, whose value stays
below 2^512.
-/
namespace EEVM

namespace Op

variable {R : Type}

/-! ## Families -/

/-- The handlers that push one word about the context. -/
def push_value (f : Context R → Word) : CtxM R Unit := do
  let c ← get
  s_push (f c)

/-- One, two and three operands; the first is the one on top. -/
def unary (f : Word → Word) : CtxM R Unit := do
  let x ← s_pop
  s_push (f x)

def binary (f : Word → Word → Word) : CtxM R Unit := do
  let x ← s_pop
  let y ← s_pop
  s_push (f x y)

def ternary (f : Word → Word → Word → Word) : CtxM R Unit := do
  let x ← s_pop
  let y ← s_pop
  let m ← s_pop
  s_push (f x y m)

/-! ## Stack -/

/-- `Stack::swap` counts from 1 on. -/
def swap (n : Nat) : CtxM R Unit := onStack (Stack.swap (n + 1))
def dup (n : Nat) : CtxM R Unit := onStack (Stack.dup n)

def pop : CtxM R Unit := do
  let _ ← s_pop

/-- The big-endian loop over the immediate: `imm = (imm << 8) | code[pc++]`. -/
def immediate (code : Bytes) : Nat → Nat → Word → Word
  | 0, _, imm => imm
  | bytes + 1, pc, imm => immediate code bytes (pc + 1) ((imm <<< 8) ||| BitVec.ofNat 256 (code.getD pc 0).toNat)

/-- `PUSHn` with `n = bytes`. -/
def push (bytes : Nat) : CtxM R Unit := do
  let c ← get
  let last := c.pc + bytes
  if last < c.pc then
    throw_ex .outOfBounds ("Integer overflow in push (" ++ toString last ++ " < " ++ toString c.pc ++ ")")
  else if last ≥ c.prog.code.length then
    throw_ex .outOfBounds ("Push immediate exceeds size of program (" ++ toString last ++ " >= " ++
      toString c.prog.code.length ++ ")")
  else do
    let pc := c.pc + 1
    s_push (immediate c.prog.code bytes pc 0)
    modify (Context.set_pc (pc + bytes))

/-! ## Arithmetic -/

/-- The highest bit is the sign. -/
def get_sign (v : Word) : Int := if v >>> 255 ≠ 0 then -1 else 1

def add : CtxM R Unit := binary fun x y => x + y
def sub : CtxM R Unit := binary fun x y => x - y
def mul : CtxM R Unit := binary fun x y => x * y
def div : CtxM R Unit := binary fun x y => if y = 0 then 0 else x / y

/-- The quotient of the absolute values, with the sign that is due. -/
def sdiv : CtxM R Unit := binary fun x y =>
  let min := BitVec.allOnes 256 / 2 + 1
  if y = 0 then 0
  -- the literal `-1` is converted to `uint256_t` by intx
  else if x = min ∧ y = word_of_int (-1) then x
  else
    let signX := get_sign x
    let signY := get_sign y
    let x := if signX = -1 then 0 - x else x
    let y := if signY = -1 then 0 - y else y
    let z := x / y
    if signX ≠ signY then 0 - z else z

def mod : CtxM R Unit := binary fun x m => if m = 0 then 0 else x % m

/-- The remainder has the sign of `x`. -/
def smod : CtxM R Unit := binary fun x m =>
  if m = 0 then 0
  else
    let signX := get_sign x
    let signM := get_sign m
    let x := if signX = -1 then 0 - x else x
    let m := if signM = -1 then 0 - m else m
    let z := x % m
    if signX = -1 then 0 - z else z

/-- The sum is one of `uint512_t`. -/
def addmod : CtxM R Unit := ternary fun x y m =>
  if m = 0 then 0 else BitVec.ofNat 256 ((x.toNat + y.toNat) % m.toNat)

def mulmod : CtxM R Unit := ternary fun x y m =>
  if m = 0 then m else BitVec.ofNat 256 ((x.toNat * y.toNat) % m.toNat)

/-- The loop of `intx::exp` (`intx.hpp:678`), on an exponent of at most `bits` bits. -/
def intx_exp : Nat → Word → Word → Word → Word
  | 0, result, _, _ => result
  | bits + 1, result, base, exponent =>
    if exponent = 0 then result
    else intx_exp bits (if exponent &&& 1 ≠ 0 then result * base else result) (base * base) (exponent >>> 1)

/-- The exponent is popped as 64 bits. -/
def exp : CtxM R Unit := do
  let b ← s_pop
  let e ← s_pop64
  s_push (intx_exp 256 1 b (Word.ofUInt64 e))

/-- `shrink<uint8_t>` keeps the lowest byte of the index. -/
def signextend : CtxM R Unit := binary fun x y =>
  if x.toNat ≥ 32 then y
  else
    let idx := 8 * (x.toNat % 2 ^ 8) + 7
    let sign := (y >>> idx) &&& 1
    let mask := (~~~(0 : Word)) >>> (256 - idx)
    ((if sign ≠ 0 then ~~~(0 : Word) else 0) <<< idx) ||| (y &&& mask)

/-! ## Comparison and bitwise logic -/

def of_bool (b : Bool) : Word := if b then 1 else 0

def lt : CtxM R Unit := binary fun x y => of_bool (x < y)
def gt : CtxM R Unit := binary fun x y => of_bool (x > y)

/-- Where the signs are equal the order is that of unsigned words. -/
def slt : CtxM R Unit := binary fun x y =>
  if x = y then 0
  else
    let signX := get_sign x
    let signY := get_sign y
    if signX ≠ signY then (if signX = -1 then 1 else 0) else of_bool (x < y)

/-- `swap(1)` and `slt()`. -/
def sgt : CtxM R Unit := do
  onStack (Stack.swap 1)
  slt

def eq : CtxM R Unit := binary fun x y => if x = y then 1 else 0
def isZero : CtxM R Unit := unary fun x => if x = 0 then 1 else 0
def and_ : CtxM R Unit := binary fun x y => x &&& y
def or_ : CtxM R Unit := binary fun x y => x ||| y
def xor_ : CtxM R Unit := binary fun x y => x ^^^ y
def not_ : CtxM R Unit := unary fun x => ~~~x

/-- `BYTE` returns before it pops the value when the index is out of range. -/
def byte : CtxM R Unit := do
  let idx ← s_pop
  if idx.toNat ≥ 32 then s_push 0
  else do
    let shift := 256 - 8 - 8 * (idx.toNat % 2 ^ 8)
    let mask := (255 : Word) <<< shift
    let val ← s_pop
    s_push ((val &&& mask) >>> shift)

/-! ## Flow -/

def jump : CtxM R Unit := do
  let newPc ← s_pop64
  jump_to newPc

/-- The destination is popped as 64 bits before the condition is looked at. -/
def jumpi : CtxM R Unit := do
  let newPc ← s_pop64
  let cond ← s_pop
  if cond ≠ 0 then jump_to newPc else pure ()

def jumpdest : CtxM R Unit := pure ()

def pc : CtxM R Unit := push_value fun c => BitVec.ofNat 256 c.pc

/-! ## Memory and input -/

/-- In bytes, of whole words. -/
def msize : CtxM R Unit := push_value fun c => BitVec.ofNat 256 (c.get_used_mem * 32)

def mload : CtxM R Unit := do
  let offset ← s_pop64
  prepare_mem_access offset WORD_SIZE
  let c ← get
  s_push (from_big_endian ((c.mem.drop offset.toNat).take 32))

def mstore : CtxM R Unit := do
  let offset ← s_pop64
  let word ← s_pop
  prepare_mem_access offset WORD_SIZE
  modify fun c => { c with mem := overwrite c.mem offset.toNat (to_big_endian word) }

def mstore8 : CtxM R Unit := do
  let offset ← s_pop64
  let b := UInt8.ofNat (← s_pop).toNat
  prepare_mem_access offset 1
  modify fun c => { c with mem := c.mem.set offset.toNat b }

/-- `codecopy`, with what is done with the range as a parameter. -/
def codecopy_by (copy : UInt64 → UInt64 → UInt64 → Bytes → UInt8 → CtxM R Unit) : CtxM R Unit := do
  let c ← get
  copy_mem_by copy c.prog.code Opcode.STOP.toByte

def codecopy : CtxM R Unit := codecopy_by copy_to_mem

/-- The loop of `calldataload` with `n` bytes to go; past the end of the input it shifts once and stops. -/
def calldataload_loop (input : Bytes) (offset : Nat) : Nat → Word → Word
  | 0, v => v
  | n + 1, v =>
    let j := offset + (32 - (n + 1))
    if j < input.length then
      calldataload_loop input offset n ((v <<< 8) + BitVec.ofNat 256 (input.getD j 0).toNat)
    else v <<< (8 * (n + 1))

/-- `safeAdd` is called for its check; it throws no `eevm::Exception`. -/
def calldataload : CtxM R Unit := do
  let offset ← s_pop64
  let _ ← safeAdd offset WORD_SIZE
  let c ← get
  s_push (calldataload_loop c.input offset.toNat 32 0)

def calldatasize : CtxM R Unit := push_value fun c => BitVec.ofNat 256 c.input.length

/-- `calldatacopy`, with the same parameter. -/
def calldatacopy_by (copy : UInt64 → UInt64 → UInt64 → Bytes → UInt8 → CtxM R Unit) : CtxM R Unit := do
  let c ← get
  copy_mem_by copy c.input 0

def calldatacopy : CtxM R Unit := calldatacopy_by copy_to_mem

def caller : CtxM R Unit := push_value Context.caller
def callvalue : CtxM R Unit := push_value Context.call_value

/-- `keccak_256` is given the memory at `offset`; `size` is at most `MAX_MEM_SIZE`, so its bit length does not
overflow the `unsigned int` it is passed in. -/
def sha3_by [Keccak] (access : UInt64 → UInt64 → CtxM R Unit) : CtxM R Unit := do
  let offset ← s_pop64
  let size ← s_pop64
  access offset size
  let c ← get
  s_push (from_big_endian (keccak_256 ((c.mem.drop offset.toNat).take size.toNat)).toList)

def sha3 [Keccak] : CtxM R Unit := sha3_by prepare_mem_access

end Op

/-! ## The operands of the instructions that open a context -/

section

variable {R : Type}

/-- What `create` takes from the context: the value and the init code (`:1226-1229`). -/
def create_operands_by (access : UInt64 → UInt64 → CtxM R Unit) : CtxM R (Word × Bytes) := do
  let contractValue ← s_pop
  let offset ← s_pop64
  let size ← s_pop64
  let initCode ← copy_from_mem_by access offset size
  pure (contractValue, initCode)

abbrev create_operands : CtxM R (Word × Bytes) := create_operands_by prepare_mem_access

/-- The operands of the three calls. -/
structure CallOperands where
  addr : Address
  value : UInt64
  offIn : UInt64
  sizeIn : UInt64
  offOut : UInt64
  sizeOut : UInt64
deriving DecidableEq, Repr

/-- `op == DELEGATECALL ? 0 : ctxt->s.pop64()`. -/
def call_value_operand (op : Opcode) : CtxM R UInt64 := if op = .DELEGATECALL then pure 0 else s_pop64

/-- What `call` takes from the stack (`:1268-1274`); the gas limit is not used. -/
def call_operands (op : Opcode) : CtxM R CallOperands := do
  let _ ← s_pop
  let addr ← pop_addr
  let value ← call_value_operand op
  let offIn ← s_pop64
  let sizeIn ← s_pop64
  let offOut ← s_pop64
  let sizeOut ← s_pop64
  pure { addr, value, offIn, sizeIn, offOut, sizeOut }

end

end EEVM

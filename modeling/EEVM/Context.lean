import EEVM.GlobalState
import EEVM.Opcode
/-!
# Programs and contexts (processor.cpp:24-149, 289-394)

| here | there |
| --- | --- |
| `Program`, `compute_jump_dests` | `Program` (`:41`), its constructor and `compute_jump_dests` (`:51`) |
| `Context`, `Handlers` | `Context` (`:72`) and the closures `rh`, `hh`, `eh` it is given |
| `CtxM` | the code that works on one context through `ctxt->` |
| `copy_mem_raw`, `prepare_mem_access`, `copy_from_mem`, `jump_to` | `:289`, `:344`, `:363`, `:369` |

The three closures of a context are written down as what they capture: `run` (`:185-194`) captures the result of
`Processor::run`, `create` (`:1246-1251`) the new account, `call` (`:1296-1302`) the output window. Each of the last
two also captures `parentContext`, the context on top when the new one is pushed, hence the one right below it.
`create` captures its local `newAcc` by reference (`:1246`), which is gone when `rh` uses it. That is undefined behaviour:
`rh` sets the flag `dangling` of the processor, and goes on with the account that `newAcc` was.

The instructions that access a range of the memory of any size have the access as a parameter (`copy_mem_by`,
`copy_from_mem_by`), so that what they do with an empty range can be compared with what another access would do.

`pc` counts in `Nat`: it never passes `code.size()`. The 64-bit offsets and sizes of memory wrap around and are `UInt64`.
-/
namespace EEVM

def MAX_CALL_DEPTH : Nat := 1024
def WORD_SIZE : UInt64 := 32
def MAX_MEM_SIZE : UInt64 := 33554432

/-! ## Programs -/

def PUSH1 : UInt8 := 0x60
def PUSH32 : UInt8 := 0x7f
def JUMPDEST : UInt8 := 0x5b

/-- The loop of `compute_jump_dests`. Each turn moves `i` forward, so `code.size()` turns are enough. -/
def jump_dests_from (code : Bytes) : Nat → Nat → List Nat
  | 0, _ => []
  | turns + 1, i =>
    if h : i < code.length then
      let op := code[i]
      if op ≥ PUSH1 ∧ op ≤ PUSH32 then
        let immediate_bytes := op - PUSH1 + 1
        jump_dests_from code turns (i + immediate_bytes.toNat + 1)
      else if op = JUMPDEST then i :: jump_dests_from code turns (i + 1)
      else jump_dests_from code turns (i + 1)
    else []

def compute_jump_dests (code : Bytes) : List Nat := jump_dests_from code code.length 0

/-- A program carries the jump destinations of its code. -/
structure Program where
  code : Bytes
  jump_dests : List Nat
  jump_dests_eq : jump_dests = compute_jump_dests code

/-- `Program(vector<uint8_t>&& c)`. -/
def Program.ofCode (code : Bytes) : Program := ⟨code, compute_jump_dests code, rfl⟩

/-! ## Contexts -/

inductive Handlers (R : Type)
  | run
  | create (newAcc : R)
  | call (offOut sizeOut : UInt64)
deriving DecidableEq, Repr

structure Context (R : Type) where
  pc : Nat := 0
  pc_changed : Bool := true
  mem : Bytes := []
  s : Stack := []
  as : R
  caller : Address
  input : Bytes
  call_value : Word
  prog : Program
  handlers : Handlers R

namespace Context

variable {R : Type}

/-- Increment the pc if it was not changed before. -/
def step (c : Context R) : Context R :=
  if c.pc_changed then { c with pc_changed := false } else { c with pc := c.pc + 1 }

def set_pc (pc : Nat) (c : Context R) : Context R := { c with pc, pc_changed := true }

def pc_valid (c : Context R) : Bool := c.pc < c.prog.code.length

def get_used_mem (c : Context R) : Nat := (c.mem.length + 32 - 1) / 32

end Context

abbrev CtxM (R : Type) := EStateM Thrown (Context R)

section

variable {R α : Type}

/-- `ctxt->s.m`. -/
def onStack (m : StackM α) : CtxM R α := fun c =>
  match m c.s with
  | .ok a s => .ok a { c with s }
  | .error e s => .error e { c with s }

def s_pop : CtxM R Word := onStack Stack.pop
def s_pop64 : CtxM R UInt64 := onStack Stack.pop64
def s_push (val : Word) : CtxM R Unit := onStack (Stack.push val)

/-- `throw Exception(type, msg)`. -/
def throw_ex (type : ExceptionType) (msg : String) : CtxM R α := throw (.exception ⟨type, msg⟩)

def get_op : CtxM R UInt8 := do
  let c ← get
  pure (c.prog.code.getD c.pc 0)

/-- `pop_addr`: the low 160 bits of the top word. -/
def pop_addr : CtxM R Address := do
  let w ← s_pop
  let MASK_160 := ((1 : Word) <<< 160) - 1
  pure (w &&& MASK_160)

/-! ## Memory -/

/-- `v.resize(n)` when `n` is larger than `v.size()`. -/
def grow (v : Bytes) (n : Nat) : Bytes := v ++ List.replicate (n - v.length) 0

/-- `std::copy(bs.begin(), bs.end(), v.begin() + off)`. -/
def overwrite (v : Bytes) (off : Nat) (bs : Bytes) : Bytes := v.take off ++ bs ++ v.drop (off + bs.length)

def copy_mem_raw (offDst offSrc size : UInt64) (dst src : Bytes) (pad : UInt8) : Except Exception Bytes :=
  if size = 0 then .ok dst
  else
    let lastDst := offDst + size
    if lastDst < offDst then .error ⟨.outOfBounds,
      "Integer overflow in copy_mem (" ++ toString lastDst ++ " < " ++ toString offDst ++ ")"⟩
    else if lastDst > MAX_MEM_SIZE then .error ⟨.outOfBounds,
      "Memory limit exceeded (" ++ toString lastDst ++ " > " ++ toString MAX_MEM_SIZE ++ ")"⟩
    else
      let dst := if lastDst.toNat > dst.length then grow dst lastDst.toNat else dst
      let lastSrc := offSrc + size
      let endSrc := min lastSrc (UInt64.ofNat src.length)
      if endSrc > offSrc then
        let chunk := (src.take endSrc.toNat).drop offSrc.toNat
        let remaining := lastSrc - endSrc
        .ok (overwrite (overwrite dst offDst.toNat chunk) (lastDst - remaining).toNat
          (List.replicate remaining.toNat pad))
      else
        let remaining := size
        .ok (overwrite dst (lastDst - remaining).toNat (List.replicate remaining.toNat pad))

/-- `copy_mem_raw` into the memory of the context. -/
def copy_to_mem (offDst offSrc size : UInt64) (src : Bytes) (pad : UInt8) : CtxM R Unit := fun c =>
  match copy_mem_raw offDst offSrc size c.mem src pad with
  | .ok mem => .ok () { c with mem }
  | .error ex => .error (.exception ex) c

/-- `copy_mem`, with what does the copying as a parameter. -/
def copy_mem_by (copy : UInt64 → UInt64 → UInt64 → Bytes → UInt8 → CtxM R Unit) (src : Bytes) (pad : UInt8) :
    CtxM R Unit := do
  let offDst ← s_pop64
  let offSrc ← s_pop64
  let size ← s_pop64
  copy offDst offSrc size src pad

/-- `copy_mem(ctxt->mem, src, pad)`. -/
abbrev copy_mem (src : Bytes) (pad : UInt8) : CtxM R Unit := copy_mem_by copy_to_mem src pad

def prepare_mem_access (offset size : UInt64) : CtxM R Unit :=
  let last := offset + size
  if last < offset then throw_ex .outOfBounds
    ("Integer overflow in memory access (" ++ toString last ++ " < " ++ toString offset ++ ")")
  else if last > MAX_MEM_SIZE then throw_ex .outOfBounds
    ("Memory limit exceeded (" ++ toString last ++ " > " ++ toString MAX_MEM_SIZE ++ ")")
  else modify fun c => if last.toNat > c.mem.length then { c with mem := grow c.mem last.toNat } else c

/-- `copy_from_mem`, with the access to the memory as a parameter. -/
def copy_from_mem_by (access : UInt64 → UInt64 → CtxM R Unit) (offset size : UInt64) : CtxM R Bytes := do
  access offset size
  let c ← get
  pure ((c.mem.drop offset.toNat).take size.toNat)

abbrev copy_from_mem (offset size : UInt64) : CtxM R Bytes := copy_from_mem_by prepare_mem_access offset size

/-! ## Jumps and checked addition -/

def jump_to (newPc : UInt64) : CtxM R Unit := do
  let c ← get
  if newPc.toNat ∉ c.prog.jump_dests then
    throw_ex .illegalInstruction (toString newPc ++ " is not a jump destination")
  else modify (Context.set_pc newPc.toNat)

/-- `safeAdd`: its exception is no `eevm::Exception`. -/
def safeAdd (x y : UInt64) : CtxM R UInt64 :=
  let r := x + y
  if r < x then throw (.overflow_error "integer overflow") else pure r

end

end EEVM

import EEVM.Instructions
import EEVM.Lib.Loop
import EEVM.Rlp.Encode
/-!
# The processor (processor.cpp:154-1357)

| here | there |
| --- | --- |
| `Processor` | the fields of `_Processor` (`:157-166`) and the `result` of `run` (`:184`); `ctxts` has the back of the vector first, so `ctxt` is its head |
| `onCtxtAt` | an access through a pointer to a context: `ctxt->`, or `parentContext->` in a handler |
| `rh`, `hh`, `eh` | the bodies of the closures in `run`, `create` and `call` |
| `dispatch`, `exec` | `dispatch` (`:396`) and its switch |
| `iterate`, `run` | one turn of the loop of `run` (`:207-226`), and `run` (`:177`) |

`invoked` and `dangling` are observations of the model. `invoked` has which handler of the context at which depth has
been called, latest first. `dangling` is set when the return handler of `create` uses its reference to `newAcc`, a local
variable of a call of `create` that has returned by then (`:1239`, `:1246`). The behaviour of the source is undefined from
there on; the model goes on as if the reference still stood for the account.
-/
namespace EEVM

structure TraceEvent where
  pc : Nat
  op : UInt8
  call_depth : Nat
  s : Stack

inductive HandlerKind
  | rh | hh | eh
deriving DecidableEq, Repr

structure Processor (W R : Type) where
  gs : W
  tx : Transaction
  tr : Option (List TraceEvent) := none
  ctxts : List (Context R) := []
  result : ExecResult := {}
  invoked : List (Nat × HandlerKind) := []
  dangling : Bool := false

abbrev M (W R : Type) := EStateM Thrown (Processor W R)

namespace Processor

variable {W R α : Type}

/-- Runs `m` on the context `k` places below the top one. -/
def onCtxtAt (k : Nat) (m : CtxM R α) : M W R α := fun p =>
  match p.ctxts[k]? with
  | none => .error .null_ctxt p
  | some c => match m c with
    | .ok a c => .ok a { p with ctxts := p.ctxts.set k c }
    | .error e c => .error e { p with ctxts := p.ctxts.set k c }

/-- `ctxt->`. -/
def onCtxt (m : CtxM R α) : M W R α := onCtxtAt 0 m

def ctxt : M W R (Context R) := onCtxt get

/-- `static_cast<uint16_t>(ctxts.size())`. -/
def get_call_depth (p : Processor W R) : Nat := p.ctxts.length % 2 ^ 16

def push_context (c : Context R) : M W R Unit := do
  let p ← get
  if p.get_call_depth ≥ MAX_CALL_DEPTH then
    throw (.exception ⟨.outOfBounds, "Reached max call depth (" ++ toString MAX_CALL_DEPTH ++ ")"⟩)
  else modify fun p => { p with ctxts := c :: p.ctxts }

def pop_context : M W R Unit := modify fun p => { p with ctxts := p.ctxts.tail }

section

variable [GlobalState W R]

/-- `gs.get(addr)`. -/
def gs_get (addr : Address) : M W R R := fun p =>
  let (acc, gs) := GlobalState.get addr p.gs
  .ok acc { p with gs }

/-- `gs.create(addr, balance, code)`. -/
def gs_create (addr : Address) (balance : Word) (code : Code) : M W R R := fun p =>
  let (acc, gs) := GlobalState.create addr balance code p.gs
  .ok acc { p with gs }

/-- A method of an account or its storage that changes it. -/
def update (f : W → W) : M W R Unit := modify fun p => { p with gs := f p.gs }

/-- `Account::pay_to`. -/
def pay_to (this other : R) (amount : Word) : M W R Unit := do
  let p ← get
  let this_balance := get_balance this p.gs
  if amount > this_balance then
    throw (.exception ⟨.outOfFunds, "Insufficient funds to pay " ++ to_hex_string amount ++ " to " ++
      to_hex_string (get_address other p.gs) ++ " (from " ++ to_hex_string (get_address this p.gs) ++
      ", current balance " ++ to_hex_string this_balance ++ ")"⟩)
  else
    let other_balance := get_balance other p.gs
    let proposed_balance := other_balance + amount
    if proposed_balance < other_balance then
      throw (.exception ⟨.overflow, "Overflow while attempting to pay " ++ to_hex_string amount ++ " to " ++
        to_hex_string (get_address other p.gs) ++ " (current balance " ++ to_hex_string other_balance ++
        ") from " ++ to_hex_string (get_address this p.gs)⟩)
    else do
      update (set_balance this (this_balance - amount))
      update (set_balance other proposed_balance)

/-! ## Handlers -/

/-- Notes that a handler of the context right above the one at `parent` is called. -/
def invoke (kind : HandlerKind) (parent : Nat) : M W R Unit :=
  modify fun p => { p with invoked := (p.ctxts.length + 1 - parent, kind) :: p.invoked }

/-- `rh(output)`, where `parentContext` is at `parent`. -/
def rh (h : Handlers R) (parent : Nat) (output : Bytes) : M W R Unit := do
  invoke .rh parent
  match h with
  | .run => modify fun p => { p with result := { p.result with er := .returned, output } }
  | .create newAcc => do
    modify fun p => { p with dangling := true }
    update (set_code newAcc output)
    let p ← get
    onCtxtAt parent (s_push (get_address newAcc p.gs))
  | .call offOut sizeOut => onCtxtAt parent (do
    copy_to_mem offOut 0 sizeOut output 0
    s_push 1)

/-- `hh()`. -/
def hh (h : Handlers R) (parent : Nat) : M W R Unit := do
  invoke .hh parent
  match h with
  | .run => modify fun p => { p with result := { p.result with er := .halted } }
  | .create _ => onCtxtAt parent (s_push 0)
  | .call _ _ => onCtxtAt parent (s_push 1)

/-- `eh(ex)`. -/
def eh (h : Handlers R) (parent : Nat) (ex : Exception) : M W R Unit := do
  invoke .eh parent
  match h with
  | .run => modify fun p => { p with result := { p.result with er := .threw, ex := ex.type, exmsg := ex.msg } }
  | .create _ => onCtxtAt parent (s_push 0)
  | .call _ _ => onCtxtAt parent (s_push 0)

/-! ## Ending a context -/

/-- `ctxt->rh(output); pop_context()`. -/
def returning (output : Bytes) : M W R Unit := do
  let c ← ctxt
  rh c.handlers 1 output
  pop_context

def return_by (access : UInt64 → UInt64 → CtxM R Unit) : M W R Unit := do
  let offset ← onCtxt s_pop64
  let size ← onCtxt s_pop64
  let output ← onCtxt (copy_from_mem_by access offset size)
  returning output

def return_ : M W R Unit := return_by prepare_mem_access

def stop : M W R Unit := do
  let c ← ctxt
  pop_context
  hh c.handlers 0

def selfdestruct : M W R Unit := do
  let addr ← onCtxt pop_addr
  let recipient ← gs_get addr
  let c ← ctxt
  let p ← get
  pay_to c.as recipient (get_balance c.as p.gs)
  let p ← get
  modify fun q => { q with
    tx := { q.tx with selfdestruct_list := q.tx.selfdestruct_list ++ [get_address c.as p.gs] } }
  stop

/-! ## Opening a context -/

/-- `generate_address` (`util.cpp:47`): the last 20 bytes of the hash of `rlp::encode(sender, nonce)`. -/
def generate_address [Keccak] (sender : Address) (nonce : UInt64) : Address :=
  let rlp_encoding := Rlp.encode_args [.u256, .uint .w64] (sender, nonce, ())
  from_big_endian ((keccak_256 rlp_encoding).toList.drop 12)

/-- `create`, with the access to the memory as a parameter. -/
def create_by [Keccak] (access : UInt64 → UInt64 → CtxM R Unit) : M W R Unit := do
  let (contractValue, initCode) ← onCtxt (create_operands_by access)
  let c ← ctxt
  let p ← get
  let newAddress := generate_address (get_address c.as p.gs) (get_nonce c.as p.gs)
  -- the nonce is not incremented (`:1234-1237`)
  let newAcc ← gs_create newAddress contractValue []
  pay_to c.as newAcc contractValue
  let p ← get
  push_context
    { caller := get_address c.as p.gs, as := newAcc, input := [], prog := Program.ofCode initCode, call_value := 0,
      handlers := .create newAcc }

def create [Keccak] : M W R Unit := create_by prepare_mem_access

/-- `call`, with the access to the memory as a parameter. -/
def call_by (access : UInt64 → UInt64 → CtxM R Unit) (op : Opcode) : M W R Unit := do
  let { addr, value, offIn, sizeIn, offOut, sizeOut } ← onCtxt (call_operands op)
  if addr ≥ 1 ∧ addr ≤ 8 then
    throw (.exception ⟨.notImplemented, "Precompiled contracts/native extensions are not implemented."⟩)
  else do
    let callee ← gs_get addr
    let c ← ctxt
    pay_to c.as callee (Word.ofUInt64 value)
    let p ← get
    if !has_code callee p.gs then onCtxt (s_push 1)
    else do
      onCtxt (access offOut sizeOut)
      let input ← onCtxt (copy_from_mem_by access offIn sizeIn)
      let prog := Program.ofCode (get_code callee p.gs)
      match op with
      | .CALL =>
        push_context {
          caller := get_address c.as p.gs, as := callee, input, prog, call_value := Word.ofUInt64 value
          handlers := .call offOut sizeOut }
      | .CALLCODE =>
        push_context {
          caller := get_address c.as p.gs, as := c.as, input, prog, call_value := Word.ofUInt64 value
          handlers := .call offOut sizeOut }
      | .DELEGATECALL =>
        push_context {
          caller := c.caller, as := c.as, input, prog, call_value := c.call_value
          handlers := .call offOut sizeOut }
      | _ => throw (.unexpected_state "Unknown call opcode.")

def call (op : Opcode) : M W R Unit := call_by prepare_mem_access op

/-! ## Instructions that read or change the world -/

def sload : M W R Unit := do
  let k ← onCtxt s_pop
  let c ← ctxt
  let p ← get
  onCtxt (s_push (GlobalState.load c.as k p.gs))

def sstore : M W R Unit := do
  let k ← onCtxt s_pop
  let v ← onCtxt s_pop
  let c ← ctxt
  if v = 0 then update (GlobalState.remove_key c.as k) else update (GlobalState.store c.as k v)

/-- The instructions that look an account up and push a field of it. -/
def push_account (f : R → W → Word) : M W R Unit := do
  let addr ← onCtxt pop_addr
  let acc ← gs_get addr
  let p ← get
  onCtxt (s_push (f acc p.gs))

def extcodesize : M W R Unit := push_account fun acc gs => BitVec.ofNat 256 (get_code acc gs).length
def balance : M W R Unit := push_account get_balance

def extcodecopy_by (copy : UInt64 → UInt64 → UInt64 → Bytes → UInt8 → CtxM R Unit) : M W R Unit := do
  let addr ← onCtxt pop_addr
  let acc ← gs_get addr
  let p ← get
  onCtxt (copy_mem_by copy (get_code acc p.gs) Opcode.STOP.toByte)

def extcodecopy : M W R Unit := extcodecopy_by copy_to_mem

/-- The instructions that push a field of the current account, of the transaction or of the block. -/
def push_env (f : Context R → W → Transaction → Word) : M W R Unit := do
  let c ← ctxt
  let p ← get
  onCtxt (s_push (f c p.gs p.tx))

def codesize : M W R Unit := push_env fun c gs _ => BitVec.ofNat 256 (get_code c.as gs).length
def address : M W R Unit := push_env fun c gs _ => get_address c.as gs
def origin : M W R Unit := push_env fun _ _ tx => tx.origin
def gasprice : M W R Unit := push_env fun _ _ tx => Word.ofUInt64 tx.gas_price
def gas : M W R Unit := push_env fun _ _ tx => Word.ofUInt64 tx.gas_limit
def number : M W R Unit := push_env fun _ gs _ => Word.ofUInt64 (get_current_block gs).number
def coinbase : M W R Unit := push_env fun _ gs _ => (get_current_block gs).coinbase
def timestamp : M W R Unit := push_env fun _ gs _ => Word.ofUInt64 (get_current_block gs).timestamp
def difficulty : M W R Unit := push_env fun _ gs _ => Word.ofUInt64 (get_current_block gs).difficulty
def gaslimit : M W R Unit := push_env fun _ gs _ => Word.ofUInt64 (get_current_block gs).gas_limit

def blockhash : M W R Unit := do
  let i ← onCtxt s_pop64
  let p ← get
  if i ≥ 256 then onCtxt (s_push 0) else onCtxt (s_push (get_block_hash (i % 256).toUInt8 p.gs))

def pop_topics : Nat → M W R (List Word)
  | 0 => pure []
  | n + 1 => do
    let topic ← onCtxt s_pop
    let topics ← pop_topics n
    pure (topic :: topics)

def log_by (access : UInt64 → UInt64 → CtxM R Unit) (n : Nat) : M W R Unit := do
  let offset ← onCtxt s_pop64
  let size ← onCtxt s_pop64
  let topics ← pop_topics n
  let c ← ctxt
  let p ← get
  let data ← onCtxt (copy_from_mem_by access offset size)
  modify fun q => { q with
    tx := { q.tx with logs := q.tx.logs ++ [{ address := get_address c.as p.gs, data, topics }] } }

/-- `LOGn`. -/
def log (n : Nat) : M W R Unit := log_by prepare_mem_access n

/-! ## Dispatch -/

/-- The default branch of the switch (`:661-676`). -/
def unknown_opcode [Keccak] (op : UInt8) : M W R Unit := do
  let c ← ctxt
  let p ← get
  throw (.exception ⟨.illegalInstruction,
    "Unknown/unsupported Opcode: 0x" ++ String.ofList (zero_fill 2 (hex op.toNat)) ++ "\n" ++
    " in contract " ++ String.ofList (to_checksum_address (get_address c.as p.gs)) ++ "\n" ++
    " called by " ++ String.ofList (to_checksum_address c.caller) ++ "\n" ++
    " at position " ++ toString c.pc ++ ", call-depth " ++ toString p.get_call_depth ++ "\n"⟩)

/-- The switch of `dispatch`. -/
def exec [Keccak] : Opcode → M W R Unit
  | .PUSH n => onCtxt (Op.push (n + 1))
  | .POP => onCtxt Op.pop
  | .SWAP n => onCtxt (Op.swap n)
  | .DUP n => onCtxt (Op.dup n)
  | .LOG n => log n
  | .ADD => onCtxt Op.add
  | .MUL => onCtxt Op.mul
  | .SUB => onCtxt Op.sub
  | .DIV => onCtxt Op.div
  | .SDIV => onCtxt Op.sdiv
  | .MOD => onCtxt Op.mod
  | .SMOD => onCtxt Op.smod
  | .ADDMOD => onCtxt Op.addmod
  | .MULMOD => onCtxt Op.mulmod
  | .EXP => onCtxt Op.exp
  | .SIGNEXTEND => onCtxt Op.signextend
  | .LT => onCtxt Op.lt
  | .GT => onCtxt Op.gt
  | .SLT => onCtxt Op.slt
  | .SGT => onCtxt Op.sgt
  | .EQ => onCtxt Op.eq
  | .ISZERO => onCtxt Op.isZero
  | .AND => onCtxt Op.and_
  | .OR => onCtxt Op.or_
  | .XOR => onCtxt Op.xor_
  | .NOT => onCtxt Op.not_
  | .BYTE => onCtxt Op.byte
  | .JUMP => onCtxt Op.jump
  | .JUMPI => onCtxt Op.jumpi
  | .PC => onCtxt Op.pc
  | .MSIZE => onCtxt Op.msize
  | .MLOAD => onCtxt Op.mload
  | .MSTORE => onCtxt Op.mstore
  | .MSTORE8 => onCtxt Op.mstore8
  | .CODESIZE => codesize
  | .CODECOPY => onCtxt Op.codecopy
  | .EXTCODESIZE => extcodesize
  | .EXTCODECOPY => extcodecopy
  | .SLOAD => sload
  | .SSTORE => sstore
  | .ADDRESS => address
  | .BALANCE => balance
  | .ORIGIN => origin
  | .CALLER => onCtxt Op.caller
  | .CALLVALUE => onCtxt Op.callvalue
  | .CALLDATALOAD => onCtxt Op.calldataload
  | .CALLDATASIZE => onCtxt Op.calldatasize
  | .CALLDATACOPY => onCtxt Op.calldatacopy
  | .RETURN => return_
  | .SELFDESTRUCT => selfdestruct
  | .CREATE => create
  | .CALL => call .CALL
  | .CALLCODE => call .CALLCODE
  | .DELEGATECALL => call .DELEGATECALL
  | .JUMPDEST => onCtxt Op.jumpdest
  | .BLOCKHASH => blockhash
  | .NUMBER => number
  | .GASPRICE => gasprice
  | .COINBASE => coinbase
  | .TIMESTAMP => timestamp
  | .DIFFICULTY => difficulty
  | .GASLIMIT => gaslimit
  | .GAS => gas
  | .SHA3 => onCtxt Op.sha3
  | .STOP => stop

/-- `tr->add(...)`, if there is a trace. -/
def trace_add (op : UInt8) : M W R Unit := do
  let c ← ctxt
  modify fun p => { p with
    tr := p.tr.map (· ++ [{ pc := c.pc, op, call_depth := p.get_call_depth, s := c.s }]) }

def dispatch [Keccak] : M W R Unit := do
  let op ← onCtxt get_op
  trace_add op
  match Opcode.ofByte op with
  | some op => exec op
  | none => unknown_opcode op

/-! ## The loop of `run` -/

/-- How a turn of `run`'s loop comes out: another turn, or out of it, by its guard or by an exception. -/
abbrev Turn (W R : Type) := Loop.Turn (Processor W R) (EStateM.Result Thrown (Processor W R) Unit)

/-- The end of a turn: break if there is no context left, else `ctxt->step()`. -/
def step_or_break (p : Processor W R) : Turn W R :=
  match p.ctxts with
  | [] => .exit (.ok () p)
  | c :: cs => .next { p with ctxts := c.step :: cs }

/-- The catch block: `ctxt->eh(ex); pop_context()`. -/
def catch_exception (ex : Exception) : M W R Unit := do
  let c ← ctxt
  eh c.handlers 1 ex
  pop_context

/-- The try block, given how `dispatch` came out, and what follows it in the loop. -/
def after_dispatch : EStateM.Result Thrown (Processor W R) Unit → Turn W R
  | .ok _ p => step_or_break p
  | .error (.exception ex) p => match catch_exception ex p with
    | .ok _ p => step_or_break p
    | .error e p => .exit (.error e p)
  | .error e p => .exit (.error e p)

/-- One turn of the loop. When the guard fails the context is halted by `stop()`, outside the try block. -/
def iterate [Keccak] (p : Processor W R) : Turn W R :=
  match p.ctxts with
  | [] => .exit (.ok () p)
  | c :: _ => if c.pc_valid then after_dispatch (dispatch p) else .exit (stop p)

/-- The state in which `run` enters its loop; its `push_context` cannot fail. -/
def start (gs : W) (tx : Transaction) (tr : Option (List TraceEvent)) (caller : Address) (callee : R) (input : Bytes)
    (call_value : Word) : Processor W R :=
  let prog := Program.ofCode (get_code callee gs)
  { gs, tx, tr, ctxts := [{ caller, as := callee, input, call_value, prog, handlers := .run }] }

/-- The clean-up loop. -/
def clean_up (p : Processor W R) : W := p.tx.selfdestruct_list.foldl (fun gs addr => GlobalState.remove addr gs) p.gs

/-- How a call of `Processor::run` ends: with its result and the state and transaction it leaves, or with what
escapes from it. -/
inductive Outcome (W : Type)
  | returns (result : ExecResult) (gs : W) (tx : Transaction)
  | throws (e : Thrown) (gs : W) (tx : Transaction)

/-- The world a call of `Processor::run` leaves. -/
def Outcome.gs : Outcome W → W
  | .returns _ gs _ | .throws _ gs _ => gs

/-- What follows the loop, once its guard or a `break` has left it. -/
def finish : EStateM.Result Thrown (Processor W R) Unit → Outcome W
  | .ok _ p => .returns p.result p.clean_up p.tx
  | .error e p => .throws e p.gs p.tx

/-- `Processor::run`, in at most `fuel` turns of its loop. -/
def run [Keccak] (fuel : Nat) (gs : W) (tx : Transaction) (caller : Address) (callee : R) (input : Bytes)
    (call_value : Word) (tr : Option (List TraceEvent)) : Option (Outcome W) :=
  (Loop.run iterate fuel (start gs tx tr caller callee input call_value)).map finish

/-- With enough turns `run` comes out as its loop ends. -/
theorem exists_run_iff [Keccak] {gs : W} {tx : Transaction} {caller : Address} {callee : R} {input : Bytes}
    {call_value : Word} {tr : Option (List TraceEvent)} {o : Outcome W} :
    (∃ fuel, run fuel gs tx caller callee input call_value tr = some o) ↔
      ∃ r, Loop.Ends iterate (start gs tx tr caller callee input call_value) r ∧ finish r = o := by
  simp only [run, Option.map_eq_some_iff, Loop.ends_iff_run]
  constructor
  · rintro ⟨fuel, r, hr, ho⟩
    exact ⟨r, ⟨fuel, hr⟩, ho⟩
  · rintro ⟨r, ⟨fuel, hr⟩, ho⟩
    exact ⟨fuel, r, hr, ho⟩

end

end Processor

end EEVM

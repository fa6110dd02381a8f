import EEVM.Word
import EEVM.Lib.ExcState
/-!
# Exceptions and the stack (exception.h, stack.h, stack.cpp)

`Thrown` lists what C++ code under `Processor::run` throws: `eevm::Exception`, the `std::overflow_error` of
`safeAdd` (`processor.cpp:386`) and `UnexpectedState` (`:1340`). `null_ctxt` stands for a use of `ctxt` when it is
`nullptr`, which is undefined behaviour.
-/
namespace EEVM

inductive ExceptionType
  | outOfBounds | outOfGas | outOfFunds | overflow | illegalInstruction | notImplemented
deriving DecidableEq, Repr

/-- `eevm::Exception`. -/
structure Exception where
  type : ExceptionType
  msg : String
deriving DecidableEq, Repr

inductive Thrown
  | exception (ex : Exception)
  | overflow_error (what : String)
  | unexpected_state (what : String)
  | null_ctxt
deriving DecidableEq, Repr

/-- `Stack::st`, the front of the deque first. -/
abbrev Stack := List Word

abbrev StackM := EStateM Thrown Stack

namespace Stack

def MAX_SIZE : Nat := 1024

def pop : StackM Word := fun st =>
  match st with
  | [] => .error (.exception ⟨.outOfBounds, "Stack out of range"⟩) st
  | val :: st => .ok val st

def pop64 : StackM UInt64 := do
  let val ← pop
  if val > UINT64_MAX then
    throw (.exception ⟨.outOfBounds, "Value on stack (" ++ to_hex_string val ++ ") is larger than 2^64"⟩)
  else pure val.toUInt64

def push (val : Word) : StackM Unit := fun st =>
  if st.length = MAX_SIZE then
    .error (.exception ⟨.outOfBounds,
      "Stack mem exceeded (" ++ toString st.length ++ " == " ++ toString MAX_SIZE ++ ")"⟩) st
  else .ok () (val :: st)

def swap (i : Nat) : StackM Unit := fun st =>
  if i ≥ st.length then
    .error (.exception ⟨.outOfBounds,
      "Swap out of range (" ++ toString i ++ " >= " ++ toString st.length ++ ")"⟩) st
  else .ok () ((st.set 0 (st.getD i 0)).set i (st.getD 0 0))

/-- `dup` pushes on the deque directly, without the size check of `push`. -/
def dup (a : Nat) : StackM Unit := fun st =>
  if a ≥ st.length then
    .error (.exception ⟨.outOfBounds,
      "Dup out of range (" ++ toString a ++ " >= " ++ toString st.length ++ ")"⟩) st
  else .ok () (st.getD a 0 :: st)

end Stack

end EEVM

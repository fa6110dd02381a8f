import EEVM.Stack
/-!
# The world a processor runs on (globalstate.h, account.h, storage.h, block.h, transaction.h)

`GlobalState W R` is the interface an implementation of the virtual classes offers over its own state `W`. An
`AccountState` is a pair of references into that state and is a value of `R`; a method call through a reference
reads or updates `W`. `pay_to` and `has_code` are the default implementations of `Account`, which nothing in the
repository overrides (`SimpleAccount::has_code` repeats the default).
-/
namespace EEVM

structure Block where
  number : UInt64 := 0
  difficulty : UInt64 := 0
  gas_limit : UInt64 := 0
  timestamp : UInt64 := 0
  coinbase : Word := 0
deriving DecidableEq, Repr

class GlobalState (W : Type) (R : outParam Type) where
  -- GlobalState
  remove : Address → W → W
  get : Address → W → R × W
  create : Address → Word → Code → W → R × W
  get_current_block : W → Block
  get_block_hash : UInt8 → W → Word
  -- Account
  get_address : R → W → Address
  get_balance : R → W → Word
  set_balance : R → Word → W → W
  get_nonce : R → W → UInt64
  get_code : R → W → Code
  set_code : R → Code → W → W
  -- Storage
  store : R → Word → Word → W → W
  load : R → Word → W → Word
  remove_key : R → Word → W → W

export GlobalState (get_address get_balance set_balance get_nonce get_code set_code get_current_block get_block_hash)

/-- `Account::has_code`. -/
def has_code {W R : Type} [GlobalState W R] (acc : R) (gs : W) : Bool := !(get_code acc gs).isEmpty

/-- `LogEntry` (`transaction.h:19`). -/
structure LogEntry where
  address : Address
  data : Bytes
  topics : List Word
deriving DecidableEq, Repr

/-- `Transaction` (`transaction.h:57`). `logs` are the entries its `log_handler` has been given, in order. -/
structure Transaction where
  origin : Address
  value : UInt64 := 0
  gas_price : UInt64 := 0
  gas_limit : UInt64 := 0
  logs : List LogEntry := []
  selfdestruct_list : List Address := []
deriving DecidableEq, Repr

inductive ExitReason
  | returned | halted | threw
deriving DecidableEq, Repr

/-- `ExecResult` (`processor.h:23`); the defaults are the zero enumerators. -/
structure ExecResult where
  er : ExitReason := .returned
  ex : ExceptionType := .outOfBounds
  exmsg : String := ""
  output : Bytes := []
deriving DecidableEq, Repr

end EEVM

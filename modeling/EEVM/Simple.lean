import EEVM.GlobalState
import EEVM.Lib.MapSum
/-!
# The simple implementation (simple/simpleaccount.h, simplestorage.h, simpleglobalstate.h)

| here | there |
| --- | --- |
| `SimpleAccount`, `SimpleStorage` | `simpleaccount.h:14`, `simplestorage.h:16` |
| `SimpleGlobalState` | `simpleglobalstate.h:15` |
| `insert`, `get`, `create`, `remove` | `simpleglobalstate.cpp:54`, `:13`, `:22`, `:8` |

A reference to an account is the key of its entry: the entries of a `std::map` stay where they are until they are
erased, and entries are erased only after the loop of `run`. `insert` ends in `assert(ib.second)`: a debug build
stops the program where the assertion fails, a release build goes on with the entry that was there.
`assert_failed` records that it has failed.
-/
namespace EEVM

open Std

structure SimpleAccount where
  address : Address := 0
  balance : Word := 0
  code : Code := []
  nonce : UInt64 := 0
deriving DecidableEq, Repr

/-- The order of the keys of a `std::map`. -/
instance instTransOrdWord : TransOrd Word := BitVec.instTransOrd

/-- `s`, the map from keys to values. -/
abbrev SimpleStorage := ExtTreeMap Word Word

namespace SimpleStorage

def store (key value : Word) (s : SimpleStorage) : SimpleStorage := s.insert key value
def load (key : Word) (s : SimpleStorage) : Word := s[key]?.getD 0
def exists_key (key : Word) (s : SimpleStorage) : Bool := s.contains key
/-- The `bool` that `remove` returns is used nowhere. -/
def remove (key : Word) (s : SimpleStorage) : SimpleStorage := s.erase key

end SimpleStorage

abbrev StateEntry := SimpleAccount × SimpleStorage

structure SimpleGlobalState where
  currentBlock : Block := {}
  accounts : ExtTreeMap Address StateEntry := ∅
  assert_failed : Bool := false

namespace SimpleGlobalState

def insert (p : StateEntry) (gs : SimpleGlobalState) : SimpleGlobalState :=
  if p.1.address ∈ gs.accounts then { gs with assert_failed := true }
  else { gs with accounts := gs.accounts.insert p.1.address p }

def create (addr : Address) (balance : Word) (code : Code) (gs : SimpleGlobalState) : Address × SimpleGlobalState :=
  -- the `get(addr)` that follows finds the entry
  (addr, gs.insert ({ address := addr, balance, code }, ∅))

def get (addr : Address) (gs : SimpleGlobalState) : Address × SimpleGlobalState :=
  if addr ∈ gs.accounts then (addr, gs) else create addr 0 [] gs

def remove (addr : Address) (gs : SimpleGlobalState) : SimpleGlobalState :=
  { gs with accounts := gs.accounts.erase addr }

/-- A state made by `insert`, as the tests make theirs. -/
def of_accounts (accs : List SimpleAccount) : SimpleGlobalState := accs.foldl (fun gs acc => gs.insert (acc, ∅)) {}

def num_accounts (gs : SimpleGlobalState) : Nat := gs.accounts.size

/-- The entry a reference refers to. -/
def entry (acc : Address) (gs : SimpleGlobalState) : StateEntry := gs.accounts[acc]?.getD ({}, ∅)

def set_account (acc : Address) (f : SimpleAccount → SimpleAccount) (gs : SimpleGlobalState) : SimpleGlobalState :=
  { gs with accounts := gs.accounts.modify acc fun e => (f e.1, e.2) }

def set_storage (acc : Address) (f : SimpleStorage → SimpleStorage) (gs : SimpleGlobalState) : SimpleGlobalState :=
  { gs with accounts := gs.accounts.modify acc fun e => (e.1, f e.2) }

instance : GlobalState SimpleGlobalState Address where
  remove := remove
  get := get
  create := create
  get_current_block := currentBlock
  get_block_hash _ _ := 0
  get_address acc gs := (gs.entry acc).1.address
  get_balance acc gs := (gs.entry acc).1.balance
  set_balance acc b := set_account acc fun a => { a with balance := b }
  get_nonce acc gs := (gs.entry acc).1.nonce
  get_code acc gs := (gs.entry acc).1.code
  set_code acc c := set_account acc fun a => { a with code := c }
  store acc k v := set_storage acc (SimpleStorage.store k v)
  load acc k gs := (gs.entry acc).2.load k
  remove_key acc k := set_storage acc (SimpleStorage.remove k)

end SimpleGlobalState

end EEVM

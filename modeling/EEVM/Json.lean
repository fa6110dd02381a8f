import EEVM.HexText
import EEVM.Lib.Json
import EEVM.Simple
/-!
# JSON (block.h:20-43, simple/simpleaccount.cpp:60-96, simplestorage.cpp:12-69, simpleglobalstate.cpp:59-85, transaction.cpp:10-45)

Under each type its `operator==`, `to_json` and `from_json`. `to_json` is given a null value, which the first `j[...] = ...`
makes an object; `from_json` is given an object of the type and changes it, and here returns it changed. A pair is an array
of two, and so is a list `{a, b}` in braces whose first element is a text.
-/
namespace EEVM

open Members Std

/-- What `from_json` throws: what the JSON library throws, or a parser of numbers. -/
inductive JsonError
  | json (e : Json.Error)
  | parse (e : ParseError)
deriving DecidableEq, Repr

abbrev FromJson := Except JsonError

/-! ## Fields -/

/-- The key of a member, or a text, of characters. -/
def text (cs : List Char) : String := String.ofList cs

def get_uint256 (j : Json) : FromJson Word := do
  let s ← j.get_string.mapError .json
  (to_uint256 s.toList).mapError .parse

def get_uint64 (j : Json) : FromJson UInt64 := do
  let s ← j.get_string.mapError .json
  pure (to_uint64 s.toList)

def get_bytes (j : Json) : FromJson Bytes := do
  let s ← j.get_string.mapError .json
  pure (to_bytes s.toList)

/-- `j[key]`, read. -/
def required {α : Type} (key : String) (read : Json → FromJson α) (j : Json) : FromJson α := do
  let v ← (j.member key).mapError .json
  read v

/-- `if (j.find(key) != j.end()) x = ... j[key]`. -/
def optional {α : Type} (key : String) (read : Json → FromJson α) (x : α) (j : Json) : FromJson α :=
  match j.find key with
  | some v => read v
  | none => pure x

namespace Block

/-- `operator==`. -/
def eq (l r : Block) : Bool :=
  l.coinbase == r.coinbase && l.number == r.number && l.difficulty == r.difficulty && l.gas_limit == r.gas_limit &&
    l.timestamp == r.timestamp

def to_json (b : Block) : Json :=
  .object (put "currentCoinbase" (.string (to_hex_string b.coinbase))
    (put "currentTimestamp" (.string (text (to_hex_string_u64 b.timestamp)))
    (put "currentGasLimit" (.string (text (to_hex_string_u64 b.gas_limit)))
    (put "currentDifficulty" (.string (text (to_hex_string_u64 b.difficulty)))
    (put "currentNumber" (.string (text (to_hex_string_u64 b.number))) [])))))

/-- All five fields are assigned. -/
def from_json (j : Json) : FromJson Block := do
  let number ← required "currentNumber" get_uint64 j
  let difficulty ← required "currentDifficulty" get_uint64 j
  let gas_limit ← required "currentGasLimit" get_uint64 j
  let timestamp ← required "currentTimestamp" get_uint64 j
  let coinbase ← required "currentCoinbase" get_uint256 j
  pure { number, difficulty, gas_limit, timestamp, coinbase }

end Block

namespace SimpleAccount

/-- `operator==`. -/
def eq (l r : SimpleAccount) : Bool :=
  l.address == r.address && l.balance == r.balance && l.nonce == r.nonce && l.code == r.code

def to_json (a : SimpleAccount) : Json :=
  .object (put "code" (.string (text (to_hex_string_bytes a.code)))
    (put "nonce" (.string (text (to_hex_string_u64 a.nonce)))
    (put "balance" (.string (to_hex_string a.balance))
    (put "address" (.string (text (address_to_hex_string a.address))) []))))

def from_json (j : Json) (a : SimpleAccount) : FromJson SimpleAccount := do
  let address ← optional "address" get_uint256 a.address j
  let balance ← optional "balance" get_uint256 a.balance j
  let nonce ← optional "nonce" get_uint64 a.nonce j
  let code ← optional "code" get_bytes a.code j
  pure { address, balance, nonce, code }

end SimpleAccount

namespace SimpleStorage

/-- `operator==`: that of `std::map`, which compares the sequences of the entries. -/
def eq (l r : SimpleStorage) : Bool := l.toList == r.toList

def to_json (s : SimpleStorage) : Json :=
  .object (s.toList.foldl (fun members p => put (to_hex_string p.1) (.string (to_hex_string p.2)) members) [])

/-- `emplace` leaves an entry that is there alone. -/
def from_json (j : Json) (s : SimpleStorage) : FromJson SimpleStorage := do
  let entries ← j.entries.mapError .json
  entries.foldlM (fun s it => do
    let key ← (to_uint256 it.1.toList).mapError .parse
    let value ← get_uint256 it.2
    pure (s.insertIfNew key value)) s

end SimpleStorage

namespace SimpleGlobalState

def entry_to_json (e : StateEntry) : Json := .array [e.1.to_json, SimpleStorage.to_json e.2]

def entry_from_json (j : Json) : FromJson StateEntry := do
  let account ← (j.at_index 0).mapError .json
  let account ← SimpleAccount.from_json account {}
  let storage ← (j.at_index 1).mapError .json
  let storage ← SimpleStorage.from_json storage ∅
  pure (account, storage)

/-- `operator==`: of the maps, entry by entry, and of the blocks. -/
def eq (l r : SimpleGlobalState) : Bool :=
  l.accounts.toList.isEqv r.accounts.toList (fun p q => p.1 == q.1 && p.2.1.eq q.2.1 && SimpleStorage.eq p.2.2 q.2.2) &&
    l.currentBlock.eq r.currentBlock

def to_json (gs : SimpleGlobalState) : Json :=
  .object (put "accounts" (.array (gs.accounts.toList.map fun p => .array [.string (to_hex_string p.1), entry_to_json p.2]))
    (put "block" gs.currentBlock.to_json []))

def from_json (j : Json) (gs : SimpleGlobalState) : FromJson SimpleGlobalState := do
  let currentBlock ← optional "block" Block.from_json gs.currentBlock j
  let accounts ← (j.member "accounts").mapError .json
  let accounts ← accounts.items.foldlM (fun accounts v => do
    let key ← (v.element 0).mapError .json
    let key ← get_uint256 key
    let entry ← (v.element 1).mapError .json
    let entry ← entry_from_json entry
    pure (accounts.insertIfNew key entry)) gs.accounts
  pure { gs with currentBlock, accounts }

end SimpleGlobalState

namespace LogEntry

/-- `operator==`. -/
def eq (l r : LogEntry) : Bool := l.address == r.address && l.data == r.data && l.topics == r.topics

/-- The last five members are filled in for other tools. -/
def to_json [Keccak] (log : LogEntry) : Json :=
  .object (put "transactionIndex" (.string "0x0") (put "transactionHash" (.string "0x0") (put "blockHash" (.string "0x0")
    (put "blockNumber" (.string "0x0") (put "logIndex" (.string "0x0")
    (put "topics" (.array (log.topics.map fun topic => .string (text (to_hex_string_fixed topic 64))))
    (put "data" (.string (text (to_hex_string_bytes log.data)))
    (put "address" (.string (text (to_checksum_address log.address))) []))))))))

/-- The topics are appended to those there. -/
def from_json (j : Json) (log : LogEntry) : FromJson LogEntry := do
  let address ← required "address" get_uint256 j
  let data ← required "data" get_bytes j
  let topics ← (j.member "topics").mapError .json
  let topics ← topics.items.mapM get_uint256
  pure { address, data, topics := log.topics ++ topics }

end LogEntry

/-! ## Each format is read back -/

theorem get_uint256_string (s : String) : get_uint256 (.string s) = (to_uint256 s.toList).mapError JsonError.parse := rfl
theorem get_uint64_string (s : String) : get_uint64 (.string s) = .ok (to_uint64 s.toList) := rfl
theorem get_bytes_string (s : String) : get_bytes (.string s) = .ok (to_bytes s.toList) := rfl

theorem get_uint256_to_hex_string (w : Word) : get_uint256 (.string (to_hex_string w)) = .ok w := by
  rw [get_uint256_string, to_uint256_to_hex_string]
  rfl

theorem get_uint256_to_hex_string_fixed (w : Word) {k : Nat} (hk : k ≤ 64) :
    get_uint256 (.string (text (to_hex_string_fixed w k))) = .ok w := by
  rw [get_uint256_string, text, String.toList_ofList, to_uint256_to_hex_string_fixed w hk]
  rfl

theorem get_uint256_to_checksum_address [Keccak] (a : Address) :
    get_uint256 (.string (text (to_checksum_address a))) = .ok a := by
  rw [get_uint256_string, text, String.toList_ofList, to_uint256_to_checksum_address]
  rfl

theorem get_uint64_to_hex_string_u64 (v : UInt64) : get_uint64 (.string (text (to_hex_string_u64 v))) = .ok v := by
  rw [get_uint64_string, text, String.toList_ofList, to_uint64_to_hex_string_u64]

theorem get_bytes_to_hex_string_bytes (bs : Bytes) : get_bytes (.string (text (to_hex_string_bytes bs))) = .ok bs := by
  rw [get_bytes_string, text, String.toList_ofList, to_bytes_to_hex_string_bytes]

section

variable {α : Type} {key : String} {members : List (String × Json)} {v : Json} {x : α} {read : Json → FromJson α}

theorem required_eq (h : members.lookup key = some v) (hv : read v = .ok x) : required key read (.object members) = .ok x := by
  simp only [required, Json.member, h]
  exact hv

theorem optional_eq (h : members.lookup key = some v) (hv : read v = .ok x) (y : α) :
    optional key read y (.object members) = .ok x := by
  simp only [optional, Json.find, h, hv]

end

/-! ## Each type is read back -/

@[simp] theorem Block.eq_refl (b : Block) : b.eq b = true := by
  simp [Block.eq]

@[simp] theorem SimpleAccount.eq_refl (a : SimpleAccount) : a.eq a = true := by
  simp [SimpleAccount.eq]

@[simp] theorem SimpleStorage.eq_refl (s : SimpleStorage) : SimpleStorage.eq s s = true := by
  simp [SimpleStorage.eq]

theorem isEqv_refl {α : Type} {r : α → α → Bool} (hr : ∀ a, r a a = true) (l : List α) : l.isEqv l r = true := by
  induction l with
  | nil => rfl
  | cons a l ih => simp [List.isEqv, hr, ih]

/-- The flag, which no field of the source stands for, is not compared. -/
theorem SimpleGlobalState.eq_assert_failed (gs : SimpleGlobalState) (b : Bool) :
    SimpleGlobalState.eq { gs with assert_failed := b } gs = true := by
  have accounts := isEqv_refl (r := fun p q : Address × StateEntry =>
    p.1 == q.1 && p.2.1.eq q.2.1 && SimpleStorage.eq p.2.2 q.2.2) (by simp) gs.accounts.toList
  simp [SimpleGlobalState.eq, accounts]

@[simp] theorem LogEntry.eq_refl (log : LogEntry) : log.eq log = true := by
  simp [LogEntry.eq]

theorem Block.from_json_to_json (b : Block) : Block.from_json b.to_json = .ok b := by
  have number : required "currentNumber" get_uint64 b.to_json = .ok b.number :=
    required_eq (by simp) (get_uint64_to_hex_string_u64 b.number)
  have difficulty : required "currentDifficulty" get_uint64 b.to_json = .ok b.difficulty :=
    required_eq (by simp) (get_uint64_to_hex_string_u64 b.difficulty)
  have gas_limit : required "currentGasLimit" get_uint64 b.to_json = .ok b.gas_limit :=
    required_eq (by simp) (get_uint64_to_hex_string_u64 b.gas_limit)
  have timestamp : required "currentTimestamp" get_uint64 b.to_json = .ok b.timestamp :=
    required_eq (by simp) (get_uint64_to_hex_string_u64 b.timestamp)
  have coinbase : required "currentCoinbase" get_uint256 b.to_json = .ok b.coinbase :=
    required_eq (by simp) (get_uint256_to_hex_string b.coinbase)
  simp only [Block.from_json, number, difficulty, gas_limit, timestamp, coinbase]
  rfl

theorem SimpleAccount.from_json_to_json (a a0 : SimpleAccount) : SimpleAccount.from_json a.to_json a0 = .ok a := by
  have address : optional "address" get_uint256 a0.address a.to_json = .ok a.address :=
    optional_eq (v := .string (text (to_hex_string_fixed a.address 40))) (by simp [address_to_hex_string])
      (get_uint256_to_hex_string_fixed a.address (by omega)) _
  have balance : optional "balance" get_uint256 a0.balance a.to_json = .ok a.balance :=
    optional_eq (by simp) (get_uint256_to_hex_string a.balance) _
  have nonce : optional "nonce" get_uint64 a0.nonce a.to_json = .ok a.nonce :=
    optional_eq (by simp) (get_uint64_to_hex_string_u64 a.nonce) _
  have code : optional "code" get_bytes a0.code a.to_json = .ok a.code :=
    optional_eq (by simp) (get_bytes_to_hex_string_bytes a.code) _
  simp only [SimpleAccount.from_json, address, balance, nonce, code]
  rfl

theorem to_hex_string_inj {w w' : Word} (h : to_hex_string w = to_hex_string w') : w = w' := by
  have hw := to_uint256_to_hex_string w
  rw [h, to_uint256_to_hex_string w'] at hw
  exact (Except.ok.inj hw).symm

/-- The keys of the members are hexadecimal texts and so in another order than the keys of the map. -/
theorem SimpleStorage.from_json_to_json (s : SimpleStorage) : SimpleStorage.from_json (SimpleStorage.to_json s) ∅ = .ok s := by
  have hdistinct : s.toList.Pairwise fun a b => to_hex_string a.1 ≠ to_hex_string b.1 := by
    refine ExtTreeMap.distinct_keys_toList.imp fun {a b} hne heq => ?_
    exact hne (LawfulEqOrd.compare_eq_iff_eq.2 (to_hex_string_inj heq))
  obtain ⟨l, hl, hperm⟩ := members_eq_map (fun p : Word × Word => Json.string (to_hex_string p.2)) hdistinct
  rw [SimpleStorage.to_json, hl]
  change (l.map _).foldlM _ _ = _
  rw [List.foldlM_map]
  refine (Json.foldlM_eq_ok (g := fun (s : SimpleStorage) p => s.insertIfNew p.1 p.2) ?_ ∅).trans ?_
  · intro s p _
    rw [to_uint256_to_hex_string, get_uint256_to_hex_string]
    rfl
  · exact congrArg Except.ok (foldl_insertIfNew hperm)

theorem SimpleGlobalState.entry_from_json_to_json (e : StateEntry) :
    SimpleGlobalState.entry_from_json (SimpleGlobalState.entry_to_json e) = .ok e := by
  have account := SimpleAccount.from_json_to_json e.1 {}
  have storage := SimpleStorage.from_json_to_json e.2
  change (do
    let account ← SimpleAccount.from_json e.1.to_json {}
    let storage ← SimpleStorage.from_json (SimpleStorage.to_json e.2) ∅
    pure (account, storage)) = _
  rw [account, storage]
  rfl

/-- All but the flag that no source field stands for. -/
theorem SimpleGlobalState.from_json_to_json (gs : SimpleGlobalState) :
    SimpleGlobalState.from_json gs.to_json {} = .ok { gs with assert_failed := false } := by
  have block : optional "block" Block.from_json ({} : SimpleGlobalState).currentBlock gs.to_json = .ok gs.currentBlock :=
    optional_eq (by simp) (Block.from_json_to_json gs.currentBlock) _
  have accounts : gs.to_json.member "accounts" =
      .ok (.array (gs.accounts.toList.map fun p => .array [.string (to_hex_string p.1), entry_to_json p.2])) := by
    simp [SimpleGlobalState.to_json, Json.member]
  simp only [SimpleGlobalState.from_json, block, accounts]
  change (List.foldlM _ ∅ (gs.accounts.toList.map _) >>= fun accounts =>
    pure ({ gs with accounts := accounts, assert_failed := false } : SimpleGlobalState) : FromJson SimpleGlobalState) = _
  rw [List.foldlM_map, Json.foldlM_eq_ok (g := fun accounts p => accounts.insertIfNew p.1 p.2), foldl_insertIfNew (.refl _)]
  · rfl
  · intro accounts p _
    have key := get_uint256_to_hex_string p.1
    have entry := entry_from_json_to_json p.2
    change (do
      let key ← get_uint256 (.string (to_hex_string p.1))
      let entry ← entry_from_json (entry_to_json p.2)
      pure (accounts.insertIfNew key entry)) = _
    rw [key, entry]
    rfl

theorem LogEntry.from_json_to_json [Keccak] (log : LogEntry) :
    LogEntry.from_json log.to_json { address := 0, data := [], topics := [] } = .ok log := by
  have address : required "address" get_uint256 log.to_json = .ok log.address :=
    required_eq (by simp) (get_uint256_to_checksum_address log.address)
  have data : required "data" get_bytes log.to_json = .ok log.data :=
    required_eq (by simp) (get_bytes_to_hex_string_bytes log.data)
  have topics : log.to_json.member "topics" =
      .ok (.array (log.topics.map fun topic => .string (text (to_hex_string_fixed topic 64)))) := by
    simp [LogEntry.to_json, Json.member]
  have hread : (log.topics.map fun topic => Json.string (text (to_hex_string_fixed topic 64))).mapM get_uint256 =
      .ok log.topics := Json.mapM_eq_ok fun topic _ => get_uint256_to_hex_string_fixed topic (by omega)
  simp only [LogEntry.from_json, address, data, topics]
  change (do
    let topics ← (log.topics.map fun topic => Json.string (text (to_hex_string_fixed topic 64))).mapM get_uint256
    pure ({ address := log.address, data := log.data, topics := [] ++ topics } : LogEntry)) = _
  rw [hread]
  rfl

/-- **JSON.** Nothing is lost: what is read into a default object equals what was written. -/
theorem json_round_trip [Keccak] :
    (∀ gs : SimpleGlobalState, ∃ gs', SimpleGlobalState.from_json gs.to_json {} = .ok gs' ∧ gs'.eq gs = true) ∧
    (∀ a : SimpleAccount, ∃ a', SimpleAccount.from_json a.to_json {} = .ok a' ∧ a'.eq a = true) ∧
    (∀ s : SimpleStorage, ∃ s', SimpleStorage.from_json (SimpleStorage.to_json s) ∅ = .ok s' ∧ SimpleStorage.eq s' s = true) ∧
    (∀ log : LogEntry, ∃ log', LogEntry.from_json log.to_json { address := 0, data := [], topics := [] } = .ok log' ∧
      log'.eq log = true) := by
  refine ⟨fun gs => ?_, fun a => ?_, fun s => ?_, fun log => ?_⟩
  · exact ⟨_, SimpleGlobalState.from_json_to_json gs, SimpleGlobalState.eq_assert_failed gs false⟩
  · exact ⟨a, SimpleAccount.from_json_to_json a {}, a.eq_refl⟩
  · exact ⟨s, SimpleStorage.from_json_to_json s, SimpleStorage.eq_refl s⟩
  · exact ⟨log, LogEntry.from_json_to_json log, log.eq_refl⟩

end EEVM

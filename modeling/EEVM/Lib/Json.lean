import EEVM.Lib.Members
/-!
# JSON trees

Texts, arrays, and objects with their members in the order of the keys, each key once. Booleans and numbers are left out.
The functions are those of a JSON library in C++ that throws where a value is not of the kind asked for; reading a member
that is not there, or an element past the end, is undefined there.
-/

inductive Json
  | null
  | string (s : String)
  | array (elems : List Json)
  | object (members : List (String × Json))

namespace Json

/-- The exceptions, under their numbers, and undefined behaviour. -/
inductive Error
  | type_error (id : Nat)
  | out_of_range (id : Nat)
  | invalid_iterator (id : Nat)
  | undefined
deriving DecidableEq, Repr

/-- `get<std::string>()`. -/
def get_string : Json → Except Error String
  | string s => .ok s
  | _ => .error (.type_error 302)

/-- `find(key)`. -/
def find (key : String) : Json → Option Json
  | object members => members.lookup key
  | _ => none

/-- `operator[](key) const`. -/
def member (key : String) : Json → Except Error Json
  | object members =>
    match members.lookup key with
    | some j => .ok j
    | none => .error .undefined
  | _ => .error (.type_error 305)

/-- `operator[](idx) const`. -/
def element (idx : Nat) : Json → Except Error Json
  | array elems =>
    match elems[idx]? with
    | some j => .ok j
    | none => .error .undefined
  | _ => .error (.type_error 305)

/-- `at(idx) const`. -/
def at_index (idx : Nat) : Json → Except Error Json
  | array elems =>
    match elems[idx]? with
    | some j => .ok j
    | none => .error (.out_of_range 401)
  | _ => .error (.type_error 304)

/-- What a loop over the value goes through: a text is its own only element. -/
def items : Json → List Json
  | null => []
  | string s => [string s]
  | array elems => elems
  | object members => members.map Prod.snd

/-- What a loop goes through that asks its iterator for the keys, which only objects have. -/
def entries : Json → Except Error (List (String × Json))
  | null | array [] => .ok []
  | object members => .ok members
  | string _ | array _ => .error (.invalid_iterator 207)

/-! ## Loops that may throw -/

/-- Where no turn throws, a loop that may throw is a loop that does not. -/
theorem foldlM_eq_ok {ε α β : Type} {f : β → α → Except ε β} {g : β → α → β} {l : List α}
    (h : ∀ b, ∀ a ∈ l, f b a = .ok (g b a)) (b : β) : l.foldlM f b = .ok (l.foldl g b) := by
  induction l generalizing b with
  | nil => rfl
  | cons a l ih =>
    rw [List.foldlM_cons, h b a (by simp)]
    exact ih (fun b a ha => h b a (by simp [ha])) (g b a)

theorem mapM_eq_ok {ε α β : Type} {f : α → Except ε β} {g : β → α} {l : List β} (h : ∀ b ∈ l, f (g b) = .ok b) :
    (l.map g).mapM f = .ok l := by
  induction l with
  | nil => rfl
  | cons b l ih =>
    rw [List.map_cons, List.mapM_cons, h b (by simp), ih fun b hb => h b (by simp [hb])]
    rfl

end Json

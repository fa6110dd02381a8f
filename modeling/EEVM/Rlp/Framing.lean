import EEVM.Rlp.Bounds
import EEVM.Rlp.Variadic
/-!
# What the decoder leaves over (rlp.h:378-415, 526-645)

`decode` compares the counter of the whole input with zero, and nothing else. A list with more items than its type has
components loses the rest of its bytes there: `decode_tuple` and the containers' `from_bytes` forget their counter, and
the pointer stays where the last item ended.

`Filled t bs` is what the decoder should accept: every payload in `bs` is filled by as many items as `t` has components.
`scan` follows the headers of the input as the decoder does, on its pointer and its counters. At every level the pointer
moves at most as far as the counter goes down, and as far only if the level is filled (`Consumes`), so that one look at
the pointer at the end tells whether all levels were (`framed_iff`).
-/
namespace EEVM.Rlp

open ExcState BigEndian

/-! ## Filled byte strings -/

def Arity.short : Arity → Nat
  | single => 0x80
  | multiple => 0xc0

def Arity.long : Arity → Nat
  | single => 0xb7
  | multiple => 0xf7

@[simp] theorem Arity.short_single : Arity.short .single = 0x80 := rfl
@[simp] theorem Arity.short_multiple : Arity.short .multiple = 0xc0 := rfl
@[simp] theorem Arity.long_single : Arity.long .single = 0xb7 := rfl
@[simp] theorem Arity.long_multiple : Arity.long .multiple = 0xf7 := rfl

/-- `bs` is a header and the payload it declares. A byte up to `0x7f` has no header, it is its own payload. -/
inductive Headed : Arity → Bytes → Bytes → Prop
  | byte {b : UInt8} (h : b ≤ 0x7f) : Headed .single [b] [b]
  | short {a : Arity} {payload : Bytes} (h : payload.length ≤ 55) :
    Headed a (UInt8.ofNat (a.short + payload.length) :: payload) payload
  | long {a : Arity} {len payload : Bytes} (h1 : 1 ≤ len.length) (h8 : len.length ≤ 8)
    (h : ofBytes len = payload.length) : Headed a (UInt8.ofNat (a.long + len.length) :: (len ++ payload)) payload

/-- A header, of whatever arity, and items that fill its payload. -/
def ListOf (count : Nat → Prop) (item : Bytes → Prop) (bs : Bytes) : Prop :=
  ∃ (a : Arity) (items : List Bytes), Headed a bs items.flatten ∧ count items.length ∧ ∀ bs ∈ items, item bs

/-- What the string of a `std::vector` holds. -/
def vector_filled : Ty → (Bytes → Prop) → Bytes → Prop
  | .uint .w8, _, _ => True
  | _, item, string => ListOf (fun _ => True) item string

/-- What the string of a `std::array` of `N` holds. -/
def array_filled : Ty → (Bytes → Prop) → Nat → Bytes → Prop
  | .uint .w8, _, N, string => string.length = N
  | _, item, N, string => ListOf (· = N) item string

mutual

/-- `bs` is an item for the type, and the items in it fill all payloads. -/
def Filled : Ty → Bytes → Prop
  | .uint _, bs | .u256, bs | .string, bs => ∃ payload, Headed .single bs payload
  | .vector t, bs => ∃ payload, Headed .single bs payload ∧ vector_filled t (Filled t) payload
  | .array t N, bs => ∃ payload, Headed .single bs payload ∧ array_filled t (Filled t) N payload
  | .tuple ts, bs => ∃ payload, Headed .multiple bs payload ∧ Filled_all ts payload

def Filled_all : List Ty → Bytes → Prop
  | [], bs => bs = []
  | t :: ts, bs => ∃ item rest, bs = item ++ rest ∧ Filled t item ∧ Filled_all ts rest

end

/-- The same for the input of `decode<Ts...>`. -/
def Filled_args : List Ty → Bytes → Prop
  | [t], bs => Filled t bs
  | ts, bs => Filled (.tuple ts) bs

/-! ## The scan -/

inductive Halt
  | rejected
  /-- A header declares more than there is. -/
  | overrun
  /-- A number of more than 32 bytes for `uint256_t`, or a string too long for its 32-bit counter. -/
  | breaks
deriving DecidableEq, Repr

/-- What lies before the pointer, and whether every array so far had a list header that declared all of its string. -/
structure Trail where
  bytes : Bytes
  declared : Bool := true
deriving DecidableEq, Repr

abbrev Scan := EStateM Halt Trail

namespace Scan

def lift {α : Type} (w : Walk α) : Scan α := fun trail =>
  match w trail.bytes with
  | .ok a bytes => .ok a { trail with bytes }
  | .error .rejected bytes => .error .rejected { trail with bytes }
  | .error .overrun bytes => .error .overrun { trail with bytes }

def header (size : Nat) : Scan ((Arity × Nat) × Nat) := lift (Walk.header size)
def sub (size amount : Nat) : Scan Nat := lift (Walk.sub size amount)
def skip (n : Nat) : Scan Unit := lift (Walk.skip n)

def item (arity : Arity) (payload : Nat → Scan Unit) (size : Nat) : Scan Nat := do
  let ((found, contained), size) ← header size
  if found ≠ arity then throw .rejected
  else do
    let size ← sub size contained
    payload contained
    pure size

def turns (elem : Nat → Scan Nat) : Nat → Nat → Scan Unit
  | 0, _ => pure ()
  | n + 1, size => do
    let size ← elem size
    turns elem n size

def until_zero (elem : Nat → Scan Nat) : Nat → Nat → Scan Unit
  | _, 0 => pure ()
  | 0, _ + 1 => throw .overrun
  | n + 1, size => do
    let size ← elem size
    until_zero elem n size

def list_vector (elem : Nat → Scan Nat) (size : Nat) : Scan Unit := do
  let ((_, contained), size) ← header size
  let _ ← sub size contained
  until_zero elem contained contained

/-- The decoder does not look at what the list header of an array declares: its elements may take up the whole string. -/
def list_array (elem : Nat → Scan Nat) (N size : Nat) : Scan Unit := do
  let ((_, contained), size) ← header size
  let undeclared ← sub size contained
  modify fun trail => { trail with declared := trail.declared && undeclared == 0 }
  turns elem (if N < 2 ^ 32 then N else size + 1) size

def vector : Ty → (Nat → Scan Nat) → Nat → Scan Unit
  | .uint .w8, _, size => if size < 2 ^ 32 then skip size else throw .breaks
  | _, elem, size => list_vector elem size

def array : Ty → (Nat → Scan Nat) → (N size : Nat) → Scan Unit
  | .uint .w8, _, N, size => if size ≠ N then throw .rejected else skip N
  | _, elem, N, size => list_array elem N size

end Scan

open Scan

mutual

/-- The scan of an item of type `t`: what is left of the counter. -/
def scan : Ty → Nat → Scan Nat
  | .uint _ => item .single fun size => if size > 8 then throw .rejected else skip size
  | .u256 => item .single fun size => if size > 32 then throw .breaks else skip size
  | .string => item .single fun size => if size < 2 ^ 32 then skip size else throw .breaks
  | .vector t => item .single (Scan.vector t (scan t))
  | .array t N => item .single (Scan.array t (scan t) N)
  | .tuple ts => item .multiple fun size => do
    let _ ← scan_tuple ts size

def scan_tuple : List Ty → Nat → Scan Nat
  | [], size => pure size
  | t :: ts, size => do
    let size ← scan t size
    scan_tuple ts size

end

def scan_item : Ty → Nat → Scan Nat
  | .tuple ts => scan_tuple ts
  | t => scan t

def scan_multiple : List Ty → Nat → Scan Nat
  | [], size => pure size
  | t :: ts, size => do
    let size ← scan_item t size
    scan_multiple ts size

def scan_none (size : Nat) : Scan Nat := do
  let ((arity, contained), size) ← header size
  if arity ≠ .multiple then throw .rejected
  else if contained ≠ 0 then throw .rejected
  else pure size

def scan_args : List Ty → Nat → Scan Nat
  | [] => scan_none
  | [t] => scan t
  | t :: t' :: ts => item .multiple fun size => do
    let _ ← scan_multiple (t :: t' :: ts) size

/-- All headers that the decoder meets declare at most what is left of the payload around them. -/
def HeadersFit (ts : List Ty) (bs : Bytes) : Prop := ∀ trail, scan_args ts bs.length { bytes := bs } ≠ .error .overrun trail

/-! ## Headers -/

theorem take_append (len : Bytes) : ∀ rest : Bytes, Walk.take len.length (len ++ rest) = .ok len rest := by
  induction len with
  | nil => intro rest; rfl
  | cons b len ih =>
    intro rest
    simp only [List.length_cons, Walk.take]
    have hb : Walk.next (b :: len ++ rest) = .ok b (len ++ rest) := rfl
    rw [bind_of_ok hb, bind_of_ok (ih rest)]
    rfl

theorem take_eq_ok {n : Nat} {bytes taken rest : Bytes} (h : Walk.take n bytes = .ok taken rest) :
    bytes = taken ++ rest ∧ taken.length = n := by
  induction n generalizing bytes taken with
  | zero =>
    cases h
    exact ⟨rfl, rfl⟩
  | succ n ih =>
    simp only [Walk.take, bind_eq_ok] at h
    obtain ⟨b, bytes1, h1, bs, bytes2, h2, h⟩ := h
    cases h
    cases bytes with
    | nil => cases h1
    | cons b' bytes =>
      cases h1
      obtain ⟨rfl, hlen⟩ := ih h2
      simp [hlen]

theorem long_header_eq_ok {a : Arity} {size n : Nat} {bytes rest : Bytes} {res : (Arity × Nat) × Nat}
    (h : Walk.long_header a size n bytes = .ok res rest) :
    ∃ len, bytes = len ++ rest ∧ len.length = n ∧ n ≤ size ∧ res = ((a, ofBytes len), size - n) := by
  unfold Walk.long_header Walk.sub at h
  by_cases hn : size < n
  · simp only [if_pos hn] at h
    cases h
  · have hle : n ≤ size := Nat.le_of_not_lt hn
    simp only [if_neg hn, if_pos hle, bind_eq_ok] at h
    obtain ⟨_, _, h1, len, rest', h2, h⟩ := h
    cases h1
    cases h
    obtain ⟨hbytes, hlen⟩ := take_eq_ok h2
    exact ⟨len, hbytes, hlen, hle, rfl⟩

/-- The first byte of a short header, in front of a payload of the length it declares. -/
theorem headed_short {a : Arity} {b : UInt8} {payload : Bytes} (h1 : a.short ≤ b.toNat) (h2 : b.toNat ≤ a.short + 55)
    (hlen : payload.length = b.toNat - a.short) : Headed a ([b] ++ payload) payload := by
  have hb : b = UInt8.ofNat (a.short + payload.length) := by
    rw [hlen, Nat.add_sub_cancel' h1, UInt8.ofNat_toNat]
  have hshort : Headed a (UInt8.ofNat (a.short + payload.length) :: payload) payload := .short (by omega)
  rwa [← hb] at hshort

theorem headed_long {a : Arity} {b : UInt8} {len payload : Bytes} (h1 : a.long < b.toNat) (h2 : b.toNat ≤ a.long + 8)
    (hlen : len.length = b.toNat - a.long) (hpayload : ofBytes len = payload.length) :
    Headed a (b :: len ++ payload) payload := by
  have hb : b = UInt8.ofNat (a.long + len.length) := by
    rw [hlen, Nat.add_sub_cancel' (Nat.le_of_lt h1), UInt8.ofNat_toNat]
  have hlong := Headed.long (a := a) (by omega) (by omega) hpayload
  rwa [← hb] at hlong

/-- Behind a header of `bytes`, which takes the counter from `size` to `size'`, `rest` is left; as far as the header declares
it, it makes a headed byte string. -/
def Heads (a : Arity) (n size size' : Nat) (bytes rest : Bytes) : Prop :=
  ∃ hdr, bytes = hdr ++ rest ∧ hdr.length + size' = size ∧
    ∀ payload more, rest = payload ++ more → payload.length = n → Headed a (hdr ++ payload) payload

theorem heads_byte {b : UInt8} (h : b ≤ 0x7f) (size : Nat) (rest : Bytes) : Heads .single 1 size size (b :: rest) (b :: rest) := by
  refine ⟨[], rfl, Nat.zero_add _, ?_⟩
  intro payload more hrest hlen
  obtain ⟨x, rfl⟩ := List.length_eq_one_iff.1 hlen
  obtain ⟨rfl, -⟩ := List.cons.inj hrest
  exact .byte h

theorem heads_short {a : Arity} {b : UInt8} {size : Nat} (h1 : a.short ≤ b.toNat) (h2 : b.toNat ≤ a.short + 55) (hsize : 1 ≤ size)
    (rest : Bytes) : Heads a (b.toNat - a.short) size (size - 1) (b :: rest) rest := by
  refine ⟨[b], rfl, by simp; omega, ?_⟩
  intro payload more _ hlen
  exact headed_short h1 h2 hlen

theorem heads_long {a : Arity} {b : UInt8} {size : Nat} {bytes rest : Bytes} {res : (Arity × Nat) × Nat} (h1 : a.long < b.toNat)
    (h2 : b.toNat ≤ a.long + 8) (hsize : 1 ≤ size)
    (h : Walk.long_header a (size - 1) (b.toNat - a.long) bytes = .ok res rest) :
    Heads res.1.1 res.1.2 size res.2 (b :: bytes) rest := by
  obtain ⟨len, rfl, hlen, hle, rfl⟩ := long_header_eq_ok h
  refine ⟨b :: len, rfl, by simp; omega, ?_⟩
  intro payload more _ hpayload
  exact headed_long h1 h2 hlen hpayload.symm

theorem header_eq_ok {a : Arity} {n size size' : Nat} {bytes rest : Bytes}
    (h : Walk.header size bytes = .ok ((a, n), size') rest) : Heads a n size size' bytes rest := by
  unfold Walk.header at h
  by_cases h0 : size = 0
  · rw [if_pos h0] at h
    cases h
  rw [if_neg h0, bind_eq_ok] at h
  obtain ⟨first, bytes1, h1, h⟩ := h
  cases bytes with
  | nil => cases h1
  | cons b bytes =>
    obtain ⟨rfl, rfl⟩ : b = first ∧ b :: bytes = bytes1 := by
      cases h1
      exact ⟨rfl, rfl⟩
    by_cases hfirst : b ≤ 0x7f
    · rw [if_pos hfirst] at h
      cases h
      exact heads_byte hfirst _ _
    have hb := b.toNat_lt
    have hlow : 0x7f < b.toNat := by
      rw [UInt8.le_iff_toNat_le, Nat.not_le] at hfirst
      exact hfirst
    rw [if_neg hfirst, bind_eq_ok] at h
    obtain ⟨first, bytes1, h2, h⟩ := h
    obtain ⟨rfl, rfl⟩ : b = first ∧ bytes = bytes1 := by
      cases h2
      exact ⟨rfl, rfl⟩
    have hsize : 1 ≤ size := by omega
    rw [Walk.sub, if_pos hsize, bind_eq_ok] at h
    obtain ⟨left, bytes1, h3, h⟩ := h
    cases h3
    split at h
    · cases h
      exact heads_short (by simp; omega) (by simp; omega) hsize _
    split at h
    · exact heads_long (by simp; omega) (by simp; omega) hsize h
    split at h
    · cases h
      exact heads_short (by simp; omega) (by simp; omega) hsize _
    · exact heads_long (by simp; omega) (by simp; omega) hsize h

/-- What is read behind a first byte that is not its own payload. -/
theorem header_of_first {n size : Nat} (h1 : 0x7f < n) (h2 : n < 256) (hsize : 1 ≤ size) (rest : Bytes) :
    Walk.header size (UInt8.ofNat n :: rest) =
      (if n ≤ 0xb7 then (pure ((.single, n - 0x80), size - 1) : Walk _)
        else if n ≤ 0xbf then Walk.long_header .single (size - 1) (n - 0xb7)
        else if n ≤ 0xf7 then pure ((.multiple, n - 0xc0), size - 1)
        else Walk.long_header .multiple (size - 1) (n - 0xf7)) rest := by
  have hto : (UInt8.ofNat n).toNat = n := by
    rw [UInt8.toNat_ofNat']
    exact Nat.mod_eq_of_lt h2
  have hgt : ¬UInt8.ofNat n ≤ 0x7f := by
    rw [UInt8.le_iff_toNat_le, hto, Nat.not_le]
    exact h1
  have hpeek : Walk.peek (UInt8.ofNat n :: rest) = .ok (UInt8.ofNat n) (UInt8.ofNat n :: rest) := rfl
  have hnext : Walk.next (UInt8.ofNat n :: rest) = .ok (UInt8.ofNat n) rest := rfl
  rw [Walk.header, if_neg (by omega), bind_of_ok hpeek, if_neg hgt, bind_of_ok hnext, Walk.sub, if_pos hsize, hto]
  rfl

theorem header_of_short (a : Arity) {n size : Nat} (hn : n ≤ 55) (hsize : 1 ≤ size) (rest : Bytes) :
    Walk.header size (UInt8.ofNat (a.short + n) :: rest) = .ok ((a, n), size - 1) rest := by
  cases a with
  | single =>
    rw [header_of_first (by simp; omega) (by simp; omega) hsize, if_pos (by simp; omega), Arity.short,
      Nat.add_sub_cancel_left]
    rfl
  | multiple =>
    rw [header_of_first (by simp; omega) (by simp; omega) hsize, if_neg (by simp; omega), if_neg (by simp; omega),
      if_pos (by simp; omega), Arity.short, Nat.add_sub_cancel_left]
    rfl

theorem header_of_long (a : Arity) {n size : Nat} (h1 : 1 ≤ n) (h8 : n ≤ 8) (hsize : 1 ≤ size) (rest : Bytes) :
    Walk.header size (UInt8.ofNat (a.long + n) :: rest) = Walk.long_header a (size - 1) n rest := by
  cases a with
  | single =>
    rw [header_of_first (by simp; omega) (by simp; omega) hsize, if_neg (by simp; omega), if_pos (by simp; omega),
      Arity.long, Nat.add_sub_cancel_left]
  | multiple =>
    rw [header_of_first (by simp; omega) (by simp; omega) hsize, if_neg (by simp; omega), if_neg (by simp; omega),
      if_neg (by simp; omega), Arity.long, Nat.add_sub_cancel_left]

theorem long_header_of_append (a : Arity) {len : Bytes} {size : Nat} (h : len.length ≤ size) (rest : Bytes) :
    Walk.long_header a size len.length (len ++ rest) = .ok ((a, ofBytes len), size - len.length) rest := by
  rw [Walk.long_header, if_neg (Nat.not_lt.2 h), Walk.sub, if_pos h, pure_bind, bind_of_ok (take_append len rest)]
  rfl

/-- And the header of a headed byte string can be read, whatever follows. -/
theorem header_of_headed {a : Arity} {bs payload : Bytes} (h : Headed a bs payload) (more : Bytes) {size : Nat}
    (hsize : bs.length ≤ size) :
    Walk.header size (bs ++ more) = .ok ((a, payload.length), size - (bs.length - payload.length)) (payload ++ more) := by
  cases h with
  | @byte b hb =>
    have hpeek : Walk.peek ([b] ++ more) = .ok b ([b] ++ more) := rfl
    simp only [List.length_singleton] at hsize
    rw [Walk.header, if_neg (by omega), bind_of_ok hpeek, if_pos hb]
    rfl
  | short h55 =>
    simp only [List.length_cons] at hsize
    have hsub : size - ((UInt8.ofNat (a.short + payload.length) :: payload).length - payload.length) = size - 1 := by
      simp only [List.length_cons]
      omega
    rw [hsub]
    exact header_of_short a h55 (by omega) (payload ++ more)
  | @long _ len _ h1 h8 hlen =>
    simp only [List.length_cons, List.length_append] at hsize
    have hsub : size - ((UInt8.ofNat (a.long + len.length) :: (len ++ payload)).length - payload.length) =
        size - 1 - len.length := by
      simp only [List.length_cons, List.length_append]
      omega
    rw [hsub, List.cons_append, header_of_long a h1 h8 (by omega), List.append_assoc,
      long_header_of_append a (by omega), hlen]

/-! ## How far a scan gets -/

mutual

/-- `bs` is an item whose tuples are filled; what its strings hold is not looked at. -/
def Framed : Ty → Bytes → Prop
  | .tuple ts, bs => ∃ payload, Headed .multiple bs payload ∧ Framed_all ts payload
  | .uint _, bs | .u256, bs | .string, bs | .vector _, bs | .array _ _, bs => ∃ payload, Headed .single bs payload

def Framed_all : List Ty → Bytes → Prop
  | [], bs => bs = []
  | t :: ts, bs => ∃ item rest, bs = item ++ rest ∧ Framed t item ∧ Framed_all ts rest

end

mutual

theorem Filled.framed : ∀ {t : Ty} {bs : Bytes}, Filled t bs → Framed t bs
  | .uint _, _, h | .u256, _, h | .string, _, h => h
  | .vector t, bs, h => by
    simp only [Filled] at h
    obtain ⟨p, hp, -⟩ := h
    exact ⟨p, hp⟩
  | .array t N, bs, h => by
    simp only [Filled] at h
    obtain ⟨p, hp, -⟩ := h
    exact ⟨p, hp⟩
  | .tuple ts, bs, h => by
    simp only [Filled] at h
    obtain ⟨p, hp, hts⟩ := h
    rw [Framed]
    exact ⟨p, hp, Filled_all.framed hts⟩

theorem Filled_all.framed : ∀ {ts : List Ty} {bs : Bytes}, Filled_all ts bs → Framed_all ts bs
  | [], _, h => h
  | t :: ts, bs, h => by
    simp only [Filled_all] at h
    obtain ⟨item, rest, heq, ht, hts⟩ := h
    rw [Framed_all]
    exact ⟨item, rest, heq, Filled.framed ht, Filled_all.framed hts⟩

end

/-- From `trail` to `trail'` the pointer has passed `used`, and the counter has gone down from `size` to `size'`. Where
both have gone equally far, `used` is as `frame` says, and as `fill` says if all arrays have been declared. -/
structure Took (frame fill : Bytes → Prop) (size size' : Nat) (trail trail' : Trail) (used : Bytes) : Prop where
  bytes : trail.bytes = used ++ trail'.bytes
  le : used.length + size' ≤ size
  declared : trail'.declared = true → trail.declared = true
  frame : used.length + size' = size → frame used
  fill : used.length + size' = size → trail'.declared = true → fill used

def Runs (frame fill : Bytes → Prop) (s : Nat → Scan Nat) : Prop :=
  ∀ size trail size' trail', s size trail = .ok size' trail' → ∃ used, Took frame fill size size' trail trail' used

/-- An item also takes something off the counter. -/
def Consumes (frame fill : Bytes → Prop) (s : Nat → Scan Nat) : Prop :=
  Runs frame fill s ∧ ∀ size trail size' trail', s size trail = .ok size' trail' → size' < size

/-- The same for what is inside a payload, which forgets its counter. -/
def Fills (frame fill : Bytes → Prop) (s : Nat → Scan Unit) : Prop :=
  ∀ size trail trail', s size trail = .ok () trail' → ∃ used, Took frame fill size 0 trail trail' used

section Took

variable {frame fill frame' fill' : Bytes → Prop} {size size' size1 : Nat} {trail trail' trail1 : Trail}
  {used used' : Bytes}

theorem Took.append {f g : Bytes → Prop} (h : Took frame fill size size1 trail trail1 used)
    (h' : Took frame' fill' size1 size' trail1 trail' used') (hf : frame used → frame' used' → f (used ++ used'))
    (hg : fill used → fill' used' → g (used ++ used')) : Took f g size size' trail trail' (used ++ used') := by
  have hle := h.le
  have hle' := h'.le
  refine ⟨by rw [h.bytes, h'.bytes, List.append_assoc], ?_, fun hd => h.declared (h'.declared hd), ?_, ?_⟩
  · simp only [List.length_append]
    omega
  · intro heq
    simp only [List.length_append] at heq
    exact hf (h.frame (by omega)) (h'.frame (by omega))
  · intro heq hd
    simp only [List.length_append] at heq
    exact hg (h.fill (by omega) (h'.declared hd)) (h'.fill (by omega) hd)

theorem Took.mono (h : Took frame fill size size' trail trail' used) (hf : frame used → frame' used)
    (hg : fill used → fill' used) : Took frame' fill' size size' trail trail' used :=
  ⟨h.bytes, h.le, h.declared, fun heq => hf (h.frame heq), fun heq hd => hg (h.fill heq hd)⟩

/-- Where the counter is forgotten, it might have been at zero. -/
theorem Took.forget (h : Took frame fill size size1 trail trail' used) : Took frame fill size 0 trail trail' used := by
  have hle := h.le
  exact ⟨h.bytes, by omega, h.declared, fun heq => h.frame (by omega), fun heq hd => h.fill (by omega) hd⟩

end Took

theorem lift_eq_ok {α : Type} {w : Walk α} {trail trail' : Trail} {a : α} (h : lift w trail = .ok a trail') :
    w trail.bytes = .ok a trail'.bytes ∧ trail'.declared = trail.declared := by
  unfold lift at h
  split at h
  case h_1 a' bytes hw =>
    cases h
    exact ⟨hw, rfl⟩
  all_goals cases h

theorem sub_cases (size amount : Nat) (trail : Trail) :
    (amount ≤ size ∧ Scan.sub size amount trail = .ok (size - amount) trail) ∨
      Scan.sub size amount trail = .error .overrun trail := by
  by_cases h : amount ≤ size
  · refine .inl ⟨h, ?_⟩
    simp [Scan.sub, lift, Walk.sub, h]
  · refine .inr ?_
    simp [Scan.sub, lift, Walk.sub, h]

theorem sub_eq_ok {size amount left : Nat} {trail trail' : Trail} (h : Scan.sub size amount trail = .ok left trail') :
    amount ≤ size ∧ left = size - amount ∧ trail' = trail := by
  rcases sub_cases size amount trail with ⟨hle, hs⟩ | hs
  · cases hs.symm.trans h
    exact ⟨hle, rfl, rfl⟩
  · cases hs.symm.trans h

/-- A payload behind its header. -/
theorem Took.behind {frame fill : Bytes → Prop} {a : Arity} {n left size : Nat} {trail trail1 trail' : Trail} {used : Bytes}
    (hr : Scan.header size trail = .ok ((a, n), left) trail1) (hle : n ≤ left) (h : Took frame fill n 0 trail1 trail' used) :
    ∃ hdr, Took (fun bs => ∃ p, Headed a bs p ∧ frame p) (fun bs => ∃ p, Headed a bs p ∧ fill p) size (left - n)
      trail trail' (hdr ++ used) := by
  obtain ⟨hw, hd⟩ := lift_eq_ok hr
  obtain ⟨hdr, hbytes, hlen, hheaded⟩ := header_eq_ok hw
  have hused := h.le
  refine ⟨hdr, by rw [hbytes, h.bytes, List.append_assoc], ?_, fun htrue => by rw [← hd, h.declared htrue], ?_, ?_⟩
  · simp only [List.length_append]
    omega
  · intro heq
    simp only [List.length_append] at heq
    exact ⟨used, hheaded used _ h.bytes (by omega), h.frame (by omega)⟩
  · intro heq htrue
    simp only [List.length_append] at heq
    exact ⟨used, hheaded used _ h.bytes (by omega), h.fill (by omega) htrue⟩

theorem fills_skip : Fills (fun _ => True) (fun _ => True) Scan.skip := by
  intro size trail trail' h
  obtain ⟨hw, hd⟩ := lift_eq_ok h
  rw [Walk.skip, bind_eq_ok] at hw
  obtain ⟨taken, bytes, hw, hp⟩ := hw
  cases hp
  obtain ⟨hbytes, hlen⟩ := take_eq_ok hw
  exact ⟨taken, hbytes, by omega, fun h => by rw [← hd, h], fun _ => trivial, fun _ _ => trivial⟩

theorem Fills.ite {frame fill : Bytes → Prop} {c : Nat → Prop} [DecidablePred c] {s s' : Nat → Scan Unit}
    (h : ∀ size, c size → ∀ trail trail', s size trail ≠ .ok () trail') (h' : Fills frame fill s') :
    Fills frame fill fun size => if c size then s size else s' size := by
  intro size trail trail' hr
  by_cases hc : c size
  · simp only [if_pos hc] at hr
    exact absurd hr (h size hc trail trail')
  · simp only [if_neg hc] at hr
    exact h' size trail trail' hr

/-- An item is filled if its payload is. -/
theorem consumes_item {arity : Arity} {frame fill : Bytes → Prop} {payload : Nat → Scan Unit}
    (h : Fills frame fill payload) :
    Consumes (fun bs => ∃ p, Headed arity bs p ∧ frame p) (fun bs => ∃ p, Headed arity bs p ∧ fill p)
      (Scan.item arity payload) := by
  have key : ∀ size trail size' trail', Scan.item arity payload size trail = .ok size' trail' → size' < size ∧
      ∃ used, Took (fun bs => ∃ p, Headed arity bs p ∧ frame p) (fun bs => ∃ p, Headed arity bs p ∧ fill p)
        size size' trail trail' used := by
    intro size trail size' trail' hr
    simp only [Scan.item, bind_eq_ok] at hr
    obtain ⟨⟨⟨found, contained⟩, left⟩, t1, h1, hr⟩ := hr
    have hshrinks := header_ok (lift_eq_ok h1).1
    simp only at hr hshrinks
    split at hr
    · cases hr
    rename_i hfound
    obtain rfl : found = arity := not_not.1 hfound
    simp only [bind_eq_ok] at hr
    obtain ⟨left', t2, h2, _, t3, h3, hr⟩ := hr
    cases hr
    obtain ⟨hle, rfl, rfl⟩ := sub_eq_ok h2
    obtain ⟨used, ht⟩ := h contained _ _ h3
    obtain ⟨hdr, htook⟩ := ht.behind h1 hle
    exact ⟨by omega, hdr ++ used, htook⟩
  exact ⟨fun size trail size' trail' hr => (key size trail size' trail' hr).2,
    fun size trail size' trail' hr => (key size trail size' trail' hr).1⟩

section Loops

variable {frame fill : Bytes → Prop} {elem : Nat → Scan Nat}

/-- `Took`, of the elements of a loop. -/
abbrev TookAll (fill : Bytes → Prop) (size size' : Nat) (trail trail' : Trail) (items : List Bytes) : Prop :=
  Took (fun _ => True) (fun _ => ∀ bs ∈ items, fill bs) size size' trail trail' items.flatten

theorem TookAll.nil (fill : Bytes → Prop) (size : Nat) (trail : Trail) : TookAll fill size size trail trail [] :=
  ⟨rfl, by simp, id, fun _ => trivial, fun _ _ => by simp⟩

theorem TookAll.cons {size size1 size' : Nat} {trail trail1 trail' : Trail} {bs : Bytes} {items : List Bytes}
    (h : Took frame fill size size1 trail trail1 bs) (hs : TookAll fill size1 size' trail1 trail' items) :
    TookAll fill size size' trail trail' (bs :: items) := by
  rw [TookAll, List.flatten_cons]
  refine h.append hs (fun _ _ => trivial) ?_
  intro hitem hitems bs' hbs
  rcases List.mem_cons.1 hbs with rfl | hbs
  · exact hitem
  · exact hitems bs' hbs

theorem turns_ok (h : Consumes frame fill elem) {n size : Nat} {trail trail' : Trail}
    (hr : turns elem n size trail = .ok () trail') :
    ∃ (items : List Bytes) (left : Nat),
      TookAll fill size left trail trail' items ∧ items.length = n ∧ n + left ≤ size := by
  induction n generalizing size trail with
  | zero =>
    cases hr
    exact ⟨[], size, .nil fill size _, rfl, by omega⟩
  | succ n ih =>
    simp only [turns, bind_eq_ok] at hr
    obtain ⟨size1, trail1, h1, hr⟩ := hr
    obtain ⟨item, ht⟩ := h.1 _ _ _ _ h1
    have hlt := h.2 _ _ _ _ h1
    obtain ⟨items, left, hts, hlen, hle⟩ := ih hr
    exact ⟨item :: items, left, .cons ht hts, by simp [hlen], by omega⟩

theorem until_zero_ok (h : Consumes frame fill elem) {n size : Nat} {trail trail' : Trail}
    (hr : until_zero elem n size trail = .ok () trail') :
    ∃ items : List Bytes, TookAll fill size 0 trail trail' items := by
  induction n generalizing size trail with
  | zero =>
    cases size with
    | zero =>
      cases hr
      exact ⟨[], .nil fill 0 _⟩
    | succ size => cases hr
  | succ n ih =>
    cases size with
    | zero =>
      rw [until_zero] at hr
      cases hr
      exact ⟨[], .nil fill 0 _⟩
    | succ size =>
      simp only [until_zero, bind_eq_ok] at hr
      obtain ⟨size1, trail1, h1, hr⟩ := hr
      obtain ⟨item, ht⟩ := h.1 _ _ _ _ h1
      obtain ⟨items, hts⟩ := ih hr
      exact ⟨item :: items, .cons ht hts⟩

/-- The string around a vector is used up if its list is all there is, and that is used up. -/
theorem fills_list_vector (h : Consumes frame fill elem) :
    Fills (fun _ => True) (ListOf (fun _ => True) fill) (list_vector elem) := by
  intro size trail trail' hr
  simp only [list_vector, bind_eq_ok] at hr
  obtain ⟨⟨⟨a, contained⟩, left⟩, t1, h1, hr⟩ := hr
  simp only at hr
  obtain ⟨left', t2, h2, hr⟩ := hr
  obtain ⟨hle, rfl, rfl⟩ := sub_eq_ok h2
  obtain ⟨items, ht⟩ := until_zero_ok h hr
  have hlist : Took (fun _ => True) (fun p => p = items.flatten ∧ ∀ bs ∈ items, fill bs) contained 0 t2 trail' items.flatten :=
    ht.mono id fun hitems => ⟨rfl, hitems⟩
  obtain ⟨hdr, htook⟩ := hlist.behind h1 hle
  refine ⟨hdr ++ items.flatten, htook.forget.mono (fun _ => trivial) ?_⟩
  rintro ⟨p, hp, rfl, hitems⟩
  exact ⟨a, items, hp, trivial, hitems⟩

/-- The string around an array is used up if the elements take up all of it behind the list header. -/
theorem fills_list_array (h : Consumes frame fill elem) (N : Nat) :
    Fills (fun _ => True) (ListOf (· = N) fill) (list_array elem N) := by
  intro size trail trail' hr
  simp only [list_array, bind_eq_ok] at hr
  obtain ⟨⟨⟨a, contained⟩, left⟩, t1, h1, hr⟩ := hr
  simp only at hr
  obtain ⟨undeclared, t2, h2, _, t3, h3, hr⟩ := hr
  cases h3
  obtain ⟨hw, hd1⟩ := lift_eq_ok h1
  obtain ⟨hdr, hbytes, hlen, hheaded⟩ := header_eq_ok hw
  obtain ⟨hle, rfl, rfl⟩ := sub_eq_ok h2
  obtain ⟨items, left', ht, hcount, hturns⟩ := turns_ok h hr
  have hused := ht.le
  have hitems := ht.bytes
  have hN : items.length = N := by
    split at hturns
    · rwa [if_pos ‹_›] at hcount
    · omega
  have hdeclared : trail'.declared = true → t2.declared = true ∧ left - contained = 0 := by
    intro hd
    have := ht.declared hd
    simpa using this
  refine ⟨hdr ++ items.flatten, by rw [hbytes, hitems, List.append_assoc], ?_,
    fun hd => by rw [← hd1, (hdeclared hd).1], fun _ => trivial, ?_⟩
  · simp only [List.length_append]
    omega
  · intro heq hd
    have hsub := (hdeclared hd).2
    simp only [List.length_append] at heq
    exact ⟨a, items, hheaded _ _ hitems (by omega), hN, ht.fill (by omega) hd⟩

end Loops

theorem Scan.vector_of_ne {t : Ty} (h : t ≠ .uint .w8) (elem : Nat → Scan Nat) : Scan.vector t elem = list_vector elem := by
  cases t with
  | uint w => cases w with
    | w8 => exact absurd rfl h
    | _ => rfl
  | _ => rfl

theorem Scan.array_of_ne {t : Ty} (h : t ≠ .uint .w8) (elem : Nat → Scan Nat) : Scan.array t elem = list_array elem := by
  cases t with
  | uint w => cases w with
    | w8 => exact absurd rfl h
    | _ => rfl
  | _ => rfl

theorem vector_filled_of_ne {t : Ty} (h : t ≠ .uint .w8) (item : Bytes → Prop) :
    vector_filled t item = ListOf (fun _ => True) item := by
  cases t with
  | uint w => cases w with
    | w8 => exact absurd rfl h
    | _ => rfl
  | _ => rfl

theorem array_filled_of_ne {t : Ty} (h : t ≠ .uint .w8) (item : Bytes → Prop) (N : Nat) :
    array_filled t item N = ListOf (· = N) item := by
  cases t with
  | uint w => cases w with
    | w8 => exact absurd rfl h
    | _ => rfl
  | _ => rfl

theorem fills_string : Fills (fun _ => True) (fun _ => True)
    fun size => if size < 2 ^ 32 then Scan.skip size else throw .breaks := by
  intro size trail trail' hr
  dsimp only at hr
  split at hr
  · exact fills_skip size trail trail' hr
  · cases hr

theorem fills_vector {t : Ty} {frame fill : Bytes → Prop} (h : Consumes frame fill (scan t)) :
    Fills (fun _ => True) (vector_filled t fill) (Scan.vector t (scan t)) := by
  by_cases ht : t = .uint .w8
  · subst ht
    exact fills_string
  · rw [Scan.vector_of_ne ht, vector_filled_of_ne ht]
    exact fills_list_vector h

theorem fills_array {t : Ty} {frame fill : Bytes → Prop} (h : Consumes frame fill (scan t)) (N : Nat) :
    Fills (fun _ => True) (array_filled t fill N) (Scan.array t (scan t) N) := by
  by_cases ht : t = .uint .w8
  · subst ht
    intro size trail trail' hr
    change (if size ≠ N then throw .rejected else Scan.skip N) trail = .ok () trail' at hr
    by_cases hN : size = N
    · subst hN
      rw [if_neg (not_not.2 rfl)] at hr
      obtain ⟨used, ht⟩ := fills_skip size trail trail' hr
      exact ⟨used, ht.bytes, ht.le, ht.declared, fun _ => trivial, fun heq _ => heq⟩
    · rw [if_pos hN] at hr
      cases hr
  · rw [Scan.array_of_ne ht, array_filled_of_ne ht]
    exact fills_list_array h N

theorem Consumes.mono {frame fill frame' fill' : Bytes → Prop} {s : Nat → Scan Nat} (h : Consumes frame fill s)
    (hf : ∀ bs, frame bs → frame' bs) (hg : ∀ bs, fill bs → fill' bs) : Consumes frame' fill' s := by
  refine ⟨?_, h.2⟩
  intro size trail size' trail' hr
  obtain ⟨used, ht⟩ := h.1 size trail size' trail' hr
  exact ⟨used, ht.mono (hf used) (hg used)⟩

/-- One element after the other. -/
theorem runs_cons {frame fill frame' fill' f g : Bytes → Prop} {s s' : Nat → Scan Nat} (h : Runs frame fill s)
    (h' : Runs frame' fill' s') (hf : ∀ bs bs', frame bs → frame' bs' → f (bs ++ bs'))
    (hg : ∀ bs bs', fill bs → fill' bs' → g (bs ++ bs')) :
    Runs f g (fun size => do
      let size ← s size
      s' size) := by
  intro size trail size' trail' hr
  simp only [bind_eq_ok] at hr
  obtain ⟨size1, trail1, h1, h2⟩ := hr
  obtain ⟨used, ht⟩ := h size trail size1 trail1 h1
  obtain ⟨used', ht'⟩ := h' size1 trail1 size' trail' h2
  exact ⟨used ++ used', ht.append ht' (hf used used') (hg used used')⟩

theorem runs_pure {frame fill : Bytes → Prop} (hf : frame []) (hg : fill []) :
    Runs frame fill fun size => (pure size : Scan Nat) := by
  intro size trail size' trail' hr
  cases hr
  exact ⟨[], rfl, by simp, id, fun _ => hf, fun _ _ => hg⟩

theorem Runs.fills {frame fill : Bytes → Prop} {s : Nat → Scan Nat} (h : Runs frame fill s) :
    Fills frame fill (fun size => do
      let _ ← s size) := by
  intro size trail trail' hr
  simp only [bind_eq_ok] at hr
  obtain ⟨size1, trail1, h1, h2⟩ := hr
  cases h2
  obtain ⟨used, ht⟩ := h size trail size1 trail' h1
  exact ⟨used, ht.forget⟩

theorem scan_tuple_nil : scan_tuple [] = fun size => pure size := by
  funext size
  simp only [scan_tuple]

theorem scan_tuple_cons (t : Ty) (ts : List Ty) :
    scan_tuple (t :: ts) = (fun size => do
      let size ← scan t size
      scan_tuple ts size) := by
  funext size
  simp only [scan_tuple]

/-- A string, whose payload is of no account to `Framed`. -/
theorem consumes_string {frame fill : Bytes → Prop} {payload : Nat → Scan Unit} (h : Fills frame fill payload) :
    Consumes (fun bs => ∃ p, Headed .single bs p) (fun bs => ∃ p, Headed .single bs p ∧ fill p)
      (Scan.item .single payload) := by
  refine (consumes_item h).mono ?_ fun bs hbs => hbs
  rintro bs ⟨p, hp, -⟩
  exact ⟨p, hp⟩

/-- A string whose payload is of no account at all. -/
theorem consumes_headed {frame fill : Bytes → Prop} {payload : Nat → Scan Unit} (h : Fills frame fill payload) :
    Consumes (fun bs => ∃ p, Headed .single bs p) (fun bs => ∃ p, Headed .single bs p) (Scan.item .single payload) := by
  refine (consumes_string h).mono (fun bs hbs => hbs) ?_
  rintro bs ⟨p, hp, -⟩
  exact ⟨p, hp⟩

mutual

theorem consumes_scan : ∀ t : Ty, Consumes (Framed t) (Filled t) (scan t)
  | .uint w => by
    unfold scan
    refine consumes_headed (.ite ?_ fills_skip)
    intro size _ trail trail' hr
    cases hr
  | .u256 => by
    unfold scan
    refine consumes_headed (.ite ?_ fills_skip)
    intro size _ trail trail' hr
    cases hr
  | .string => by
    unfold scan
    exact consumes_headed fills_string
  | .vector t => by
    unfold scan
    exact consumes_string (fills_vector (consumes_scan t))
  | .array t N => by
    unfold scan
    exact consumes_string (fills_array (consumes_scan t) N)
  | .tuple ts => by
    unfold scan
    exact consumes_item (runs_scan_tuple ts).fills

theorem runs_scan_tuple : ∀ ts : List Ty, Runs (Framed_all ts) (Filled_all ts) (scan_tuple ts)
  | [] => by
    rw [scan_tuple_nil]
    exact runs_pure (by simp only [Framed_all]) (by simp only [Filled_all])
  | t :: ts => by
    rw [scan_tuple_cons]
    refine runs_cons (consumes_scan t).1 (runs_scan_tuple ts) ?_ ?_
    · intro bs bs' h h'
      exact ⟨bs, bs', rfl, h, h'⟩
    · intro bs bs' h h'
      exact ⟨bs, bs', rfl, h, h'⟩

end

/-! ## Packs with tuples -/

/-- What `decode_item` decodes: the components of a tuple in place of the tuple. -/
def components : Ty → List Ty
  | .tuple ts => ts
  | t => [t]

theorem components_of_not_tuple {t : Ty} (h : t.is_tuple = false) : components t = [t] ∧ scan_item t = scan t := by
  cases t with
  | tuple ts => cases h
  | _ => exact ⟨rfl, rfl⟩

theorem scan_multiple_of_plain : ∀ {ts : List Ty}, (∀ t ∈ ts, t.is_tuple = false) → scan_multiple ts = scan_tuple ts
  | [], _ => by
    rw [scan_tuple_nil]
    rfl
  | t :: ts, h => by
    have h1 := (components_of_not_tuple (h t List.mem_cons_self)).2
    have h2 := scan_multiple_of_plain fun u hu => h u (List.mem_cons_of_mem t hu)
    funext size
    simp only [scan_multiple, scan_tuple, h1, h2]

theorem framed_all_append {ts us : List Ty} {bs bs' : Bytes} (h : Framed_all ts bs) (h' : Framed_all us bs') :
    Framed_all (ts ++ us) (bs ++ bs') := by
  induction ts generalizing bs with
  | nil =>
    simp only [Framed_all] at h
    subst h
    exact h'
  | cons t ts ih =>
    simp only [Framed_all] at h
    obtain ⟨item, rest, rfl, ht, hts⟩ := h
    rw [List.cons_append, List.append_assoc, Framed_all]
    exact ⟨item, rest ++ bs', rfl, ht, ih hts⟩

theorem runs_scan_item (t : Ty) : Runs (Framed_all (components t)) (fun _ => True) (scan_item t) := by
  have htrue : ∀ {fill : Bytes → Prop} {s : Nat → Scan Nat} {frame : Bytes → Prop}, Runs frame fill s →
      Runs frame (fun _ => True) s := by
    intro fill s frame h size trail size' trail' hr
    obtain ⟨used, ht⟩ := h size trail size' trail' hr
    exact ⟨used, ht.mono id fun _ => trivial⟩
  cases htuple : t.is_tuple with
  | true =>
    obtain ⟨ts, rfl⟩ := exists_of_is_tuple htuple
    exact htrue (runs_scan_tuple ts)
  | false =>
    obtain ⟨h1, h2⟩ := components_of_not_tuple htuple
    rw [h1, h2]
    intro size trail size' trail' hr
    obtain ⟨used, ht⟩ := (consumes_scan t).1 size trail size' trail' hr
    refine ⟨used, ht.mono ?_ fun _ => trivial⟩
    intro h
    rw [Framed_all]
    exact ⟨used, [], (List.append_nil used).symm, h, by rw [Framed_all]⟩

/-- A pack with tuples is scanned as if their components were in the pack. -/
theorem runs_scan_multiple : ∀ ts : List Ty, Runs (Framed_all (ts.flatMap components)) (fun _ => True) (scan_multiple ts)
  | [] => runs_pure (by rw [List.flatMap_nil, Framed_all]) trivial
  | t :: ts => runs_cons (runs_scan_item t) (runs_scan_multiple ts) (fun _ _ h h' => framed_all_append h h')
      fun _ _ _ _ => trivial

theorem Headed.length_pos {a : Arity} {bs payload : Bytes} (h : Headed a bs payload) :
    0 < bs.length ∧ payload.length ≤ bs.length ∧ (a = .multiple → payload.length < bs.length) := by
  cases h with
  | byte => simp
  | short => simp
  | long =>
    simp only [List.length_cons, List.length_append]
    omega

/-- One byte string has one header and one payload, whatever follows. -/
theorem Headed.unique {a a' : Arity} {bs bs' payload payload' more more' : Bytes} (h : Headed a bs payload)
    (h' : Headed a' bs' payload') (heq : bs ++ more = bs' ++ more') :
    a' = a ∧ payload' = payload ∧ bs' = bs ∧ more' = more := by
  have hr := header_of_headed h more (Nat.le_max_left bs.length bs'.length)
  have hr' := header_of_headed h' more' (Nat.le_max_right bs.length bs'.length)
  rw [heq, hr'] at hr
  simp only [EStateM.Result.ok.injEq, Prod.mk.injEq] at hr
  obtain ⟨⟨⟨ha, hlen⟩, -⟩, hrest⟩ := hr
  obtain ⟨hp, hmore⟩ := List.append_inj hrest hlen
  subst hmore
  exact ⟨ha, hp, List.append_cancel_right heq.symm, rfl⟩

/-- The arity and payload of a framed item, whose list is framed where it has one. -/
theorem Framed.headed {t : Ty} {bs : Bytes} (h : Framed t bs) :
    ∃ a payload, Headed a bs payload ∧ ((a = .single ∧ t.is_tuple = false) ∨
      ∃ ts, t = .tuple ts ∧ a = .multiple ∧ Framed_all ts payload) := by
  cases t with
  | tuple ts =>
    simp only [Framed] at h
    obtain ⟨payload, hh, hp⟩ := h
    exact ⟨_, payload, hh, .inr ⟨ts, rfl, rfl, hp⟩⟩
  | _ =>
    simp only [Framed] at h
    obtain ⟨payload, hh⟩ := h
    exact ⟨_, payload, hh, .inl ⟨rfl, rfl⟩⟩

/-- Two packs that frame one byte string have equally many headers in it. -/
theorem length_arities_eq (n : Nat) : ∀ (ts ts' : List Ty) (bs : Bytes), bs.length ≤ n → Framed_all ts bs →
    Framed_all ts' bs → (arities_all ts).length = (arities_all ts').length := by
  have hnil : ∀ (t : Ty) (ts : List Ty), ¬Framed_all (t :: ts) [] := by
    intro t ts h
    rw [Framed_all] at h
    obtain ⟨item, rest, heq, ht, -⟩ := h
    obtain ⟨a, payload, hh, -⟩ := ht.headed
    have hlen := congrArg List.length heq
    have := hh.length_pos.1
    simp only [List.length_nil, List.length_append] at hlen
    omega
  induction n with
  | zero =>
    intro ts ts' bs hlen h h'
    obtain rfl := List.eq_nil_of_length_eq_zero (Nat.le_zero.1 hlen)
    cases ts with
    | nil => cases ts' with
      | nil => rfl
      | cons t' ts' => exact absurd h' (hnil t' ts')
    | cons t ts => exact absurd h (hnil t ts)
  | succ n ih =>
    intro ts ts' bs hlen h h'
    cases ts with
    | nil =>
      simp only [Framed_all] at h
      subst h
      cases ts' with
      | nil => rfl
      | cons t' ts' => exact absurd h' (hnil t' ts')
    | cons t ts =>
      cases ts' with
      | nil =>
        simp only [Framed_all] at h'
        subst h'
        exact absurd h (hnil t ts)
      | cons t' ts' =>
        simp only [Framed_all] at h h'
        obtain ⟨item, rest, rfl, ht, hts⟩ := h
        obtain ⟨item', rest', heq, ht', hts'⟩ := h'
        obtain ⟨a, payload, hh, hcase⟩ := ht.headed
        obtain ⟨a', payload', hh', hcase'⟩ := ht'.headed
        obtain ⟨rfl, rfl, rfl, rfl⟩ := hh.unique hh' heq
        obtain ⟨hpos, hle, hlt⟩ := hh.length_pos
        simp only [List.length_append] at hlen
        have hrest := ih ts ts' rest' (by omega) hts hts'
        rcases hcase with ⟨rfl, htuple⟩ | ⟨us, rfl, rfl, hus⟩
        · rcases hcase' with ⟨-, htuple'⟩ | ⟨us', -, ha, -⟩
          · simp only [arities_all, List.length_append, arities_of_not_tuple htuple, arities_of_not_tuple htuple', hrest]
          · cases ha
        · rcases hcase' with ⟨ha, -⟩ | ⟨us', rfl, -, hus'⟩
          · cases ha
          · have := hlt rfl
            have hinner := ih us us' payload' (by omega) hus hus'
            simp only [arities_all, arities, List.length_append, List.length_cons, hrest, hinner]

theorem arities_all_append (ts us : List Ty) : arities_all (ts ++ us) = arities_all ts ++ arities_all us := by
  induction ts with
  | nil => simp only [List.nil_append, arities_all]
  | cons t ts ih => simp only [List.cons_append, arities_all, ih, List.append_assoc]

theorem length_arities_components (t : Ty) :
    (arities_all (components t)).length + (if t.is_tuple then 1 else 0) = (arities t).length := by
  cases htuple : t.is_tuple with
  | true =>
    obtain ⟨ts, rfl⟩ := exists_of_is_tuple htuple
    simp [components, arities]
  | false => simp [(components_of_not_tuple htuple).1, arities_all]

theorem length_arities_flatMap (ts : List Ty) :
    (arities_all (ts.flatMap components)).length + ts.countP (·.is_tuple) = (arities_all ts).length := by
  induction ts with
  | nil => rfl
  | cons t ts ih =>
    have ht := length_arities_components t
    simp only [List.flatMap_cons, arities_all_append, arities_all, List.length_append, List.countP_cons]
    omega

/-- A byte string framed for a pack is none for the pack with its tuples taken apart. -/
theorem not_tuple_of_framed {ts : List Ty} {bs : Bytes} (h : Framed_all ts bs)
    (h' : Framed_all (ts.flatMap components) bs) : ∀ t ∈ ts, t.is_tuple = false := by
  have hlen := length_arities_eq bs.length ts _ bs (Nat.le_refl _) h h'
  have hcount := length_arities_flatMap ts
  have hzero : ts.countP (·.is_tuple) = 0 := by omega
  intro t ht
  rw [List.countP_eq_zero] at hzero
  simpa using hzero t ht

end EEVM.Rlp

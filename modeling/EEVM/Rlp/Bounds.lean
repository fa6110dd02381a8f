import EEVM.Rlp.RoundTrip
/-!
# What the decoder reads (rlp.h:298-645)

No header is compared with what is left of the data it stands in. `Safe` says what a bounds check would have to
ensure. `walk` follows the headers of the input through the types, as the decoder does, on the bytes that may be
read (from the pointer to the end of the innermost payload) and without reading more than their lengths; it stops
where the decoder throws (`rejected`) and where a header asks for more than there is (`overrun`). The decoder is
safe exactly on the inputs whose walk does not overrun (`safe_iff_fits`).
-/
namespace EEVM.Rlp

open ExcState BigEndian

/-! ## Safe decoding -/

def Event.Safe : Event → Prop
  | .read pos lim => lim < pos
  | .sub size amount => amount ≤ size

instance (e : Event) : Decidable e.Safe := by
  cases e <;> exact Nat.decLe _ _

/-- Every read is inside its payload, no counter goes below zero, and what is thrown is a `decode_error`. -/
structure Safe {α : Type} (r : EStateM.Result Fail Cursor α) : Prop where
  events : ∀ e ∈ (final r).log, e.Safe
  fails : ∀ e c, r = .error e c → ∃ what, e = .decode_error what

/-! ## The walk over the headers -/

inductive Stop
  | rejected | overrun
deriving DecidableEq, Repr

/-- The state is what lies between the pointer and the end of the innermost payload. -/
abbrev Walk := EStateM Stop Bytes

namespace Walk

def peek : Walk UInt8 := fun bytes =>
  match bytes with
  | [] => .error .overrun bytes
  | first :: _ => .ok first bytes

def next : Walk UInt8 := fun bytes =>
  match bytes with
  | [] => .error .overrun bytes
  | first :: rest => .ok first rest

def take : Nat → Walk Bytes
  | 0 => pure []
  | n + 1 => do
    let first ← next
    let rest ← take n
    pure (first :: rest)

def skip (n : Nat) : Walk Unit := do
  let _ ← take n

def sub (size amount : Nat) : Walk Nat := if amount ≤ size then pure (size - amount) else throw .overrun

/-- `w` on a payload of `n` bytes, or of what there is of it. -/
def within {α : Type} (n : Nat) (w : Walk α) : Walk α := fun bytes =>
  match w (bytes.take n) with
  | .ok a rest => .ok a (rest ++ bytes.drop n)
  | .error e rest => .error e rest

def long_header (arity : Arity) (size n : Nat) : Walk ((Arity × Nat) × Nat) :=
  if size < n then throw .rejected
  else do
    let size ← sub size n
    let length ← take n
    pure ((arity, ofBytes length), size)

/-- What `decode_length` makes of the header. -/
def header (size : Nat) : Walk ((Arity × Nat) × Nat) :=
  if size = 0 then throw .rejected
  else do
    let first ← peek
    if first ≤ 0x7f then pure ((.single, 1), size)
    else do
      let length := (← next).toNat
      let size ← sub size 1
      if length ≤ 0xb7 then pure ((.single, length - 0x80), size)
      else if length ≤ 0xbf then long_header .single size (length - 0xb7)
      else if length ≤ 0xf7 then pure ((.multiple, length - 0xc0), size)
      else long_header .multiple size (length - 0xf7)

/-- An item of the given arity, `payload` inside it: what is left of the counter. -/
def item (arity : Arity) (payload : Nat → Walk Unit) (size : Nat) : Walk Nat := do
  let ((found, contained), size) ← header size
  if found ≠ arity then throw .rejected
  else do
    let size ← sub size contained
    within contained (payload contained)
    pure size

/-- `n` elements. -/
def turns (elem : Nat → Walk Nat) : Nat → Nat → Walk Unit
  | 0, _ => pure ()
  | n + 1, size => do
    let size ← elem size
    turns elem n size

/-- Elements until the counter is used up; each takes at least 1 off it. -/
def until_zero (elem : Nat → Walk Nat) : Nat → Nat → Walk Unit
  | _, 0 => pure ()
  | 0, _ + 1 => throw .overrun
  | n + 1, size => do
    let size ← elem size
    until_zero elem n size

def list_vector (elem : Nat → Walk Nat) (size : Nat) : Walk Unit := do
  let ((_, contained), _) ← header size
  within contained (until_zero elem contained contained)

/-- From `2^32` elements on the loop goes on until it fails, which it has done after `size + 1` turns. -/
def list_array (elem : Nat → Walk Nat) (N size : Nat) : Walk Unit := do
  let ((_, contained), size) ← header size
  within contained (turns elem (if N < 2 ^ 32 then N else size + 1) size)

def vector : Ty → (Nat → Walk Nat) → Nat → Walk Unit
  | .uint .w8, _, size => if size < 2 ^ 32 then skip size else throw .overrun
  | _, elem, size => list_vector elem size

def array : Ty → (Nat → Walk Nat) → (N size : Nat) → Walk Unit
  | .uint .w8, _, N, size => if size ≠ N then throw .rejected else skip N
  | _, elem, N, size => list_array elem N size

end Walk

open Walk

mutual

/-- The walk over an item of type `t`. -/
def walk : Ty → Nat → Walk Nat
  | .uint _ => item .single fun size => if size > 8 then throw .rejected else skip size
  | .u256 => item .single fun size => if size > 32 then throw .overrun else skip size
  | .string => item .single fun size => if size < 2 ^ 32 then skip size else throw .overrun
  | .vector t => item .single (Walk.vector t (walk t))
  | .array t N => item .single (Walk.array t (walk t) N)
  | .tuple ts => item .multiple fun size => do
    let _ ← walk_tuple ts size

def walk_tuple : List Ty → Nat → Walk Nat
  | [], size => pure size
  | t :: ts, size => do
    let size ← walk t size
    walk_tuple ts size

end

/-- A tuple has no header of its own here. -/
def walk_item : Ty → Nat → Walk Nat
  | .tuple ts => walk_tuple ts
  | t => walk t

def walk_multiple : List Ty → Nat → Walk Nat
  | [], size => pure size
  | t :: ts, size => do
    let size ← walk_item t size
    walk_multiple ts size

def walk_none (size : Nat) : Walk Nat := do
  let ((arity, contained), size) ← header size
  if arity ≠ .multiple then throw .rejected
  else if contained ≠ 0 then throw .rejected
  else pure size

def walk_args : List Ty → Nat → Walk Nat
  | [] => walk_none
  | [t] => walk t
  | t :: t' :: ts => item .multiple fun size => do
    let _ ← walk_multiple (t :: t' :: ts) size

/-- No header that the walk through `ts` meets asks for more than there is. -/
def Fits (ts : List Ty) (bytes : Bytes) : Prop := ∀ rest, walk_args ts bytes.length bytes ≠ .error .overrun rest

/-! ## The log -/

/-- The log only grows. -/
def Grows (c c' : Cursor) : Prop := c.log <:+ c'.log

instance : Std.Refl Grows := ⟨fun c => List.suffix_refl c.log⟩
instance : IsTrans Cursor Grows := ⟨fun _ _ _ h1 h2 => h1.trans h2⟩

abbrev Logs {α : Type} (m : Decoder α) : Prop := Keeps Grows (fun _ _ => True) m

theorem logs_of_final {α : Type} {m : Decoder α} (h : ∀ c, Grows c (final (m c))) : Logs m := by
  intro c
  have hc := h c
  cases hm : m c with
  | ok a c' =>
    rw [hm] at hc
    exact hc
  | error e c' =>
    rw [hm] at hc
    exact ⟨hc, trivial⟩

theorem Safe.of_grows {α : Type} {r : EStateM.Result Fail Cursor α} {c : Cursor} (h : Safe r)
    (hg : Grows c (final r)) : ∀ e ∈ c.log, e.Safe :=
  fun e he => h.events e (hg.subset he)

/-! ## Following the walk -/

/-- The pointer is at `bytes`, the payload around it ends before `behind`, and nothing unsafe has happened. -/
structure Readable (behind : Bytes) (c : Cursor) (bytes : Bytes) : Prop where
  data : c.data = bytes ++ behind
  safe : ∀ e ∈ c.log, e.Safe

/-- `m` ends like `w`, with results in `Q`, or is unsafe where `w` overruns. -/
structure Follows (behind : Bytes) {α β : Type} (Q : α → β → Prop) (m : Decoder α) (w : Walk β) : Prop where
  logs : Logs m
  ends : ∀ c bytes, Readable behind c bytes → match w bytes with
    | .ok b rest => ∃ a c', m c = .ok a c' ∧ Q a b ∧ Readable behind c' rest
    | .error .rejected _ => ∃ what c', m c = .error (.decode_error what) c' ∧ ∀ e ∈ c'.log, e.Safe
    | .error .overrun _ => ¬Safe (m c)

namespace Follows

variable {behind : Bytes} {α β γ δ : Type} {Q : α → β → Prop} {Q' : γ → δ → Prop} {m : Decoder α} {w : Walk β}
  {f : α → Decoder γ} {g : β → Walk δ}

theorem pure {a : α} {b : β} (h : Q a b) : Follows behind Q (pure a) (pure b) :=
  ⟨Keeps.pure a, fun c _ hc => ⟨a, c, rfl, h, hc⟩⟩

theorem reject (what : String) : Follows behind Q (throw (.decode_error what)) (throw .rejected) :=
  ⟨Keeps.throw fun _ => trivial, fun c _ hc => ⟨what, c, rfl, hc.safe⟩⟩

theorem and_ok {P : β → Prop} (h : Follows behind Q m w) (hP : ∀ bytes b rest, w bytes = .ok b rest → P b) :
    Follows behind (fun a b => Q a b ∧ P b) m w := by
  refine ⟨h.logs, fun c bytes hc => ?_⟩
  have he := h.ends c bytes hc
  cases hw : w bytes with
  | ok b rest =>
    rw [hw] at he
    obtain ⟨a, c', hm, hq, hc'⟩ := he
    exact ⟨a, c', hm, ⟨hq, hP bytes b rest hw⟩, hc'⟩
  | error e rest =>
    rw [hw] at he
    cases e <;> exact he

/-- What has gone wrong in `m` stays in the log of `m >>= f`. -/
theorem not_safe_bind (hf : ∀ a, Logs (f a)) {c : Cursor} (h : ¬Safe (m c)) :
    ¬Safe ((m >>= f) c) := by
  intro hs
  apply h
  cases hr : m c with
  | ok a c' =>
    rw [bind_of_ok hr] at hs
    exact ⟨hs.of_grows ((hf a).final c'), nofun⟩
  | error e c' =>
    rw [bind_of_error hr] at hs
    exact ⟨hs.events, fun e' c'' he => hs.fails e' c'' (by cases he; rfl)⟩

theorem bind (h : Follows behind Q m w) (hf : ∀ a b, Q a b → Follows behind Q' (f a) (g b)) (hlog : ∀ a, Logs (f a)) :
    Follows behind Q' (m >>= f) (w >>= g) := by
  refine ⟨h.logs.bind hlog, fun c bytes hc => ?_⟩
  have he := h.ends c bytes hc
  cases hw : w bytes with
  | ok b rest =>
    rw [hw] at he
    obtain ⟨a, c', hm, hq, hc'⟩ := he
    rw [bind_of_ok hm, bind_of_ok hw]
    exact (hf a b hq).ends c' rest hc'
  | error e rest =>
    rw [hw] at he
    rw [bind_of_error hw]
    cases e with
    | rejected =>
      obtain ⟨what, c', hm, hs⟩ := he
      exact ⟨what, c', bind_of_error hm, hs⟩
    | overrun => exact not_safe_bind hlog he

/-- The same results go on in the same way. -/
theorem bind_eq {w : Walk α} {g : α → Walk δ} (h : Follows behind Eq m w) (hf : ∀ a, Follows behind Q' (f a) (g a)) :
    Follows behind Q' (m >>= f) (w >>= g) := by
  refine h.bind ?_ fun a => (hf a).logs
  rintro a _ rfl
  exact hf a

theorem map {Q1 : α → δ → Prop} {k : β → δ} (h : Follows behind Q m w) (hQ : ∀ a b, Q a b → Q1 a (k b)) :
    Follows behind Q1 m (do let b ← w; return k b) := by
  rw [← bind_pure m]
  exact h.bind (fun a b hq => .pure (hQ a b hq)) fun _ => Keeps.pure _

theorem ite {p q : Prop} [Decidable p] [Decidable q] {m' : Decoder α} {w' : Walk β} (hpq : p ↔ q)
    (h : p → Follows behind Q m w) (h' : ¬p → Follows behind Q m' w') :
    Follows behind Q (if p then m else m') (if q then w else w') := by
  by_cases hp : p
  · rw [if_pos hp, if_pos (hpq.1 hp)]
    exact h hp
  · rw [if_neg hp, if_neg (hp ∘ hpq.2)]
    exact h' hp

end Follows

/-! ## Reading and counting -/

section

variable {behind : Bytes}

theorem Readable.log {c : Cursor} {bytes : Bytes} (h : Readable behind c bytes) {e : Event} (he : e.Safe) :
    ∀ e' ∈ e :: c.log, e'.Safe := by
  intro e' he'
  rcases List.mem_cons.1 he' with rfl | he'
  · exact he
  · exact h.safe e' he'

theorem not_safe_of_mem {α : Type} {r : EStateM.Result Fail Cursor α} {e : Event} (h : e ∈ (final r).log) (he : ¬e.Safe) :
    ¬Safe r := fun hs => he (hs.events e h)

/-- A read behind the payload, in bounds of the buffer or not. -/
theorem not_safe_read {α : Type} {r : EStateM.Result Fail Cursor α} {log : List Event}
    (h : (final r).log = .read behind.length behind.length :: log) : ¬Safe r := by
  refine not_safe_of_mem (by rw [h]; exact List.mem_cons_self) ?_
  exact Nat.lt_irrefl _

/-- A read inside the payload. -/
theorem safe_read (first : UInt8) (rest : Bytes) :
    Event.Safe (.read (first :: rest ++ behind).length behind.length) := by
  change behind.length < (first :: rest ++ behind).length
  rw [List.length_append, List.length_cons]
  omega

theorem follows_peek : Follows behind Eq (peek behind.length) Walk.peek := by
  constructor
  · rintro ⟨_ | ⟨b, data⟩, log⟩
    · exact ⟨List.suffix_cons _ _, trivial⟩
    · exact List.suffix_cons _ _
  · rintro ⟨data, log⟩ bytes hc
    obtain rfl : data = bytes ++ behind := hc.data
    cases bytes with
    | nil => cases behind <;> exact not_safe_read rfl
    | cons first rest => exact ⟨first, _, rfl, rfl, rfl, hc.log (safe_read first rest)⟩

theorem follows_next : Follows behind Eq (next_byte behind.length) Walk.next := by
  constructor
  · rintro ⟨_ | ⟨b, data⟩, log⟩
    · exact ⟨List.suffix_cons _ _, trivial⟩
    · exact List.suffix_cons _ _
  · rintro ⟨data, log⟩ bytes hc
    obtain rfl : data = bytes ++ behind := hc.data
    cases bytes with
    | nil => cases behind <;> exact not_safe_read rfl
    | cons first rest => exact ⟨first, _, rfl, rfl, rfl, hc.log (safe_read first rest)⟩

theorem follows_sub (size amount : Nat) : Follows behind Eq (size_sub size amount) (Walk.sub size amount) := by
  refine ⟨fun c => List.suffix_cons _ c.log, fun c bytes hc => ?_⟩
  unfold Walk.sub
  by_cases h : amount ≤ size
  · rw [if_pos h]
    have hm : size_sub size amount c = .ok (size - amount) { c with log := .sub size amount :: c.log } := by
      rw [size_sub, if_pos h]
    exact ⟨size - amount, _, hm, rfl, hc.data, hc.log (e := .sub size amount) h⟩
  · rw [if_neg h]
    exact not_safe_of_mem (e := .sub size amount) List.mem_cons_self h

/-- What follows `w` inside every payload follows it inside this one. -/
theorem follows_within {α β : Type} {Q : α → β → Prop} {m : Nat → Decoder α} {w : Walk β} (contained : Nat)
    (h : ∀ behind : Bytes, Follows behind Q (m behind.length) w) :
    Follows behind Q (payload_end behind.length contained >>= m) (within contained w) := by
  have hlog : ∀ lim, Logs (m lim) := fun lim => by simpa using (h (List.replicate lim 0)).logs
  refine ⟨Keeps.bind (fun c => List.suffix_refl c.log) hlog, ?_⟩
  rintro ⟨data, log⟩ bytes hc
  obtain rfl : data = bytes ++ behind := hc.data
  have hdata : bytes ++ behind = bytes.take contained ++ (bytes.drop contained ++ behind) := by
    rw [← List.append_assoc, List.take_append_drop]
  have hend : payload_end behind.length contained ⟨bytes ++ behind, log⟩ =
      .ok (bytes.drop contained ++ behind).length ⟨bytes ++ behind, log⟩ := by
    have : max behind.length ((bytes ++ behind).length - contained) = (bytes.drop contained ++ behind).length := by
      simp
      omega
    rw [payload_end, this]
  rw [bind_of_ok hend]
  have he := (h _).ends ⟨bytes ++ behind, log⟩ (bytes.take contained) ⟨hdata, hc.safe⟩
  unfold within
  cases hw : w (bytes.take contained) with
  | ok b rest =>
    rw [hw] at he
    obtain ⟨a, c', hm, hq, hdata', hsafe⟩ := he
    exact ⟨a, c', hm, hq, by rw [hdata', List.append_assoc], hsafe⟩
  | error e rest =>
    rw [hw] at he
    cases e <;> exact he

/-! ## `from_bytes` -/

theorem follows_read_bytes : ∀ size : Nat, Follows behind Eq (read_bytes behind.length size) (take size)
  | 0 => .pure rfl
  | size + 1 => by
    refine follows_next.bind_eq fun b => ?_
    exact (follows_read_bytes size).bind_eq fun bs => .pure rfl

theorem follows_size_t_loop : ∀ size result : Nat,
    Follows behind (fun r bytes => r = ofBytesFrom result bytes) (size_t_loop behind.length size result) (take size)
  | 0, result => .pure rfl
  | size + 1, result => by
    refine follows_next.bind_eq fun b => ?_
    exact (follows_size_t_loop size _).map fun r bs hr => hr

theorem follows_size_t {size : Nat} (h : size ≤ 8) :
    Follows behind (fun r bytes => r = ofBytes bytes) (from_bytes_size_t behind.length size) (take size) := by
  rw [from_bytes_size_t, if_neg (by omega)]
  exact follows_size_t_loop size 0

/-- The loop over a 32-bit counter that can reach its end. -/
theorem copy_loop_eq_read_bytes (lim : Nat) {size : Nat} (hsize : size < 2 ^ 32) : ∀ (data : Bytes) (i : UInt32)
    (log : List Event), i.toNat ≤ size → copy_loop lim size i data log = read_bytes lim (size - i.toNat) ⟨data, log⟩
  | data, i, log, hi => by
    by_cases h : i.toNat < size
    · obtain ⟨k, hk⟩ : ∃ k, size - i.toNat = k + 1 := ⟨size - i.toNat - 1, by omega⟩
      cases data with
      | nil =>
        unfold copy_loop
        rw [if_pos h, hk]
        rfl
      | cons b data =>
        have hi1 : (i + 1).toNat = i.toNat + 1 := by
          rw [UInt32.toNat_add]
          exact Nat.mod_eq_of_lt (by simp; omega)
        have ih := copy_loop_eq_read_bytes lim hsize data (i + 1) (.read (data.length + 1) lim :: log) (by omega)
        have hk' : size - (i + 1).toNat = k := by omega
        rw [copy_loop, if_pos h, ih, hk, hk', read_bytes]
        have hb : next_byte lim ⟨b :: data, log⟩ = .ok b ⟨data, .read (data.length + 1) lim :: log⟩ := rfl
        rw [bind_of_ok hb, run_bind]
        cases read_bytes lim k ⟨data, .read (data.length + 1) lim :: log⟩ <;> rfl
    · have hk : size - i.toNat = 0 := by omega
      rw [hk]
      cases data <;>
      · unfold copy_loop
        rw [if_neg h]
        rfl

/-- The loop over a 32-bit counter that cannot. -/
theorem copy_loop_endless (lim : Nat) {size : Nat} (hsize : 2 ^ 32 ≤ size) : ∀ (data : Bytes) (i : UInt32)
    (log : List Event), ∃ log', copy_loop lim size i data log = .error .out_of_bounds ⟨[], .read 0 lim :: log'⟩
  | [], i, log => by
    have hi : i.toNat < size := Nat.lt_of_lt_of_le i.toNat_lt hsize
    exact ⟨log, by rw [copy_loop, if_pos hi]⟩
  | b :: data, i, log => by
    have hi : i.toNat < size := Nat.lt_of_lt_of_le i.toNat_lt hsize
    obtain ⟨log', ih⟩ := copy_loop_endless lim hsize data (i + 1) (.read (data.length + 1) lim :: log)
    exact ⟨log', by rw [copy_loop, if_pos hi, ih]⟩

theorem copy_loop_grows (lim size : Nat) : ∀ (data : Bytes) (i : UInt32) (log : List Event),
    log <:+ (final (copy_loop lim size i data log)).log
  | [], i, log => by
    unfold copy_loop
    split
    · exact List.suffix_cons _ _
    · exact List.suffix_refl _
  | b :: data, i, log => by
    unfold copy_loop
    split
    · have ih := copy_loop_grows lim size data (i + 1) (.read (data.length + 1) lim :: log)
      refine (List.suffix_cons _ _).trans (ih.trans ?_)
      cases copy_loop lim size (i + 1) data (.read (data.length + 1) lim :: log) <;> exact List.suffix_refl _
    · exact List.suffix_refl _

theorem follows_string (size : Nat) : Follows behind (fun _ _ => True) (from_bytes_string behind.length size)
    (if size < 2 ^ 32 then skip size else throw .overrun) := by
  refine ⟨logs_of_final fun c => copy_loop_grows _ size c.data 0 c.log, fun c bytes hc => ?_⟩
  by_cases h : size < 2 ^ 32
  · rw [if_pos h, from_bytes_string, copy_loop_eq_read_bytes _ h c.data 0 c.log (by simp)]
    exact ((follows_read_bytes size).map fun _ _ _ => trivial).ends c bytes hc
  · rw [if_neg h]
    obtain ⟨log', hloop⟩ := copy_loop_endless behind.length (Nat.le_of_not_lt h) c.data 0 c.log
    refine not_safe_of_mem (e := .read 0 behind.length) ?_ (Nat.not_lt_zero _)
    rw [from_bytes_string, hloop]
    exact List.mem_cons_self

theorem follows_uint (w : Width) (size : Nat) : Follows behind (fun _ _ => True) (from_bytes_uint w behind.length size)
    (if size > 8 then throw .rejected else skip size) := by
  by_cases h : size > 8
  · rw [from_bytes_uint, from_bytes_size_t, if_pos h, if_pos h]
    exact .reject _
  · rw [if_neg h]
    exact (follows_size_t (by omega)).bind (fun _ _ _ => .pure trivial) fun _ => Keeps.pure _

/-- An exception of another kind is none that the decoder is documented to throw. -/
theorem follows_logic_error {α β : Type} {Q : α → β → Prop} (what : String) :
    Follows behind Q (throw (.logic_error what) : Decoder α) (throw .overrun : Walk β) := by
  refine ⟨Keeps.throw fun _ => trivial, fun c _ _ hs => ?_⟩
  obtain ⟨what', h⟩ := hs.fails _ _ rfl
  cases h

theorem follows_u256 (size : Nat) : Follows behind (fun _ _ => True) (from_bytes_u256 behind.length size)
    (if size > 32 then throw .overrun else skip size) :=
  .ite Iff.rfl (fun _ => follows_logic_error _) fun _ =>
    (follows_read_bytes size).bind (fun _ _ _ => .pure trivial) fun _ => Keeps.pure _

theorem follows_read_array : ∀ N : Nat, Follows behind (fun _ _ => True) (read_array behind.length N) (take N)
  | 0 => .pure trivial
  | N + 1 => by
    refine follows_next.bind_eq fun b => ?_
    exact (follows_read_array N).bind (fun _ _ _ => .pure trivial) fun _ => Keeps.pure _

theorem follows_byte_array (N size : Nat) : Follows behind (fun _ _ => True)
    (from_bytes_byte_array N behind.length size) (if size ≠ N then throw .rejected else skip N) :=
  .ite Iff.rfl (fun _ => .reject _) fun _ => (follows_read_array N).map fun _ _ _ => trivial

/-! ## `decode_length` -/

theorem follows_long_length (what : String) (arity : Arity) (size : Nat) {n : Nat} (hn : n ≤ 8) :
    Follows behind Eq (long_length what arity behind.length size n) (long_header arity size n) := by
  refine .ite Iff.rfl (fun _ => .reject _) fun _ => ?_
  refine (follows_sub size n).bind_eq fun size => ?_
  refine (follows_size_t hn).bind ?_ fun _ => Keeps.pure _
  rintro _ bytes rfl
  exact .pure rfl

theorem follows_decode_length (size : Nat) : Follows behind Eq (decode_length behind.length size) (header size) := by
  refine .ite Iff.rfl (fun _ => .reject _) fun _ => ?_
  refine follows_peek.bind_eq fun first => ?_
  refine .ite Iff.rfl (fun _ => .pure rfl) fun _ => ?_
  refine follows_next.bind_eq fun length => (follows_sub size 1).bind_eq fun size => ?_
  have := length.toNat_lt
  refine .ite Iff.rfl (fun _ => .pure rfl) fun _ => ?_
  refine .ite Iff.rfl (fun _ => follows_long_length _ _ _ (by omega)) fun _ => ?_
  exact .ite Iff.rfl (fun _ => .pure rfl) fun _ => follows_long_length _ _ _ (by omega)

theorem long_header_ok {arity : Arity} {size n : Nat} {bytes rest : Bytes} {res : (Arity × Nat) × Nat}
    (h : long_header arity size n bytes = .ok res rest) : res.2 ≤ size := by
  unfold long_header Walk.sub at h
  by_cases hn : size < n
  · rw [if_pos hn] at h
    cases h
  · rw [if_neg hn, if_pos (by omega), bind_eq_ok] at h
    obtain ⟨size', rest', h1, h⟩ := h
    cases h1
    rw [bind_eq_ok] at h
    obtain ⟨length, rest', -, h⟩ := h
    cases h
    exact Nat.sub_le size n

/-- A header takes something off the counter, or the item is the byte it starts with. -/
theorem header_ok {size : Nat} {bytes rest : Bytes} {res : (Arity × Nat) × Nat} (h : header size bytes = .ok res rest) :
    res.2 < size ∨ res.2 = size ∧ 0 < size ∧ res.1.2 = 1 := by
  unfold header at h
  by_cases h0 : size = 0
  · rw [if_pos h0] at h
    cases h
  rw [if_neg h0, bind_eq_ok] at h
  obtain ⟨first, bytes1, -, h⟩ := h
  by_cases hfirst : first ≤ 0x7f
  · rw [if_pos hfirst] at h
    cases h
    exact .inr ⟨rfl, by omega, rfl⟩
  rw [if_neg hfirst, bind_eq_ok] at h
  obtain ⟨length, bytes2, -, h⟩ := h
  rw [Walk.sub, if_pos (by omega), bind_eq_ok] at h
  obtain ⟨size', bytes3, h1, h⟩ := h
  cases h1
  refine .inl (Nat.lt_of_le_of_lt ?_ (by omega : size - 1 < size))
  split at h
  · cases h
    exact Nat.le_refl _
  split at h
  · exact long_header_ok h
  split at h
  · cases h
    exact Nat.le_refl _
  · exact long_header_ok h

end

/-! ## Items -/

/-- `elem` is followed by `w`, which takes something off its counter. -/
structure FollowsElem {α : Type} (elem : Nat → Nat → Decoder (α × Nat)) (w : Nat → Walk Nat) : Prop where
  follows : ∀ (behind : Bytes) (size : Nat),
    Follows behind (fun r size' => r.2 = size') (elem behind.length size) (w size)
  shrinks : ∀ size bytes size' rest, w size bytes = .ok size' rest → size' < size

theorem item_shrinks {arity : Arity} {payload : Nat → Walk Unit} {size size' : Nat} {bytes rest : Bytes}
    (h : item arity payload size bytes = .ok size' rest) : size' < size := by
  rw [item, bind_eq_ok] at h
  obtain ⟨⟨⟨found, contained⟩, left⟩, bytes1, h1, h⟩ := h
  have hheader := header_ok h1
  simp only at h hheader
  split at h
  · cases h
  unfold Walk.sub at h
  by_cases hfits : contained ≤ left
  · rw [if_pos hfits, bind_eq_ok] at h
    obtain ⟨left', bytes2, h2, h⟩ := h
    cases h2
    rw [bind_eq_ok] at h
    obtain ⟨-, bytes3, -, h⟩ := h
    cases h
    omega
  · rw [if_neg hfits] at h
    cases h

section

variable {α : Type}

theorem followsElem_one {from_bytes : Nat → Nat → Decoder α} {payload : Nat → Walk Unit}
    (h : ∀ (behind : Bytes) (size : Nat), Follows behind (fun _ _ => True) (from_bytes behind.length size) (payload size)) :
    FollowsElem (decode_one from_bytes) (item .single payload) := by
  refine ⟨fun behind size => ?_, fun _ _ _ _ => item_shrinks⟩
  refine (follows_decode_length size).bind_eq ?_
  rintro ⟨⟨arity, contained⟩, size⟩
  refine .ite Iff.rfl (fun _ => .reject _) fun _ => ?_
  refine (follows_sub size contained).bind_eq fun size => ?_
  rw [← bind_assoc]
  exact (follows_within contained fun behind => h behind contained).bind (fun _ _ _ => .pure rfl) fun _ => Keeps.pure _

theorem followsElem_list {items : Nat → Nat → Decoder (α × Nat)} {w : Nat → Walk Nat}
    (h : ∀ (behind : Bytes) (size : Nat), Follows behind (fun r size' => r.2 = size') (items behind.length size) (w size)) :
    FollowsElem (decode_list items) (item .multiple fun size => do let _ ← w size) := by
  refine ⟨fun behind size => ?_, fun _ _ _ _ => item_shrinks⟩
  refine (follows_decode_length size).bind_eq ?_
  rintro ⟨⟨arity, contained⟩, size⟩
  refine .ite Iff.rfl (fun _ => .reject _) fun _ => ?_
  refine (follows_sub size contained).bind_eq fun size => ?_
  rw [← bind_assoc]
  refine (follows_within (Q := fun _ _ => True) contained fun behind => ?_).bind (fun _ _ _ => .pure rfl) fun _ => Keeps.pure _
  exact (h behind contained).map fun _ _ _ => trivial

/-! ## The loops of the containers -/

variable {elem : Nat → Nat → Decoder (α × Nat)} {w : Nat → Walk Nat} {behind : Bytes}

theorem follows_array_loop (h : FollowsElem elem w) : ∀ N size : Nat,
    Follows behind (fun _ _ => True) (array_loop elem behind.length N size) (turns w N size)
  | 0, _ => .pure trivial
  | N + 1, size => by
    refine (h.follows behind size).bind ?_ fun r => (follows_array_loop h N r.2).logs.bind fun _ => Keeps.pure _
    rintro ⟨v, size⟩ _ rfl
    rw [← bind_pure (turns w N size)]
    exact (follows_array_loop h N size).bind (fun _ _ _ => .pure trivial) fun _ => Keeps.pure _

theorem FollowsElem.logs (h : FollowsElem elem w) (lim size : Nat) : Logs (elem lim size) := by
  simpa using (h.follows (List.replicate lim 0) size).logs

theorem FollowsElem.step (h : FollowsElem elem w) (size : Nat) :
    Follows behind (fun r size' => r.2 = size' ∧ size' < size) (elem behind.length size) (w size) :=
  (h.follows behind size).and_ok fun bytes b rest => h.shrinks size bytes b rest

theorem logs_endless_loop (h : FollowsElem elem w) (lim : Nat) : ∀ fuel size : Nat, Logs (endless_loop elem lim fuel size)
  | 0, _ => Keeps.throw fun _ => trivial
  | fuel + 1, size => (h.logs lim size).bind fun r => logs_endless_loop h lim fuel r.2

/-- The loop whose counter never reaches `N` fails before the counter of bytes is used up. -/
theorem follows_endless_loop (h : FollowsElem elem w) : ∀ n fuel size : Nat, size < n → size < fuel →
    Follows behind (fun _ _ => False) (endless_loop elem behind.length fuel size) (turns w n size)
  | 0, _, _, hn, _ => absurd hn (Nat.not_lt_zero _)
  | _ + 1, 0, _, _, hf => absurd hf (Nat.not_lt_zero _)
  | n + 1, fuel + 1, size, hn, hf => by
    refine (h.step size).bind ?_ fun r => logs_endless_loop h _ fuel r.2
    rintro ⟨v, left⟩ _ ⟨rfl, hlt⟩
    simp only at hlt
    exact follows_endless_loop h n fuel left (by omega) (by omega)

theorem logs_vector_loop (h : FollowsElem elem w) (lim : Nat) : ∀ fuel size : Nat, Logs (vector_loop elem lim fuel size)
  | fuel, 0 => by
    unfold vector_loop
    exact Keeps.pure _
  | 0, _ + 1 => Keeps.throw fun _ => trivial
  | fuel + 1, size + 1 =>
    (h.logs lim (size + 1)).bind fun r => (logs_vector_loop h lim fuel r.2).bind fun _ => Keeps.pure _

theorem follows_vector_loop (h : FollowsElem elem w) : ∀ n fuel size : Nat, size ≤ n → size ≤ fuel →
    Follows behind (fun _ _ => True) (vector_loop elem behind.length fuel size) (until_zero w n size)
  | n, fuel, 0, _, _ => by
    unfold vector_loop until_zero
    exact .pure trivial
  | 0, _, size + 1, hn, _ => absurd hn (Nat.not_succ_le_zero _)
  | _ + 1, 0, size + 1, _, hf => absurd hf (Nat.not_succ_le_zero _)
  | n + 1, fuel + 1, size + 1, hn, hf => by
    refine (h.step (size + 1)).bind ?_ fun r => (logs_vector_loop h _ fuel r.2).bind fun _ => Keeps.pure _
    rintro ⟨v, left⟩ _ ⟨rfl, hlt⟩
    simp only at hlt
    rw [← bind_pure (until_zero w n left)]
    exact (follows_vector_loop h n fuel left (by omega) (by omega)).bind (fun _ _ _ => .pure trivial) fun _ => Keeps.pure _

theorem follows_loop_fuel (contained : Nat) :
    Follows behind (fun fuel _ => contained ≤ fuel) (loop_fuel contained) (pure ()) := by
  refine ⟨fun c => List.suffix_refl c.log, fun c bytes hc => ?_⟩
  exact ⟨_, c, rfl, Nat.le_add_left _ _, hc⟩

theorem follows_list_vector (h : FollowsElem elem w) (size : Nat) :
    Follows behind (fun _ _ => True) (from_bytes_list_vector elem behind.length size) (list_vector w size) := by
  refine (follows_decode_length size).bind_eq ?_
  rintro ⟨⟨arity, contained⟩, size⟩
  refine follows_within contained fun behind => ?_
  rw [← pure_bind () fun _ => until_zero w contained contained]
  refine (follows_loop_fuel contained).bind ?_ fun fuel => logs_vector_loop h _ fuel contained
  rintro fuel _ hfuel
  exact follows_vector_loop h contained fuel contained (Nat.le_refl _) hfuel

theorem follows_list_array (h : FollowsElem elem w) (N size : Nat) :
    Follows behind (fun _ _ => True) (from_bytes_list_array elem N behind.length size) (list_array w N size) := by
  refine (follows_decode_length size).bind_eq ?_
  rintro ⟨⟨arity, contained⟩, size⟩
  refine follows_within contained fun behind => ?_
  by_cases hN : N < 2 ^ 32
  · simp only [if_pos hN]
    exact follows_array_loop h N size
  · simp only [if_neg hN]
    have hlog : ∀ fuel, Logs (do
        endless_loop elem behind.length (fuel + 1) size
        throw .diverges : Decoder (List.Vector α N)) := fun fuel =>
      (logs_endless_loop h _ _ _).bind fun _ => Keeps.throw fun _ => trivial
    rw [← pure_bind () fun _ => turns w (size + 1) size]
    refine (follows_loop_fuel size).bind ?_ hlog
    rintro fuel _ hfuel
    rw [← bind_pure (turns w (size + 1) size)]
    exact (follows_endless_loop h (size + 1) (fuel + 1) size (by omega) (by omega)).bind (fun _ _ hf => hf.elim)
      fun _ => Keeps.throw fun _ => trivial

end

/-! ## All types -/

theorem Walk.vector_of_ne {t : Ty} (h : t ≠ .uint .w8) (elem : Nat → Walk Nat) : Walk.vector t elem = list_vector elem := by
  cases t with
  | uint w => cases w with
    | w8 => exact absurd rfl h
    | _ => rfl
  | _ => rfl

theorem Walk.array_of_ne {t : Ty} (h : t ≠ .uint .w8) (elem : Nat → Walk Nat) : Walk.array t elem = list_array elem := by
  cases t with
  | uint w => cases w with
    | w8 => exact absurd rfl h
    | _ => rfl
  | _ => rfl

theorem follows_vector {t : Ty} (h : FollowsElem (decode_impl t) (walk t)) (behind : Bytes) (size : Nat) :
    Follows behind (fun _ _ => True) (from_bytes_vector t (decode_impl t) behind.length size)
      (Walk.vector t (walk t) size) := by
  by_cases ht : t = .uint .w8
  · subst ht
    exact follows_string size
  · rw [from_bytes_vector_of_ne ht, Walk.vector_of_ne ht]
    exact follows_list_vector h size

theorem follows_array {t : Ty} (h : FollowsElem (decode_impl t) (walk t)) (N : Nat) (behind : Bytes) (size : Nat) :
    Follows behind (fun _ _ => True) (from_bytes_array t (decode_impl t) N behind.length size)
      (Walk.array t (walk t) N size) := by
  by_cases ht : t = .uint .w8
  · subst ht
    exact follows_byte_array N size
  · rw [from_bytes_array_of_ne ht, Walk.array_of_ne ht]
    exact follows_list_array h N size

/-- A pack, one element after the other. -/
theorem follows_pack {α β : Type} {first : Nat → Nat → Decoder (α × Nat)} {rest : Nat → Nat → Decoder (β × Nat)}
    {w w' : Nat → Walk Nat} (h : ∀ (behind : Bytes) (size : Nat),
      Follows behind (fun r size' => r.2 = size') (first behind.length size) (w size))
    (h' : ∀ (behind : Bytes) (size : Nat), Follows behind (fun r size' => r.2 = size') (rest behind.length size) (w' size))
    (behind : Bytes) (size : Nat) :
    Follows behind (fun r size' => r.2 = size') (do
      let (v, size) ← first behind.length size
      let (vs, size) ← rest behind.length size
      return ((v, vs), size)) (do
      let size ← w size
      w' size) := by
  refine (h behind size).bind ?_ fun r => (h' behind r.2).logs.bind fun _ => Keeps.pure _
  rintro ⟨v, left⟩ _ rfl
  rw [← bind_pure (w' left)]
  refine (h' behind left).bind ?_ fun _ => Keeps.pure _
  rintro ⟨vs, left'⟩ _ rfl
  exact .pure rfl

mutual

theorem follows_decode_impl : ∀ t : Ty, FollowsElem (decode_impl t) (walk t)
  | .uint w => by
    unfold decode_impl walk
    exact followsElem_one fun _ size => follows_uint w size
  | .u256 => by
    unfold decode_impl walk
    exact followsElem_one fun _ size => follows_u256 size
  | .string => by
    unfold decode_impl walk
    exact followsElem_one fun _ size => follows_string size
  | .vector t => by
    unfold decode_impl walk
    exact followsElem_one (follows_vector (follows_decode_impl t))
  | .array t N => by
    unfold decode_impl walk
    exact followsElem_one (follows_array (follows_decode_impl t) N)
  | .tuple ts => by
    unfold decode_impl walk
    exact followsElem_list (follows_decode_tuple ts)

theorem follows_decode_tuple : ∀ (ts : List Ty) (behind : Bytes) (size : Nat),
    Follows behind (fun r size' => r.2 = size') (decode_tuple ts behind.length size) (walk_tuple ts size)
  | [], _, _ => by
    unfold decode_tuple walk_tuple
    exact .pure rfl
  | t :: ts, behind, size => by
    unfold decode_tuple walk_tuple
    exact follows_pack (follows_decode_impl t).follows (follows_decode_tuple ts) behind size

end

theorem follows_decode_item (t : Ty) (behind : Bytes) (size : Nat) :
    Follows behind (fun r size' => r.2 = size') (decode_item t behind.length size) (walk_item t size) := by
  cases t with
  | tuple ts => exact follows_decode_tuple ts behind size
  | _ => exact (follows_decode_impl _).follows behind size

theorem follows_decode_multiple : ∀ (ts : List Ty) (behind : Bytes) (size : Nat),
    Follows behind (fun r size' => r.2 = size') (decode_multiple ts behind.length size) (walk_multiple ts size)
  | [], _, _ => .pure rfl
  | t :: ts, behind, size => follows_pack (follows_decode_item t) (follows_decode_multiple ts) behind size

theorem follows_decode_none (behind : Bytes) (size : Nat) :
    Follows behind (fun r size' => r.2 = size') (decode_none behind.length size) (walk_none size) := by
  refine (follows_decode_length size).bind_eq ?_
  rintro ⟨⟨arity, contained⟩, size⟩
  refine .ite Iff.rfl (fun _ => .reject _) fun _ => ?_
  exact .ite Iff.rfl (fun _ => .reject _) fun _ => .pure rfl

theorem follows_decode_impl_args (behind : Bytes) (size : Nat) : ∀ ts : List Ty,
    Follows behind (fun r size' => r.2 = size') (decode_impl_args ts behind.length size) (walk_args ts size)
  | [] => follows_decode_none behind size
  | [t] => by
    change Follows behind _ _ (walk t size)
    rw [← bind_pure (walk t size)]
    refine ((follows_decode_impl t).follows behind size).bind ?_ fun _ => Keeps.pure _
    rintro ⟨v, left⟩ _ rfl
    exact .pure rfl
  | t :: t' :: ts => (followsElem_list (follows_decode_multiple (t :: t' :: ts))).follows behind size

theorem Follows.safe_iff {α β : Type} {Q : α → β → Prop} {m : Decoder α} {w : Walk β} (h : Follows [] Q m w)
    (bytes : Bytes) : Safe (m { data := bytes }) ↔ ∀ rest, w bytes ≠ .error .overrun rest := by
  have he := h.ends { data := bytes } bytes ⟨(List.append_nil bytes).symm, by simp⟩
  cases hw : w bytes with
  | ok b rest =>
    rw [hw] at he
    obtain ⟨a, c', hm, -, hc'⟩ := he
    rw [hm]
    exact ⟨fun _ => nofun, fun _ => ⟨hc'.safe, nofun⟩⟩
  | error e rest =>
    rw [hw] at he
    cases e with
    | rejected =>
      obtain ⟨what, c', hm, hs⟩ := he
      rw [hm]
      refine ⟨fun _ => nofun, fun _ => ⟨hs, ?_⟩⟩
      rintro e c ⟨⟩
      exact ⟨what, rfl⟩
    | overrun => exact ⟨fun hs => absurd hs he, fun hs => absurd rfl (hs rest)⟩

/-- **Bounds.** Decoding is safe exactly on the inputs in which no header asks for more than there is. -/
theorem safe_iff_fits (ts : List Ty) (bytes : Bytes) : Safe (decode ts bytes) ↔ Fits ts bytes := by
  -- the check that nothing is left over comes after all reading
  have hall : ∀ (r : Vals ts × Nat) (size : Nat), r.2 = size → Follows [] (fun _ _ => True)
      (if r.2 ≠ 0 then throw (.decode_error ("Expected to decode entire input, but " ++ toString r.2 ++ " bytes remain"))
        else pure r.1 : Decoder (Vals ts))
      (if size ≠ 0 then throw .rejected else pure ()) := by
    rintro ⟨res, left⟩ _ rfl
    exact .ite Iff.rfl (fun _ => .reject _) fun _ => .pure trivial
  have hfollows := (follows_decode_impl_args [] bytes.length ts).bind hall fun r => (hall r r.2 rfl).logs
  rw [decode]
  refine (hfollows.safe_iff bytes).trans ?_
  rw [Fits]
  cases hw : walk_args ts bytes.length bytes with
  | ok size rest =>
    rw [bind_of_ok hw]
    constructor
    · rintro - rest' ⟨⟩
    · rintro - rest'
      split <;> rintro ⟨⟩
  | error e rest =>
    rw [bind_of_error hw]
    simp

/-- A string of three bytes that are not there. -/
theorem not_safe_string : ¬Safe (decode [.string] [0x83]) := by
  intro h
  exact absurd (h.events (.sub 0 3) (by decide)) (by decide)

end EEVM.Rlp

import EEVM.Rlp.Bounds
/-!
# The decoder ends on every input

`loop_fuel` is meant to be more than a loop can use, also where a counter has wrapped around. `Advances` says why: an
element moves the pointer on, or leaves it and lowers the counter. So `Fail.diverges` is never thrown
(`decode_terminates`).
-/
namespace EEVM.Rlp

open ExcState BigEndian

/-- The pointer does not move back. -/
def Shortens (c c' : Cursor) : Prop := c'.data.length ≤ c.data.length

instance : Std.Refl Shortens := ⟨fun c => Nat.le_refl c.data.length⟩
instance : IsTrans Cursor Shortens := ⟨fun _ _ _ h1 h2 => Nat.le_trans h2 h1⟩

/-- `m` comes to an end, by returning or by throwing, and does not move the pointer back. -/
abbrev Stops {α : Type} (m : Decoder α) : Prop := Keeps Shortens (fun e _ => e ≠ .diverges) m

theorem stops_decode_error {α : Type} (what : String) : Stops (throw (.decode_error what) : Decoder α) :=
  Keeps.throw fun _ => nofun

theorem stops_peek (lim : Nat) : Stops (peek lim) := by
  rintro ⟨_ | ⟨b, data⟩, log⟩
  · exact ⟨Nat.le_refl _, nofun⟩
  · exact Nat.le_refl _

theorem stops_next_byte (lim : Nat) : Stops (next_byte lim) := by
  rintro ⟨_ | ⟨b, data⟩, log⟩
  · exact ⟨Nat.le_refl _, nofun⟩
  · exact Nat.le_succ _

theorem stops_size_sub (size amount : Nat) : Stops (size_sub size amount) := fun c => Nat.le_refl c.data.length

theorem stops_payload_end (lim contained : Nat) : Stops (payload_end lim contained) := fun c => Nat.le_refl c.data.length

/-- A loop with a bound on its turns stops. -/
theorem stops_read_bytes (lim : Nat) : ∀ size : Nat, Stops (read_bytes lim size)
  | 0 => Keeps.pure _
  | size + 1 => (stops_next_byte lim).bind fun _ => (stops_read_bytes lim size).bind fun _ => Keeps.pure _

theorem stops_size_t_loop (lim : Nat) : ∀ size result : Nat, Stops (size_t_loop lim size result)
  | 0, _ => Keeps.pure _
  | size + 1, _ => (stops_next_byte lim).bind fun _ => stops_size_t_loop lim size _

theorem stops_size_t (lim size : Nat) : Stops (from_bytes_size_t lim size) :=
  Keeps.ite (fun _ => stops_decode_error _) fun _ => stops_size_t_loop lim size 0

theorem stops_uint (w : Width) (lim size : Nat) : Stops (from_bytes_uint w lim size) :=
  (stops_size_t lim size).bind fun _ => Keeps.pure _

/-- So does the one whose index is compared with the size, as it ends with the buffer at the latest. -/
theorem stops_string (lim size : Nat) : Stops (from_bytes_string lim size) := by
  intro c
  by_cases h : size < 2 ^ 32
  · rw [from_bytes_string, copy_loop_eq_read_bytes lim h c.data 0 c.log (by simp)]
    exact stops_read_bytes lim _ c
  · obtain ⟨log', hloop⟩ := copy_loop_endless lim (Nat.le_of_not_lt h) c.data 0 c.log
    rw [from_bytes_string, hloop]
    refine ⟨Nat.zero_le _, ?_⟩
    rintro ⟨⟩

theorem stops_u256 (lim size : Nat) : Stops (from_bytes_u256 lim size) :=
  Keeps.ite (fun _ => Keeps.throw fun _ => nofun) fun _ => (stops_read_bytes lim size).bind fun _ => Keeps.pure _

theorem stops_read_array (lim : Nat) : ∀ N : Nat, Stops (read_array lim N)
  | 0 => Keeps.pure _
  | N + 1 => (stops_next_byte lim).bind fun _ => (stops_read_array lim N).bind fun _ => Keeps.pure _

theorem stops_byte_array (N lim size : Nat) : Stops (from_bytes_byte_array N lim size) :=
  Keeps.ite (fun _ => stops_decode_error _) fun _ => stops_read_array lim N

theorem stops_long_length (what : String) (arity : Arity) (lim size n : Nat) : Stops (long_length what arity lim size n) :=
  Keeps.ite (fun _ => stops_decode_error _) fun _ =>
    (stops_size_sub size n).bind fun _ => (stops_size_t lim n).bind fun _ => Keeps.pure _

/-! ## Headers -/

/-- What a header does: it lies behind the pointer, or is the item itself. -/
structure HeaderRead (size : Nat) (c : Cursor) (res : (Arity × Nat) × Nat) (c' : Cursor) : Prop where
  left : res.2 ≤ size
  moves : c'.data.length < c.data.length ∨ c'.data.length = c.data.length ∧ res.1.2 = 1 ∧ 0 < res.2

theorem stops_decode_length (lim size : Nat) : Stops (decode_length lim size) := by
  refine Keeps.ite (fun _ => stops_decode_error _) fun _ => (stops_peek lim).bind fun first => ?_
  refine Keeps.ite (fun _ => Keeps.pure _) fun _ => (stops_next_byte lim).bind fun _ => ?_
  refine (stops_size_sub size 1).bind fun _ => ?_
  refine Keeps.ite (fun _ => Keeps.pure _) fun _ => Keeps.ite (fun _ => stops_long_length _ _ _ _ _) fun _ => ?_
  exact Keeps.ite (fun _ => Keeps.pure _) fun _ => stops_long_length _ _ _ _ _

theorem long_length_left {what : String} {arity : Arity} {lim size n : Nat} {c c' : Cursor} {res : (Arity × Nat) × Nat}
    (h : long_length what arity lim size n c = .ok res c') : res.2 ≤ size := by
  unfold long_length at h
  split at h
  · cases h
  rename_i hn
  obtain ⟨left, c1, h1, h⟩ := bind_eq_ok.1 h
  obtain ⟨length, c2, h2, h⟩ := bind_eq_ok.1 h
  cases h
  rw [size_sub, if_pos (by omega)] at h1
  cases h1
  exact Nat.sub_le size n

/-- Looking at a byte moves nothing. -/
theorem peek_stays {lim : Nat} {c c' : Cursor} {b : UInt8} (h : peek lim c = .ok b c') : c'.data = c.data := by
  unfold peek at h
  split at h
  · cases h
  · cases h
    rfl

/-- Taking one makes the buffer shorter. -/
theorem next_byte_moves {lim : Nat} {c c' : Cursor} {b : UInt8} (h : next_byte lim c = .ok b c') :
    c'.data.length < c.data.length := by
  unfold next_byte at h
  split at h
  · cases h
  · rename_i hd
    cases h
    rw [hd]
    exact Nat.lt_succ_self _

/-- What `decode_length` has read is a header, or nothing. -/
theorem headerRead {lim size : Nat} {c c' : Cursor} {res : (Arity × Nat) × Nat}
    (h : decode_length lim size c = .ok res c') : HeaderRead size c res c' := by
  unfold decode_length at h
  split at h
  · cases h
  rename_i h0
  obtain ⟨first, c1, h1, h⟩ := bind_eq_ok.1 h
  have hstays := peek_stays h1
  split at h
  · cases h
    exact ⟨Nat.le_refl _, .inr ⟨congrArg _ hstays, rfl, Nat.pos_of_ne_zero h0⟩⟩
  obtain ⟨length, c2, h2, h⟩ := bind_eq_ok.1 h
  have hmoves : c2.data.length < c.data.length := hstays ▸ next_byte_moves h2
  obtain ⟨left, c3, h3, h⟩ := bind_eq_ok.1 h
  rw [size_sub, if_pos (by omega)] at h3
  cases h3
  have hshort : ∀ (arity : Arity) (offset : Nat), HeaderRead size c ((arity, length.toNat - offset), size - 1)
      ⟨c2.data, .sub size 1 :: c2.log⟩ := fun arity offset => ⟨Nat.sub_le _ _, .inl hmoves⟩
  have hlong : ∀ {what : String} {arity : Arity} {n : Nat},
      long_length what arity lim (size - 1) n ⟨c2.data, .sub size 1 :: c2.log⟩ = .ok res c' →
      HeaderRead size c res c' := by
    intro what arity n hr
    have hshortens := Keeps.ok (stops_long_length what arity lim (size - 1) n) hr
    exact ⟨Nat.le_trans (long_length_left hr) (Nat.sub_le _ _), .inl (Nat.lt_of_le_of_lt hshortens hmoves)⟩
  split at h
  · cases h
    exact hshort _ _
  split at h
  · exact hlong h
  split at h
  · cases h
    exact hshort _ _
  · exact hlong h

/-! ## Elements -/

/-- A bound on the turns that are left of a loop at `c` with the counter `size`: wrapping around adds less than `2^64`. -/
def turns_left (c : Cursor) (size : Nat) : Nat := c.data.length * 2 ^ 64 + size

theorem turns_left_le {c c' : Cursor} (size : Nat) (h : Shortens c c') : turns_left c' size ≤ turns_left c size :=
  Nat.add_le_add_right (Nat.mul_le_mul_right _ h) _

/-- The header of an item and the subtraction of what it declares take a turn off. -/
theorem HeaderRead.turn {size left : Nat} {c c1 c2 : Cursor} {res : (Arity × Nat) × Nat} (h : HeaderRead size c res c1)
    (hsub : size_sub res.2 res.1.2 c1 = .ok left c2) : turns_left c2 left < turns_left c size := by
  have hleft := h.left
  unfold size_sub at hsub
  cases hsub
  rcases h.moves with hmoves | ⟨hstays, hone, hpos⟩
  · have hbytes := Nat.mul_le_mul_right (2 ^ 64) (Nat.succ_le_of_lt hmoves)
    rw [Nat.succ_mul] at hbytes
    unfold turns_left
    split <;> simp only <;> omega
  · rw [hone, if_pos (Nat.succ_le_of_lt hpos)]
    unfold turns_left
    simp only [hstays]
    omega

/-- An element stops, and takes a turn off. -/
structure Advances {α : Type} (elem : Nat → Nat → Decoder (α × Nat)) : Prop where
  stops : ∀ lim size, Stops (elem lim size)
  turn : ∀ {lim size : Nat} {c c' : Cursor} {r : α × Nat}, elem lim size c = .ok r c' →
    turns_left c' r.2 < turns_left c size

/-- An item of either arity: its header, and `body` inside its payload. -/
theorem advances_item {α β : Type} (wanted : Arity) (what : String) (result : β → α) {body : Nat → Nat → Decoder β}
    (h : ∀ lim size, Stops (body lim size)) : Advances (fun lim size => do
      let ((arity, contained_length), size) ← decode_length lim size
      if arity ≠ wanted then throw (.decode_error what)
      else do
        let size ← size_sub size contained_length
        let lim ← payload_end lim contained_length
        let v ← body lim contained_length
        pure (result v, size)) where
  stops lim size := by
    refine (stops_decode_length lim size).bind ?_
    rintro ⟨⟨arity, contained⟩, size⟩
    refine Keeps.ite (fun _ => stops_decode_error _) fun _ => (stops_size_sub size contained).bind fun _ => ?_
    exact (stops_payload_end lim contained).bind fun lim => (h lim contained).bind fun _ => Keeps.pure _
  turn {lim size c c' r} hr := by
    obtain ⟨⟨⟨arity, contained⟩, size⟩, c1, h1, hr⟩ := bind_eq_ok.1 hr
    simp only at hr
    split at hr
    · cases hr
    obtain ⟨left, c2, h2, hr⟩ := bind_eq_ok.1 hr
    obtain ⟨lim', c3, h3, hr⟩ := bind_eq_ok.1 hr
    obtain ⟨v, c4, h4, hr⟩ := bind_eq_ok.1 hr
    cases hr
    have hshortens : Shortens c2 c' := Nat.le_trans ((h lim' contained).ok h4) ((stops_payload_end lim contained).ok h3)
    exact Nat.lt_of_le_of_lt (turns_left_le left hshortens) ((headerRead h1).turn h2)

/-- A string. -/
theorem advances_one {α : Type} {from_bytes : Nat → Nat → Decoder α} (h : ∀ lim size, Stops (from_bytes lim size)) :
    Advances (decode_one from_bytes) :=
  advances_item .single _ id h

/-- A list. -/
theorem advances_list {α : Type} {items : Nat → Nat → Decoder (α × Nat)} (h : ∀ lim size, Stops (items lim size)) :
    Advances (decode_list items) :=
  advances_item .multiple _ Prod.fst h

/-! ## Loops -/

/-- `Stops`, from one cursor. -/
def StopsAt {α : Type} (m : Decoder α) (c : Cursor) : Prop :=
  match m c with
  | .ok _ c' => Shortens c c'
  | .error e c' => Shortens c c' ∧ e ≠ .diverges

theorem stops_iff {α : Type} {m : Decoder α} : Stops m ↔ ∀ c, StopsAt m c := by
  refine forall_congr' fun c => ?_
  unfold StopsAt
  cases m c with
  | ok a c' => exact Iff.rfl
  | error e c' => exact Iff.rfl

/-- One decoder after the other, from one cursor. -/
theorem StopsAt.bind {α β : Type} {m : Decoder α} {f : α → Decoder β} {c : Cursor} (hm : StopsAt m c)
    (hf : ∀ a c', m c = .ok a c' → StopsAt (f a) c') : StopsAt (m >>= f) c := by
  unfold StopsAt at hm ⊢
  cases hr : m c with
  | ok a c' =>
    rw [hr] at hm
    rw [bind_of_ok hr]
    have hfa := hf a c' hr
    unfold StopsAt at hfa
    cases hr' : f a c' with
    | ok b c'' =>
      rw [hr'] at hfa
      exact Nat.le_trans hfa hm
    | error e c'' =>
      rw [hr'] at hfa
      exact ⟨Nat.le_trans hfa.1 hm, hfa.2⟩
  | error e c' =>
    rw [hr] at hm
    rw [bind_of_error hr]
    exact hm

section

variable {α : Type} {elem : Nat → Nat → Decoder (α × Nat)}

theorem stops_array_loop (h : Advances elem) (lim : Nat) : ∀ N size : Nat, Stops (array_loop elem lim N size)
  | 0, _ => Keeps.pure _
  | N + 1, size => (h.stops lim size).bind fun r => (stops_array_loop h lim N r.2).bind fun _ => Keeps.pure _

/-- The loop ends although its counter can wrap around: then the buffer is used up first. -/
theorem stopsAt_vector_loop (h : Advances elem) (lim fuel size : Nat) (c : Cursor) (hf : turns_left c size ≤ fuel) :
    StopsAt (vector_loop elem lim fuel size) c := by
  induction fuel generalizing size c with
  | zero =>
    obtain rfl : size = 0 := Nat.le_zero.1 (Nat.le_trans (Nat.le_add_left _ _) hf)
    exact Nat.le_refl c.data.length
  | succ fuel ih =>
    cases size with
    | zero => exact Nat.le_refl c.data.length
    | succ size =>
      refine StopsAt.bind (stops_iff.1 (h.stops lim (size + 1)) c) fun r c' hr => ?_
      have hleft : turns_left c' r.2 ≤ fuel := Nat.le_of_lt_succ (Nat.lt_of_lt_of_le (h.turn hr) hf)
      exact (ih r.2 c' hleft).bind fun _ c'' _ => Nat.le_refl c''.data.length

theorem stopsAt_endless_loop (h : Advances elem) (lim fuel size : Nat) (c : Cursor) (hf : turns_left c size < fuel) :
    StopsAt (endless_loop elem lim fuel size) c := by
  induction fuel generalizing size c with
  | zero => exact absurd hf (Nat.not_lt_zero _)
  | succ fuel ih =>
    refine StopsAt.bind (stops_iff.1 (h.stops lim size) c) fun r c' hr => ?_
    exact ih r.2 c' (Nat.lt_of_lt_of_le (h.turn hr) (Nat.le_of_lt_succ hf))

theorem stopsAt_of_fuel {β : Type} {m : Nat → Decoder β} {contained : Nat} {c : Cursor}
    (h : StopsAt (m (turns_left c contained)) c) : StopsAt (loop_fuel contained >>= m) c := by
  have hfuel : loop_fuel contained c = .ok (turns_left c contained) c := rfl
  refine StopsAt.bind (Nat.le_refl c.data.length) fun fuel c' hr => ?_
  rw [hfuel] at hr
  cases hr
  exact h

/-- A loop without an exit ends by throwing. -/
theorem endless_loop_fails (lim : Nat) : ∀ (fuel size : Nat) (c c' : Cursor),
    endless_loop elem lim fuel size c ≠ .ok () c'
  | 0, _, _, _ => nofun
  | fuel + 1, size, c, c' => by
    intro hr
    obtain ⟨r, c1, -, hr⟩ := bind_eq_ok.1 hr
    exact endless_loop_fails lim fuel r.2 c1 c' hr

theorem stops_list_vector (h : Advances elem) (lim size : Nat) : Stops (from_bytes_list_vector elem lim size) := by
  refine (stops_decode_length lim size).bind ?_
  rintro ⟨⟨arity, contained⟩, size⟩
  refine (stops_payload_end lim contained).bind fun lim => stops_iff.2 fun c => ?_
  exact stopsAt_of_fuel (stopsAt_vector_loop h lim _ contained c (Nat.le_refl _))

theorem stops_list_array (h : Advances elem) (N lim size : Nat) : Stops (from_bytes_list_array elem N lim size) := by
  refine (stops_decode_length lim size).bind ?_
  rintro ⟨⟨arity, contained⟩, size⟩
  refine (stops_payload_end lim contained).bind fun lim => ?_
  refine Keeps.ite (fun _ => stops_array_loop h lim N size) fun _ => stops_iff.2 fun c => ?_
  refine stopsAt_of_fuel (StopsAt.bind (stopsAt_endless_loop h lim _ size c (Nat.lt_succ_self _)) fun _ c' hr => ?_)
  exact absurd hr (endless_loop_fails lim _ size c c')

end

/-! ## All types -/

theorem stops_vector {t : Ty} (h : Advances (decode_impl t)) (lim size : Nat) :
    Stops (from_bytes_vector t (decode_impl t) lim size) := by
  by_cases ht : t = .uint .w8
  · subst ht
    exact stops_string lim size
  · rw [from_bytes_vector_of_ne ht]
    exact stops_list_vector h lim size

theorem stops_array {t : Ty} (h : Advances (decode_impl t)) (N lim size : Nat) :
    Stops (from_bytes_array t (decode_impl t) N lim size) := by
  by_cases ht : t = .uint .w8
  · subst ht
    exact stops_byte_array N lim size
  · rw [from_bytes_array_of_ne ht]
    exact stops_list_array h N lim size

mutual

/-- By induction on the type. -/
theorem advances_decode_impl : ∀ t : Ty, Advances (decode_impl t)
  | .uint w => by
    unfold decode_impl
    exact advances_one (stops_uint w)
  | .u256 => by
    unfold decode_impl
    exact advances_one stops_u256
  | .string => by
    unfold decode_impl
    exact advances_one stops_string
  | .vector t => by
    unfold decode_impl
    exact advances_one (stops_vector (advances_decode_impl t))
  | .array t N => by
    unfold decode_impl
    exact advances_one (stops_array (advances_decode_impl t) N)
  | .tuple ts => by
    unfold decode_impl
    exact advances_list (stops_decode_tuple ts)

theorem stops_decode_tuple : ∀ (ts : List Ty) (lim size : Nat), Stops (decode_tuple ts lim size)
  | [], _, _ => by
    unfold decode_tuple
    exact Keeps.pure _
  | t :: ts, lim, size => by
    unfold decode_tuple
    exact ((advances_decode_impl t).stops lim size).bind fun r =>
      (stops_decode_tuple ts lim r.2).bind fun _ => Keeps.pure _

end

theorem stops_decode_item (t : Ty) (lim size : Nat) : Stops (decode_item t lim size) := by
  cases t with
  | tuple ts => exact stops_decode_tuple ts lim size
  | _ => exact (advances_decode_impl _).stops lim size

theorem stops_decode_multiple : ∀ (ts : List Ty) (lim size : Nat), Stops (decode_multiple ts lim size)
  | [], _, _ => Keeps.pure _
  | t :: ts, lim, size =>
    (stops_decode_item t lim size).bind fun r => (stops_decode_multiple ts lim r.2).bind fun _ => Keeps.pure _

theorem stops_decode_none (lim size : Nat) : Stops (decode_none lim size) := by
  refine (stops_decode_length lim size).bind ?_
  rintro ⟨⟨arity, contained⟩, size⟩
  exact Keeps.ite (fun _ => stops_decode_error _) fun _ => Keeps.ite (fun _ => stops_decode_error _) fun _ => Keeps.pure _

theorem stops_decode_impl_args (lim size : Nat) : ∀ ts : List Ty, Stops (decode_impl_args ts lim size)
  | [] => stops_decode_none lim size
  | [t] => ((advances_decode_impl t).stops lim size).bind fun _ => Keeps.pure _
  | t :: t' :: ts => (advances_list (stops_decode_multiple (t :: t' :: ts))).stops lim size

/-- **Termination.** No loop of the decoder runs for ever, on no input and for no type. -/
theorem decode_terminates (ts : List Ty) (bytes : Bytes) (c : Cursor) : decode ts bytes ≠ .error .diverges c := by
  intro hr
  have hall : ∀ r : Vals ts × Nat, Stops (if r.2 ≠ 0 then
      throw (.decode_error ("Expected to decode entire input, but " ++ toString r.2 ++ " bytes remain"))
      else pure r.1 : Decoder (Vals ts)) :=
    fun _ => Keeps.ite (fun _ => stops_decode_error _) fun _ => Keeps.pure _
  exact (((stops_decode_impl_args 0 bytes.length ts).bind hall).error hr).2 rfl

end EEVM.Rlp

import EEVM.Rlp.Framing
/-!
# Inputs that are decoded exactly (rlp.h:526-645)

The decoder stays on the track of the scan of `Framing` (`Tracks`): it returns, throws a `decode_error` or throws something
else where the scan says so, with its pointer where the scan's is. A scan of an input that is filled goes from item to
item (`Retraces`), so that none of its arrays is undeclared. The two together say on which inputs the decoder is exact
(`framed_iff`).
-/
namespace EEVM.Rlp

open ExcState BigEndian Scan

/-! ## Scans of filled byte strings -/

/-- On a byte string as `fill` says the pointer goes as far as the counter, and nothing in it is undeclared. -/
def Retraces (fill : Bytes → Prop) (s : Nat → Scan Nat) : Prop :=
  ∀ bs more size trail size' trail', fill bs → bs.length ≤ size → trail.bytes = bs ++ more →
    s size trail = .ok size' trail' → size' = size - bs.length ∧ trail' = ⟨more, trail.declared⟩

/-- The same for what is inside a payload. -/
def Refills (fill : Bytes → Prop) (s : Nat → Scan Unit) : Prop :=
  ∀ bs more trail trail', fill bs → trail.bytes = bs ++ more → s bs.length trail = .ok () trail' →
    trail' = ⟨more, trail.declared⟩

theorem header_eq_of_headed {a : Arity} {bs payload more : Bytes} {size : Nat} {trail trail' : Trail}
    {res : (Arity × Nat) × Nat} (h : Headed a bs payload) (hsize : bs.length ≤ size) (hbytes : trail.bytes = bs ++ more)
    (hr : Scan.header size trail = .ok res trail') :
    res = ((a, payload.length), size - (bs.length - payload.length)) ∧ trail' = ⟨payload ++ more, trail.declared⟩ := by
  obtain ⟨hw, hd⟩ := lift_eq_ok hr
  rw [hbytes, header_of_headed h more hsize] at hw
  obtain ⟨bytes, declared⟩ := trail'
  simp only [EStateM.Result.ok.injEq] at hw
  obtain ⟨hres, hrest⟩ := hw
  simp only at hd
  exact ⟨hres.symm, by rw [hd, hrest]⟩

theorem refills_skip : Refills (fun _ => True) Scan.skip := by
  intro bs more trail trail' _ hbytes hr
  obtain ⟨hw, hd⟩ := lift_eq_ok hr
  rw [Walk.skip, hbytes, bind_of_ok (take_append bs more)] at hw
  obtain ⟨bytes, declared⟩ := trail'
  cases hw
  simp only at hd
  rw [hd]

theorem Refills.ite {fill : Bytes → Prop} {c : Nat → Prop} [DecidablePred c] {s s' : Nat → Scan Unit}
    (h : ∀ size, c size → ∀ trail trail', s size trail ≠ .ok () trail') (h' : Refills fill s') :
    Refills fill fun size => if c size then s size else s' size := by
  intro bs more trail trail' hfill hbytes hr
  by_cases hc : c bs.length
  · simp only [if_pos hc] at hr
    exact absurd hr (h bs.length hc trail trail')
  · simp only [if_neg hc] at hr
    exact h' bs more trail trail' hfill hbytes hr

theorem refills_string : Refills (fun _ => True)
    fun size => if size < 2 ^ 32 then Scan.skip size else throw .breaks := by
  intro bs more trail trail' _ hbytes hr
  dsimp only at hr
  split at hr
  · exact refills_skip bs more trail trail' trivial hbytes hr
  · cases hr

theorem retraces_item {arity : Arity} {fill : Bytes → Prop} {payload : Nat → Scan Unit} (h : Refills fill payload) :
    Retraces (fun bs => ∃ p, Headed arity bs p ∧ fill p) (Scan.item arity payload) := by
  rintro bs more size trail size' trail' ⟨p, hp, hfill⟩ hsize hbytes hr
  simp only [Scan.item, bind_eq_ok] at hr
  obtain ⟨res, t1, h1, hr⟩ := hr
  obtain ⟨rfl, rfl⟩ := header_eq_of_headed hp hsize hbytes h1
  simp only at hr
  rw [if_neg (not_not.2 rfl)] at hr
  simp only [bind_eq_ok] at hr
  obtain ⟨left, t2, h2, _, t3, h3, hr⟩ := hr
  cases hr
  obtain ⟨hle, rfl, rfl⟩ := sub_eq_ok h2
  have hlen := hp.length_pos.2.1
  exact ⟨by omega, h p more ⟨p ++ more, trail.declared⟩ trail' hfill rfl h3⟩

section

variable {fill : Bytes → Prop} {elem : Nat → Scan Nat}

theorem retraces_turns (h : Retraces fill elem) : ∀ (items : List Bytes) (more : Bytes) (size : Nat)
    (trail trail' : Trail), (∀ bs ∈ items, fill bs) → items.flatten.length ≤ size →
    trail.bytes = items.flatten ++ more → turns elem items.length size trail = .ok () trail' →
    trail' = ⟨more, trail.declared⟩
  | [], more, size, trail, trail', _, _, hbytes, hr => by
    cases hr
    simp only [List.flatten_nil, List.nil_append] at hbytes
    rw [← hbytes]
  | bs :: items, more, size, trail, trail', hfill, hsize, hbytes, hr => by
    simp only [List.length_cons, turns, bind_eq_ok] at hr
    obtain ⟨size1, trail1, h1, hr⟩ := hr
    rw [List.flatten_cons, List.append_assoc] at hbytes
    rw [List.flatten_cons, List.length_append] at hsize
    obtain ⟨rfl, rfl⟩ := h bs _ size trail size1 trail1 (hfill bs List.mem_cons_self) (by omega) hbytes h1
    exact retraces_turns h items more _ ⟨items.flatten ++ more, trail.declared⟩ trail'
      (fun bs hbs => hfill bs (List.mem_cons_of_mem _ hbs)) (by omega) rfl hr

theorem retraces_until_zero (h : Retraces fill elem) (hpos : ∀ bs, fill bs → 0 < bs.length) :
    ∀ (items : List Bytes) (more : Bytes) (n : Nat) (trail trail' : Trail), (∀ bs ∈ items, fill bs) →
    trail.bytes = items.flatten ++ more → until_zero elem n items.flatten.length trail = .ok () trail' →
    trail' = ⟨more, trail.declared⟩
  | [], more, n, trail, trail', _, hbytes, hr => by
    simp only [List.flatten_nil, List.length_nil, until_zero] at hr
    cases hr
    simp only [List.flatten_nil, List.nil_append] at hbytes
    rw [← hbytes]
  | bs :: items, more, n, trail, trail', hfill, hbytes, hr => by
    have hbs := hpos bs (hfill bs List.mem_cons_self)
    obtain ⟨k, hk⟩ : ∃ k, (bs :: items).flatten.length = k + 1 := by
      refine ⟨(bs :: items).flatten.length - 1, ?_⟩
      simp only [List.flatten_cons, List.length_append]
      omega
    have hlen : bs.length + items.flatten.length = k + 1 := by rw [← hk, List.flatten_cons, List.length_append]
    rw [hk] at hr
    cases n with
    | zero => cases hr
    | succ n =>
      simp only [until_zero, bind_eq_ok] at hr
      obtain ⟨size1, trail1, h1, hr⟩ := hr
      rw [List.flatten_cons, List.append_assoc] at hbytes
      obtain ⟨rfl, rfl⟩ := h bs _ _ trail size1 trail1 (hfill bs List.mem_cons_self) (by omega) hbytes h1
      rw [show k.succ - bs.length = items.flatten.length by omega] at hr
      exact retraces_until_zero h hpos items more n ⟨items.flatten ++ more, trail.declared⟩ trail'
        (fun bs hbs => hfill bs (List.mem_cons_of_mem _ hbs)) rfl hr

theorem refills_list_vector (h : Retraces fill elem) (hpos : ∀ bs, fill bs → 0 < bs.length) :
    Refills (ListOf (fun _ => True) fill) (list_vector elem) := by
  rintro bs more trail trail' ⟨a, items, hh, -, hfill⟩ hbytes hr
  simp only [list_vector, bind_eq_ok] at hr
  obtain ⟨res, t1, h1, hr⟩ := hr
  obtain ⟨rfl, rfl⟩ := header_eq_of_headed hh (Nat.le_refl _) hbytes h1
  simp only at hr
  obtain ⟨left, t2, h2, hr⟩ := hr
  obtain ⟨-, -, rfl⟩ := sub_eq_ok h2
  exact retraces_until_zero h hpos items more _ ⟨items.flatten ++ more, trail.declared⟩ trail' hfill rfl hr

/-- The list header of a filled array declares all of its string. -/
theorem refills_list_array {frame : Bytes → Prop} (h : Retraces fill elem) (hc : Consumes frame fill elem) (N : Nat) :
    Refills (ListOf (· = N) fill) (list_array elem N) := by
  rintro bs more trail trail' ⟨a, items, hh, rfl, hfill⟩ hbytes hr
  have hlen := hh.length_pos.2.1
  simp only [list_array, bind_eq_ok] at hr
  obtain ⟨res, t1, h1, hr⟩ := hr
  obtain ⟨rfl, rfl⟩ := header_eq_of_headed hh (Nat.le_refl _) hbytes h1
  simp only at hr
  obtain ⟨undeclared, t2, h2, _, t3, h3, hr⟩ := hr
  obtain ⟨-, rfl, rfl⟩ := sub_eq_ok h2
  have hzero : bs.length - (bs.length - items.flatten.length) - items.flatten.length = 0 := by omega
  simp only [run_modify, hzero, beq_self_eq_true, Bool.and_true, EStateM.Result.ok.injEq] at h3
  obtain ⟨-, rfl⟩ := h3
  have hturns : items.length < 2 ^ 32 := by
    obtain ⟨items', left, -, hcount, hle⟩ := turns_ok hc hr
    split at hle
    · assumption
    · omega
  rw [if_pos hturns] at hr
  exact retraces_turns h items more _ ⟨items.flatten ++ more, trail.declared⟩ trail' hfill (by omega) rfl hr

end

theorem Filled.length_pos {t : Ty} {bs : Bytes} (h : Filled t bs) : 0 < bs.length := by
  obtain ⟨a, payload, hh, -⟩ := h.framed.headed
  exact hh.length_pos.1

theorem refills_vector {t : Ty} (h : Retraces (Filled t) (scan t)) :
    Refills (vector_filled t (Filled t)) (Scan.vector t (scan t)) := by
  by_cases ht : t = .uint .w8
  · subst ht
    exact refills_string
  · rw [Scan.vector_of_ne ht, vector_filled_of_ne ht]
    exact refills_list_vector h fun bs hbs => hbs.length_pos

theorem refills_array {t : Ty} (h : Retraces (Filled t) (scan t)) (N : Nat) :
    Refills (array_filled t (Filled t) N) (Scan.array t (scan t) N) := by
  by_cases ht : t = .uint .w8
  · subst ht
    intro bs more trail trail' hlen hbytes hr
    change bs.length = N at hlen
    subst hlen
    change (if bs.length ≠ bs.length then throw .rejected else Scan.skip bs.length) trail = .ok () trail' at hr
    rw [if_neg (not_not.2 rfl)] at hr
    exact refills_skip bs more trail trail' trivial hbytes hr
  · rw [Scan.array_of_ne ht, array_filled_of_ne ht]
    exact refills_list_array h (consumes_scan t) N

theorem Retraces.mono {fill fill' : Bytes → Prop} {s : Nat → Scan Nat} (h : Retraces fill s)
    (hf : ∀ bs, fill' bs → fill bs) : Retraces fill' s :=
  fun bs more size trail size' trail' hfill => h bs more size trail size' trail' (hf bs hfill)

/-- A string whose payload is of no account. -/
theorem retraces_headed {payload : Nat → Scan Unit} (h : Refills (fun _ => True) payload) :
    Retraces (fun bs => ∃ p, Headed .single bs p) (Scan.item .single payload) := by
  refine (retraces_item h).mono ?_
  rintro bs ⟨p, hp⟩
  exact ⟨p, hp, trivial⟩

/-- What is inside a payload forgets its counter. -/
theorem Retraces.refills {fill : Bytes → Prop} {s : Nat → Scan Nat} (h : Retraces fill s) :
    Refills fill (fun size => do
      let _ ← s size) := by
  intro bs more trail trail' hfill hbytes hr
  simp only [bind_eq_ok] at hr
  obtain ⟨left, t1, h1, hr⟩ := hr
  cases hr
  exact (h bs more _ trail left trail' hfill (Nat.le_refl _) hbytes h1).2

mutual

theorem retraces_scan : ∀ t : Ty, Retraces (Filled t) (scan t)
  | .uint w => by
    unfold scan
    refine retraces_headed (.ite ?_ refills_skip)
    intro size _ trail trail' hr
    cases hr
  | .u256 => by
    unfold scan
    refine retraces_headed (.ite ?_ refills_skip)
    intro size _ trail trail' hr
    cases hr
  | .string => by
    unfold scan
    exact retraces_headed refills_string
  | .vector t => by
    unfold scan
    exact retraces_item (refills_vector (retraces_scan t))
  | .array t N => by
    unfold scan
    exact retraces_item (refills_array (retraces_scan t) N)
  | .tuple ts => by
    unfold scan
    exact retraces_item (retraces_scan_tuple ts).refills

theorem retraces_scan_tuple : ∀ ts : List Ty, Retraces (Filled_all ts) (scan_tuple ts)
  | [] => by
    rw [scan_tuple_nil]
    intro bs more size trail size' trail' hfill _ hbytes hr
    simp only [Filled_all] at hfill
    subst hfill
    cases hr
    exact ⟨rfl, by rw [← List.nil_append more, ← hbytes]⟩
  | t :: ts => by
    rw [scan_tuple_cons]
    intro bs more size trail size' trail' hfill hsize hbytes hr
    simp only [Filled_all] at hfill
    obtain ⟨item, rest, rfl, ht, hts⟩ := hfill
    rw [List.length_append] at hsize
    rw [List.append_assoc] at hbytes
    simp only [bind_eq_ok] at hr
    obtain ⟨size1, trail1, h1, hr⟩ := hr
    obtain ⟨rfl, rfl⟩ := retraces_scan t item _ size trail size1 trail1 ht (by omega) hbytes h1
    obtain ⟨rfl, rfl⟩ := retraces_scan_tuple ts rest more _ _ size' trail' hts (by omega) rfl hr
    refine ⟨?_, rfl⟩
    rw [List.length_append]
    omega

end

/-! ## The decoder on the tracks of the scan -/

/-- From the same pointer, `m` ends like `s`: with the same pointer and results in `Q`, with a `decode_error`, or with
another exception. Where a header does not fit, nothing is said. -/
structure Tracks {α β : Type} (Q : α → β → Prop) (m : Decoder α) (s : Scan β) : Prop where
  ends : ∀ c trail, c.data = trail.bytes → match s trail with
    | .ok b trail' => ∃ a c', m c = .ok a c' ∧ c'.data = trail'.bytes ∧ Q a b
    | .error .rejected _ => ∃ what c', m c = .error (.decode_error what) c'
    | .error .breaks _ => ∃ e c', m c = .error e c' ∧ ∀ what, e ≠ .decode_error what
    | .error .overrun _ => True

namespace Tracks

variable {α β γ δ : Type} {Q : α → β → Prop} {Q' : γ → δ → Prop} {m : Decoder α} {s : Scan β} {f : α → Decoder γ}
  {g : β → Scan δ}

theorem pure {a : α} {b : β} (h : Q a b) : Tracks Q (pure a) (pure b) :=
  ⟨fun c _ hc => ⟨a, c, rfl, hc, h⟩⟩

theorem reject (what : String) : Tracks Q (throw (.decode_error what)) (throw .rejected) :=
  ⟨fun c _ _ => ⟨what, c, rfl⟩⟩

theorem breaks {e : Fail} (h : ∀ what, e ≠ .decode_error what) : Tracks Q (throw e) (throw .breaks) :=
  ⟨fun c _ _ => ⟨e, c, rfl, h⟩⟩

theorem bind (h : Tracks Q m s) (hf : ∀ a b, Q a b → Tracks Q' (f a) (g b)) : Tracks Q' (m >>= f) (s >>= g) := by
  constructor
  intro c trail hc
  have he := h.ends c trail hc
  cases hs : s trail with
  | ok b trail' =>
    rw [hs] at he
    obtain ⟨a, c', hm, hc', hq⟩ := he
    rw [bind_of_ok hm, bind_of_ok hs]
    exact (hf a b hq).ends c' trail' hc'
  | error e trail' =>
    rw [hs] at he
    rw [bind_of_error hs]
    cases e with
    | rejected =>
      obtain ⟨what, c', hm⟩ := he
      exact ⟨what, c', bind_of_error hm⟩
    | overrun => trivial
    | breaks =>
      obtain ⟨e, c', hm, hne⟩ := he
      exact ⟨e, c', bind_of_error hm, hne⟩

/-- The same results go on in the same way. -/
theorem bind_eq {s : Scan α} {g : α → Scan δ} (h : Tracks Eq m s) (hf : ∀ a, Tracks Q' (f a) (g a)) :
    Tracks Q' (m >>= f) (s >>= g) := by
  apply h.bind
  rintro a _ rfl
  exact hf a

theorem map {f : α → γ} {g : β → δ} (h : Tracks Q m s) (hQ : ∀ a b, Q a b → Q' (f a) (g b)) :
    Tracks Q' (do let a ← m; return f a) (do let b ← s; return g b) :=
  h.bind fun a b hq => .pure (hQ a b hq)

/-- The decoder makes more of the result than the scan does. -/
theorem map_left {Q' : γ → β → Prop} {f : α → γ} (h : Tracks Q m s) (hQ : ∀ a b, Q a b → Q' (f a) b) :
    Tracks Q' (do let a ← m; return f a) s := by
  rw [← bind_pure s]
  exact h.map hQ

/-- And the scan more than the decoder. -/
theorem map_right {Q' : α → δ → Prop} {g : β → δ} (h : Tracks Q m s) (hQ : ∀ a b, Q a b → Q' a (g b)) :
    Tracks Q' m (do let b ← s; return g b) := by
  rw [← bind_pure m]
  exact h.map hQ

theorem ite {p q : Prop} [Decidable p] [Decidable q] {m' : Decoder α} {s' : Scan β} (hpq : p ↔ q)
    (h : p → Tracks Q m s) (h' : ¬p → Tracks Q m' s') : Tracks Q (if p then m else m') (if q then s else s') := by
  by_cases hp : p
  · rw [if_pos hp, if_pos (hpq.1 hp)]
    exact h hp
  · rw [if_neg hp, if_neg (hp ∘ hpq.2)]
    exact h' hp

/-- A step of the decoder that only computes something from its pointer. -/
theorem of_look {look : Decoder γ} {f : γ → Decoder α} {P : γ → Prop} (hlook : ∀ c, ∃ n, look c = .ok n c ∧ P n)
    (h : ∀ n, P n → Tracks Q (f n) s) : Tracks Q (look >>= f) s := by
  constructor
  intro c trail hc
  obtain ⟨n, hn, hp⟩ := hlook c
  rw [bind_of_ok hn]
  exact (h n hp).ends c trail hc

/-- A step of the scan that leaves the pointer alone, or finds that a header does not fit. -/
theorem of_check {check : Scan γ} {g : γ → Scan β}
    (hcheck : ∀ trail, (∃ n trail', check trail = .ok n trail' ∧ trail'.bytes = trail.bytes) ∨
      ∃ trail', check trail = .error .overrun trail') (h : ∀ n, Tracks Q m (g n)) : Tracks Q m (check >>= g) := by
  constructor
  intro c trail hc
  rcases hcheck trail with ⟨n, trail', hn, hb⟩ | ⟨trail', hn⟩
  · rw [bind_of_ok hn]
    exact (h n).ends c trail' (by rw [hc, hb])
  · rw [bind_of_error hn]
    trivial

end Tracks

theorem tracks_sub (size amount : Nat) : Tracks Eq (size_sub size amount) (Scan.sub size amount) := by
  constructor
  intro c trail hc
  rcases sub_cases size amount trail with ⟨h, hs⟩ | hs
  · rw [hs]
    have hm : size_sub size amount c = .ok (size - amount) { c with log := .sub size amount :: c.log } := by
      rw [size_sub, if_pos h]
    exact ⟨size - amount, _, hm, hc, rfl⟩
  · rw [hs]
    trivial

theorem Tracks.check_sub {α β : Type} {Q : α → β → Prop} {m : Decoder α} {size amount : Nat} {g : Nat → Scan β}
    (h : ∀ n, Tracks Q m (g n)) : Tracks Q m (Scan.sub size amount >>= g) := by
  refine .of_check ?_ h
  intro trail
  rcases sub_cases size amount trail with ⟨-, hs⟩ | hs
  · exact .inl ⟨_, trail, hs, rfl⟩
  · exact .inr ⟨trail, hs⟩

theorem Tracks.payload_end {α β : Type} {Q : α → β → Prop} {m : Nat → Decoder α} {s : Scan β} {lim contained : Nat}
    (h : ∀ lim, Tracks Q (m lim) s) : Tracks Q (payload_end lim contained >>= m) s :=
  .of_look (P := fun _ => True) (fun _ => ⟨_, rfl, trivial⟩) fun n _ => h n

/-! ### Headers and byte strings -/

theorem lift_pure {α : Type} (a : α) : lift (pure a) = pure a := rfl

theorem lift_bind {α β : Type} (w : Walk α) (g : α → Walk β) : lift (w >>= g) = lift w >>= fun a => lift (g a) := by
  funext trail
  rw [run_bind]
  unfold lift
  rw [run_bind]
  cases w trail.bytes with
  | ok a bytes => rfl
  | error e bytes => cases e <;> rfl

theorem lift_reject {α : Type} : lift (throw .rejected : Walk α) = throw .rejected := rfl

theorem lift_ite {α : Type} {p : Prop} [Decidable p] (w w' : Walk α) :
    lift (if p then w else w') = if p then lift w else lift w' := by
  split <;> rfl

theorem tracks_peek (lim : Nat) : Tracks Eq (peek lim) (lift Walk.peek) := by
  constructor
  rintro ⟨data, log⟩ ⟨bytes, declared⟩ hc
  obtain rfl : data = bytes := hc
  cases data with
  | nil => trivial
  | cons first rest => exact ⟨first, _, rfl, rfl, rfl⟩

theorem tracks_next (lim : Nat) : Tracks Eq (next_byte lim) (lift Walk.next) := by
  constructor
  rintro ⟨data, log⟩ ⟨bytes, declared⟩ hc
  obtain rfl : data = bytes := hc
  cases data with
  | nil => trivial
  | cons first rest => exact ⟨first, _, rfl, rfl, rfl⟩

theorem tracks_read_bytes (lim : Nat) : ∀ size : Nat, Tracks Eq (read_bytes lim size) (lift (Walk.take size))
  | 0 => .pure rfl
  | size + 1 => by
    simp only [Walk.take, lift_bind]
    refine (tracks_next lim).bind_eq fun b => ?_
    exact (tracks_read_bytes lim size).bind_eq fun bs => .pure rfl

theorem tracks_size_t_loop (lim : Nat) : ∀ size result : Nat,
    Tracks (fun r bytes => r = ofBytesFrom result bytes) (size_t_loop lim size result) (lift (Walk.take size))
  | 0, result => .pure rfl
  | size + 1, result => by
    simp only [Walk.take, lift_bind]
    refine (tracks_next lim).bind_eq fun b => ?_
    exact (tracks_size_t_loop lim size _).map_right fun r bs hr => hr

theorem tracks_size_t (lim : Nat) {size : Nat} (h : size ≤ 8) :
    Tracks (fun r bytes => r = ofBytes bytes) (from_bytes_size_t lim size) (lift (Walk.take size)) := by
  rw [from_bytes_size_t, if_neg (by omega)]
  exact tracks_size_t_loop lim size 0

/-- What is read is of no account to the scan. -/
theorem Tracks.skip {α β : Type} {Q : α → β → Prop} {Q' : α → Unit → Prop} {m : Decoder α} {w : Walk β}
    (h : Tracks Q m (lift w)) (hQ : ∀ a, Q' a ()) : Tracks Q' m (lift (do let _ ← w)) := by
  rw [lift_bind]
  exact h.map_right fun a _ _ => hQ a

theorem tracks_string (lim size : Nat) : Tracks (fun _ _ => True) (from_bytes_string lim size)
    (if size < 2 ^ 32 then Scan.skip size else throw .breaks) := by
  constructor
  intro c trail hc
  by_cases h : size < 2 ^ 32
  · rw [if_pos h, from_bytes_string, copy_loop_eq_read_bytes lim h c.data 0 c.log (by simp)]
    exact ((tracks_read_bytes lim size).skip (fun _ => trivial)).ends c trail hc
  · rw [if_neg h]
    obtain ⟨log', hloop⟩ := copy_loop_endless lim (Nat.le_of_not_lt h) c.data 0 c.log
    refine ⟨_, _, hloop, ?_⟩
    rintro what ⟨⟩

theorem tracks_uint (w : Width) (lim size : Nat) : Tracks (fun _ _ => True) (from_bytes_uint w lim size)
    (if size > 8 then throw .rejected else Scan.skip size) := by
  by_cases h : size > 8
  · rw [from_bytes_uint, from_bytes_size_t, if_pos h, if_pos h]
    exact .reject _
  · rw [if_neg h]
    apply Tracks.map_left (Q := fun _ _ => True)
    · exact (tracks_size_t lim (by omega)).skip fun _ => trivial
    · intros
      trivial

theorem tracks_u256 (lim size : Nat) : Tracks (fun _ _ => True) (from_bytes_u256 lim size)
    (if size > 32 then throw .breaks else Scan.skip size) := by
  refine .ite Iff.rfl (fun _ => .breaks nofun) fun _ => ?_
  apply Tracks.map_left (Q := fun _ _ => True)
  · exact (tracks_read_bytes lim size).skip fun _ => trivial
  · intros
    trivial

theorem tracks_read_array (lim : Nat) : ∀ N : Nat, Tracks (fun _ _ => True) (read_array lim N) (lift (Walk.take N))
  | 0 => .pure trivial
  | N + 1 => by
    simp only [Walk.take, lift_bind]
    refine (tracks_next lim).bind_eq fun b => ?_
    exact (tracks_read_array lim N).map fun _ _ _ => trivial

theorem tracks_byte_array (N lim size : Nat) : Tracks (fun _ _ => True) (from_bytes_byte_array N lim size)
    (if size ≠ N then throw .rejected else Scan.skip N) :=
  .ite Iff.rfl (fun _ => .reject _) fun _ => (tracks_read_array lim N).skip fun _ => trivial

theorem tracks_long_length (what : String) (arity : Arity) (lim size : Nat) {n : Nat} (hn : n ≤ 8) :
    Tracks Eq (long_length what arity lim size n) (lift (Walk.long_header arity size n)) := by
  unfold Walk.long_header
  simp only [lift_ite, lift_bind, lift_pure, lift_reject]
  refine .ite Iff.rfl (fun _ => .reject _) fun _ => ?_
  refine (tracks_sub size n).bind_eq fun size => ?_
  refine (tracks_size_t lim hn).bind ?_
  rintro _ bytes rfl
  exact .pure rfl

theorem tracks_decode_length (lim size : Nat) : Tracks Eq (decode_length lim size) (Scan.header size) := by
  unfold Scan.header Walk.header
  simp only [lift_ite, lift_bind, lift_pure, lift_reject]
  refine .ite Iff.rfl (fun _ => .reject _) fun _ => ?_
  refine (tracks_peek lim).bind_eq fun first => ?_
  refine .ite Iff.rfl (fun _ => .pure rfl) fun _ => ?_
  refine (tracks_next lim).bind_eq fun length => ?_
  refine (tracks_sub size 1).bind_eq fun size => ?_
  have := length.toNat_lt
  refine .ite Iff.rfl (fun _ => .pure rfl) fun _ => ?_
  refine .ite Iff.rfl (fun _ => tracks_long_length _ _ _ _ (by omega)) fun _ => ?_
  exact .ite Iff.rfl (fun _ => .pure rfl) fun _ => tracks_long_length _ _ _ _ (by omega)

/-! ### Items and containers -/

section

variable {α : Type}

theorem tracks_one {from_bytes : Nat → Nat → Decoder α} {payload : Nat → Scan Unit}
    (h : ∀ lim size : Nat, Tracks (fun _ _ => True) (from_bytes lim size) (payload size)) (lim size : Nat) :
    Tracks (fun r size' => r.2 = size') (decode_one from_bytes lim size) (Scan.item .single payload size) := by
  refine (tracks_decode_length lim size).bind_eq ?_
  rintro ⟨⟨arity, contained⟩, size⟩
  refine .ite Iff.rfl (fun _ => .reject _) fun _ => ?_
  refine (tracks_sub size contained).bind_eq fun size => ?_
  apply Tracks.payload_end
  intro lim
  exact (h lim contained).map fun _ _ _ => rfl

theorem tracks_list {items : Nat → Nat → Decoder (α × Nat)} {s : Nat → Scan Nat}
    (h : ∀ lim size : Nat, Tracks (fun r size' => r.2 = size') (items lim size) (s size)) (lim size : Nat) :
    Tracks (fun r size' => r.2 = size') (decode_list items lim size)
      (Scan.item .multiple (fun size => do let _ ← s size) size) := by
  refine (tracks_decode_length lim size).bind_eq ?_
  rintro ⟨⟨arity, contained⟩, size⟩
  refine .ite Iff.rfl (fun _ => .reject _) fun _ => ?_
  refine (tracks_sub size contained).bind_eq fun size => ?_
  apply Tracks.payload_end
  intro lim
  simp only [bind_assoc, pure_bind]
  exact (h lim contained).map fun _ _ _ => rfl

variable {elem : Nat → Nat → Decoder (α × Nat)} {s : Nat → Scan Nat}

/-- An element, on a counter that it lowers. -/
structure TracksElem (elem : Nat → Nat → Decoder (α × Nat)) (s : Nat → Scan Nat) : Prop where
  tracks : ∀ lim size : Nat, Tracks (fun r size' => r.2 = size') (elem lim size) (s size)
  shrinks : ∀ size trail size' trail', s size trail = .ok size' trail' → size' < size

theorem TracksElem.step (h : TracksElem elem s) (lim size : Nat) :
    Tracks (fun r size' => r.2 = size' ∧ size' < size) (elem lim size) (s size) := by
  constructor
  intro c trail hc
  have he := (h.tracks lim size).ends c trail hc
  cases hs : s size trail with
  | ok b trail' =>
    rw [hs] at he
    obtain ⟨a, c', hm, hc', hq⟩ := he
    exact ⟨a, c', hm, hc', hq, h.shrinks size trail b trail' hs⟩
  | error e trail' =>
    rw [hs] at he
    cases e <;> exact he

theorem tracks_array_loop (h : TracksElem elem s) (lim : Nat) : ∀ N size : Nat,
    Tracks (fun _ _ => True) (array_loop elem lim N size) (turns s N size)
  | 0, _ => .pure trivial
  | N + 1, size => by
    refine (h.tracks lim size).bind ?_
    rintro ⟨v, size⟩ _ rfl
    exact (tracks_array_loop h lim N size).map_left fun _ _ _ => trivial

/-- The loop whose counter never reaches `N` fails before the counter of bytes is used up. -/
theorem tracks_endless_loop (h : TracksElem elem s) (lim : Nat) : ∀ n fuel size : Nat, size < n → size < fuel →
    Tracks (fun _ _ => False) (endless_loop elem lim fuel size) (turns s n size)
  | 0, _, _, hn, _ => absurd hn (Nat.not_lt_zero _)
  | _ + 1, 0, _, _, hf => absurd hf (Nat.not_lt_zero _)
  | n + 1, fuel + 1, size, hn, hf => by
    refine (h.step lim size).bind ?_
    rintro ⟨v, left⟩ _ ⟨rfl, hlt⟩
    simp only at hlt
    exact tracks_endless_loop h lim n fuel left (by omega) (by omega)

theorem tracks_vector_loop (h : TracksElem elem s) (lim : Nat) : ∀ n fuel size : Nat, size ≤ n → size ≤ fuel →
    Tracks (fun _ _ => True) (vector_loop elem lim fuel size) (until_zero s n size)
  | n, fuel, 0, _, _ => by
    unfold vector_loop until_zero
    exact .pure trivial
  | 0, _, size + 1, hn, _ => absurd hn (Nat.not_succ_le_zero _)
  | _ + 1, 0, size + 1, _, hf => absurd hf (Nat.not_succ_le_zero _)
  | n + 1, fuel + 1, size + 1, hn, hf => by
    refine (h.step lim (size + 1)).bind ?_
    rintro ⟨v, left⟩ _ ⟨rfl, hlt⟩
    simp only at hlt
    exact (tracks_vector_loop h lim n fuel left (by omega) (by omega)).map_left fun _ _ _ => trivial

theorem Tracks.loop_fuel {β γ : Type} {Q : γ → β → Prop} {m : Nat → Decoder γ} {s : Scan β} {contained : Nat}
    (h : ∀ fuel, contained ≤ fuel → Tracks Q (m fuel) s) : Tracks Q (loop_fuel contained >>= m) s :=
  .of_look (fun _ => ⟨_, rfl, Nat.le_add_left _ _⟩) h

theorem tracks_list_vector (h : TracksElem elem s) (lim size : Nat) :
    Tracks (fun _ _ => True) (from_bytes_list_vector elem lim size) (list_vector s size) := by
  refine (tracks_decode_length lim size).bind_eq ?_
  rintro ⟨⟨arity, contained⟩, size⟩
  apply Tracks.payload_end
  intro lim
  apply Tracks.check_sub
  intro _
  apply Tracks.loop_fuel
  intro fuel hfuel
  exact tracks_vector_loop h lim contained fuel contained (Nat.le_refl _) hfuel

theorem tracks_list_array (h : TracksElem elem s) (N lim size : Nat) :
    Tracks (fun _ _ => True) (from_bytes_list_array elem N lim size) (list_array s N size) := by
  refine (tracks_decode_length lim size).bind_eq ?_
  rintro ⟨⟨arity, contained⟩, size⟩
  apply Tracks.payload_end
  intro lim
  apply Tracks.check_sub
  intro _
  refine .of_check (fun trail => .inl ⟨_, _, rfl, rfl⟩) fun _ => ?_
  by_cases hN : N < 2 ^ 32
  · simp only [if_pos hN]
    exact tracks_array_loop h lim N size
  · simp only [if_neg hN]
    apply Tracks.loop_fuel
    intro fuel hfuel
    rw [← bind_pure (turns s (size + 1) size)]
    refine (tracks_endless_loop h lim (size + 1) (fuel + 1) size (by omega) (by omega)).bind ?_
    intro _ _ hf
    exact hf.elim

end

theorem tracks_vector {t : Ty} (h : TracksElem (decode_impl t) (scan t)) (lim size : Nat) :
    Tracks (fun _ _ => True) (from_bytes_vector t (decode_impl t) lim size) (Scan.vector t (scan t) size) := by
  by_cases ht : t = .uint .w8
  · subst ht
    exact tracks_string lim size
  · rw [from_bytes_vector_of_ne ht, Scan.vector_of_ne ht]
    exact tracks_list_vector h lim size

theorem tracks_array {t : Ty} (h : TracksElem (decode_impl t) (scan t)) (N lim size : Nat) :
    Tracks (fun _ _ => True) (from_bytes_array t (decode_impl t) N lim size) (Scan.array t (scan t) N size) := by
  by_cases ht : t = .uint .w8
  · subst ht
    exact tracks_byte_array N lim size
  · rw [from_bytes_array_of_ne ht, Scan.array_of_ne ht]
    exact tracks_list_array h N lim size

/-- A pack, one element after the other. -/
theorem tracks_pack {α β : Type} {first : Nat → Nat → Decoder (α × Nat)} {rest : Nat → Nat → Decoder (β × Nat)}
    {s s' : Nat → Scan Nat}
    (h : ∀ lim size : Nat, Tracks (fun r size' => r.2 = size') (first lim size) (s size))
    (h' : ∀ lim size : Nat, Tracks (fun r size' => r.2 = size') (rest lim size) (s' size)) (lim size : Nat) :
    Tracks (fun r size' => r.2 = size') (do
      let (v, size) ← first lim size
      let (vs, size) ← rest lim size
      return ((v, vs), size)) (do
      let size ← s size
      s' size) := by
  refine (h lim size).bind ?_
  rintro ⟨v, left⟩ _ rfl
  exact (h' lim left).map_left fun _ _ hr => hr

mutual

theorem tracks_decode_impl : ∀ (t : Ty) (lim size : Nat),
    Tracks (fun r size' => r.2 = size') (decode_impl t lim size) (scan t size)
  | .uint w, lim, size => by
    unfold decode_impl scan
    exact tracks_one (tracks_uint w) lim size
  | .u256, lim, size => by
    unfold decode_impl scan
    exact tracks_one tracks_u256 lim size
  | .string, lim, size => by
    unfold decode_impl scan
    exact tracks_one tracks_string lim size
  | .vector t, lim, size => by
    unfold decode_impl scan
    exact tracks_one (tracks_vector ⟨tracks_decode_impl t, (consumes_scan t).2⟩) lim size
  | .array t N, lim, size => by
    unfold decode_impl scan
    exact tracks_one (tracks_array ⟨tracks_decode_impl t, (consumes_scan t).2⟩ N) lim size
  | .tuple ts, lim, size => by
    unfold decode_impl scan
    exact tracks_list (tracks_decode_tuple ts) lim size

theorem tracks_decode_tuple : ∀ (ts : List Ty) (lim size : Nat),
    Tracks (fun r size' => r.2 = size') (decode_tuple ts lim size) (scan_tuple ts size)
  | [], _, _ => by
    unfold decode_tuple scan_tuple
    exact .pure rfl
  | t :: ts, lim, size => by
    unfold decode_tuple scan_tuple
    exact tracks_pack (tracks_decode_impl t) (tracks_decode_tuple ts) lim size

end

theorem tracks_decode_item (t : Ty) (lim size : Nat) :
    Tracks (fun r size' => r.2 = size') (decode_item t lim size) (scan_item t size) := by
  cases t with
  | tuple ts => exact tracks_decode_tuple ts lim size
  | _ => exact tracks_decode_impl _ lim size

theorem tracks_decode_multiple : ∀ (ts : List Ty) (lim size : Nat),
    Tracks (fun r size' => r.2 = size') (decode_multiple ts lim size) (scan_multiple ts size)
  | [], _, _ => .pure rfl
  | t :: ts, lim, size => tracks_pack (tracks_decode_item t) (tracks_decode_multiple ts) lim size

theorem tracks_decode_none (lim size : Nat) :
    Tracks (fun r size' => r.2 = size') (decode_none lim size) (scan_none size) := by
  refine (tracks_decode_length lim size).bind_eq ?_
  rintro ⟨⟨arity, contained⟩, size⟩
  refine .ite Iff.rfl (fun _ => .reject _) fun _ => ?_
  exact .ite Iff.rfl (fun _ => .reject _) fun _ => .pure rfl

theorem tracks_decode_impl_args (lim size : Nat) : ∀ ts : List Ty,
    Tracks (fun r size' => r.2 = size') (decode_impl_args ts lim size) (scan_args ts size)
  | [] => tracks_decode_none lim size
  | [t] => (tracks_decode_impl t lim size).map_left fun _ _ hr => hr
  | t :: t' :: ts => tracks_list (tracks_decode_multiple (t :: t' :: ts)) lim size

/-! ## Packs -/

/-- What the input of `decode<Ts...>` is an item of. -/
def pack : List Ty → Ty
  | [t] => t
  | ts => .tuple ts

theorem filled_args_eq (ts : List Ty) : Filled_args ts = Filled (pack ts) := by
  funext bs
  cases ts with
  | nil => rfl
  | cons t ts => cases ts <;> rfl

theorem scan_of_scan_none {size size' : Nat} {trail trail' : Trail} (h : scan_none size trail = .ok size' trail') :
    scan (.tuple []) size trail = .ok size' trail' := by
  simp only [scan_none, bind_eq_ok] at h
  obtain ⟨⟨⟨arity, contained⟩, left⟩, t1, h1, h⟩ := h
  simp only at h
  split at h
  · cases h
  rename_i harity
  split at h
  · cases h
  rename_i hcontained
  cases h
  obtain rfl : contained = 0 := not_not.1 hcontained
  have hsub : Scan.sub size' 0 trail' = .ok size' trail' := by simp [Scan.sub, lift, Walk.sub]
  simp only [scan, Scan.item]
  rw [bind_of_ok h1]
  simp only [if_neg harity]
  rw [bind_of_ok hsub]
  simp only [scan_tuple]
  rfl

/-- A pack without tuples is scanned as the tuple of its types, or as its only type. -/
theorem scan_of_scan_args {ts : List Ty} (hplain : 2 ≤ ts.length → ∀ t ∈ ts, t.is_tuple = false) {size size' : Nat}
    {trail trail' : Trail} (h : scan_args ts size trail = .ok size' trail') :
    scan (pack ts) size trail = .ok size' trail' := by
  match ts with
  | [] => exact scan_of_scan_none h
  | [t] => exact h
  | t :: t' :: ts =>
    simp only [scan_args, scan_multiple_of_plain (hplain (by simp))] at h
    simpa only [pack, scan] using h

/-- A pack of which one is a tuple is not scanned to the end of an input that is filled. -/
theorem plain_of_filled {ts : List Ty} {bs : Bytes} {declared : Bool} (h2 : 2 ≤ ts.length)
    (h : scan_args ts bs.length { bytes := bs } = .ok 0 ⟨[], declared⟩) (hfilled : Filled_args ts bs) :
    ∀ t ∈ ts, t.is_tuple = false := by
  match ts with
  | t :: t' :: ts =>
    obtain ⟨used, ht⟩ := (consumes_item (runs_scan_multiple (t :: t' :: ts)).fills).1 _ _ _ _ h
    obtain rfl : bs = used := by simpa using ht.bytes
    obtain ⟨p, hp, hframed⟩ := ht.frame rfl
    simp only [Filled_args, Filled] at hfilled
    obtain ⟨p', hp', hfilled⟩ := hfilled
    obtain ⟨-, rfl, -, -⟩ := hp.unique hp' (congrArg (· ++ []) rfl)
    exact not_tuple_of_framed hfilled.framed hframed

/-! ## Exactly the inputs that are decoded exactly -/

/-- What is returned comes from an input that is filled at every level, of which nothing was left unread; and an input
that is not filled is rejected. -/
structure Exact (ts : List Ty) (bs : Bytes) : Prop where
  filled : ∀ vs c, decode ts bs = .ok vs c → c.data = [] ∧ Filled_args ts bs
  rejected : ¬Filled_args ts bs → ∃ what c, decode ts bs = .error (.decode_error what) c

/-- Where the headers of the top level add up to the whole input, their scan ends at the end of it, all its arrays were
declared, and no tuple was in a pack with others; and no number or string too long stands in an input that is not filled. -/
structure LeavesNothing (ts : List Ty) (bs : Bytes) : Prop where
  ends : ∀ trail, scan_args ts bs.length { bytes := bs } = .ok 0 trail →
    trail.bytes = [] ∧ trail.declared = true ∧ (2 ≤ ts.length → ∀ t ∈ ts, t.is_tuple = false)
  breaks : ∀ trail, scan_args ts bs.length { bytes := bs } = .error .breaks trail → Filled_args ts bs

/-- How the decoder ends where the scan ends. -/
theorem decode_tracks (ts : List Ty) (bs : Bytes) : match scan_args ts bs.length { bytes := bs } with
    | .ok 0 trail => ∃ vs c, decode ts bs = .ok vs c ∧ c.data = trail.bytes
    | .ok (_ + 1) _ | .error .rejected _ => ∃ what c, decode ts bs = .error (.decode_error what) c
    | .error .breaks _ => ∃ e c, decode ts bs = .error e c ∧ ∀ what, e ≠ .decode_error what
    | .error .overrun _ => True := by
  have he := (tracks_decode_impl_args 0 bs.length ts).ends { data := bs } { bytes := bs } rfl
  cases hs : scan_args ts bs.length { bytes := bs } with
  | ok size trail =>
    rw [hs] at he
    obtain ⟨⟨vs, left⟩, c, hd, hc, rfl⟩ := he
    cases left with
    | zero => exact ⟨vs, c, by rw [decode, bind_of_ok hd]; rfl, hc⟩
    | succ left => exact ⟨_, c, by rw [decode, bind_of_ok hd]; rfl⟩
  | error e trail =>
    rw [hs] at he
    cases e with
    | rejected =>
      obtain ⟨what, c, hd⟩ := he
      exact ⟨what, c, by rw [decode, bind_of_error hd]⟩
    | overrun => trivial
    | breaks =>
      obtain ⟨e, c, hd, hne⟩ := he
      exact ⟨e, c, by rw [decode, bind_of_error hd], hne⟩

section

variable {ts : List Ty} {bs : Bytes} {trail : Trail}

theorem decode_of_ends (hs : scan_args ts bs.length { bytes := bs } = .ok 0 trail) :
    ∃ vs c, decode ts bs = .ok vs c ∧ c.data = trail.bytes := by
  have ht := decode_tracks ts bs
  rwa [hs] at ht

theorem decode_of_breaks (hs : scan_args ts bs.length { bytes := bs } = .error .breaks trail) :
    ∃ e c, decode ts bs = .error e c ∧ ∀ what, e ≠ .decode_error what := by
  have ht := decode_tracks ts bs
  rwa [hs] at ht

/-- Where the headers fit, the decoder rejects what the scan neither ends on nor breaks on. -/
theorem decode_or_rejected (hfit : HeadersFit ts bs) :
    (∃ trail, scan_args ts bs.length { bytes := bs } = .ok 0 trail) ∨
    (∃ trail, scan_args ts bs.length { bytes := bs } = .error .breaks trail) ∨
    ∃ what c, decode ts bs = .error (.decode_error what) c := by
  have ht := decode_tracks ts bs
  cases hs : scan_args ts bs.length { bytes := bs } with
  | ok size trail =>
    rw [hs] at ht
    cases size with
    | zero => exact .inl ⟨trail, rfl⟩
    | succ size => exact .inr (.inr ht)
  | error e trail =>
    rw [hs] at ht
    cases e with
    | rejected => exact .inr (.inr ht)
    | overrun => exact absurd hs (hfit trail)
    | breaks => exact .inr (.inl ⟨trail, rfl⟩)

theorem ends_of_decode (hfit : HeadersFit ts bs) {vs : Vals ts} {c : Cursor} (hd : decode ts bs = .ok vs c) :
    ∃ trail, scan_args ts bs.length { bytes := bs } = .ok 0 trail ∧ c.data = trail.bytes := by
  rcases decode_or_rejected hfit with ⟨trail, hs⟩ | ⟨trail, hs⟩ | ⟨what, c', hd'⟩
  · obtain ⟨vs', c', hd', hc⟩ := decode_of_ends hs
    cases hd.symm.trans hd'
    exact ⟨trail, hs, hc⟩
  · obtain ⟨e, c', hd', -⟩ := decode_of_breaks hs
    cases hd.symm.trans hd'
  · cases hd.symm.trans hd'

end

/-- The input of a scan that leaves nothing is filled. -/
theorem filled_of_ends {ts : List Ty} {bs : Bytes} {trail : Trail}
    (h : scan_args ts bs.length { bytes := bs } = .ok 0 trail) (hbytes : trail.bytes = [])
    (hdeclared : trail.declared = true) (hplain : 2 ≤ ts.length → ∀ t ∈ ts, t.is_tuple = false) : Filled_args ts bs := by
  obtain ⟨used, ht⟩ := (consumes_scan (pack ts)).1 _ _ _ _ (scan_of_scan_args hplain h)
  obtain rfl : bs = used := by simpa [hbytes] using ht.bytes
  rw [filled_args_eq]
  exact ht.fill rfl hdeclared

/-- Where a scan of a filled input ends, it has been to the end of it. -/
theorem declared_of_filled {ts : List Ty} {bs : Bytes} {declared : Bool} (hf : Filled_args ts bs)
    (hs : scan_args ts bs.length { bytes := bs } = .ok 0 ⟨[], declared⟩)
    (hplain : 2 ≤ ts.length → ∀ t ∈ ts, t.is_tuple = false) : declared = true := by
  rw [filled_args_eq] at hf
  have hretraced := retraces_scan (pack ts) bs [] bs.length { bytes := bs } 0 ⟨[], declared⟩ hf (Nat.le_refl _)
    (List.append_nil bs).symm (scan_of_scan_args hplain hs)
  exact congrArg Trail.declared hretraced.2

/-- **Exactness.** Where all headers fit, decoding is exact on those inputs whose scan leaves nothing. -/
theorem framed_iff (ts : List Ty) (bs : Bytes) (hfit : HeadersFit ts bs) : Exact ts bs ↔ LeavesNothing ts bs := by
  constructor
  · rintro ⟨hfilled, hrejected⟩
    refine ⟨?_, ?_⟩
    · intro trail hs
      obtain ⟨vs, c, hd, hc⟩ := decode_of_ends hs
      obtain ⟨hdata, hf⟩ := hfilled vs c hd
      obtain ⟨bytes, declared⟩ := trail
      obtain rfl : bytes = [] := by rw [← hdata, hc]
      have hplain : 2 ≤ ts.length → ∀ t ∈ ts, t.is_tuple = false := fun h2 => plain_of_filled h2 hs hf
      exact ⟨rfl, declared_of_filled hf hs hplain, hplain⟩
    · intro trail hs
      by_contra hf
      obtain ⟨what, c, hd⟩ := hrejected hf
      obtain ⟨e, c', hd', hne⟩ := decode_of_breaks hs
      cases hd.symm.trans hd'
      exact hne what rfl
  · rintro ⟨hends, hbreaks⟩
    refine ⟨?_, ?_⟩
    · intro vs c hd
      obtain ⟨trail, hs, hc⟩ := ends_of_decode hfit hd
      obtain ⟨hbytes, hdeclared, hplain⟩ := hends trail hs
      exact ⟨by rw [hc, hbytes], filled_of_ends hs hbytes hdeclared hplain⟩
    · intro hf
      rcases decode_or_rejected hfit with ⟨trail, hs⟩ | ⟨trail, hs⟩ | hrejected
      · obtain ⟨hbytes, hdeclared, hplain⟩ := hends trail hs
        exact absurd (filled_of_ends hs hbytes hdeclared hplain) hf
      · exact absurd (hbreaks trail hs) hf
      · exact hrejected

set_option maxRecDepth 3000 in
/-- Two numbers in a vector, in a list. -/
theorem exact_of_vector : HeadersFit [.vector (.uint .w16)] [0x83, 0xc2, 1, 2] ∧
    Exact [.vector (.uint .w16)] [0x83, 0xc2, 1, 2] := by
  have hs : scan_args [.vector (.uint .w16)] 4 { bytes := [0x83, 0xc2, 1, 2] } = .ok 0 ⟨[], true⟩ := rfl
  have hfit : HeadersFit [.vector (.uint .w16)] [0x83, 0xc2, 1, 2] := by
    intro trail h
    cases hs.symm.trans h
  refine ⟨hfit, (framed_iff _ _ hfit).2 ⟨?_, ?_⟩⟩
  · intro trail h
    cases hs.symm.trans h
    exact ⟨rfl, rfl, by simp⟩
  · intro trail h
    cases hs.symm.trans h

set_option maxRecDepth 3000 in
/-- A list of two numbers for a tuple of one. -/
theorem not_filled_of_tuple : HeadersFit [.tuple [.uint .w8]] [0xc2, 1, 2] ∧
    (∃ c, decode [.tuple [.uint .w8]] [0xc2, 1, 2] = .ok (((1 : UInt8), ()), ()) c ∧ c.data = [2]) ∧
    ¬Filled_args [.tuple [.uint .w8]] [0xc2, 1, 2] := by
  have hs : scan_args [.tuple [.uint .w8]] 3 { bytes := [0xc2, 1, 2] } = .ok 0 ⟨[2], true⟩ := rfl
  refine ⟨?_, ⟨_, rfl, rfl⟩, ?_⟩
  · intro trail h
    cases hs.symm.trans h
  · intro h
    -- a filled input would have been scanned to its end
    have hretraced := retraces_scan (.tuple [.uint .w8]) [0xc2, 1, 2] [] 3 { bytes := [0xc2, 1, 2] } 0 ⟨[2], true⟩ h
      (by decide) rfl hs
    exact absurd (congrArg Trail.bytes hretraced.2) (by simp)

end EEVM.Rlp

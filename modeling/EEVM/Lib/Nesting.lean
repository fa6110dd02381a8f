import Mathlib.Logic.Relation
/-!
# Stacks of frames

A machine whose only memory of its calls is a flat list of frames, the active one first. A step works in the active
frame, opens one above it, or closes it and resumes the one below; closing is logged with the height of the frame that
is closed. Such a machine nests: while a frame is open nothing below it changes and its closing is not logged, and it
is closed in one step that resumes the frame below it.
-/
namespace Nesting

variable {φ ε : Type}

/-- The frames, the active one first, and the log of what has been closed, latest first. -/
structure State (φ ε : Type) where
  frames : List φ
  log : List (Nat × ε)

/-- `Works` relates a frame before and after a step of its own, `Calls` before and after it opens another, `Resumes`
before and after the one above it is closed. -/
inductive Step (Works Calls Resumes : φ → φ → Prop) : State φ ε → State φ ε → Prop
  | works {c c' cs log} (h : Works c c') : Step Works Calls Resumes ⟨c :: cs, log⟩ ⟨c' :: cs, log⟩
  | opens {c c' cs log} (h : Calls c c') (f : φ) : Step Works Calls Resumes ⟨c :: cs, log⟩ ⟨f :: c' :: cs, log⟩
  | closes {c d d' ds log} (h : Resumes d d') (e : ε) :
    Step Works Calls Resumes ⟨c :: d :: ds, log⟩ ⟨d' :: ds, ((c :: d :: ds).length, e) :: log⟩

/-- A frame opened above `base` when the log was `log` is still open: it is `f` up to `Same`, nothing below it has
changed, and only frames above it have been closed since. -/
def Open (Same : φ → φ → Prop) (f : φ) (base : List φ) (log : List (Nat × ε)) (s : State φ ε) : Prop :=
  ∃ above f' closed, s.frames = above ++ f' :: base ∧ Same f f' ∧ s.log = closed ++ log ∧
    ∀ e ∈ closed, base.length + 1 < e.1

variable {Works Calls Resumes Same : φ → φ → Prop} {f : φ} {base : List φ} {log : List (Nat × ε)} {s s' : State φ ε}

theorem Open.refl [Std.Refl Same] : Open Same f base log ⟨f :: base, log⟩ :=
  ⟨[], f, [], rfl, Std.Refl.refl f, rfl, by simp⟩

theorem Open.length_lt (h : Open Same f base log s) : base.length < s.frames.length := by
  obtain ⟨above, f', closed, hs, -⟩ := h
  simp [hs]
  omega

/-- A step opens at most one frame. -/
theorem Step.length_le (h : Step Works Calls Resumes s s') : s'.frames.length ≤ s.frames.length + 1 := by
  cases h <;> simp

/-- A step from an open frame leaves it open, or closes it and resumes the frame below. -/
theorem Open.step [IsTrans φ Same] (hw : ∀ c c', Works c c' → Same c c') (hc : ∀ c c', Calls c c' → Same c c')
    (hr : ∀ c c', Resumes c c' → Same c c') (h : Open Same f base log s) (hs : Step Works Calls Resumes s s') :
    Open Same f base log s' ∨ ∃ d d' ds e, base = d :: ds ∧ Resumes d d' ∧ s'.frames = d' :: ds ∧
      s'.log = (base.length + 1, e) :: s.log := by
  obtain ⟨above, f', closed, hf, hsame, hl, hcl⟩ := h
  -- the active frame is the one in question, or one opened above it
  cases hs with
  | works hw' =>
    rcases above with _ | ⟨a, above⟩ <;> simp at hf hl
    · obtain ⟨rfl, rfl⟩ := hf
      exact .inl ⟨[], _, closed, rfl, IsTrans.trans _ _ _ hsame (hw _ _ hw'), hl, hcl⟩
    · obtain ⟨rfl, rfl⟩ := hf
      exact .inl ⟨_ :: above, f', closed, rfl, hsame, hl, hcl⟩
  | opens hc' g =>
    rcases above with _ | ⟨a, above⟩ <;> simp at hf hl
    · obtain ⟨rfl, rfl⟩ := hf
      exact .inl ⟨[g], _, closed, rfl, IsTrans.trans _ _ _ hsame (hc _ _ hc'), hl, hcl⟩
    · obtain ⟨rfl, rfl⟩ := hf
      exact .inl ⟨g :: _ :: above, f', closed, rfl, hsame, hl, hcl⟩
  | @closes c d d' ds lg hr' e =>
    rcases above with _ | ⟨a, _ | ⟨b, above⟩⟩ <;> simp at hf hl
    · obtain ⟨rfl, rfl⟩ := hf
      exact .inr ⟨d, d', ds, e, rfl, hr', rfl, rfl⟩
    · obtain ⟨rfl, rfl, rfl⟩ := hf
      refine .inl ⟨[], d', (_, e) :: closed, rfl, IsTrans.trans _ _ _ hsame (hr _ _ hr'), by rw [hl]; rfl, ?_⟩
      rintro _ (_ | ⟨_, hm⟩)
      · simp
      · exact hcl _ hm
    · obtain ⟨rfl, rfl, rfl⟩ := hf
      refine .inl ⟨d' :: above, f', (_, e) :: closed, rfl, hsame, by rw [hl]; rfl, ?_⟩
      rintro _ (_ | ⟨_, hm⟩)
      · simp
        omega
      · exact hcl _ hm

/-- While there are more frames than `base` has, the frame opened above it is open. -/
theorem Open.run [IsTrans φ Same] (hw : ∀ c c', Works c c' → Same c c') (hc : ∀ c c', Calls c c' → Same c c')
    (hr : ∀ c c', Resumes c c' → Same c c') (h : Open Same f base log s)
    (hs : Relation.ReflTransGen
      (fun s s' => Step Works Calls Resumes s s' ∧ base.length < s'.frames.length) s s') :
    Open Same f base log s' := by
  induction hs with
  | refl => exact h
  | tail _ hs ih =>
    rcases ih.step hw hc hr hs.1 with ih' | ⟨d, d', ds, e, rfl, -, hf, -⟩
    · exact ih'
    · have hlt := hs.2
      simp [hf] at hlt

/-! ## Several frames closed in one step -/

/-- What a step does to the frames of a machine that may close several of them at once: the frame it goes on in, the active
one or one below, is the same up to `Same`; it may open one above the active one. -/
inductive Moves (Same : φ → φ → Prop) : List φ → List φ → Prop
  | lands {above d d' ds} (h : Same d d') : Moves Same (above ++ d :: ds) (d' :: ds)
  | opens {c c' cs} (h : Same c c') (f : φ) : Moves Same (c :: cs) (f :: c' :: cs)

/-- A frame that is there after a step has been there before, up to `Same`, or the step has opened it. -/
theorem Moves.mem [Std.Refl Same] {f : φ} {frames frames' : List φ} (hm : Moves Same frames frames') (hf : f ∈ frames') :
    (∃ g ∈ frames, Same g f) ∨ ∃ c c' cs, frames = c :: cs ∧ frames' = f :: c' :: cs ∧ Same c c' := by
  cases hm with
  | @lands above d d' ds h =>
    rcases List.mem_cons.1 hf with rfl | hf
    · exact .inl ⟨d, by simp, h⟩
    · exact .inl ⟨f, by simp [hf], Std.Refl.refl f⟩
  | @opens c c' cs h g =>
    rcases List.mem_cons.1 hf with rfl | hf
    · exact .inr ⟨c, c', cs, rfl, rfl, h⟩
    rcases List.mem_cons.1 hf with rfl | hf
    · exact .inl ⟨c, by simp, h⟩
    · exact .inl ⟨f, by simp [hf], Std.Refl.refl f⟩

/-- What holds between each frame and those below it. -/
theorem Moves.pairwise {P : φ → φ → Prop} {frames frames' : List φ} (hm : Moves Same frames frames') (h : frames.Pairwise P)
    (hsame : ∀ c c' d, Same c c' → P c d → P c' d)
    (hnew : ∀ f c c' cs, frames = c :: cs → frames' = f :: c' :: cs → Same c c' → ∀ d ∈ c' :: cs, P f d) :
    frames'.Pairwise P := by
  have htop : ∀ {c c' cs}, Same c c' → (c :: cs).Pairwise P → (c' :: cs).Pairwise P := by
    intro c c' cs hc h
    rw [List.pairwise_cons] at h ⊢
    exact ⟨fun d hd => hsame c c' d hc (h.1 d hd), h.2⟩
  cases hm with
  | lands hd => exact htop hd (List.pairwise_append.1 h).2.1
  | @opens c c' cs hc f =>
    rw [List.pairwise_cons]
    exact ⟨hnew f c c' cs rfl rfl hc, htop hc h⟩

/-- The frame `f` is there up to `Same`, right above `base`. -/
def Stands (Same : φ → φ → Prop) (f : φ) (base frames : List φ) : Prop :=
  ∃ above f', frames = above ++ f' :: base ∧ Same f f'

variable {frames frames' : List φ}

theorem Stands.refl [Std.Refl Same] : Stands Same f base (f :: base) := ⟨[], f, rfl, Std.Refl.refl f⟩

theorem Stands.length_lt (h : Stands Same f base frames) : base.length < frames.length := by
  obtain ⟨above, f', rfl, -⟩ := h
  simp
  omega

/-- The active frame is the one in question, or it is above it. -/
theorem Stands.cases {c : φ} {cs : List φ} (h : Stands Same f base (c :: cs)) : (cs = base ∧ Same f c) ∨ Stands Same f base cs := by
  obtain ⟨above, f', hframes, hsame⟩ := h
  rcases above with _ | ⟨a, above⟩
  · obtain ⟨rfl, rfl⟩ := List.cons.inj hframes
    exact .inl ⟨rfl, hsame⟩
  · obtain ⟨rfl, rfl⟩ := List.cons.inj hframes
    exact .inr ⟨above, f', rfl, hsame⟩

theorem Stands.eq_of_length_le {c : φ} {cs : List φ} (h : Stands Same f base (c :: cs)) (hle : cs.length ≤ base.length) :
    cs = base ∧ Same f c := by
  rcases h.cases with h | h
  · exact h
  · exact absurd h.length_lt (Nat.not_lt.2 hle)

/-- The list has one end only. -/
theorem eq_of_append_eq {above above' : List φ} {d f : φ} {ds base : List φ} (h : above' ++ d :: ds = above ++ f :: base)
    (hlen : base.length ≤ ds.length) : (d = f ∧ ds = base) ∨ ∃ between, ds = between ++ f :: base := by
  rcases List.append_eq_append_iff.1 h with ⟨as, rfl, hd⟩ | ⟨bs, rfl, hf⟩
  · rcases as with _ | ⟨a, as⟩
    · simp only [List.nil_append, List.cons.injEq] at hd
      exact .inl hd
    · simp only [List.cons_append, List.cons.injEq] at hd
      exact .inr ⟨as, hd.2⟩
  · rcases bs with _ | ⟨b, bs⟩
    · simp only [List.nil_append, List.cons.injEq] at hf
      exact .inl ⟨hf.1.symm, hf.2.symm⟩
    · have hlong := congrArg List.length hf
      simp at hlong
      omega

/-- A step that leaves more frames than `base` has leaves it alone, and the frame above it in its place. -/
theorem Stands.moves [IsTrans φ Same] (h : Stands Same f base frames) (hm : Moves Same frames frames')
    (hlen : base.length < frames'.length) : Stands Same f base frames' := by
  obtain ⟨above, f', hframes, hsame⟩ := h
  cases hm with
  | lands hd =>
    simp only [List.length_cons] at hlen
    rcases eq_of_append_eq hframes (by omega) with ⟨rfl, rfl⟩ | ⟨between, rfl⟩
    · exact ⟨[], _, rfl, IsTrans.trans _ _ _ hsame hd⟩
    · exact ⟨_ :: between, f', rfl, hsame⟩
  | opens hc g =>
    rcases above with _ | ⟨a, above⟩
    · obtain ⟨rfl, rfl⟩ := List.cons.inj hframes
      exact ⟨[g], _, rfl, IsTrans.trans _ _ _ hsame hc⟩
    · obtain ⟨rfl, rfl⟩ := List.cons.inj hframes
      exact ⟨g :: _ :: above, f', rfl, hsame⟩

end Nesting

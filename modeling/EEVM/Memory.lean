import EEVM.Context
import EEVM.Lib.ExcState
import EEVM.Lib.Writes
/-!
# Byte vectors as memory (processor.cpp:289-367)

What growing a vector, overwriting part of it and `copy_mem_raw` do to its length and to each of its bytes. A vector stands
for an array without an end: its byte at an address is `v.getD a 0`.
-/
namespace EEVM

open ExcState Writes

variable {v bs : Bytes} {off n a : Nat}

/-! ## 64-bit ranges -/

theorem toNat_add_of_le {x y : UInt64} (h : ¬x + y < x) : (x + y).toNat = x.toNat + y.toNat := by
  have hx := x.toNat_lt
  have hy := y.toNat_lt
  rw [UInt64.lt_iff_toNat_lt, UInt64.toNat_add] at h
  rw [UInt64.toNat_add]
  omega

theorem toNat_sub_of_le {x y : UInt64} (h : y ≤ x) : (x - y).toNat = x.toNat - y.toNat :=
  UInt64.toNat_sub_of_le x y h

/-- The two checks that are made of a range, whose end is a sum of 64-bit numbers, are one comparison of integers. -/
theorem in_limit_iff {offset size : UInt64} :
    ¬offset + size < offset ∧ ¬offset + size > MAX_MEM_SIZE ↔ offset.toNat + size.toNat ≤ MAX_MEM_SIZE.toNat := by
  have hmax : MAX_MEM_SIZE.toNat = 33554432 := rfl
  have ho := offset.toNat_lt
  have hs := size.toNat_lt
  rw [gt_iff_lt, UInt64.lt_iff_toNat_lt, UInt64.lt_iff_toNat_lt, UInt64.toNat_add, hmax]
  omega

/-! ## Growing and overwriting -/

theorem length_grow (v : Bytes) (n : Nat) : (grow v n).length = max v.length n := by
  simp only [grow, List.length_append, List.length_replicate]
  omega

theorem grow_of_le (h : n ≤ v.length) : grow v n = v := by
  simp [grow, Nat.sub_eq_zero_of_le h]

/-- `resize` is called on a vector that is too short only. -/
theorem grow_of_gt (v : Bytes) (n : Nat) : (if n > v.length then grow v n else v) = grow v n := by
  split
  · rfl
  · rw [grow_of_le (by omega)]

theorem grow_grow (v : Bytes) (n m : Nat) : grow (grow v n) m = grow v (max n m) := by
  simp only [grow, List.append_assoc, List.replicate_append_replicate, List.length_append, List.length_replicate]
  congr 2
  omega

theorem getD_grow (v : Bytes) (n a : Nat) : (grow v n).getD a 0 = v.getD a 0 := by
  by_cases h : a < v.length
  · simp [grow, List.getElem?_append_left h]
  · rw [grow, List.getD_eq_getElem?_getD, List.getD_eq_getElem?_getD, List.getElem?_append_right (Nat.le_of_not_lt h),
      List.getElem?_eq_none (Nat.le_of_not_lt h), List.getElem?_replicate]
    split <;> rfl

theorem length_overwrite (h : off + bs.length ≤ v.length) : (overwrite v off bs).length = v.length := by
  simp only [overwrite, List.length_append, List.length_take, List.length_drop]
  omega

theorem getElem?_overwrite (h : off + bs.length ≤ v.length) (j : Nat) :
    (overwrite v off bs)[j]? = if off ≤ j ∧ j < off + bs.length then bs[j - off]? else v[j]? := by
  have hoff : (v.take off).length = off := by simp; omega
  rw [overwrite, List.append_assoc]
  by_cases h1 : j < off
  · rw [List.getElem?_append_left (by omega), if_neg (by omega), List.getElem?_take_of_lt h1]
  rw [List.getElem?_append_right (by omega), hoff]
  by_cases h2 : j < off + bs.length
  · rw [List.getElem?_append_left (by omega), if_pos (by omega)]
  · rw [List.getElem?_append_right (by omega), if_neg (by omega), List.getElem?_drop]
    congr 1
    omega

/-- Two pieces, the second one right behind the first. -/
theorem overwrite_overwrite {as : Bytes} (h : off + as.length + bs.length ≤ v.length) :
    overwrite (overwrite v off as) (off + as.length) bs = overwrite v off (as ++ bs) := by
  have has : off + as.length ≤ v.length := by omega
  have hbs : off + as.length + bs.length ≤ (overwrite v off as).length := by rwa [length_overwrite has]
  have hboth : off + (as ++ bs).length ≤ v.length := by rwa [List.length_append, ← Nat.add_assoc]
  ext1 j
  rw [getElem?_overwrite hbs, getElem?_overwrite has, getElem?_overwrite hboth, List.length_append]
  by_cases h1 : j < off + as.length
  · rw [if_neg (by omega)]
    by_cases h2 : off ≤ j
    · rw [if_pos ⟨h2, h1⟩, if_pos ⟨h2, by omega⟩, List.getElem?_append_left (by omega)]
    · rw [if_neg (by omega), if_neg (by omega)]
  · rw [if_neg (show ¬(off ≤ j ∧ j < off + as.length) by omega)]
    by_cases h2 : j < off + as.length + bs.length
    · rw [if_pos (by omega), if_pos (by omega), List.getElem?_append_right (by omega)]
      congr 1
      omega
    · rw [if_neg (by omega), if_neg (by omega)]

theorem set_eq_overwrite (h : off < v.length) (b : UInt8) : v.set off b = overwrite v off [b] := by
  rw [List.set_eq_take_append_cons_drop, if_pos h, overwrite, List.append_assoc]
  rfl

/-- What has been written is read back. -/
theorem take_drop_overwrite (h : off + bs.length ≤ v.length) : ((overwrite v off bs).drop off).take bs.length = bs := by
  have hoff : (v.take off).length = off := by simp; omega
  rw [overwrite, List.append_assoc, List.drop_append_of_le_length (by omega), List.drop_eq_nil_of_le (by omega),
    List.nil_append, List.take_append_of_le_length (Nat.le_refl _), List.take_length]

/-- To the array a vector stands for, overwriting is a write of a block. -/
theorem getD_overwrite (h : off + bs.length ≤ v.length) (a : Nat) :
    (overwrite v off bs).getD a 0 = (block off bs a).getD (v.getD a 0) := by
  rw [List.getD_eq_getElem?_getD, getElem?_overwrite h, block]
  by_cases h1 : off ≤ a
  · by_cases h2 : a < off + bs.length
    · have hget : bs[a - off]? = some bs[a - off] := List.getElem?_eq_getElem (by omega)
      rw [if_pos ⟨h1, h2⟩, if_pos h1, hget]
      rfl
    · have hget : bs[a - off]? = none := List.getElem?_eq_none (by omega)
      rw [if_neg (by omega), if_pos h1, hget, List.getD_eq_getElem?_getD]
      rfl
  · rw [if_neg (by omega), if_neg h1, List.getD_eq_getElem?_getD]
    rfl

/-! ## `copy_mem_raw` -/

/-- The `size` bytes of `src` from `off` on, with `pad` for those past its end. -/
def copied (src : Bytes) (off size : Nat) (pad : UInt8) : Bytes := (List.range size).map fun i => src.getD (off + i) pad

@[simp] theorem length_copied (src : Bytes) (off size : Nat) (pad : UInt8) : (copied src off size pad).length = size := by
  simp [copied]

theorem copied_succ (src : Bytes) (off size : Nat) (pad : UInt8) :
    copied src off (size + 1) pad = src.getD off pad :: copied src (off + 1) size pad := by
  simp [copied, List.range_succ_eq_map, Function.comp_def, Nat.add_assoc, Nat.add_comm 1]

theorem copied_of_le {src : Bytes} (h : src.length ≤ off) (size : Nat) (pad : UInt8) :
    copied src off size pad = List.replicate size pad := by
  induction size generalizing off with
  | zero => rfl
  | succ size ih =>
    rw [copied_succ, ih (by omega), List.getD_eq_getElem?_getD, List.getElem?_eq_none h, List.replicate_succ]
    rfl

/-- A piece of the source, and the padding. -/
theorem copied_eq (src : Bytes) (off size : Nat) (pad : UInt8) : copied src off size pad =
    (src.drop off).take size ++ List.replicate (size - (src.length - off)) pad := by
  induction size generalizing off with
  | zero => simp [copied]
  | succ size ih =>
    by_cases h : off < src.length
    · have hget : src.getD off pad = src[off] := by simp [h]
      rw [copied_succ, ih, hget, List.drop_eq_getElem_cons h, List.take_succ_cons, List.cons_append]
      congr 3
      omega
    · rw [copied_of_le (by omega), List.drop_eq_nil_of_le (by omega), List.take_nil, List.nil_append]
      congr 1
      omega

theorem copy_mem_raw_zero (offDst offSrc : UInt64) (dst src : Bytes) (pad : UInt8) :
    copy_mem_raw offDst offSrc 0 dst src pad = .ok dst := rfl

theorem copy_mem_raw_of_lt {offDst size : UInt64} (h0 : size ≠ 0) (h : MAX_MEM_SIZE.toNat < offDst.toNat + size.toNat)
    (offSrc : UInt64) (dst src : Bytes) (pad : UInt8) : ∃ ex, copy_mem_raw offDst offSrc size dst src pad = .error ex := by
  have hout := mt in_limit_iff.1 (Nat.not_le.2 h)
  unfold copy_mem_raw
  rw [if_neg h0]
  by_cases h1 : offDst + size < offDst
  · simp only [if_pos h1]
    exact ⟨_, rfl⟩
  · have h2 : offDst + size > MAX_MEM_SIZE := not_not.1 fun h2 => hout ⟨h1, h2⟩
    simp only [if_neg h1, if_pos h2]
    exact ⟨_, rfl⟩

theorem toNat_ofNat_length {src : Bytes} (h : src.length < 2 ^ 63) : (UInt64.ofNat src.length).toNat = src.length :=
  UInt64.toNat_ofNat_of_lt' (Nat.lt_trans h (by decide))

/-- The source has bytes for the range, up to `endSrc`; no number has wrapped around. -/
structure Chunk (offSrc size : UInt64) (src : Bytes) (endSrc : UInt64) : Prop where
  lt : offSrc.toNat < endSrc.toNat
  le_range : endSrc.toNat ≤ offSrc.toNat + size.toNat
  le_src : endSrc.toNat ≤ src.length
  rest : (offSrc + size - endSrc).toNat = offSrc.toNat + size.toNat - endSrc.toNat
  eq : src.length < 2 ^ 63 → endSrc.toNat = min (offSrc.toNat + size.toNat) src.length

theorem chunk_of_gt {offSrc size : UInt64} {src : Bytes} (hc : min (offSrc + size) (UInt64.ofNat src.length) > offSrc) :
    Chunk offSrc size src (min (offSrc + size) (UInt64.ofNat src.length)) := by
  have hle : min (offSrc + size) (UInt64.ofNat src.length) ≤ offSrc + size := Std.min_le_left
  have hle' : min (offSrc + size) (UInt64.ofNat src.length) ≤ UInt64.ofNat src.length := Std.min_le_right
  have hmin : min (offSrc + size) (UInt64.ofNat src.length) = offSrc + size ∨
      min (offSrc + size) (UInt64.ofNat src.length) = UInt64.ofNat src.length := Std.min_eq_or
  generalize min (offSrc + size) (UInt64.ofNat src.length) = endSrc at hc hle hle' hmin
  have hrem := toNat_sub_of_le hle
  rw [UInt64.le_iff_toNat_le] at hle hle'
  rw [gt_iff_lt, UInt64.lt_iff_toNat_lt] at hc
  -- the end of the source range is past its start
  have hno : ¬offSrc + size < offSrc := by
    rw [UInt64.lt_iff_toNat_lt]
    omega
  have hsrc := toNat_add_of_le hno
  rw [UInt64.toNat_ofNat'] at hle'
  have hmod := Nat.mod_le src.length (2 ^ 64)
  refine ⟨hc, hsrc ▸ hle, Nat.le_trans hle' hmod, by rw [hrem, hsrc], ?_⟩
  intro hlong
  have hofNat := toNat_ofNat_length hlong
  rcases hmin with rfl | rfl <;> omega

theorem Chunk.length {offSrc size endSrc : UInt64} {src : Bytes} (h : Chunk offSrc size src endSrc) :
    ((src.take endSrc.toNat).drop offSrc.toNat).length = endSrc.toNat - offSrc.toNat := by
  have hsrc := h.le_src
  rw [List.length_drop, List.length_take]
  omega

theorem Chunk.copied {offSrc size endSrc : UInt64} {src : Bytes} (h : Chunk offSrc size src endSrc) (hlong : src.length < 2 ^ 63)
    (pad : UInt8) : (src.take endSrc.toNat).drop offSrc.toNat ++ List.replicate (offSrc + size - endSrc).toNat pad =
      copied src offSrc.toNat size.toNat pad := by
  have hend := h.eq hlong
  have hlt := h.lt
  have htake : (src.take endSrc.toNat).drop offSrc.toNat = (src.drop offSrc.toNat).take size.toNat := by
    rw [List.drop_take, List.take_eq_take_iff, List.length_drop]
    omega
  rw [copied_eq, ← htake, h.rest]
  congr 2
  omega

/-- Otherwise the source ends before the range starts. -/
theorem le_of_not_gt {offSrc size : UInt64} {src : Bytes} (h0 : size.toNat ≠ 0) (hlong : src.length < 2 ^ 63)
    (hc : ¬min (offSrc + size) (UInt64.ofNat src.length) > offSrc)
    (hsize : size.toNat ≤ MAX_MEM_SIZE.toNat) : src.length ≤ offSrc.toNat := by
  have hmax : MAX_MEM_SIZE.toNat = 33554432 := rfl
  have hofNat := toNat_ofNat_length hlong
  have hoff := offSrc.toNat_lt
  rw [gt_iff_lt, UInt64.min_def, UInt64.lt_iff_toNat_lt] at hc
  split at hc
  · rw [UInt64.toNat_add] at hc
    omega
  · omega

/-- Within the limit the range is overwritten by `size` bytes: those `copied`, unless the source is longer than a vector
can be. -/
theorem copy_mem_raw_of_le {offDst size : UInt64} (h0 : size ≠ 0) (h : offDst.toNat + size.toNat ≤ MAX_MEM_SIZE.toNat)
    (offSrc : UInt64) (dst src : Bytes) (pad : UInt8) :
    ∃ bs, bs.length = size.toNat ∧ (src.length < 2 ^ 63 → bs = copied src offSrc.toNat size.toNat pad) ∧
      copy_mem_raw offDst offSrc size dst src pad =
        .ok (overwrite (grow dst (offDst.toNat + size.toNat)) offDst.toNat bs) := by
  obtain ⟨h1, h2⟩ := in_limit_iff.2 h
  have hlast := toNat_add_of_le h1
  have hsize : size.toNat ≠ 0 := fun hz => h0 (UInt64.toNat.inj (by simpa using hz))
  have hlen := length_grow dst (offDst.toNat + size.toNat)
  unfold copy_mem_raw
  simp only [if_neg h0, if_neg h1, if_neg h2, hlast, grow_of_gt]
  generalize grow dst (offDst.toNat + size.toNat) = mem at hlen
  have hstart : ∀ r : UInt64, r.toNat ≤ size.toNat → (offDst + size - r).toNat = offDst.toNat + (size.toNat - r.toNat) := by
    intro r hr
    rw [toNat_sub_of_le (by rw [UInt64.le_iff_toNat_le, hlast]; omega), hlast]
    omega
  by_cases hc : min (offSrc + size) (UInt64.ofNat src.length) > offSrc
  · rw [if_pos hc]
    have hchunk := chunk_of_gt hc
    generalize min (offSrc + size) (UInt64.ofNat src.length) = endSrc at hchunk
    have hlt := hchunk.lt
    have hrange := hchunk.le_range
    have hrest := hchunk.rest
    have hlength := hchunk.length
    refine ⟨(src.take endSrc.toNat).drop offSrc.toNat ++ List.replicate (offSrc + size - endSrc).toNat pad, ?_, ?_, ?_⟩
    · rw [List.length_append, hlength, List.length_replicate]
      omega
    · exact fun hlong => hchunk.copied hlong pad
    · have hpos : (offDst + size - (offSrc + size - endSrc)).toNat =
          offDst.toNat + ((src.take endSrc.toNat).drop offSrc.toNat).length := by
        rw [hstart _ (by omega), hlength]
        omega
      rw [hpos, overwrite_overwrite]
      rw [hlength, List.length_replicate, hlen]
      omega
  · rw [if_neg hc, hstart _ (Nat.le_refl _), Nat.sub_self, Nat.add_zero]
    refine ⟨List.replicate size.toNat pad, List.length_replicate, ?_, rfl⟩
    intro hlong
    exact (copied_of_le (le_of_not_gt hsize hlong hc (by omega)) _ _).symm

/-! ## Preparing an access -/

section

variable {R : Type} {offset size : UInt64}

theorem prepare_mem_access_of_le (h : offset.toNat + size.toNat ≤ MAX_MEM_SIZE.toNat) (c : Context R) :
    prepare_mem_access offset size c = .ok () { c with mem := grow c.mem (offset.toNat + size.toNat) } := by
  obtain ⟨h1, h2⟩ := in_limit_iff.2 h
  unfold prepare_mem_access
  simp only [if_neg h1, if_neg h2, run_modify, toNat_add_of_le h1]
  split
  · rfl
  · rw [grow_of_le (by omega)]

theorem prepare_mem_access_of_lt (h : MAX_MEM_SIZE.toNat < offset.toNat + size.toNat) (c : Context R) :
    ∃ ex, prepare_mem_access offset size c = .error (.exception ex) c := by
  have hout := mt in_limit_iff.1 (Nat.not_le.2 h)
  unfold prepare_mem_access
  by_cases h1 : offset + size < offset
  · simp only [if_pos h1]
    exact ⟨_, rfl⟩
  · have h2 : offset + size > MAX_MEM_SIZE := not_not.1 fun h2 => hout ⟨h1, h2⟩
    simp only [if_neg h1, if_pos h2]
    exact ⟨_, rfl⟩

/-- What `prepare_mem_access` lets pass lies within the memory limit, and is there afterwards. -/
theorem prepare_mem_access_eq_ok {u : Unit} {c c' : Context R} (h : prepare_mem_access offset size c = .ok u c') :
    c' = { c with mem := grow c.mem (offset.toNat + size.toNat) } ∧ offset.toNat + size.toNat ≤ MAX_MEM_SIZE.toNat := by
  rcases Nat.lt_or_ge MAX_MEM_SIZE.toNat (offset.toNat + size.toNat) with hlt | hle
  · obtain ⟨ex, hx⟩ := prepare_mem_access_of_lt hlt c
    rw [hx] at h
    cases h
  · rw [prepare_mem_access_of_le hle] at h
    cases h
    exact ⟨rfl, hle⟩

theorem copy_from_mem_of_le (h : offset.toNat + size.toNat ≤ MAX_MEM_SIZE.toNat) (c : Context R) :
    copy_from_mem offset size c =
      .ok (((grow c.mem (offset.toNat + size.toNat)).drop offset.toNat).take size.toNat)
        { c with mem := grow c.mem (offset.toNat + size.toNat) } := by
  rw [copy_from_mem, copy_from_mem_by, bind_of_ok (prepare_mem_access_of_le h c)]
  rfl

theorem copy_from_mem_eq_ok {bs : Bytes} {c c' : Context R} (h : copy_from_mem offset size c = .ok bs c') :
    c' = { c with mem := grow c.mem (offset.toNat + size.toNat) } ∧ offset.toNat + size.toNat ≤ MAX_MEM_SIZE.toNat ∧
      bs = (c'.mem.drop offset.toNat).take size.toNat := by
  rw [copy_from_mem, copy_from_mem_by, bind_eq_ok] at h
  obtain ⟨u, c1, h1, h2⟩ := h
  cases h2
  exact ⟨(prepare_mem_access_eq_ok h1).1, (prepare_mem_access_eq_ok h1).2, rfl⟩

end

end EEVM

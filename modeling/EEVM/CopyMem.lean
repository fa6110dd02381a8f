import EEVM.Memory
/-!
# `copy_mem_raw` with its iterators (processor.cpp:289-331)

`copy_mem_raw` as `EEVM.Context` has it says what becomes of the memory. Here it is once more with the iterators it makes
on the way, each with the size its vector has at that moment, and with the vector it leaves when it throws
(`copy_mem_raw_steps`). An iterator is moved by a `difference_type`, to which the `uint64_t` is converted.
-/
namespace EEVM

open ExcState

/-- An iterator, as its distance from the start of a vector of `size` elements. -/
structure Iter where
  pos : Int
  size : Nat

namespace Iter

def plus (it : Iter) (n : UInt64) : Iter := { it with pos := it.pos + n.toBitVec.toInt }
def minus (it : Iter) (n : UInt64) : Iter := { it with pos := it.pos - n.toBitVec.toInt }

/-- It points to an element, or right behind the last one. -/
def Inside (it : Iter) : Prop := 0 ≤ it.pos ∧ it.pos ≤ it.size

theorem toInt_of_lt {n : UInt64} (h : n.toNat < 2 ^ 63) : n.toBitVec.toInt = n.toNat :=
  BitVec.toInt_eq_toNat_of_lt (by change 2 * n.toNat < 2 ^ 64; omega)

theorem pos_plus (it : Iter) {n : UInt64} (h : n.toNat < 2 ^ 63) : (it.plus n).pos = it.pos + n.toNat := by
  rw [plus, toInt_of_lt h]

theorem pos_minus (it : Iter) {n : UInt64} (h : n.toNat < 2 ^ 63) : (it.minus n).pos = it.pos - n.toNat := by
  rw [minus, toInt_of_lt h]

@[simp] theorem size_plus (it : Iter) (n : UInt64) : (it.plus n).size = it.size := rfl
@[simp] theorem size_minus (it : Iter) (n : UInt64) : (it.minus n).size = it.size := rfl

end Iter

/-- The destination, and the iterators used so far. -/
structure CopyState where
  dst : Bytes
  used : List Iter := []

abbrev CopyM := EStateM Exception CopyState

def use (it : Iter) : CopyM Iter := fun q => .ok it { q with used := it :: q.used }

/-- `dst.begin()`. -/
def dst_begin : CopyM Iter := fun q => use ⟨0, q.dst.length⟩ q

/-- `src.begin()`. -/
def src_begin (src : Bytes) : CopyM Iter := use ⟨0, src.length⟩

/-- `copy(first, last, result)` from `src` to the destination; the last iterator is where the output ends. -/
def copy (src : Bytes) (first last result : Iter) : CopyM Unit := do
  let _ ← use { result with pos := result.pos + (last.pos - first.pos) }
  modify fun q => { q with dst := overwrite q.dst result.pos.toNat ((src.take last.pos.toNat).drop first.pos.toNat) }

/-- `fill(first, last, pad)` in the destination. -/
def fill (first last : Iter) (pad : UInt8) : CopyM Unit :=
  modify fun q => { q with dst := overwrite q.dst first.pos.toNat (List.replicate (last.pos - first.pos).toNat pad) }

/-- The iterators of the part of `copy_mem_raw` that copies, and what remains to be padded. -/
def copy_steps (offDst offSrc lastSrc endSrc : UInt64) (src : Bytes) : CopyM UInt64 := do
  let first ← use ((← src_begin src).plus offSrc)
  let last ← use ((← src_begin src).plus endSrc)
  let result ← use ((← dst_begin).plus offDst)
  copy src first last result
  pure (lastSrc - endSrc)

/-- The iterators of the padding. -/
def fill_steps (lastDst remaining : UInt64) (pad : UInt8) : CopyM Unit := do
  let first ← use ((← use ((← dst_begin).plus lastDst)).minus remaining)
  let last ← use ((← dst_begin).plus lastDst)
  fill first last pad

def copy_mem_raw_steps (offDst offSrc size : UInt64) (src : Bytes) (pad : UInt8) : CopyM Unit :=
  if size = 0 then pure ()
  else
    let lastDst := offDst + size
    if lastDst < offDst then throw ⟨.outOfBounds,
      "Integer overflow in copy_mem (" ++ toString lastDst ++ " < " ++ toString offDst ++ ")"⟩
    else if lastDst > MAX_MEM_SIZE then throw ⟨.outOfBounds,
      "Memory limit exceeded (" ++ toString lastDst ++ " > " ++ toString MAX_MEM_SIZE ++ ")"⟩
    else do
      modify fun q => { q with dst := if lastDst.toNat > q.dst.length then grow q.dst lastDst.toNat else q.dst }
      let lastSrc := offSrc + size
      let endSrc := min lastSrc (UInt64.ofNat src.length)
      let remaining ← if endSrc > offSrc then copy_steps offDst offSrc lastSrc endSrc src else pure size
      fill_steps lastDst remaining pad

/-- The exact copy: nothing for a size of 0; an exception, with `dst` as it was, past the memory limit; and otherwise the
bytes of `src` from `offSrc` on, with `pad` for those past its end, at `offDst`. -/
structure ExactCopy (offDst offSrc size : UInt64) (dst src : Bytes) (pad : UInt8)
    (r : EStateM.Result Exception CopyState Unit) : Prop where
  empty : size = 0 → r = .ok () { dst }
  throws_iff : size ≠ 0 → ((∃ ex q, r = .error ex q) ↔ 2 ^ 25 < offDst.toNat + size.toNat)
  unchanged : ∀ ex q, r = .error ex q → q.dst = dst
  length : size ≠ 0 → ∀ q, r = .ok () q → q.dst.length = max dst.length (offDst.toNat + size.toNat)
  copied : ∀ q, r = .ok () q → ∀ i < size.toNat, q.dst[offDst.toNat + i]? =
    some (if h : offSrc.toNat + i < src.length then src[offSrc.toNat + i] else pad)
  gap : size ≠ 0 → ∀ q, r = .ok () q → ∀ j, dst.length ≤ j → j < offDst.toNat → q.dst[j]? = some 0
  elsewhere : ∀ q, r = .ok () q → ∀ j < dst.length, j < offDst.toNat ∨ offDst.toNat + size.toNat ≤ j → q.dst[j]? = dst[j]?
  inside : ∀ it ∈ (final r).used, it.Inside

/-- The same outcome, and no iterator outside its vector. -/
def SameOutcome (dst : Bytes) (r : EStateM.Result Exception CopyState Unit) : Except Exception Bytes → Prop
  | .ok dst' => ∃ used, r = .ok () { dst := dst', used } ∧ ∀ it ∈ used, it.Inside
  | .error ex => r = .error ex { dst }

/-! ## The iterators -/

variable {offDst offSrc size endSrc lastDst remaining : UInt64} {dst src : Bytes} {pad : UInt8} {q : CopyState}

theorem copy_steps_eq (h : Chunk offSrc size src endSrc) (hsrc : src.length < 2 ^ 63) (hdst : offDst.toNat < 2 ^ 63)
    (hfits : offDst.toNat + size.toNat ≤ q.dst.length) :
    ∃ used, copy_steps offDst offSrc (offSrc + size) endSrc src q = .ok (offSrc + size - endSrc)
        { dst := overwrite q.dst offDst.toNat ((src.take endSrc.toNat).drop offSrc.toNat), used := used ++ q.used } ∧
      ∀ it ∈ used, it.Inside := by
  have hlt := h.lt
  have hle := h.le_src
  have hrange := h.le_range
  let begin_src := Iter.mk 0 src.length
  let begin_dst := Iter.mk 0 q.dst.length
  have hfirst : (begin_src.plus offSrc).pos = offSrc.toNat := by
    simp [begin_src, Iter.pos_plus _ (show offSrc.toNat < 2 ^ 63 by omega)]
  have hlast : (begin_src.plus endSrc).pos = endSrc.toNat := by
    simp [begin_src, Iter.pos_plus _ (show endSrc.toNat < 2 ^ 63 by omega)]
  have hresult : (begin_dst.plus offDst).pos = offDst.toNat := by simp [begin_dst, Iter.pos_plus _ hdst]
  let output : Iter := { begin_dst.plus offDst with
    pos := (begin_dst.plus offDst).pos + ((begin_src.plus endSrc).pos - (begin_src.plus offSrc).pos) }
  refine ⟨[output, begin_dst.plus offDst, begin_dst, begin_src.plus endSrc, begin_src, begin_src.plus offSrc, begin_src],
    ?_, ?_⟩
  · have hrun : copy_steps offDst offSrc (offSrc + size) endSrc src q = .ok (offSrc + size - endSrc)
        { dst := overwrite q.dst (begin_dst.plus offDst).pos.toNat
            ((src.take (begin_src.plus endSrc).pos.toNat).drop (begin_src.plus offSrc).pos.toNat)
          used := output :: begin_dst.plus offDst :: begin_dst :: begin_src.plus endSrc :: begin_src ::
            begin_src.plus offSrc :: begin_src :: q.used } := rfl
    rw [hrun, hfirst, hlast, hresult]
    rfl
  · intro it hit
    simp only [List.mem_cons, List.not_mem_nil, or_false] at hit
    rcases hit with rfl | rfl | rfl | rfl | rfl | rfl | rfl
    all_goals
      simp only [Iter.Inside, output, hfirst, hlast, hresult, Iter.size_plus, begin_dst, begin_src]
      omega

theorem fill_steps_eq (hrem : remaining.toNat ≤ lastDst.toNat) (hdst : lastDst.toNat < 2 ^ 63)
    (hfits : lastDst.toNat ≤ q.dst.length) (pad : UInt8) :
    ∃ used, fill_steps lastDst remaining pad q = .ok ()
        { dst := overwrite q.dst (lastDst - remaining).toNat (List.replicate remaining.toNat pad), used := used ++ q.used } ∧
      ∀ it ∈ used, it.Inside := by
  let begin_dst := Iter.mk 0 q.dst.length
  have hlast : (begin_dst.plus lastDst).pos = lastDst.toNat := by simp [begin_dst, Iter.pos_plus _ hdst]
  have hfirst : ((begin_dst.plus lastDst).minus remaining).pos = lastDst.toNat - remaining.toNat := by
    rw [Iter.pos_minus _ (by omega), hlast]
  refine ⟨[begin_dst.plus lastDst, begin_dst, (begin_dst.plus lastDst).minus remaining, begin_dst.plus lastDst, begin_dst],
    ?_, ?_⟩
  · have hrun : fill_steps lastDst remaining pad q = .ok ()
        { dst := overwrite q.dst ((begin_dst.plus lastDst).minus remaining).pos.toNat
            (List.replicate ((begin_dst.plus lastDst).pos - ((begin_dst.plus lastDst).minus remaining).pos).toNat pad)
          used := begin_dst.plus lastDst :: begin_dst :: (begin_dst.plus lastDst).minus remaining ::
            begin_dst.plus lastDst :: begin_dst :: q.used } := rfl
    have hstart : (lastDst.toNat - remaining.toNat : Int).toNat = (lastDst - remaining).toNat := by
      rw [toNat_sub_of_le (UInt64.le_iff_toNat_le.2 hrem)]
      omega
    have hlength : (lastDst.toNat - (lastDst.toNat - remaining.toNat) : Int).toNat = remaining.toNat := by omega
    rw [hrun, hfirst, hlast, hstart, hlength]
    rfl
  · intro it hit
    simp only [List.mem_cons, List.not_mem_nil, or_false] at hit
    rcases hit with rfl | rfl | rfl | rfl | rfl
    all_goals
      simp only [Iter.Inside, hfirst, hlast, Iter.size_plus, Iter.size_minus, begin_dst]
      omega

/-! ## The copy -/

theorem copy_mem_raw_steps_same (offDst offSrc size : UInt64) (dst : Bytes) (hsrc : src.length < 2 ^ 63) (pad : UInt8) :
    SameOutcome dst (copy_mem_raw_steps offDst offSrc size src pad { dst }) (copy_mem_raw offDst offSrc size dst src pad) := by
  unfold copy_mem_raw_steps copy_mem_raw
  by_cases h0 : size = 0
  · rw [if_pos h0, if_pos h0]
    exact ⟨[], rfl, by simp⟩
  by_cases h1 : offDst + size < offDst
  · simp only [if_neg h0, if_pos h1]
    rfl
  by_cases h2 : offDst + size > MAX_MEM_SIZE
  · simp only [if_neg h0, if_neg h1, if_pos h2]
    rfl
  -- nothing has wrapped around, and the destination is made long enough
  have hlimit := in_limit_iff.1 ⟨h1, h2⟩
  have hmax : MAX_MEM_SIZE.toNat = 33554432 := rfl
  have hlast := toNat_add_of_le h1
  have hdst : offDst.toNat < 2 ^ 63 := by omega
  have hend : (offDst + size).toNat < 2 ^ 63 := by omega
  have hlen := length_grow dst (offDst.toNat + size.toNat)
  simp only [if_neg h0, if_neg h1, if_neg h2]
  rw [bind_of_ok (run_modify _ _)]
  simp only [hlast, grow_of_gt]
  generalize grow dst (offDst.toNat + size.toNat) = mem at hlen
  have hfits : (offDst + size).toNat ≤ mem.length := by omega
  by_cases hc : min (offSrc + size) (UInt64.ofNat src.length) > offSrc
  · simp only [if_pos hc]
    have hchunk := chunk_of_gt hc
    generalize min (offSrc + size) (UInt64.ofNat src.length) = endSrc at hchunk
    have hlt := hchunk.lt
    have hrange := hchunk.le_range
    have hrest := hchunk.rest
    have hlength := hchunk.length
    obtain ⟨used, hcopy, hused⟩ := copy_steps_eq (q := { dst := mem }) hchunk hsrc hdst (hlast ▸ hfits)
    rw [bind_of_ok hcopy]
    have hover : (overwrite mem offDst.toNat ((src.take endSrc.toNat).drop offSrc.toNat)).length = mem.length :=
      length_overwrite (by omega)
    have hrem : (offSrc + size - endSrc).toNat ≤ (offDst + size).toNat := by omega
    obtain ⟨used', hfill, hused'⟩ := fill_steps_eq (q := { dst := overwrite mem offDst.toNat _, used := used ++ [] })
      hrem hend (hover ▸ hfits) pad
    refine ⟨_, hfill, ?_⟩
    intro it hit
    simp only [List.append_nil, List.mem_append] at hit
    exact hit.elim (hused' it) (hused it)
  · simp only [if_neg hc]
    rw [bind_of_ok (run_pure _ _)]
    have hrem : size.toNat ≤ (offDst + size).toNat := by omega
    obtain ⟨used, hfill, hused⟩ := fill_steps_eq (q := { dst := mem }) hrem hend hfits pad
    refine ⟨_, hfill, ?_⟩
    simpa using hused

/-- What the copy leaves at an index, with the zeros that the vector has been lengthened by. -/
theorem getElem?_overwrite_grow {n : Nat} {bs : Bytes} (dst : Bytes) (off : Nat) (hn : bs.length = n) (j : Nat) :
    (overwrite (grow dst (off + n)) off bs)[j]? = if off ≤ j ∧ j < off + n then bs[j - off]?
      else if j < dst.length then dst[j]? else if j < off then some 0 else none := by
  have hlen := length_grow dst (off + n)
  rw [getElem?_overwrite (by omega), hn]
  split
  · rfl
  · rename_i hout
    split
    · rename_i hj
      rw [grow, List.getElem?_append_left hj]
    · rename_i hj
      rw [grow, List.getElem?_append_right (by omega), List.getElem?_replicate]
      split <;> split <;> first | rfl | omega

theorem getElem?_copied {off n i : Nat} (hi : i < n) : (copied src off n pad)[i]? =
    some (if h : off + i < src.length then src[off + i] else pad) := by
  rw [copied, List.getElem?_map, List.getElem?_range hi]
  split
  · simp [*]
  · simp [*]

theorem exact_of_zero (offDst offSrc : UInt64) (dst src : Bytes) (pad : UInt8) :
    ExactCopy offDst offSrc 0 dst src pad (.ok () { dst }) where
  empty _ := rfl
  throws_iff h0 := absurd rfl h0
  unchanged := nofun
  length h0 := absurd rfl h0
  copied _ _ i hi := absurd hi (Nat.not_lt_zero i)
  gap h0 := absurd rfl h0
  elsewhere q hq j _ _ := by
    cases hq
    rfl
  inside := by simp

theorem exact_of_throws {ex : Exception} (h0 : size ≠ 0) (h : 2 ^ 25 < offDst.toNat + size.toNat) :
    ExactCopy offDst offSrc size dst src pad (.error ex { dst }) where
  empty hz := absurd hz h0
  throws_iff _ := ⟨fun _ => h, fun _ => ⟨ex, _, rfl⟩⟩
  unchanged _ q hq := by
    cases hq
    rfl
  length _ := nofun
  copied := nofun
  gap _ := nofun
  elsewhere := nofun
  inside := by simp

theorem exact_of_written {used : List Iter} (h0 : size ≠ 0) (h : offDst.toNat + size.toNat ≤ 2 ^ 25)
    (hused : ∀ it ∈ used, it.Inside) : ExactCopy offDst offSrc size dst src pad (.ok ()
      { dst := overwrite (grow dst (offDst.toNat + size.toNat)) offDst.toNat (copied src offSrc.toNat size.toNat pad), used }) := by
  have hlength := length_copied src offSrc.toNat size.toNat pad
  have hat := getElem?_overwrite_grow dst offDst.toNat hlength
  constructor
  case empty => exact fun hz => absurd hz h0
  case throws_iff =>
    refine fun _ => ⟨?_, fun hlt => absurd hlt (Nat.not_lt.2 h)⟩
    rintro ⟨ex, q, hq⟩
    cases hq
  case unchanged => exact nofun
  case length =>
    rintro - q ⟨⟩
    rw [length_overwrite (by rw [length_grow]; omega), length_grow]
  case copied =>
    rintro q ⟨⟩ i hi
    rw [hat, if_pos (by omega), Nat.add_sub_cancel_left, getElem?_copied hi]
  case gap =>
    rintro - q ⟨⟩ j hlow hhigh
    rw [hat, if_neg (by omega), if_neg (by omega), if_pos hhigh]
  case elsewhere =>
    rintro q ⟨⟩ j hj hout
    rw [hat, if_neg (by omega), if_pos hj]
  case inside => exact hused

/-- **The copy.** Sums may wrap around; the bytes are the right ones, and no iterator leaves its vector. -/
theorem copy_mem_raw_exact (offDst offSrc size : UInt64) (dst src : Bytes) (pad : UInt8) (hsrc : src.length < 2 ^ 63) :
    ExactCopy offDst offSrc size dst src pad (copy_mem_raw_steps offDst offSrc size src pad { dst }) ∧
      SameOutcome dst (copy_mem_raw_steps offDst offSrc size src pad { dst }) (copy_mem_raw offDst offSrc size dst src pad) := by
  have hsame := copy_mem_raw_steps_same offDst offSrc size dst hsrc pad
  refine ⟨?_, hsame⟩
  have hmax : MAX_MEM_SIZE.toNat = 2 ^ 25 := rfl
  by_cases h0 : size = 0
  · rw [h0]
    exact exact_of_zero offDst offSrc dst src pad
  rcases Nat.lt_or_ge MAX_MEM_SIZE.toNat (offDst.toNat + size.toNat) with hlt | hle
  · obtain ⟨ex, hex⟩ := copy_mem_raw_of_lt h0 hlt offSrc dst src pad
    rw [hex] at hsame
    rw [show copy_mem_raw_steps offDst offSrc size src pad { dst } = _ from hsame]
    exact exact_of_throws h0 hlt
  · obtain ⟨bs, -, hbs, hrun⟩ := copy_mem_raw_of_le h0 hle offSrc dst src pad
    rw [hrun, hbs hsrc] at hsame
    obtain ⟨used, hused, hinside⟩ := hsame
    rw [hused]
    exact exact_of_written h0 hle hinside

/-- The start of the range is near 2^64, and its end has wrapped around; the vector is lengthened. -/
theorem copy_mem_raw_exact_wrapped :
    ExactCopy 3 18446744073709551615 2 [7] [1, 2] 9 (copy_mem_raw_steps 3 18446744073709551615 2 [1, 2] 9 { dst := [7] }) ∧
      copy_mem_raw 3 18446744073709551615 2 [7] [1, 2] 9 = .ok [7, 0, 0, 9, 9] :=
  ⟨(copy_mem_raw_exact 3 18446744073709551615 2 [7] [1, 2] 9 (by decide)).1, by rfl⟩

end EEVM

import EEVM.Disassembler
/-!
# The disassembly as a listing (disassembler.h:103-141)

`dis` has one entry for each position of the sweep, and it holds the bytes from there to the next one. Written one after
the other they are the code again, data behind the code included: a byte that is no opcode is an instruction of its own.
Only an immediate that is cut off by the end of the code has no entry, and then there is no disassembly.
-/
namespace EEVM.Disassembler

/-- The bytes of an instruction. -/
def Instr.bytes (i : Instr) : Bytes := i.op.opcode :: i.raw_imm

/-- The sweep over the code ends inside the immediate of a `PUSH`. -/
def Truncated (prog : Bytes) : Prop :=
  ∃ k n, Sweep.Visits (width prog) k ∧ k < prog.length ∧ Opcode.ofByte (prog.getD k 0) = some (.PUSH n) ∧
    prog.length < k + 1 + (n.val + 1)

/-- `d` lists `prog`: in the order of its keys, at the places where its instructions are. -/
structure Lists (prog : Bytes) (d : Disassembly) : Prop where
  sorted : (d.instrs.map Prod.fst).Pairwise (· < ·)
  code : (d.instrs.flatMap fun e => e.2.bytes) = prog
  place : ∀ before k i after, d.instrs = before ++ (k, i) :: after →
    i.pc = k ∧ k = (before.map fun e => e.2.bytes.length).sum
  unknown : ∀ k, Sweep.Visits (width prog) k → k < prog.length → Opcode.ofByte (prog.getD k 0) = none →
    ∃ i, (k, i) ∈ d.instrs ∧ i.op.mnemonic = "INVALID" ∧ i.bytes = [prog.getD k 0]

variable {prog : Bytes} {d : Disassembly} {e : Error} {k pc turns : Nat} {i : Instr}

/-! ## Cut-off immediates -/

theorem truncated_iff : Truncated prog ↔ ∃ k ∈ positions prog, prog.length < k + width prog k := by
  constructor
  · rintro ⟨k, n, hv, hk, hop, hlt⟩
    refine ⟨k, mem_positions.2 ⟨hv, hk⟩, ?_⟩
    rw [width_of_next_op hop, Opcode.immediate_bytes]
    omega
  · rintro ⟨k, hmem, hlt⟩
    obtain ⟨hv, hk⟩ := mem_positions.1 hmem
    cases hop : Opcode.ofByte (prog.getD k 0) with
    | none =>
      rw [width_of_unknown hop] at hlt
      omega
    | some op =>
      rw [width_of_next_op hop] at hlt
      cases op with
      | PUSH n =>
        rw [Opcode.immediate_bytes] at hlt
        exact ⟨k, n, hv, hk, hop, by omega⟩
      | _ =>
        simp only [Opcode.immediate_bytes] at hlt
        omega

/-- The first loop only fails at such an immediate. -/
theorem dis_from_error (h : dis_from prog turns pc = .error e) : (∃ what, e = .out_of_range what) ∧
    ∃ k ∈ Sweep.positions (width prog) prog.length turns pc, prog.length < k + width prog k := by
  induction turns generalizing pc with
  | zero => cases h
  | succ turns ih =>
    unfold dis_from at h
    unfold Sweep.positions
    by_cases hpc : pc < prog.length
    case neg =>
      simp only [dif_neg hpc] at h
      cases h
    have hget : prog[pc] = prog.getD pc 0 := by simp [List.getD, hpc]
    simp only [dif_pos hpc, hget] at h
    rw [if_pos hpc]
    split at h
    case isTrue hcut =>
      cases h
      refine ⟨⟨_, rfl⟩, pc, List.mem_cons_self, ?_⟩
      rw [width]
      omega
    case isFalse =>
      cases hrest : dis_from prog turns (pc + 1 + (getOp (prog.getD pc 0)).immediate_bytes) with
      | ok rest =>
        rw [hrest] at h
        cases h
      | error e' =>
        rw [hrest] at h
        cases h
        obtain ⟨hkind, k, hmem, hlt⟩ := ih hrest
        rw [Nat.add_assoc] at hmem
        exact ⟨hkind, k, List.mem_cons_of_mem pc hmem, hlt⟩

theorem dis_error (h : dis prog = .error e) : (∃ what, e = .out_of_range what) ∧ Truncated prog := by
  unfold dis at h
  cases hd : dis_from prog prog.length 0 with
  | ok instrs => simp [hd] at h
  | error e' =>
    rw [hd] at h
    cases h
    exact ⟨(dis_from_error hd).1, truncated_iff.2 (dis_from_error hd).2⟩

theorem not_truncated_of_ok (h : dis prog = .ok d) : ¬Truncated prog := by
  obtain ⟨hkeys, hentries⟩ := dis_ok h
  rw [truncated_iff, ← hkeys]
  rintro ⟨k, hk, hlt⟩
  obtain ⟨⟨k, i⟩, hmem, rfl⟩ := List.mem_map.1 hk
  exact absurd (hentries k i hmem).fits (Nat.not_le.2 hlt)

/-! ## The entries -/

/-- An entry holds the code up to the next position. -/
theorem Describes.bytes (h : Describes prog k i) : i.bytes = (prog.drop k).take (width prog k) := by
  have hfits := h.fits
  have hw := width_pos prog k
  have hk : k < prog.length := by omega
  have hget : prog.getD k 0 = prog[k] := by simp [List.getD, hk]
  rw [Instr.bytes, h.op, h.raw_imm, getOp_opcode, List.drop_eq_getElem_cons hk, hget, width, hget, Nat.add_comm 1,
    List.take_succ_cons]

theorem Describes.length_bytes (h : Describes prog k i) : i.bytes.length = width prog k := by
  have hfits := h.fits
  rw [h.bytes, List.length_take, List.length_drop]
  omega

/-- What `dis` returns lists the code. -/
theorem lists_of_ok (h : dis prog = .ok d) : Lists prog d := by
  obtain ⟨hkeys, hentries⟩ := dis_ok h
  refine ⟨?_, ?_, ?_, ?_⟩
  · rw [hkeys]
    exact Sweep.positions_sorted (width_pos prog) _ _
  · have hfits : ∀ k ∈ positions prog, k + width prog k ≤ prog.length := by
      rw [← hkeys]
      intro k hk
      obtain ⟨⟨k, i⟩, hmem, rfl⟩ := List.mem_map.1 hk
      exact (hentries k i hmem).fits
    have hcode := Sweep.flatMap_positions (width_pos prog) (Nat.le_add_left prog.length 0) hfits
    rw [List.drop_zero] at hcode
    have hbytes : (d.instrs.flatMap fun e => e.2.bytes) =
        (d.instrs.map Prod.fst).flatMap fun k => (prog.drop k).take (width prog k) := by
      rw [List.flatMap_map]
      exact List.flatMap_congr fun e he => (hentries e.1 e.2 he).bytes
    rw [hbytes, hkeys]
    exact hcode
  · intro before k i after heq
    have hmem : (k, i) ∈ d.instrs := by simp [heq]
    refine ⟨(hentries k i hmem).pc, ?_⟩
    have hpositions : positions prog = before.map Prod.fst ++ k :: after.map Prod.fst := by
      rw [← hkeys, heq, List.map_append, List.map_cons]
    have hwidths : (before.map fun e => e.2.bytes.length) = (before.map Prod.fst).map (width prog) := by
      rw [List.map_map]
      exact List.map_congr_left fun e he => (hentries e.1 e.2 (by simp [heq, he])).length_bytes
    rw [Sweep.eq_add_sum_of_positions_eq hpositions, hwidths, Nat.zero_add]
  · intro k hv hk hop
    have hmem : k ∈ d.instrs.map Prod.fst := by
      rw [hkeys]
      exact mem_positions.2 ⟨hv, hk⟩
    obtain ⟨⟨k, i⟩, hi, rfl⟩ := List.mem_map.1 hmem
    have hd := hentries k i hi
    refine ⟨i, hi, ?_, ?_⟩
    · rw [hd.op, getOp, hop]
    · rw [Instr.bytes, hd.op, hd.raw_imm, getOp, hop, List.take_zero]

/-- **Disassembly.** It fails just when the end of the code cuts off an immediate, and loses nothing otherwise. -/
theorem dis_lossless (prog : Bytes) :
    ((∃ what, dis prog = .error (.out_of_range what)) ↔ Truncated prog) ∧
      (¬Truncated prog → ∃ d, dis prog = .ok d ∧ Lists prog d) := by
  cases h : dis prog with
  | error e =>
    obtain ⟨⟨what, rfl⟩, htruncated⟩ := dis_error h
    exact ⟨iff_of_true ⟨what, rfl⟩ htruncated, fun hno => absurd htruncated hno⟩
  | ok d =>
    refine ⟨iff_of_false ?_ (not_truncated_of_ok h), fun _ => ⟨d, rfl, lists_of_ok h⟩⟩
    rintro ⟨what, ⟨⟩⟩

end EEVM.Disassembler

import RapidPatch.Hotpatch.Trampolines

/-!
The three encoders of a branch.

`calc_branch_instr` takes the sign of the distance from its bit 24 and
`my_gen_bw` from the distance itself. In the range of the encoding the two are
one bit, and the encoders write one instruction.
-/

namespace RapidPatch.Hotpatch

open RapidPatch.Support RapidPatch.Thumb RapidPatch.Jit

/-- `my_gen_bw`. The distance is an `int` here, shifted with its sign. -/
def myGenBw (fromInst targetAddr : BitVec 32) : BitVec 32 :=
  let offset := (targetAddr &&& ~~~0x1#32) - (fromInst &&& ~~~0x1#32) - 4
  let imm10 := (offset.sshiftRight 12) &&& 0x03ff
  let imm11 := (offset.sshiftRight 1) &&& 0x07ff
  let s : BitVec 32 := if offset.toInt < 0 then 1 else 0
  let i1 := (offset.sshiftRight 23) &&& 0x01
  let i2 := (offset.sshiftRight 22) &&& 0x01
  let j1 := (~~~i1 ^^^ s) &&& 0x1
  let j2 := (~~~i2 ^^^ s) &&& 0x1
  let inst :=
    (0xf0009000 : BitVec 32) ||| (s <<< 26) ||| (imm10 <<< 16) ||| (j1 <<< 13) ||| (j2 <<< 11) |||
      imm11
  littleEndian16Bit inst

def calcBranchWLinkInstr (instAddr targetAddr : BitVec 32) : BitVec 32 :=
  let branchInstr := calcBranchInstr instAddr targetAddr
  branchInstr ||| 0x00004000

/-! ### The distance -/

theorem evenPart_branchOffset (a t : BitVec 32) :
    evenPart (branchOffset a t) = branchOffset a t := by
  have hpart (d : BitVec 32) : (d &&& ~~~0x1#32).toNat = d.toNat / 2 * 2 := toNat_and_not_one d
  have hfour : (4 : BitVec 32).toNat = 4 := rfl
  apply BitVec.eq_of_toNat_eq
  have hd : (evenPart (branchOffset a t)).toNat = (branchOffset a t).toNat / 2 * 2 :=
    toNat_and_not_one _
  rw [hd, branchOffset, BitVec.toNat_sub, BitVec.toNat_sub, hpart, hpart, hfour]
  omega

theorem sign_eq_getLsbD {d : BitVec 32} (hlo : -0x1000000 ≤ d.toInt) (hhi : d.toInt < 0x1000000) :
    decide (d.toInt < 0) = d.getLsbD 24 := by
  rw [← BitVec.msb_eq_toInt, BitVec.msb_eq_getLsbD_last]
  exact getLsbD_of_range (by omega) (by omega) (by omega) (by omega) (by omega)

/-! ### The encoders -/

theorem myGenBw_eq {a t : BitVec 32}
    (hlo : -0x1000000 ≤ (branchOffset a t).toInt) (hhi : (branchOffset a t).toInt < 0x1000000) :
    myGenBw a t = littleEndian16Bit (calcBranchInstr a t) := by
  have hsign := sign_eq_getLsbD hlo hhi
  have hd : (t &&& ~~~0x1#32) - (a &&& ~~~0x1#32) - 4 = branchOffset a t := rfl
  rw [myGenBw, calcBranchInstr, hd]
  apply congrArg littleEndian16Bit
  apply BitVec.eq_of_getLsbD_eq
  intro i hi
  generalize branchOffset a t = d at hsign
  have hs : (if d.toInt < 0 then (1 : BitVec 32) else 0) =
      (BitVec.ofBool (d.getLsbD 24)).setWidth 32 := by
    rw [← hsign]
    by_cases hneg : d.toInt < 0
    · simp [hneg]
    · simp [hneg]
  rw [hs]
  interval_cases i <;> simp [BitVec.getElem_sshiftRight]

/-- A field of the branch with link that bit 14 is not in. -/
theorem bits_calcBranchWLinkInstr (a t : BitVec 32) {k n : ℕ} (h : k + n ≤ 14 ∨ 14 < k) :
    bits (calcBranchWLinkInstr a t) k n = bits (calcBranchInstr a t) k n := by
  have hbit (j : ℕ) (hj : j ≠ 14) : (0x00004000 : BitVec 32).getLsbD j = false := by
    have hone : (0x00004000 : BitVec 32) = BitVec.twoPow 32 14 := rfl
    rw [hone, BitVec.getLsbD_twoPow]
    simp [Ne.symm hj]
  apply BitVec.eq_of_getLsbD_eq
  intro i hi
  simp only [bits, calcBranchWLinkInstr, BitVec.getLsbD_extractLsb', BitVec.getLsbD_or, hi,
    decide_true, Bool.true_and, hbit (k + i) (by omega), Bool.or_false]

theorem decode_calcBranchWLinkInstr {a t : BitVec 32}
    (hlo : -0x1000000 ≤ (branchOffset a t).toInt) (hhi : (branchOffset a t).toInt < 0x1000000) :
    decode32 (calcBranchWLinkInstr a t) = some (.bl (evenPart (branchOffset a t))) := by
  have hdecode := decodeBranchT4_calcBranchInstr hlo hhi
  obtain ⟨htop, h14, h12⟩ := calcBranchInstr_fields a t
  rw [decodeBranchT4, if_pos ⟨htop, h14, h12⟩] at hdecode
  set x := calcBranchWLinkInstr a t with hx
  have hkeep {k n : ℕ} (h : k + n ≤ 14 ∨ 14 < k) : bits x k n = bits (calcBranchInstr a t) k n :=
    bits_calcBranchWLinkInstr a t h
  have h15 : bits x 15 1 = 1 := by
    have hfield : bits (calcBranchInstr a t) 15 1 = bits (bits (calcBranchInstr a t) 14 2) 1 1 := by
      rw [bits_bits _ (by omega)]
    rw [hkeep (by omega), hfield, h14]
    rfl
  have hlink : bits x 14 1 = 1 := by
    apply BitVec.eq_of_getLsbD_eq
    intro i hi
    simp only [hx, bits, calcBranchWLinkInstr]
    interval_cases i
    simp
  rw [← hkeep (by omega)] at htop h12
  simp only [decode32, htop, h15, decodeBranch, hlink, h12]
  simp only [hkeep (k := 26) (n := 1) (by omega), hkeep (k := 13) (n := 1) (by omega),
    hkeep (k := 11) (n := 1) (by omega), hkeep (k := 16) (n := 10) (by omega),
    hkeep (k := 0) (n := 11) (by omega)]
  simpa using hdecode

/-- In the whole range of the encoding the encoders write the branch to the
target. -/
theorem branchEncoders_decode {a t : BitVec 32} (hlo : -2 ^ 24 ≤ (branchOffset a t).toInt)
    (hhi : (branchOffset a t).toInt ≤ 2 ^ 24 - 2) :
    decodeBranchT4 (calcBranchInstr a t) = some (branchOffset a t) ∧
      myGenBw a t = littleEndian16Bit (calcBranchInstr a t) ∧
      decode32 (calcBranchWLinkInstr a t) = some (.bl (branchOffset a t)) := by
  have hlo' : -0x1000000 ≤ (branchOffset a t).toInt := by omega
  have hhi' : (branchOffset a t).toInt < 0x1000000 := by omega
  refine ⟨?_, myGenBw_eq hlo' hhi', ?_⟩
  · rw [decodeBranchT4_calcBranchInstr hlo' hhi', evenPart_branchOffset]
  · rw [decode_calcBranchWLinkInstr hlo' hhi', evenPart_branchOffset]

theorem branchEncoders_decode_back :
    decodeBranchT4 (calcBranchInstr 0x09000000 0x08000004) = some (-0x1000000) ∧
      myGenBw 0x09000000 0x08000004 =
        littleEndian16Bit (calcBranchInstr 0x09000000 0x08000004) ∧
      decode32 (calcBranchWLinkInstr 0x09000000 0x08000004) = some (.bl (-0x1000000)) :=
  branchEncoders_decode (a := 0x09000000) (t := 0x08000004) (by decide) (by decide)

end RapidPatch.Hotpatch

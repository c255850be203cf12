import RapidPatch.Hotpatch.BranchEncoders
import RapidPatch.Jit.Compare

/-!
Which branches the translator's emitters get right.

`_emit_b_cond` writes the right branch wherever it writes one. The long form
of `_emit_b` starts from the conditional encoding, whose condition then holds
bits of the displacement, so only the short form is a branch without a
condition. Neither emitter returns anything and neither stores in `err_line`:
a displacement without an encoding is dropped in silence.
-/

namespace RapidPatch.Jit

open RapidPatch.Support RapidPatch.Vm RapidPatch.Thumb RapidPatch.Hotpatch

/-- The halfwords are one branch. Encoding T4 comes on top of the encodings of
the fragment. -/
inductive BranchesTo : Code → BitVec 4 → Word → Prop
  | fragment {code : Code} {cond : BitVec 4} {off : Word} (h : IsBranch code cond off) :
      BranchesTo code cond off
  | t4 {hw hw' : BitVec 16} {off : Word} (h : decodeBranchT4 (hw ++ hw') = some off) :
      BranchesTo [hw, hw'] condAl off

theorem BranchesTo.ne_nil {code : Code} {cond : BitVec 4} {off : Word}
    (h : BranchesTo code cond off) : code ≠ [] := by
  cases h with
  | fragment h => exact h.ne_nil
  | t4 _ => exact List.cons_ne_nil _ _

/-- The translator learns of an error from the result or from `err_line`. -/
def BuildResult.Reports (r : BuildResult) : Prop := r.ret < 0 ∨ r.errLine ≠ none

/-- An emitter writes the branch, or the instruction it was called for ends in
an error. -/
structure EmitsBranch (code : Code) (cond : BitVec 4) (off : Word) : Prop where
  accepted : code ≠ [] → BranchesTo code cond off
  rejected : code = [] → (built code).Reports

/-! ### Rejected displacements -/

theorem not_reports_built (code : Code) : ¬(built code).Reports := by
  simp [BuildResult.Reports, built]

/-- No instruction that branches reports an error. -/
theorem not_reports_branch {p : Input} {pass : Pass} {idx pc : ℕ}
    (h : (∃ op source, (p.insts pc).op = .jmp op source) ∨ (p.insts pc).op = .ja ∨
      (p.insts pc).op = .exit) : ¬(buildInst p pass idx pc).Reports := by
  rcases h with ⟨op, source, hop⟩ | hop | hop <;> simp only [buildInst, hop] <;> split <;>
    exact not_reports_built _

/-- What is left out is not reported, so an emitter is right where it writes
the branch. -/
theorem emitsBranch_iff {code : Code} {cond : BitVec 4} {off : Word} :
    EmitsBranch code cond off ↔ BranchesTo code cond off := by
  constructor
  · intro h
    refine h.accepted fun hnil => ?_
    exact not_reports_built code (h.rejected hnil)
  · intro h
    exact ⟨fun _ => h, fun hnil => absurd hnil h.ne_nil⟩

/-! ### The long form without a condition -/

/-- The condition field of the long form holds the displacement. -/
theorem thumb32BwT4_fields (d : BitVec 32) :
    bits (thumb32BwT4 d) 27 5 = 0b11110 ∧ bits (thumb32BwT4 d) 15 1 = 1 ∧
      bits (thumb32BwT4 d) 14 1 = 0 ∧ bits (thumb32BwT4 d) 12 1 = 0 := by
  refine ⟨?_, ?_, ?_, ?_⟩ <;> apply BitVec.eq_of_getLsbD_eq <;> intro i hi <;>
    simp only [bits, thumb32BwT4, bit] <;> interval_cases i <;> simp

/-- The conditional encoding has no condition `AL`. -/
theorem decode32_thumb32BwT4_ne (d off : BitVec 32) :
    decode32 (thumb32BwT4 d) ≠ some (.b condAl off) := by
  obtain ⟨htop, h15, h14, h12⟩ := thumb32BwT4_fields d
  have hdecode : decode32 (thumb32BwT4 d) = decodeBranch (thumb32BwT4 d) := by
    rw [decode32, htop, h15]
    rfl
  rw [hdecode, decodeBranch, h14, h12]
  intro h
  split at h
  · rename_i hcond
    have hal : bits (thumb32BwT4 d) 22 4 = condAl := by
      simp only [Option.some.injEq, Instr.b.injEq] at h
      exact h.1
    have hnever : bits (thumb32BwT4 d) 23 3 = bits condAl 1 3 := by
      rw [← hal, bits_bits _ (by omega)]
    rw [hnever] at hcond
    revert hcond
    decide
  · simp at h

theorem not_branchesTo_thumb32BwT4 (d off : BitVec 32) :
    ¬BranchesTo (emit4 (thumb32BwT4 d)) condAl off := by
  intro h
  generalize hcode : emit4 (thumb32BwT4 d) = code at h
  cases h with
  | t4 h =>
      cases hcode
      obtain ⟨-, -, -, h12⟩ := thumb32BwT4_fields d
      rw [halfwords, decodeBranchT4, if_neg fun hfields => by simp [h12] at hfields] at h
      cases h
  | fragment h =>
      cases h with
      | narrow _ _ => cases hcode
      | wide _ hd =>
          cases hcode
          rw [halfwords] at hd
          exact decode32_thumb32BwT4_ne d off hd

/-! ### The emitters -/

theorem emitB_long {d : BitVec 32} (h : ¬(-2048 < d.toInt ∧ d.toInt < 2046)) :
    emitB d = [] ∨ emitB d = emit4 (thumb32BwT4 d) := by
  rw [emitB, if_neg (by simpa using h)]
  split
  · exact .inr rfl
  · exact .inl rfl

theorem branchesTo_emitB_iff {d : BitVec 32} (heven : evenPart d = d) :
    BranchesTo (emitB d) condAl d ↔ -2048 < d.toInt ∧ d.toInt < 2046 := by
  constructor
  · intro h
    by_contra hlong
    rcases emitB_long hlong with hcode | hcode
    · exact h.ne_nil hcode
    · rw [hcode] at h
      exact not_branchesTo_thumb32BwT4 d d h
  · intro h
    have hbranch := isBranch_emitB h.1 h.2
    rw [heven] at hbranch
    exact .fragment hbranch

theorem branchesTo_emitBCond_iff {n : ℕ} {d : BitVec 32} {c : BitVec 4} (hc : bits c 1 3 ≠ 0b111)
    (heven : evenPart d = d) :
    BranchesTo (emitBCond n d (c.setWidth 32)) c d ↔ BranchInRange d := by
  constructor
  · intro h
    by_contra hrange
    exact h.ne_nil (emitBCond_eq_nil hrange)
  · intro h
    have hbranch := isBranch_of_inRange (n := n) hc h
    rw [heven] at hbranch
    exact .fragment hbranch

/-- The branch with a condition is right for the displacements that have an
encoding, and the branch without one for those that have a short encoding. -/
theorem emitsBranch_emit_iff (n : ℕ) {off : BitVec 32} {cond : BitVec 4}
    (heven : off.toNat % 2 = 0) (hcond : cond.toNat < 14) :
    (EmitsBranch (emitBCond n off (cond.setWidth 32)) cond off ↔
      -1048576 < off.toInt ∧ off.toInt < 1048574) ∧
    (EmitsBranch (emitB off) condAl off ↔ -2048 < off.toInt ∧ off.toInt < 2046) := by
  have hpart : evenPart off = off := by
    apply BitVec.eq_of_toNat_eq
    have hand : (evenPart off).toNat = off.toNat / 2 * 2 := toNat_and_not_one off
    omega
  have hnever : bits cond 1 3 ≠ 0b111 := by
    revert cond
    decide
  rw [emitsBranch_iff, emitsBranch_iff]
  exact ⟨branchesTo_emitBCond_iff hnever hpart, branchesTo_emitB_iff hpart⟩

theorem emitsBranch_emit_iff_jump :
    (EmitsBranch (emitBCond 500 4000 0) 0 4000 ↔
      -1048576 < (4000 : Word).toInt ∧ (4000 : Word).toInt < 1048574) ∧
    (EmitsBranch (emitB 4000) condAl 4000 ↔
      -2048 < (4000 : Word).toInt ∧ (4000 : Word).toInt < 2046) :=
  @emitsBranch_emit_iff 500 4000 0 (by decide) (by decide)

/-- That jump is emitted, as a conditional branch. A jump of 1 MB is not
emitted and not reported. -/
theorem not_emitsBranch_jump :
    ¬EmitsBranch (emitB 4000) condAl 4000 ∧
      ¬EmitsBranch (emitBCond 500 0x100000 0) 0 0x100000 := by
  have hcode : emitB 4000 = emit4 (thumb32BwT4 4000) := by decide
  have hnil : emitBCond 500 0x100000 0 = [] := by decide
  constructor
  · rw [emitsBranch_iff, hcode]
    exact not_branchesTo_thumb32BwT4 4000 4000
  · rw [emitsBranch_iff, hnil]
    exact fun h => h.ne_nil rfl

end RapidPatch.Jit

import RapidPatch.Jit.RegFile

/-!
The translation of `NEG64`.

The two words are subtracted from zero one after the other. The second
difference does not take the borrow of the first, so that the pair ends up
as the pair of negated words (`runs_negCode`), which is the negated number
only where nothing is borrowed (`negWords_iff`).
-/

namespace RapidPatch.Jit

open RapidPatch.Vm RapidPatch.Thumb RapidPatch.Support

theorem decode_rsbs : ∀ (h : Bool) (p : Fin 5),
    decode32 (thumb32RsbwImmT2 (half h p) (half h p) 0 flagS) =
      some (.data (.dpImm .rsb true (halfReg h p) (halfReg h p) 0)) := by
  decide

@[simp] theorem rsb_zero (x : Word) : (addWithCarry (~~~x) 0#32 true).1 = -x :=
  (addWithCarry_rsb x 0#32).trans (BitVec.zero_sub x)

theorem runs_rsbs (h : Bool) (p : Fin 5) (s : Core) :
    ∃ t, Runs (emit4 (thumb32RsbwImmT2 (half h p) (half h p) 0 flagS)) s t ∧ t.mem = s.mem ∧
      t.r (halfReg h p) = -s.r (halfReg h p) ∧ ∀ i ≠ halfReg h p, t.r i = s.r i := by
  refine ⟨_, runs_emit4 (decode_rsbs h p) rfl, rfl, ?_, ?_⟩
  · simp [dpResult]
  · intro i hi
    simp [hi]

/-- What `emit_a32_neg64` emits between loading and storing its pair. -/
def negCode (p : Fin 5) : Code :=
  emit4 (thumb32RsbwImmT2 (lo p) (lo p) 0 flagS) ++ emit4 (thumb32RsbwImmT2 (hi p) (hi p) 0 flagS)

/-- The two words of a number, negated one by one. -/
def negWords (x : BitVec 64) : BitVec 64 := -hiWord x ++ -loWord x

theorem runs_negCode (p : Fin 5) (s : Core) :
    ∃ t, Runs (negCode p) s t ∧ val t (.pair p) = negWords (val s (.pair p)) ∧
      Keeps [.pair 4, .pair p] s t := by
  obtain ⟨u, hu, hmu, hlo, hku⟩ := runs_rsbs false p s
  obtain ⟨t, ht, hmt, hhi, hkt⟩ := runs_rsbs true p u
  simp only [halfReg, half, if_true, Bool.false_eq_true, if_false] at hu hlo hku ht hhi hkt
  refine ⟨t, hu.append ht, ?_, ?_⟩
  · simp only [val, negWords, loWord_pair, hiWord_pair]
    rw [hhi, hkt _ (by simp), hlo, hku _ (by simp)]
  · refine keeps_pair_scratch (hmt.trans hmu) ?_
    intro i h1 h2 _
    rw [hkt i h2, hku i h1]

theorem writes_neg64 (d : Loc) {s : Core} (hfp : aligned (s.r 11)) :
    ∃ t, Runs (emitA32Neg64 d.row) s t ∧ Writes d (negWords (val s d)) s t := by
  obtain ⟨t, ht, hw⟩ := writes_shift (f := negWords) (runs_negCode (d.core 3)) hfp
  refine ⟨t, ?_, hw⟩
  simpa [emitA32Neg64, tmpReg1_eq, getReg64_row, negCode] using ht

/-- Without a borrow the words can be negated one by one. -/
theorem negWords_iff (x : BitVec 64) :
    BitVec.ofNat 64 (2 ^ 64 - x.toNat) = negWords x ↔ loWord x = 0 := by
  have hx := x.isLt
  have hzero : loWord x = 0 ↔ x.toNat % 2 ^ 32 = 0 := by
    rw [← BitVec.toNat_inj, toNat_loWord]
    rfl
  rw [hzero, ← BitVec.toNat_inj, negWords, toNat_pair, BitVec.toNat_ofNat, BitVec.toNat_neg,
    BitVec.toNat_neg, toNat_loWord, toNat_hiWord]
  omega

theorem achieves_neg64_iff {d : BitVec 4} (hd : d < 10) (ρ : Regs) :
    Achieves (emitA32Neg64 (locOf d).row) ρ
        (Function.update ρ d (BitVec.ofNat 64 (2 ^ 64 - (ρ d).toNat))) ↔
      loWord (ρ d) = 0 := by
  rw [← negWords_iff]
  apply achieves_update_iff hd
  intro s hs
  rw [← hs.regs d hd]
  exact writes_neg64 _ hs.aligned

/-- The translation of `NEG64` negates exactly the numbers with a low word of
zero. -/
theorem neg64_right_iff (p : Input) (pass : Pass) (idx pc : ℕ) (ρ : Regs)
    (hop : (p.insts pc).op = .neg64) (hdst : (p.insts pc).dst < 10) :
    Achieves (buildInst p pass idx pc).code ρ (Function.update ρ (p.insts pc).dst
        (BitVec.ofNat 64 (2 ^ 64 - (ρ (p.insts pc).dst).toNat))) ↔
      loWord (ρ (p.insts pc).dst) = 0 := by
  have hcode : (buildInst p pass idx pc).code = emitA32Neg64 (locOf (p.insts pc).dst).row := by
    simp only [buildInst, hop, built, bpf2a32_eq_row p.behind hdst]
  rw [hcode]
  exact achieves_neg64_iff hdst ρ

/-- `NEG64 r0`. -/
def neg64R0 : Inst := { opcode := Opcode.neg64.byte, dst := 0, src := 0, offset := 0, imm := 0 }

theorem neg64_high_word :
    Achieves (buildInst (single neg64R0) genPass 0 0).code (fun _ => 0x100000000)
      (Function.update (fun _ => 0x100000000) 0 (BitVec.ofNat 64 (2 ^ 64 - 2 ^ 32))) :=
  (neg64_right_iff (single neg64R0) genPass 0 0 (fun _ => 0x100000000)
    (opcodeOf_byte .neg64) (by decide)).mpr (by decide)

theorem neg64_one_wrong :
    ¬Achieves (buildInst (single neg64R0) genPass 0 0).code (fun _ => 1)
      (Function.update (fun _ => 1) 0 (BitVec.ofNat 64 (2 ^ 64 - 1))) := by
  have hcode : (buildInst (single neg64R0) genPass 0 0).code = emitA32Neg64 (locOf 0).row := rfl
  rw [hcode]
  exact (achieves_neg64_iff (by decide) fun _ => 1).not.mpr (by decide)

end RapidPatch.Jit

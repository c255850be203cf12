import RapidPatch.Jit.Negate
import RapidPatch.Jit.Alu64

/-!
The translation of the 32-bit class.

The emitters work on low words, and none of them clears the high word of the
destination: the code is right for a destination whose high word is zero
already, with the exceptions of the operations themselves. `OR` and `XOR`
have those of the 64-bit class. The two moves of an immediate into a slot,
of which one is the `MOV` that should clear the high word, hand the offset
of the slot to `emit_mov_imm` as a register number, and what comes out is
not a move.
-/

namespace RapidPatch.Jit

open RapidPatch.Vm RapidPatch.Thumb RapidPatch.Support

/-! ### What the interpreter does -/

/-- The opcodes of the class that are no divisions. -/
def isAlu32 : Opcode → Bool
  | .alu op _ => !op.isDivision
  | .neg => true
  | _ => false

theorem refines_neg_iff {c : Call} {i : Inst} {code : Code} {ρ : Regs} (hop : i.op = .neg)
    (hdst : i.dst < 10) :
    Refines c i code ρ ↔
      Achieves code ρ (Function.update ρ i.dst ((-loWord (ρ i.dst)).setWidth 64)) := by
  apply refines_iff_achieves
  rintro u rfl
  have hfile : i.regsInFile = true := by
    refine regsInFile_of_lt hdst fun h => ?_
    rw [hop] at h
    cases h
  simp only [execInst, hfile, hop, BitVec.setWidth_neg_of_le (show 32 ≤ 64 by decide)]
  rfl

/-- Within its range a shift takes all of its operand. -/
theorem wordValue_eq_isaAlu {op : AluOp} (hop : isPlain op = true) (x y : Word)
    (hshift : op.isShift = true → y.toNat < 32) : wordValue op x y = isaAlu op x y := by
  have hmod : op.isShift = true → y.toNat % 256 = y.toNat := fun h =>
    Nat.mod_eq_of_lt ((hshift h).trans (by decide))
  cases op with
  | add => exact add_eq_isaAlu x y
  | sub => exact sub_eq_isaAlu x y
  | mul => exact mul_eq_isaAlu x y
  | and => exact and_eq_isaAlu x y
  | lsh => simp only [wordValue, hmod rfl, shiftLeft_eq_isaAlu]
  | rsh => simp only [wordValue, hmod rfl, ushiftRight_eq_isaAlu]
  | arsh => simp only [wordValue, hmod rfl, sshiftRight_eq_isaAlu]
  | _ => cases hop

theorem shift_lt_of_range {i : Inst} {ρ : Regs} {op : AluOp} (hop : i.op = .alu op .reg)
    (hshift : i.ShiftInRange ρ) (h : op.isShift = true) : (loWord (ρ i.src)).toNat < 32 := by
  simp only [Inst.ShiftInRange, hop, Inst.shiftAmount] at hshift
  have hlt := hshift h
  rw [toNat_loWord]
  cases op with
  | lsh => exact hlt
  | rsh => exact hlt
  | arsh =>
      simp only at hlt
      omega
  | _ => cases h

/-! ### Code that writes a low word -/

theorem achieves_lowWord_iff {code : Code} {ρ : Regs} {d : BitVec 4} {w : Word} (hd : d < 10)
    (hcode : ∀ s, HoldsRegs ρ s →
      ∃ t, Runs code s t ∧ Writes (locOf d) (hiWord (ρ d) ++ w) s t) :
    Achieves code ρ (Function.update ρ d (w.setWidth 64)) ↔ hiWord (ρ d) = 0 := by
  rw [achieves_update_iff hd hcode, setWidth_eq_pair, pair_eq_iff, eq_comm]
  exact and_iff_left rfl

theorem keeps_word {d : Loc} {s t : Core} (hmem : t.mem = s.mem)
    (hreg : ∀ i ≠ d.word false 7, t.r i = s.r i) : Keeps [.pair (d.core 3)] s t := by
  have hword : d.word false 7 = loReg (d.core 3) ∨ d.word false 7 = hiReg (d.core 3) := by
    cases d with
    | pair p => exact Or.inl rfl
    | slot j => exact Or.inr rfl
  refine keeps_pair hmem fun i hlo hhi _ _ => hreg i ?_
  rcases hword with h | h <;> rwa [h]

theorem keeps_loadWord (l : Loc) (s : Core) : Keeps [.pair 3] s (loadWord l false 7 s) :=
  keeps_pair (loadWord_mem l false 7 s) fun _ _ hhi _ _ => loadWord_other l false s hhi

theorem badReg_word (l : Loc) : badReg (l.word false 7) = false := by
  cases l with
  | pair p => exact badReg_half false p
  | slot j => rfl

theorem writes_inPlace {d : Loc} {code : Code} {f : Word → Word}
    (hcode : Sets code (d.word false 7) fun s => f (s.r (d.word false 7))) (s : Core) :
    ∃ t, Runs ((armBpfGetReg32 d.row.lo tmpReg1.hi).1 ++ code ++
        armBpfPutReg32 d.row.lo ((d.word false 7).toNat : ℤ)) s t ∧
      Writes d (hiWord (val s d) ++ f (loWord (val s d))) s t := by
  obtain ⟨u, hu, hmu, hval, hku⟩ := hcode (loadWord d false 7 s)
  obtain ⟨t, ht, hrt, hmt⟩ := runs_putReg32 d false (badReg_word d) u
  obtain ⟨hput, hkt⟩ := keeps_putWord d false (d.word false 7) hrt hmt
  beta_reduce at hval
  have hk := (keeps_loadWord d s).trans (keeps_word hmu hku)
  have hhigh : hiWord (val u d) = hiWord (val s d) := by
    cases d with
    | pair p =>
        simp only [val, hiWord_pair]
        exact hku (hiReg p) (hiReg_ne_loReg p p)
    | slot j => rw [hk.same _ (by simp)]
  refine ⟨t, ((runs_getReg32 d false (by decide) s).append hu).append ht,
    (hk.trans hkt).writes ?_ ?_⟩
  · intro l' hl'
    refine isTemp_or_of_mem ?_
    simp only [List.cons_append, List.nil_append, List.mem_cons, List.not_mem_nil,
      or_false] at hl' ⊢
    tauto
  · rw [hput, hval, loadWord_word, setWord, hhigh]
    rfl

theorem writes_movWord {d e : Loc} (hd : ¬d.IsTemp) (s : Core) :
    ∃ t, Runs (emitA32MovReg e.row.lo d.row.lo) s t ∧
      Writes d (hiWord (val s d) ++ loWord (val s e)) s t := by
  obtain ⟨t, ht, hrt, hmt⟩ := runs_putReg32 d false (badReg_word e) (loadWord e false 7 s)
  obtain ⟨hput, hkt⟩ := keeps_putWord d false (e.word false 7) hrt hmt
  have hk := keeps_loadWord e s
  refine ⟨t, ?_, (hk.trans hkt).writes ?_ ?_⟩
  · have hrun := (runs_getReg32 e false (show badReg 7 = false by decide) s).append ht
    rwa [← getReg32_word e false 7] at hrun
  · intro l' hl'
    simp only [List.cons_append, List.nil_append, List.mem_cons, List.not_mem_nil,
      or_false] at hl'
    exact hl'.imp_left Or.inl
  · rw [hput, loadWord_word, setWord, hk.same d (by simpa using fun h => hd (Or.inl h))]
    rfl

/-! ### The frame of `emit_alu64_reg` -/

theorem emitAlu64Reg_low (op : AluOp) (d e : Loc) :
    emitAlu64Reg false d.row e.row op =
      (armBpfGetReg64 d.row tmpReg1).1 ++ ((armBpfGetReg32 e.row.lo tmpReg2.lo).1 ++
        (emitAluOp (lo (d.core 3)) (lo (e.core 4)) true false op ++
          armBpfPutReg64 d.row (Loc.pair (d.core 3)).row)) := by
  have hop := emitAlu32Reg_half false (d.core 3) (e.core 4) true false op
  have hreg := (getReg32_reg e 4).2
  simp only [half, Bool.false_eq_true, if_false] at hop
  simp [emitAlu64Reg, tmpReg1_eq, tmpReg2_eq, getReg64_row, hop, hreg]

def loadLowOperands (d e : Loc) (s : Core) : Core := loadWord e false (loReg 4) (loadPair d 3 s)

section LowOperands

variable {d e : Loc} {s : Core}

theorem runs_loadLowOperands (d e : Loc) (hfp : aligned (s.r 11)) :
    Runs ((armBpfGetReg64 d.row tmpReg1).1 ++ (armBpfGetReg32 e.row.lo tmpReg2.lo).1) s
      (loadLowOperands d e s) := by
  have hbad : badReg (loReg 4) = false := by decide
  have hreg : ((loReg 4).toNat : ℤ) = tmpReg2.lo := rfl
  have hsrc := runs_getReg32 e false hbad (loadPair d 3 s)
  rw [hreg] at hsrc
  exact (runs_loadPair d 3 hfp).append hsrc

theorem keeps_loadLowOperands (d e : Loc) (s : Core) :
    Keeps [.pair 3, .pair 4] s (loadLowOperands d e s) :=
  (keeps_loadPair d 3 s).trans
    (keeps_pair (loadWord_mem e false (loReg 4) _) fun _ hlo _ _ _ => loadWord_other e false _ hlo)

theorem loadLowOperands_dst (hd : ¬d.IsTemp) (h : Bool) :
    (loadLowOperands d e s).r (halfReg h (d.core 3)) = wordOf h (val s d) := by
  obtain ⟨hlo, -⟩ := halfReg_apart h _ _ (core_ne_four hd)
  rw [loadLowOperands, loadWord_other e false _ hlo, loadPair_word]

theorem loadLowOperands_src (he : e ≠ .pair 3) :
    (loadLowOperands d e s).r (loReg (e.core 4)) = loWord (val s e) := by
  have hword : e.word false (loReg 4) = loReg (e.core 4) := by cases e <;> rfl
  rw [loadLowOperands, ← hword, loadWord_word, (keeps_loadPair d 3 s).same e (by simpa using he)]
  rfl

@[simp] theorem loadLowOperands_c : (loadLowOperands d e s).c = s.c := by
  simp [loadLowOperands]

end LowOperands

theorem writes_alu32 {op : AluOp} {d e : Loc} {f : Word → Word → Bool → Word}
    (hop : Sets (emitAluOp (lo (d.core 3)) (lo (e.core 4)) true false op) (loReg (d.core 3))
      fun s => f (s.r (loReg (d.core 3))) (s.r (loReg (e.core 4))) s.c)
    (hd : ¬d.IsTemp) (he : e ≠ .pair 3) {s : Core} (hfp : aligned (s.r 11)) :
    ∃ t, Runs (emitAlu64Reg false d.row e.row op) s t ∧
      Writes d (hiWord (val s d) ++ f (loWord (val s d)) (loWord (val s e)) s.c) s t := by
  obtain ⟨u, hu, hmu, hvu, hku⟩ := hop (loadLowOperands d e s)
  have hk : Keeps [.pair (d.core 3)] (loadLowOperands d e s) u :=
    keeps_pair hmu fun i hlo _ _ _ => hku i hlo
  have hk' := (keeps_loadLowOperands d e s).trans hk
  obtain ⟨t, ht, hput, hkt⟩ := runs_putReg64 d 3 (hk'.aligned hfp)
  refine ⟨t, ?_, (hk'.trans hkt).writes (fun l' hl' => isTemp_or_of_mem hl') ?_⟩
  · rw [emitAlu64Reg_low, ← List.append_assoc]
    exact (runs_loadLowOperands d e hfp).append (hu.append ht)
  · have hlow := loadLowOperands_dst (e := e) (s := s) hd false
    have hhigh := loadLowOperands_dst (e := e) (s := s) hd true
    simp only [halfReg, wordOf, if_true, Bool.false_eq_true, if_false] at hlow hhigh
    rw [hput, val, hku _ (hiReg_ne_loReg _ _), hvu, hhigh]
    simp only [hlow, loadLowOperands_src he, loadLowOperands_c]

/-- The 16-bit `ORR` with a source in core registers. -/
theorem writes_orr16_low {d : Loc} {q : Fin 5} (hd : ¬d.IsTemp) (hq : q < 3) {s : Core}
    (hfp : aligned (s.r 11)) :
    ∃ t, Runs (emitAlu64Reg false d.row (Loc.pair q).row .or) s t ∧
      Writes (.pair q) (s.r (hiReg q) ++ orrMixed (d.core 3) (s.r (loReg q))
        ((loadPair d 3 s).r (orrOther false (d.core 3)))) s t := by
  have hcore : ∀ q : Fin 5, q < 3 → q ≠ 3 ∧ q < 4 := by decide
  obtain ⟨hq3, hq4⟩ := hcore q hq
  have hword : ∀ h : Bool, (loadPair d 3 s).r (halfReg h q) = s.r (halfReg h q) := by
    intro h
    obtain ⟨h1, h2⟩ := halfReg_apart h q 3 hq3
    exact loadPair_other d s h1 h2
  have hlow := hword false
  have hhigh := hword true
  obtain ⟨u, hu, hmu, hvu, hku⟩ := sets_orr16 false (core_lt_four hd) hq4 (loadPair d 3 s)
  simp only [halfReg, if_true, Bool.false_eq_true, if_false] at hvu hku hlow hhigh
  obtain ⟨t, ht, hw⟩ := writes_source hd hq (fun h => loadPair_word d 3 h s)
    ((keeps_loadPair d 3 s).trans (Keeps.refl [.pair 4] _)) hmu (fun i h1 _ => hku i h1) hfp
  refine ⟨t, ?_, ?_⟩
  · rw [emitAlu64Reg_low]
    exact (runs_loadPair d 3 hfp).append ((Runs.nil _).append (hu.append ht))
  · rwa [val, hvu, hku _ (hiReg_ne_loReg q q), hlow, hhigh] at hw

/-! ### The two forms of an operation -/

/-- Where the second operand is: an immediate goes through `TMP_REG_2`. -/
def srcLoc (source : Src) (e : Loc) : Loc :=
  match source with
  | .imm => .pair 4
  | .reg => e

def getImm32 (source : Src) (imm : BitVec 32) : Code :=
  match source with
  | .imm => emitMovSeImm64 false tmpReg2 imm
  | .reg => []

theorem runs_getImm32 (source : Src) (imm : BitVec 32) (s : Core) (e : BitVec 4) :
    ∃ t, Runs (getImm32 source imm) s t ∧ t.c = s.c ∧ Keeps [.pair 4] s t ∧
      loWord (val t (srcLoc source (locOf e))) = operand32 source (val s (locOf e)) imm := by
  rw [operand32_eq]
  cases source with
  | reg => exact ⟨s, .nil s, rfl, .refl _ s, rfl⟩
  | imm =>
      obtain ⟨t, ht, hval, hm, hc, hk⟩ := runs_emitMovImm (pair_lt 4).1 imm s
      rw [← lo_eq] at ht
      refine ⟨t, ht, hc, keeps_pair hm fun i hlo _ _ _ => hk i hlo, ?_⟩
      simp [srcLoc, val, hval]

theorem writes_alu32_source (op : AluOp) (source : Src) (imm : BitVec 32) (d : Loc)
    (e : BitVec 4) {f : Word → Word → Bool → Word}
    (hop : Sets (emitAluOp (lo (d.core 3)) (lo ((srcLoc source (locOf e)).core 4)) true false op)
      (loReg (d.core 3))
      fun s => f (s.r (loReg (d.core 3))) (s.r (loReg ((srcLoc source (locOf e)).core 4))) s.c)
    (hd : ¬d.IsTemp) {s : Core} (hfp : aligned (s.r 11)) :
    ∃ t, Runs (getImm32 source imm ++ emitAlu64Reg false d.row (srcLoc source (locOf e)).row op)
        s t ∧
      Writes d (hiWord (val s d) ++
        f (loWord (val s d)) (operand32 source (val s (locOf e)) imm) s.c) s t := by
  have he : srcLoc source (locOf e) ≠ .pair 3 := by
    cases source with
    | imm => exact (by decide : Loc.pair 4 ≠ .pair 3)
    | reg => exact fun h => locOf_not_temp e (Or.inl h)
  obtain ⟨u, hu, hc, hk, hval⟩ := runs_getImm32 source imm s e
  obtain ⟨t, ht, hw⟩ := writes_alu32 hop hd he (hk.aligned hfp)
  have hsame : val u d = val s d := hk.same d (by simpa using fun h => hd (Or.inr h))
  rw [hsame, hval, hc] at hw
  refine ⟨t, hu.append ht, hw.fp.trans hk.fp, hw.written, ?_, ?_⟩
  · intro l' htemp hne
    rw [hw.other l' htemp hne, hk.same l' (by simpa using fun h => htemp (Or.inr h))]
  · exact fun a ha => (hw.mem a (by rwa [hk.fp])).trans (hk.mem a ha)

theorem buildAlu32_code {op : AluOp} {source : Src}
    (hop : isPlain op = true ∨ op = .or ∨ op = .xor)
    (hshift : source = .imm → op.isShift = false) (d src : Row) {e : Loc}
    (hrow : source = .reg → src = e.row) (imm : BitVec 32) :
    (buildAlu32 d src imm op source).code =
      getImm32 source imm ++ emitAlu64Reg false d (srcLoc source e).row op := by
  cases source with
  | imm =>
      have hnot := hshift rfl
      cases op <;> first | rfl | exact absurd hnot (by decide) | simp [isPlain] at hop
  | reg =>
      rw [hrow rfl]
      cases op <;> first | rfl | simp [isPlain] at hop

section Instructions

variable {ρ : Regs} {d e : BitVec 4} {op : AluOp} {source : Src} {src : Row}

theorem operand32_val {s : Core} {imm : BitVec 32} (hs : HoldsRegs ρ s)
    (he : source = .reg → e < 10) :
    operand32 source (val s (locOf e)) imm = operand32 source (ρ e) imm := by
  cases source with
  | imm => rfl
  | reg => rw [hs.regs e (he rfl)]

theorem achieves_plain32_iff (hop : isPlain op = true)
    (hshift : source = .imm → op.isShift = false)
    (hrange : op.isShift = true → (loWord (ρ e)).toNat < 32) (hd : d < 10)
    (he : source = .reg → e < 10) (hrow : source = .reg → src = (locOf e).row) (imm : BitVec 32) :
    Achieves (buildAlu32 (locOf d).row src imm op source).code ρ (Function.update ρ d
        ((isaAlu op (loWord (ρ d)) (operand32 source (ρ e) imm)).setWidth 64)) ↔
      hiWord (ρ d) = 0 := by
  rw [buildAlu32_code (Or.inl hop) hshift _ _ hrow]
  apply achieves_lowWord_iff hd
  intro s hs
  have hamount : op.isShift = true → (operand32 source (ρ e) imm).toNat < 32 := by
    intro h
    cases source with
    | imm => rw [hshift rfl] at h; cases h
    | reg => rw [operand32_eq]; exact hrange h
  obtain ⟨t, ht, hw⟩ := writes_alu32_source op source imm (locOf d) e
    (f := fun x y _ => wordValue op x y) (sets_plain hop _ _) (locOf_not_temp d) hs.aligned
  rw [hs.regs d hd, operand32_val hs he, wordValue_eq_isaAlu hop _ _ hamount] at hw
  exact ⟨t, ht, hw⟩

theorem achieves_or32_of_temp (hcore : (srcLoc source (locOf e)).core 4 = 4) (hd : d < 10)
    (he : source = .reg → e < 10) (hrow : source = .reg → src = (locOf e).row) (imm : BitVec 32) :
    Achieves (buildAlu32 (locOf d).row src imm .or source).code ρ (Function.update ρ d
        ((loWord (ρ d) ||| operand32 source (ρ e) imm).setWidth 64)) ↔ hiWord (ρ d) = 0 := by
  rw [buildAlu32_code (Or.inr (Or.inl rfl)) (fun _ => rfl) _ _ hrow]
  apply achieves_lowWord_iff hd
  intro s hs
  obtain ⟨t, ht, hw⟩ := writes_alu32_source .or source imm (locOf d) e
    (f := fun x y _ => x ||| y)
    (by rw [hcore]; exact sets_orr32 false _) (locOf_not_temp d) hs.aligned
  rw [hs.regs d hd, operand32_val hs he] at hw
  exact ⟨t, ht, hw⟩

/-- With an operand in core registers the `or` goes into the source. -/
theorem achieves_or32_pair_iff (hd : d < 10) (he : e < 10) (hpair : InPair e) (imm : BitVec 32) :
    Achieves (buildAlu32 (locOf d).row (locOf e).row imm .or .reg).code ρ (Function.update ρ d
        ((loWord (ρ d) ||| loWord (ρ e)).setWidth 64)) ↔
      hiWord (ρ d) = 0 ∧ loWord (ρ d) ||| loWord (ρ e) = loWord (ρ d) ∧
        orrLow d (ρ e) ρ = loWord (ρ e) := by
  obtain ⟨q, hq, hloc⟩ : ∃ q : Fin 5, q < 3 ∧ locOf e = .pair q :=
    (locOf_cases e he).elim (fun h => h.2) fun h => absurd hpair h.1
  have hvalue : ∀ x : Word, (x.setWidth 64 : BitVec 64) = ρ d ↔
      hiWord (ρ d) = 0 ∧ x = loWord (ρ d) := by
    intro x
    conv_lhs => rw [setWidth_eq_pair, ← pair_words (ρ d), pair_eq_iff]
    rw [eq_comm (a := (0 : Word))]
  have hcode : ∀ s, HoldsRegs ρ s → ∃ t w,
      Runs (buildAlu32 (locOf d).row (locOf e).row imm .or .reg).code s t ∧
        Writes (locOf e) w s t ∧
        (e = d → (w = (loWord (ρ d) ||| loWord (ρ e)).setWidth 64 ↔
          w = ρ e ∧ (loWord (ρ d) ||| loWord (ρ e)).setWidth 64 = ρ d)) ∧
        (w = ρ e ↔ orrLow d (ρ e) ρ = loWord (ρ e)) := by
    intro s hs
    obtain ⟨t, hrun, hw⟩ := writes_orr16_low (locOf_not_temp d) hq hs.aligned
    have hlo : s.r (loReg q) = loWord (ρ e) := hs.word he hloc false
    have hhi : s.r (hiReg q) = hiWord (ρ e) := hs.word he hloc true
    rw [hlo, hhi, orrMixed_low hs hd] at hw
    have hkeep : hiWord (ρ e) ++ orrLow d (ρ e) ρ = ρ e ↔ orrLow d (ρ e) ρ = loWord (ρ e) := by
      conv_lhs => rw [← pair_words (ρ e), pair_eq_iff]
      simp
    refine ⟨t, _, ?_, by rw [hloc]; exact hw, ?_, hkeep⟩
    · rw [hloc]
      exact hrun
    · rintro rfl
      rw [hkeep, hvalue, BitVec.or_self, setWidth_eq_pair, pair_eq_iff]
      tauto
  rw [achieves_iff_of_writes hd he hcode, hvalue]
  constructor
  · rintro ⟨hv, hsame⟩
    obtain ⟨s, hs, -⟩ := exists_holdsRegs_carry ρ false
    exact ⟨hv.1, hv.2, hsame s hs⟩
  · rintro ⟨hhigh, hor, hsame⟩
    exact ⟨⟨hhigh, hor⟩, fun _ _ => hsame⟩

/-- The `xor` is right if it has the 16-bit encoding. -/
theorem achieves_xor32_iff (hd : d < 10) (he : source = .reg → e < 10)
    (hrow : source = .reg → src = (locOf e).row) (imm : BitVec 32) :
    Achieves (buildAlu32 (locOf d).row src imm .xor source).code ρ (Function.update ρ d
        ((loWord (ρ d) ^^^ operand32 source (ρ e) imm).setWidth 64)) ↔
      usesLow false ((locOf d).core 3) ((srcLoc source (locOf e)).core 4) = true ∧
        hiWord (ρ d) = 0 := by
  rw [buildAlu32_code (Or.inr (Or.inr rfl)) (fun _ => rfl) _ _ hrow]
  have hcode : ∀ s, HoldsRegs ρ s → ∃ t,
      Runs (getImm32 source imm ++
        emitAlu64Reg false (locOf d).row (srcLoc source (locOf e)).row .xor) s t ∧
      Writes (locOf d) (hiWord (ρ d) ++
        (if usesLow false ((locOf d).core 3) ((srcLoc source (locOf e)).core 4) then
          loWord (ρ d) ^^^ operand32 source (ρ e) imm
        else operand32 source (ρ e) imm ^^^ rotateIn (loWord (ρ d)) s.c)) s t := by
    intro s hs
    obtain ⟨t, ht, hw⟩ := writes_alu32_source .xor source imm (locOf d) e
      (f := fun x y c => if usesLow false ((locOf d).core 3) ((srcLoc source (locOf e)).core 4)
        then x ^^^ y else y ^^^ rotateIn x c)
      (sets_eor false _ _) (locOf_not_temp d) hs.aligned
    rw [hs.regs d hd, operand32_val hs he] at hw
    exact ⟨t, ht, hw⟩
  by_cases hlow : usesLow false ((locOf d).core 3) ((srcLoc source (locOf e)).core 4) = true
  · simp only [hlow, if_true, true_and] at hcode ⊢
    exact achieves_lowWord_iff hd hcode
  · refine iff_of_false ?_ fun h => hlow h.1
    refine not_achieves_of_carry hd (g := loWord)
      (f := fun c => operand32 source (ρ e) imm ^^^ rotateIn (loWord (ρ d)) c)
      (xor_rotateIn_ne _ _) fun s hs => ?_
    obtain ⟨t, ht, hw⟩ := hcode s hs
    rw [if_neg hlow] at hw
    exact ⟨t, ht, by rw [hw.written, loWord_pair]⟩

end Instructions

/-! ### Shifts by an immediate and `NEG` -/

/-- The opcode field of a shift by an immediate. -/
def shiftBase : AluOp → BitVec 32
  | .rsh => 0x0800
  | .arsh => 0x1000
  | _ => 0x0000

def shiftImm16 (op : AluOp) (k : BitVec 32) (r : Reg) : BitVec 16 :=
  (shiftBase op ||| k <<< 6 ||| regField (r.toNat : ℤ) 3 ||| regField (r.toNat : ℤ) 0).setWidth 16

theorem decode_shiftImm : ∀ (k : Fin 32) (r : Reg), k ≠ 0 → r < 8 →
    decode16 (shiftImm16 .lsh (BitVec.ofNat 32 k) r) =
        some (.data (.movShift true .lsl r r k)) ∧
      decode16 (shiftImm16 .rsh (BitVec.ofNat 32 k) r) =
        some (.data (.movShift true .lsr r r k)) ∧
      decode16 (shiftImm16 .arsh (BitVec.ofNat 32 k) r) =
        some (.data (.movShift true .asr r r k)) := by
  decide +kernel

theorem decode_neg16 : ∀ r : Reg, r < 8 →
    decode16 (twoLow 0x4240 (r.toNat : ℤ) (r.toNat : ℤ)) =
      some (.data (.dpImm .rsb true r r 0)) := by
  decide

theorem word_lt : ∀ r : BitVec 4, (locOf r).word false 7 < 8 := by
  decide

theorem sets_shiftImm {op : AluOp} (hop : op.isShift = true) {imm : BitVec 32}
    (hlt : imm.toNat < 32) (hne : imm ≠ 0) {r : Reg} (hr : r < 8) :
    Sets (emit2 (shiftImm16 op imm r)) r fun s => wordValue op (s.r r) imm := by
  have hk : (⟨imm.toNat, hlt⟩ : Fin 32) ≠ 0 := by
    intro h
    have hval : imm.toNat = 0 := congrArg Fin.val h
    exact hne (BitVec.eq_of_toNat_eq hval)
  have hmod : imm.toNat % 256 = imm.toNat := Nat.mod_eq_of_lt (hlt.trans (by decide))
  obtain ⟨hlsl, hlsr, hasr⟩ := decode_shiftImm ⟨imm.toNat, hlt⟩ r hk hr
  simp only [BitVec.ofNat_toNat, BitVec.setWidth_eq] at hlsl hlsr hasr
  cases op with
  | lsh => exact sets_emit2 hlsl fun s => ⟨_, rfl, rfl, by simp [wordValue, hmod]⟩
  | rsh => exact sets_emit2 hlsr fun s => ⟨_, rfl, rfl, by simp [wordValue, hmod]⟩
  | arsh => exact sets_emit2 hasr fun s => ⟨_, rfl, rfl, by simp [wordValue, hmod]⟩
  | _ => cases hop

theorem sets_neg16 {r : Reg} (hr : r < 8) :
    Sets (emit2 (twoLow 0x4240 (r.toNat : ℤ) (r.toNat : ℤ))) r fun s => -s.r r :=
  sets_emit2 (decode_neg16 r hr) fun s => ⟨_, rfl, rfl, by simp [dpResult]⟩

section Immediate

variable {ρ : Regs} {d : BitVec 4} {op : AluOp}

/-- In range, a shift is by nothing or by a 16-bit instruction. -/
theorem buildAlu32_shift (hop : op.isShift = true) {imm : BitVec 32} (hlt : imm.toNat < 32)
    (d : Loc) (src : Row) :
    (buildAlu32 d.row src imm op .imm).code = if imm = 0 then [] else
      (armBpfGetReg32 d.row.lo tmpReg1.hi).1 ++ emit2 (shiftImm16 op imm (d.word false 7)) ++
        armBpfPutReg32 d.row.lo ((d.word false 7).toNat : ℤ) := by
  have hint : ¬imm.toInt > 31 := by
    have hcond := imm.toInt_eq_toNat_cond
    split at hcond <;> omega
  have hcut : (imm.setWidth 16).setWidth 32 = imm := by
    apply BitVec.eq_of_toNat_eq
    simp only [BitVec.toNat_setWidth]
    omega
  have hreg : (armBpfGetReg32 d.row.lo tmpReg1.hi).2 = ((d.word false 7).toNat : ℤ) :=
    getReg32_word d false 7
  cases op with
  | lsh | rsh | arsh =>
      simp only [buildAlu32, buildShiftImm, hint, if_false]
      split
      · rfl
      · simp only [built, emitAlu32Imm, hcut, hreg]
        rfl
  | _ => cases hop

theorem achieves_shift32_iff (hop : op.isShift = true) {imm : BitVec 32} (hlt : imm.toNat < 32)
    (hd : d < 10) (src : Row) :
    Achieves (buildAlu32 (locOf d).row src imm op .imm).code ρ
        (Function.update ρ d ((isaAlu op (loWord (ρ d)) imm).setWidth 64)) ↔
      hiWord (ρ d) = 0 := by
  have hplain : isPlain op = true := by cases op <;> first | rfl | cases hop
  rw [buildAlu32_shift hop hlt, ← wordValue_eq_isaAlu hplain _ _ fun _ => hlt]
  apply achieves_lowWord_iff hd
  intro s hs
  by_cases hzero : imm = 0
  · have hsame : wordValue op (loWord (ρ d)) 0 = loWord (ρ d) := by
      cases op with
      | lsh | rsh | arsh => simp [wordValue]
      | _ => cases hop
    rw [if_pos hzero, hzero, hsame, pair_words, ← hs.regs d hd]
    exact ⟨s, .nil s, rfl, rfl, fun _ _ _ => rfl, fun _ _ => rfl⟩
  · obtain ⟨t, ht, hw⟩ := writes_inPlace (f := fun x => wordValue op x imm)
      (sets_shiftImm hop hlt hzero (word_lt d)) s
    rw [hs.regs d hd] at hw
    exact ⟨t, by rwa [if_neg hzero], hw⟩

theorem achieves_neg32_iff (hd : d < 10) :
    Achieves (emitNeg32 (locOf d).row.lo) ρ
        (Function.update ρ d ((-loWord (ρ d)).setWidth 64)) ↔ hiWord (ρ d) = 0 := by
  apply achieves_lowWord_iff hd
  intro s hs
  obtain ⟨t, ht, hw⟩ := writes_inPlace (f := fun x => -x) (sets_neg16 (word_lt d)) s
  rw [hs.regs d hd] at hw
  have hreg : (armBpfGetReg32 (locOf d).row.lo tmpReg1.hi).2 =
      (((locOf d).word false 7).toNat : ℤ) := getReg32_word (locOf d) false 7
  exact ⟨t, by simpa only [emitNeg32, hreg] using ht, hw⟩

end Immediate

/-! ### Moves -/

/-- A register number of eight bits spills into the fields above. -/
theorem movImm16_spill (v : BitVec 32) {rd : ℤ} (h15 : (regField rd 8).getLsbD 15 = true)
    (h14 : (regField rd 8).getLsbD 14 = true)
    (htop : ∀ i : Fin 5, (regField rd 8).getLsbD (27 + i) = false) :
    let x := movImm16 0xf2400000 rd v
    bits x 27 5 = 0b11110 ∧ bits x 15 1 = 1 ∧ bits x 14 1 = 1 := by
  refine ⟨?_, ?_, ?_⟩
  · apply BitVec.eq_of_getLsbD_eq
    intro i hi
    have hy := htop ⟨i, hi⟩
    simp only at hy
    simp only [bits, movImm16]
    interval_cases i <;> simp at hy <;> simp [hy]
  · apply BitVec.eq_of_getLsbD_eq
    intro i hi
    simp only [bits, movImm16]
    interval_cases i
    simp [h15]
  · apply BitVec.eq_of_getLsbD_eq
    intro i hi
    simp only [bits, movImm16]
    interval_cases i
    simp [h14]

/-- `movw` with the offset of a slot for its register is a branch or
undefined. -/
theorem not_runs_movImm_slot (h : Bool) (j : Fin 7) (v : BitVec 32) (s t : Core) :
    ¬Runs (emitMovImm ((Loc.slot j).half h) v) s t := by
  have hbig : ∀ (h : Bool) (j : Fin 7), ¬(Loc.slot j).half h % 256 < 8 := by decide
  have hfield : ∀ (h : Bool) (j : Fin 7),
      let y := regField ((Loc.slot j).half h % 256) 8
      y.getLsbD 15 = true ∧ y.getLsbD 14 = true ∧ ∀ i : Fin 5, y.getLsbD (27 + i) = false := by
    decide
  obtain ⟨hy15, hy14, hytop⟩ := hfield h j
  obtain ⟨htop, h15, h14⟩ := movImm16_spill (v &&& 0xffff) hy15 hy14 hytop
  simp only [emitMovImm, hbig, and_false, if_false]
  refine not_runs_emit4 (by rw [htop]; decide) ?_
  intro d
  simp only [decode32, htop, h15, decodeBranch, h14]
  simp

section Moves

variable {ρ : Regs} {d e : BitVec 4}

/-- The `MOV` that clears the high word compares the low words. -/
theorem achieves_clearHigh_iff (hd : d < 10) :
    Achieves (emitMovImm (locOf d).row.hi 0) ρ
        (Function.update ρ d ((loWord (ρ e)).setWidth 64)) ↔
      InPair d ∧ loWord (ρ d) = loWord (ρ e) := by
  rcases locOf_cases d hd with ⟨hpair, p, -, hloc⟩ | ⟨hslot, j, hloc⟩
  · have hcode : ∀ s, HoldsRegs ρ s → ∃ t, Runs (emitMovImm (locOf d).row.hi 0) s t ∧
        Writes (locOf d) ((0 : Word) ++ loWord (ρ d)) s t := by
      intro s hs
      obtain ⟨t, ht, hval, hm, -, hk⟩ := runs_emitMovImm (pair_lt p).2 0 s
      rw [← hi_eq] at ht
      have hlo : s.r (loReg p) = loWord (ρ d) := hs.word hd hloc false
      rw [hloc]
      refine ⟨t, ht, (keeps_pair hm fun i _ hhi _ _ => hk i hhi).writes ?_ ?_⟩
      · exact fun l' hl' => Or.inr (List.mem_singleton.mp hl')
      · rw [val, hval, hk _ (loReg_ne_hiReg p p), hlo]
    rw [achieves_update_iff hd hcode, setWidth_eq_pair, pair_eq_iff]
    simp [hpair, eq_comm]
  · refine iff_of_false (not_achieves_of_not_runs fun s t => ?_) fun h => hslot h.1
    rw [hloc]
    exact not_runs_movImm_slot true j 0 s t

theorem achieves_movImm32_iff (hd : d < 10) (imm : BitVec 32) :
    Achieves (emitMovSeImm64 false (locOf d).row imm) ρ
        (Function.update ρ d (imm.setWidth 64)) ↔ InPair d ∧ hiWord (ρ d) = 0 := by
  rcases locOf_cases d hd with ⟨hpair, p, -, hloc⟩ | ⟨hslot, j, hloc⟩
  · rw [achieves_lowWord_iff hd]
    · simp [hpair]
    · intro s hs
      obtain ⟨t, ht, hval, hm, -, hk⟩ := runs_emitMovImm (pair_lt p).1 imm s
      rw [← lo_eq] at ht
      have hhi : s.r (hiReg p) = hiWord (ρ d) := hs.word hd hloc true
      rw [hloc]
      refine ⟨t, ht, (keeps_pair hm fun i hlo _ _ _ => hk i hlo).writes ?_ ?_⟩
      · exact fun l' hl' => Or.inr (List.mem_singleton.mp hl')
      · rw [val, hval, hk _ (hiReg_ne_loReg p p), hhi]
  · refine iff_of_false (not_achieves_of_not_runs fun s t => ?_) fun h => hslot h.1
    rw [hloc]
    exact not_runs_movImm_slot false j imm s t

theorem achieves_movReg32_iff (hd : d < 10) (he : e < 10) :
    Achieves (emitMovReg64 false (locOf d).row (locOf e).row) ρ
        (Function.update ρ d ((loWord (ρ e)).setWidth 64)) ↔ hiWord (ρ d) = 0 := by
  apply achieves_lowWord_iff hd
  intro s hs
  obtain ⟨t, ht, hw⟩ := writes_movWord (e := locOf e) (locOf_not_temp d) s
  rw [hs.regs d hd, hs.regs e he] at hw
  exact ⟨t, ht, hw⟩

end Moves

/-! ### The class -/

/-- Where the translation of an instruction of the class is right. -/
def Alu32Right (i : Inst) (ρ : Regs) : Prop :=
  match i.op with
  | .alu .mov .imm => InPair i.dst ∧ hiWord (ρ i.dst) = 0
  | .alu .mov .reg =>
      if i.imm = 1 then InPair i.dst ∧ loWord (ρ i.dst) = loWord (ρ i.src)
      else hiWord (ρ i.dst) = 0
  | .alu .or .reg =>
      hiWord (ρ i.dst) = 0 ∧ (InPair i.src →
        loWord (ρ i.dst) ||| loWord (ρ i.src) = loWord (ρ i.dst) ∧
          orrLow i.dst (ρ i.src) ρ = loWord (ρ i.src))
  | .alu .xor .reg => hiWord (ρ i.dst) = 0 ∧ (i.src = 1 ∨ i.src = 6) ∧ i.dst ≠ 0
  | .alu .xor .imm => False
  | _ => hiWord (ρ i.dst) = 0

instance (i : Inst) (ρ : Regs) : Decidable (Alu32Right i ρ) := by
  unfold Alu32Right
  generalize i.op = o
  rcases o with ⟨op, source⟩
  · rcases op <;> rcases source <;> infer_instance
  all_goals infer_instance

theorem usesLow_temp (p : Fin 5) : usesLow false p 4 = false := by
  revert p
  decide

theorem alu32Right_plain {i : Inst} {ρ : Regs} {op : AluOp} {source : Src}
    (hop : i.op = .alu op source) (hplain : isPlain op = true) :
    Alu32Right i ρ ↔ hiWord (ρ i.dst) = 0 := by
  simp only [Alu32Right, hop]
  cases op <;> first | rfl | cases hplain

theorem achieves_alu32_iff {i : Inst} {ρ : Regs} {op : AluOp} {source : Src} {src : Row}
    (hop : i.op = .alu op source) (hdiv : op.isDivision = false) (hdst : i.dst < 10)
    (hsrc : source = .reg → i.src < 10) (hshift : i.ShiftInRange ρ)
    (hrow : source = .reg → src = (locOf i.src).row) :
    Achieves (buildAlu32 (locOf i.dst).row src i.imm op source).code ρ
        (Function.update ρ i.dst
          ((isaAlu op (loWord (ρ i.dst)) (operand32 source (ρ i.src) i.imm)).setWidth 64)) ↔
      Alu32Right i ρ := by
  by_cases hplain : isPlain op = true
  · rw [alu32Right_plain hop hplain]
    cases source with
    | imm =>
        by_cases hs : op.isShift = true
        · have hlt : i.imm.toNat < 32 := by
            simp only [Inst.ShiftInRange, Inst.shiftAmount, hop] at hshift
            exact hshift hs
          rw [operand32_eq]
          exact achieves_shift32_iff hs hlt hdst src
        · exact achieves_plain32_iff hplain (fun _ => by simpa using hs) (fun h => absurd h hs)
            hdst hsrc hrow _
    | reg =>
        exact achieves_plain32_iff hplain (fun h => by cases h) (shift_lt_of_range hop hshift)
          hdst hsrc hrow _
  · cases op with
    | or =>
        rw [← or_eq_isaAlu]
        simp only [Alu32Right, hop]
        cases source with
        | imm => exact achieves_or32_of_temp rfl hdst hsrc hrow _
        | reg =>
            rw [hrow rfl]
            by_cases hpair : InPair i.src
            · rw [operand32_eq]
              exact (achieves_or32_pair_iff hdst (hsrc rfl) hpair _).trans (by simp [hpair])
            · obtain ⟨j, hj⟩ : ∃ j, locOf i.src = .slot j :=
                (locOf_cases _ (hsrc rfl)).elim (fun h => absurd h.1 hpair) fun h => h.2
              refine (achieves_or32_of_temp ?_ hdst hsrc (fun _ => rfl) _).trans (by simp [hpair])
              rw [srcLoc, hj]
              rfl
    | xor =>
        rw [← xor_eq_isaAlu, achieves_xor32_iff hdst hsrc hrow]
        simp only [Alu32Right, hop]
        cases source with
        | imm => simp [srcLoc, Loc.core, usesLow_temp]
        | reg => rw [srcLoc, usesLow_iff _ _ hdst (hsrc rfl), and_comm]
    | mov =>
        simp only [Alu32Right, hop]
        cases source with
        | imm => exact achieves_movImm32_iff hdst _
        | reg =>
            rw [hrow rfl, operand32_eq]
            simp only [buildAlu32, built]
            split
            · exact achieves_clearHigh_iff hdst
            · exact achieves_movReg32_iff hdst (hsrc rfl)
    | div => cases hdiv
    | mod => cases hdiv
    | _ => exact absurd rfl hplain

/-- The translation of an instruction of the 32-bit class is right exactly
where `Alu32Right` says. -/
theorem alu32_right_iff (p : Input) (pass : Pass) (idx pc : ℕ) (c : Call) (ρ : Regs)
    (hop : isAlu32 (p.insts pc).op = true) (hdst : (p.insts pc).dst < 10)
    (hsrc : (p.insts pc).op.usesSrc = true → (p.insts pc).src < 10)
    (hshift : (p.insts pc).ShiftInRange ρ) :
    Refines c (p.insts pc) (buildInst p pass idx pc).code ρ ↔ Alu32Right (p.insts pc) ρ := by
  cases hcase : (p.insts pc).op with
  | alu op source =>
      rw [hcase] at hop hsrc
      have hdiv : op.isDivision = false := by simpa [isAlu32] using hop
      have hsrc' : source = .reg → (p.insts pc).src < 10 := by
        rintro rfl
        exact hsrc rfl
      rw [refines_alu32_iff hcase hdiv hdst hsrc' hshift]
      simp only [buildInst, hcase, bpf2a32_eq_row p.behind hdst]
      exact achieves_alu32_iff hcase hdiv hdst hsrc' hshift
        fun h => bpf2a32_eq_row p.behind (hsrc' h)
  | neg =>
      rw [refines_neg_iff hcase hdst]
      simp only [buildInst, Alu32Right, hcase, bpf2a32_eq_row p.behind hdst, built]
      exact achieves_neg32_iff hdst
  | _ =>
      rw [hcase] at hop
      cases hop

/-- `ADD_REG r2, r0`. -/
def addR2R0 : Inst :=
  { opcode := (Opcode.alu .add .reg).byte, dst := 2, src := 0, offset := 0, imm := 0 }

theorem addR2R0_op : addR2R0.op = .alu .add .reg := opcodeOf_byte (.alu .add .reg)

theorem addR2R0_range (ρ : Regs) : addR2R0.ShiftInRange ρ := by
  rw [Inst.ShiftInRange, addR2R0_op]
  intro h
  cases h

theorem alu32_add_r2_r0 :
    Refines (singleCall addR2R0) addR2R0 (buildInst (single addR2R0) genPass 0 0).code
      fun _ => 7 :=
  (alu32_right_iff (single addR2R0) genPass 0 0 (singleCall addR2R0) (fun _ => 7)
    (by decide) (by decide) (by decide) (addR2R0_range _)).mpr (by decide)

theorem add32_high_word_kept :
    ¬Refines (singleCall addR2R0) addR2R0 (buildInst (single addR2R0) genPass 0 0).code
      fun _ => 0x100000000 := by
  have hright : ¬Alu32Right addR2R0 fun _ => 0x100000000 := by decide
  rw [refines_alu32_iff addR2R0_op rfl (by decide) (fun _ => by decide) (addR2R0_range _)]
  exact (achieves_alu32_iff addR2R0_op rfl (by decide) (fun _ => by decide) (addR2R0_range _)
    fun _ => rfl).not.mpr hright

end RapidPatch.Jit

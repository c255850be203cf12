import RapidPatch.Jit.Compare
import RapidPatch.Jit.Divide
import RapidPatch.Jit.Loads
import RapidPatch.Jit.ShiftRegs
import RapidPatch.Jit.Stores
import RapidPatch.Vm.Checker

/-!
Where the code of an instruction is right.

The modules before this one say, class by class, for which register contents
the code of an instruction does what the interpreter does. `InstRight` puts
their conditions side by side. Under it the code of an instruction that
computes, loads or stores takes every core that holds the interpreter's
registers and memory to one that holds what the interpreter leaves
(`runs_right`), and the comparison of a jump leaves in the flags whether the
interpreter takes it (`runs_comparison`). Some instructions are right whatever
the registers hold (`alwaysRight`).
-/

namespace RapidPatch.Jit

open RapidPatch.Vm RapidPatch.Thumb RapidPatch.Support

variable {c : Call} {i : Inst} {ρ : Regs} {code : Code} {p : Input} {pc : ℕ}

/-- What the code of a division leaves in its destination. -/
def divisionLeaves (op : AluOp) (source : Src) (i : Inst) (ρ : Regs) : BitVec 64 :=
  hiWord (ρ i.dst) ++
    divModWord (op = .div) (loWord (ρ i.dst)) (divisorWord source (ρ i.src) i.imm)

/-- Where the code of the 64-bit class is right. -/
def Alu64Right (c : Call) (op : AluOp) (source : Src) (i : Inst) (ρ : Regs) : Prop :=
  match op, source with
  | .div, _ | .mod, _ =>
      alu64 c op source (ρ i.dst) (ρ i.src) i.imm = .value (divisionLeaves op source i ρ)
  | .or, _ | .xor, _ => OrXor64Right i ρ
  | .lsh, .imm => i.imm.toNat < 64 ∧ LshImmRight i.imm.toNat (ρ i.dst)
  | .rsh, .imm | .arsh, .imm => i.imm.toNat < 64
  | .lsh, .reg | .rsh, .reg | .arsh, .reg => (ρ i.src).toNat < 64 ∧ ShiftRegRight i ρ
  | .mov, .reg => i.imm ≠ 1
  | _, _ => True

/-- Where the comparison of a jump is right. The jumps on `<` and `<=` compare
for nothing. -/
def JmpRight (op : JmpOp) (source : Src) (i : Inst) (ρ : Regs) : Prop :=
  isCompared op = true → jmpTaken op source (ρ i.dst) (ρ i.src) i.imm =
    wordsTaken op (ρ i.dst) (operand64 source (ρ i.src) i.imm)

/-- Where the code of an instruction is right. A conversion of byte order ends
the translation, and a call is left to its helper. -/
def InstRight (c : Call) (i : Inst) (ρ : Regs) : Prop :=
  (i.op.usesDst = true → i.dst < 10) ∧ (i.op.usesSrc = true → i.src < 10) ∧
    match i.op with
    | .alu op source =>
        if op.isDivision then
          alu32 c op source (ρ i.dst) (ρ i.src) i.imm = .value (divisionLeaves op source i ρ)
        else i.ShiftInRange ρ ∧ Alu32Right i ρ
    | .alu64 op source => Alu64Right c op source i ρ
    | .neg => Alu32Right i ρ
    | .neg64 => loWord (ρ i.dst) = 0
    | .ldx size =>
        (size = .w ∨ boundsCheck c (address (ρ i.src) i) size.bytes = true) ∧ LoadRight i ρ
    | .st size | .stx size =>
        boundsCheck c (address (ρ i.src) i) size.bytes = true ∧ StoreRight i ρ
    | .jmp op source => JmpRight op source i ρ
    | .lddw | .ja | .exit | .nop | .unknown => True
    | .le | .be | .call => False

namespace InstRight

theorem file (h : InstRight c i ρ) : i.regsInFile = true := by
  obtain ⟨hdst, hsrc, -⟩ := h
  have hsmall : ∀ r : BitVec 4, r < 10 → r.toNat < maxBpfExtReg := by decide
  simp only [Inst.regsInFile, Bool.and_eq_true, Bool.or_eq_true, Bool.not_eq_eq_eq_not,
    Bool.not_true, decide_eq_true_eq]
  refine ⟨?_, ?_⟩
  · cases hd : i.op.usesDst with
    | false => exact Or.inl rfl
    | true => exact Or.inr (hsmall _ (hdst hd))
  · cases hr : i.op.usesSrc with
    | false => exact Or.inl rfl
    | true => exact Or.inr (hsmall _ (hsrc hr))

end InstRight

/-! ### Arithmetic -/

/-- What the interpreter writes, where the code writes it too. -/
theorem refines_of_achieves {v : BitVec 64}
    (hexec : ∀ u : State, u.reg = ρ → execInst c i u = .cont (u.setReg i.dst v))
    (h : Achieves code ρ (Function.update ρ i.dst v)) : Refines c i code ρ :=
  (refines_iff_achieves hexec).mpr h

section Alu

variable {op : AluOp} {source : Src}

theorem execInst_alu32 (hop : i.op = .alu op source) (hfile : i.regsInFile = true) {v : BitVec 64}
    (hv : alu32 c op source (ρ i.dst) (ρ i.src) i.imm = .value v) (u : State) (hu : u.reg = ρ) :
    execInst c i u = .cont (u.setReg i.dst v) := by
  subst hu
  simp only [execInst, hfile, hop, hv]
  rfl

theorem execInst_alu64 (hop : i.op = .alu64 op source) (hfile : i.regsInFile = true) {v : BitVec 64}
    (hv : alu64 c op source (ρ i.dst) (ρ i.src) i.imm = .value v) (u : State) (hu : u.reg = ρ) :
    execInst c i u = .cont (u.setReg i.dst v) := by
  subst hu
  simp only [execInst, hfile, hop, hv]
  rfl

theorem buildAlu32_division (hdiv : op.isDivision = true) (dst src : Row) (imm : BitVec 32) :
    (buildAlu32 dst src imm op source).code =
      emitU32DivMod dst src (op = .div) source (imm.setWidth 16) := by
  cases op with
  | div | mod => cases source <;> rfl
  | _ => cases hdiv

theorem buildAlu64_division (hdiv : op.isDivision = true) (dst src : Row) (imm : BitVec 32) :
    (buildAlu64 dst src imm op source).code =
      emitU32DivMod dst src (op = .div) source (imm.setWidth 16) := by
  cases op with
  | div | mod => cases source <;> rfl
  | _ => cases hdiv

/-- A division by whatever the code divides by. -/
theorem achieves_division (hdst : i.dst < 10) (hsrc : source = .reg → i.src < 10) {src : Row}
    (hrow : source = .reg → src = (locOf i.src).row) :
    Achieves (emitU32DivMod (locOf i.dst).row src (op = .div) source (i.imm.setWidth 16)) ρ
      (Function.update ρ i.dst (divisionLeaves op source i ρ)) :=
  (achieves_divMod_iff _ hdst hsrc hrow i.imm _).mpr rfl

theorem refines_supported (hop : i.op = .alu64 op source) (hs : Supported i) (behind : Row) :
    Refines c i (buildAlu64 (bpf2a32 behind i.dst) (bpf2a32 behind i.src) i.imm op source).code
      ρ := by
  have hdst : i.dst < 10 := hs.1 (by rw [hop]; rfl)
  have hsrc : source = .reg → i.src < 10 := by
    rintro rfl
    exact hs.2.1 (by rw [hop]; rfl)
  have hfile : i.regsInFile = true := regsInFile_of_alu (.inr hop) hdst hsrc
  have hval : ∀ s, HoldsRegs ρ s → source = .reg → val s (locOf i.src) = ρ i.src :=
    fun s h hr => h.regs _ (hsrc hr)
  -- the value does not depend on the core
  obtain ⟨s, hs₀, -⟩ := exists_holdsRegs_carry ρ false
  obtain ⟨-, v, -, -, hv⟩ := writes_alu64 c behind hop hs hs₀.aligned (hval s hs₀)
  rw [hs₀.regs _ hdst] at hv
  refine refines_of_achieves (execInst_alu64 hop hfile hv) ?_
  intro u hu
  obtain ⟨t, w, ht, hw, hwv⟩ := writes_alu64 c behind hop hs hu.aligned (hval u hu)
  rw [hu.regs _ hdst, hv, AluResult.value.injEq] at hwv
  rw [hwv]
  exact ⟨t, ht, hu.lands hdst hw⟩

/-- A move with another immediate than the one `build_inst` takes for a word. -/
theorem achieves_mov64 (hdst : i.dst < 10) (hsrc : i.src < 10) (himm : i.imm ≠ 1) :
    Achieves (buildAlu64 (locOf i.dst).row (locOf i.src).row i.imm .mov .reg).code ρ
      (Function.update ρ i.dst (ρ i.src)) := by
  intro s hs
  obtain ⟨t, ht, hw⟩ := writes_movReg64 (d := locOf i.dst) (e := locOf i.src) hs.aligned
  rw [hs.regs _ hsrc] at hw
  refine ⟨t, ?_, hs.lands hdst hw⟩
  simpa only [buildAlu64, built, if_neg himm] using ht

theorem orXor64_refines (hop : i.op = .alu64 op source) (hbit : op = .or ∨ op = .xor)
    (hdst : i.dst < 10) (hsrc : source = .reg → i.src < 10) (behind : Row)
    (hright : OrXor64Right i ρ) :
    Refines c i (buildAlu64 (bpf2a32 behind i.dst) (bpf2a32 behind i.src) i.imm op source).code
      ρ := by
  have hdiv : op.isDivision = false := by rcases hbit with rfl | rfl <;> rfl
  have hrange : i.ShiftInRange ρ := by
    rw [Inst.ShiftInRange, hop]
    rcases hbit with rfl | rfl <;> exact fun h => absurd h Bool.false_ne_true
  rw [refines_alu64_iff hop hdiv hdst hsrc hrange, operand64_eq, bpf2a32_eq_row behind hdst]
  simp only [OrXor64Right, hop] at hright
  cases source with
  | imm =>
      rcases hbit with rfl | rfl
      · rw [← or_eq_isaAlu]
        exact achieves_or_imm hdst i.imm
      · exact hright.elim
  | reg =>
      rw [bpf2a32_eq_row behind (hsrc rfl)]
      rcases hbit with rfl | rfl
      · rw [← or_eq_isaAlu]
        by_cases hpair : InPair i.src
        · exact (achieves_or_pair_iff hdst (hsrc rfl) hpair).mpr (hright hpair)
        · exact achieves_or_slot hdst (hsrc rfl) hpair
      · rw [← xor_eq_isaAlu]
        exact (achieves_xor_iff hdst (hsrc rfl)).mpr hright

theorem toInt_of_small {x : BitVec 32} (h : x.toNat < 64) : 0 ≤ x.toInt ∧ x.toInt < 64 := by
  have hcond := x.toInt_eq_toNat_cond
  split at hcond <;> omega

theorem refines_alu32 (hop : i.op = .alu op source) (h : InstRight c i ρ) (behind : Row) :
    Refines c i (buildAlu32 (bpf2a32 behind i.dst) (bpf2a32 behind i.src) i.imm op source).code
      ρ := by
  have hfile := h.file
  obtain ⟨hdst, hsrc, hright⟩ := h
  have hdst : i.dst < 10 := hdst (by rw [hop]; rfl)
  have hsrc : source = .reg → i.src < 10 := by
    rintro rfl
    exact hsrc (by rw [hop]; rfl)
  have hrow : source = .reg → bpf2a32 behind i.src = (locOf i.src).row :=
    fun hr => bpf2a32_eq_row behind (hsrc hr)
  rw [bpf2a32_eq_row behind hdst]
  simp only [hop] at hright
  cases hdiv : op.isDivision with
  | true =>
      rw [if_pos hdiv] at hright
      rw [buildAlu32_division hdiv]
      exact refines_of_achieves (execInst_alu32 hop hfile hright)
        (achieves_division hdst hsrc hrow)
  | false =>
      rw [if_neg (by rw [hdiv]; exact Bool.false_ne_true)] at hright
      rw [refines_alu32_iff hop hdiv hdst hsrc hright.1]
      exact (achieves_alu32_iff hop hdiv hdst hsrc hright.1 hrow).mpr hright.2

theorem refines_alu64 (hop : i.op = .alu64 op source) (h : InstRight c i ρ) (behind : Row) :
    Refines c i (buildAlu64 (bpf2a32 behind i.dst) (bpf2a32 behind i.src) i.imm op source).code
      ρ := by
  have hfile := h.file
  obtain ⟨hdst, hsrc, hright⟩ := h
  have hdst10 : i.dst < 10 := hdst (by rw [hop]; rfl)
  have hsrc10 : source = .reg → i.src < 10 := by
    rintro rfl
    exact hsrc (by rw [hop]; rfl)
  have hrow : source = .reg → bpf2a32 behind i.src = (locOf i.src).row :=
    fun hr => bpf2a32_eq_row behind (hsrc10 hr)
  have hknown (hkind : Supported i) := refines_supported (c := c) (ρ := ρ) hop hkind behind
  simp only [hop] at hright
  cases op with
  | div | mod =>
      rw [bpf2a32_eq_row behind hdst10, buildAlu64_division rfl]
      exact refines_of_achieves (execInst_alu64 hop hfile hright)
        (achieves_division hdst10 hsrc10 hrow)
  | or => exact orXor64_refines hop (Or.inl rfl) hdst10 hsrc10 behind hright
  | xor => exact orXor64_refines hop (Or.inr rfl) hdst10 hsrc10 behind hright
  | lsh =>
      cases source with
      | imm =>
          obtain ⟨hlt, hright⟩ := hright
          refine refines_of_achieves (execInst_alu64 hop hfile (v := ρ i.dst <<< i.imm.toNat) ?_) ?_
          · simp only [alu64, signExtend_toNat_of_lt hlt, hlt, if_true]
          · rw [bpf2a32_eq_row behind hdst10]
            exact (achieves_lsh64Imm_iff hdst10 hlt).mpr hright
      | reg =>
          rw [bpf2a32_eq_row behind hdst10, hrow rfl]
          exact (refines_shiftReg_iff c rfl hop hdst10 (hsrc10 rfl) hright.1).mpr hright.2
  | rsh | arsh =>
      cases source with
      | imm => exact hknown ⟨hdst, hsrc, by rw [hop]; exact toInt_of_small hright⟩
      | reg =>
          rw [bpf2a32_eq_row behind hdst10, hrow rfl]
          exact (refines_shiftReg_iff c rfl hop hdst10 (hsrc10 rfl) hright.1).mpr hright.2
  | mov =>
      cases source with
      | imm => exact hknown ⟨hdst, hsrc, by rw [hop]; trivial⟩
      | reg =>
          refine refines_of_achieves (execInst_alu64 hop hfile (v := ρ i.src) rfl) ?_
          rw [bpf2a32_eq_row behind hdst10, hrow rfl]
          exact achieves_mov64 hdst10 (hsrc10 rfl) hright
  | _ => exact hknown ⟨hdst, hsrc, by rw [hop]; trivial⟩

end Alu

/-! ### Blocks -/

/-- The code of the instruction is one block, and no branch behind it. -/
def isBlock : Opcode → Bool
  | .jmp _ _ | .ja | .exit | .call | .le | .be => false
  | _ => true

/-- The code does to this state what the interpreter does to it. -/
def Matches (c : Call) (i : Inst) (code : Code) (v : State) (s : Core) : Prop :=
  ∃ v', execInst c i v = .cont v' ∧ ∃ t, Runs code s t ∧ Arrives v'.reg v'.mem s t

section Blocks

variable {v : State} {s : Core}

theorem Refines.matches (h : Refines c i code v.reg) (hstores : i.stores = false)
    (hs : HoldsRegs v.reg s) (hm : v.mem = s.mem) : Matches c i code v s := by
  obtain ⟨v', hv', hach⟩ := h v rfl
  obtain ⟨t, ht, hland⟩ := hach s hs
  refine ⟨v', hv', t, ht, ?_⟩
  rw [execInst_mem hv' (by rw [hstores]; exact Bool.false_ne_true), hm]
  exact hland

theorem matches_nil (hexec : execInst c i v = .cont v) (hs : HoldsRegs v.reg s)
    (hm : v.mem = s.mem) : Matches c i [] v s :=
  ⟨v, hexec, s, .nil s, rfl, hs.regs, fun _ _ => by rw [hm]⟩

theorem neg_eq_ofNat_sub (x : BitVec 64) : -x = BitVec.ofNat 64 (2 ^ 64 - x.toNat) := by
  apply BitVec.eq_of_toNat_eq
  rw [BitVec.toNat_neg, BitVec.toNat_ofNat]

theorem buildInst_store {size : Size} {pass : Pass} {idx : ℕ}
    (hop : (p.insts pc).op = .st size ∨ (p.insts pc).op = .stx size)
    (hdst : (p.insts pc).dst < 10) (hsrc : (p.insts pc).src < 10) :
    (buildInst p pass idx pc).code = valueCode (p.insts pc) ++
      strCode (locOf (p.insts pc).dst) (valuePair (p.insts pc))
        ((p.insts pc).offset.signExtend 32) size := by
  rw [← emitStrReg_code]
  rcases hop with hop | hop
  · simp only [buildInst, built, hop, bpf2a32_eq_row p.behind hdst, valueCode, valuePair,
      ← tmpReg2_eq]
    cases size <;> rfl
  · simp only [buildInst, built, hop, bpf2a32_eq_row p.behind hdst,
      bpf2a32_eq_row p.behind hsrc, valueCode, valuePair, tmpReg2_eq, getReg64_row]

theorem runs_lddw (hc : ∀ m, c.vm.insts m = p.insts) (hop : (p.insts pc).op = .lddw)
    (hfile : (p.insts pc).regsInFile = true) (hdst : (p.insts pc).dst < 10)
    (hpc : v.pc.toNat = pc + 1) (hs : HoldsRegs v.reg s) (hm : v.mem = s.mem) (pass : Pass)
    (idx : ℕ) : Matches c (p.insts pc) (buildInst p pass idx pc).code v s := by
  obtain ⟨t, ht, hw⟩ := writes_movI64 (locOf (p.insts pc).dst)
    ((p.insts pc).imm.setWidth 64 ||| (p.insts (pc + 1)).imm.setWidth 64 <<< 32) hs.aligned
  have hland := hs.lands hdst hw
  refine ⟨{ v with pc := v.pc + 1 }.setReg (p.insts pc).dst
      ((p.insts pc).imm.setWidth 64 ||| (p.insts (pc + 1)).imm.setWidth 64 <<< 32), ?_, t, ?_, ?_⟩
  · simp only [execInst, hfile, hop, hc, hpc]
    rfl
  · simpa only [buildInst, hop, bpf2a32_eq_row p.behind hdst] using ht
  · rw [setReg_eq_update]
    exact ⟨hland.fp, hland.regs, fun a ha => (hland.mem a ha).trans (congrFun hm a).symm⟩

/-- The code of an instruction that is right does what the interpreter does. -/
theorem runs_right (hc : ∀ m, c.vm.insts m = p.insts) (hblock : isBlock (p.insts pc).op = true)
    (h : InstRight c (p.insts pc) v.reg) (hpc : v.pc.toNat = pc + 1) (hs : HoldsRegs v.reg s)
    (hm : v.mem = s.mem)
    (hmiss : ∀ a size, memAccess (p.insts pc) v = some (a, size) → Misses (s.r 11) a size.bytes)
    (pass : Pass) (idx : ℕ) : Matches c (p.insts pc) (buildInst p pass idx pc).code v s := by
  have hfile := h.file
  obtain ⟨hdst, hsrc, hright⟩ := id h
  cases hop : (p.insts pc).op with
  | alu op source =>
      refine Refines.matches ?_ (by simp only [Inst.stores, hop]) hs hm
      simp only [buildInst, hop]
      exact refines_alu32 hop h p.behind
  | alu64 op source =>
      refine Refines.matches ?_ (by simp only [Inst.stores, hop]) hs hm
      simp only [buildInst, hop]
      exact refines_alu64 hop h p.behind
  | neg =>
      have hdst := hdst (by rw [hop]; rfl)
      refine Refines.matches ?_ (by simp only [Inst.stores, hop]) hs hm
      rw [refines_neg_iff hop hdst]
      simp only [hop, Alu32Right] at hright
      simp only [buildInst, hop, bpf2a32_eq_row p.behind hdst, built]
      exact (achieves_neg32_iff hdst).mpr hright
  | neg64 =>
      have hdst := hdst (by rw [hop]; rfl)
      refine Refines.matches ?_ (by simp only [Inst.stores, hop]) hs hm
      simp only [hop] at hright
      simp only [buildInst, hop, bpf2a32_eq_row p.behind hdst, built]
      refine refines_of_achieves ?_ ((achieves_neg64_iff hdst v.reg).mpr hright)
      intro u hu
      simp only [execInst, hfile, hop, hu, ← neg_eq_ofNat_sub]
      rfl
  | ldx size =>
      have hdst := hdst (by rw [hop]; rfl)
      have hsrc := hsrc (by rw [hop]; rfl)
      simp only [hop] at hright
      simp only [buildInst, built, hop, bpf2a32_eq_row p.behind hdst,
        bpf2a32_eq_row p.behind hsrc, emitLdxReg_code]
      exact (refines_ldxCode_iff hop hdst hsrc hright.1).mpr hright.2 s hs trivial v rfl hm
  | st size | stx size =>
      have hdst := hdst (by rw [hop]; rfl)
      have hsrc := hsrc (by rw [hop]; rfl)
      have hstore : (p.insts pc).op = .st size ∨ (p.insts pc).op = .stx size := by
        rw [hop]
        simp
      simp only [hop] at hright
      rw [buildInst_store hstore hdst hsrc]
      exact (refines_strCode_iff hstore hdst hsrc hright.1).mpr hright.2 s hs
        (hmiss _ size (by simp only [memAccess, hop])) v rfl hm
  | lddw => exact runs_lddw hc hop hfile (hdst (by rw [hop]; rfl)) hpc hs hm pass idx
  | nop | unknown =>
      simp only [buildInst, hop, built]
      refine matches_nil ?_ hs hm
      simp only [execInst, hfile, hop]
      rfl
  | _ =>
      rw [hop] at hblock
      cases hblock

end Blocks

/-! ### Comparisons -/

section Comparisons

variable {op : JmpOp} {source : Src} {s : Core}

/-- A conditional branch has the condition it was emitted with. -/
theorem cond_of_emitBCond {n : ℕ} {d off : BitVec 32} {cond cond' : BitVec 4}
    (hcond : bits cond 1 3 ≠ 0b111) (h : IsBranch (emitBCond n d (cond.setWidth 32)) cond' off) :
    cond' = cond := by
  by_cases hrange : BranchInRange d
  · exact (h.unique (isBranch_of_inRange hcond hrange)).1
  · rw [emitBCond_eq_nil hrange] at h
    cases h

/-- What the branch of a jump decides, if it has one. -/
def comparisonTaken (op : JmpOp) (x y : BitVec 64) : Bool :=
  match op with
  | .jsgt => y.slt x
  | .jsge => y.sle x
  | _ => wordsTaken op x y

theorem jmpOp_cases (op : JmpOp) :
    isCompared op = true ∨ (op = .jsgt ∨ op = .jsge) ∨ isLess op = true := by
  cases op <;> decide

/-- The comparison of a jump leaves what it decides in the condition of the
branch. -/
theorem runs_emitCmpCond (op : JmpOp) (p q : Fin 5) (s : Core) :
    ∃ t, Runs (emitCmpCond (hi p) (lo p) (hi q) (lo q) op) s t ∧
      (∀ n d cond off, IsBranch (emitJump n d op) cond off →
        condHolds t cond = comparisonTaken op (val s (.pair p)) (val s (.pair q))) ∧
      Keeps [] s t := by
  rcases jmpOp_cases op with hop | hop | hop
  · obtain ⟨t, ht, hcond, hk⟩ := runs_compare hop p q s
    obtain ⟨hjump, hbits⟩ := jumpCond_compared hop
    refine ⟨t, ht, ?_, hk⟩
    intro n d cond off hbr
    simp only [emitJump, hjump] at hbr
    rw [cond_of_emitBCond hbits hbr, hcond]
    cases op <;> first | rfl | cases hop
  · have hbits : bits (signedCond op) 1 3 ≠ 0b111 := by rcases hop with rfl | rfl <;> decide
    have hcond {t : Core} {b : Bool} (hb : condHolds t (signedCond op) = b) {n : ℕ}
        {d off : BitVec 32} {cond : BitVec 4} (hbr : IsBranch (emitJump n d op) cond off) :
        condHolds t cond = b := by
      simp only [emitJump, jumpCond_signed hop] at hbr
      rw [cond_of_emitBCond hbits hbr, hb]
    rcases hop with rfl | rfl
    · obtain ⟨t, ht, hflags, hk⟩ := runs_cmp q p s
      exact ⟨t, ht, fun n d cond off hbr => hcond hflags hbr, hk⟩
    · obtain ⟨t, ht, hflags, hk⟩ := runs_cmp p q s
      refine ⟨t, ht, fun n d cond off hbr => hcond ?_ hbr, hk⟩
      have hnot : (t.n == t.v) = !(t.n != t.v) := by cases t.n <;> cases t.v <;> rfl
      show (t.n == t.v) = _
      rw [hnot, hflags, ← BitVec.sle_eq_not_slt]
      rfl
  · obtain ⟨t, ht, hk⟩ := runs_compareLess hop p q s
    refine ⟨t, ht, ?_, hk⟩
    intro n d cond off hbr
    simp only [emitJump, jumpCond_less hop] at hbr
    cases hbr

/-- What the branch of a jump decides is whether the interpreter takes it. -/
theorem comparisonTaken_eq {i : Inst} (h : JmpRight op source i ρ) (hop : isLess op = false) :
    comparisonTaken op (ρ i.dst) (operand64 source (ρ i.src) i.imm) =
      jmpTaken op source (ρ i.dst) (ρ i.src) i.imm := by
  rcases jmpOp_cases op with hcmp | hsigned | hless
  · rw [h hcmp]
    cases op <;> first | rfl | cases hcmp
  · rw [operand64_eq]
    rcases hsigned with rfl | rfl <;> cases source <;> rfl
  · rw [hless] at hop
    cases hop

/-- The code in front of the branch of a jump leaves in the flags whether the
interpreter takes it. -/
theorem runs_comparison (hop : (p.insts pc).op = .jmp op source) (h : InstRight c (p.insts pc) ρ)
    (hs : HoldsRegs ρ s) :
    ∃ t, Runs (fixedCode p pc) s t ∧ Arrives ρ s.mem s t ∧
      ∀ d cond off, IsBranch (branchCode p pc d) cond off → condHolds t cond =
        jmpTaken op source (ρ (p.insts pc).dst) (ρ (p.insts pc).src) (p.insts pc).imm := by
  obtain ⟨hdst, hsrc, hright⟩ := h
  have hdst := hdst (by rw [hop]; rfl)
  have hsrc : source = .reg → (p.insts pc).src < 10 := by
    rintro rfl
    exact hsrc (by rw [hop]; rfl)
  have hrow : source = .reg → bpf2a32 p.behind (p.insts pc).src = (locOf (p.insts pc).src).row :=
    fun hr => bpf2a32_eq_row p.behind (hsrc hr)
  simp only [hop] at hright
  by_cases hskip : source = .imm ∧ (p.insts pc).offset = 0
  · refine ⟨s, ?_, ⟨rfl, hs.regs, fun _ _ => rfl⟩, ?_⟩
    · simp only [fixedCode, hop, if_pos hskip]
      exact .nil s
    · intro d cond off hbr
      simp only [branchCode, hop, if_pos hskip] at hbr
      cases hbr
  · obtain ⟨t, ht, harr, hcond⟩ :=
      @runs_compareCode _ _ _ _ _ (p.insts pc).imm _ op
        (fun x y t => ∀ n d cond off, IsBranch (emitJump n d op) cond off →
          condHolds t cond = comparisonTaken op x y)
        (runs_emitCmpCond op) hdst hsrc hrow hs
    refine ⟨t, ?_, harr, ?_⟩
    · simp only [fixedCode, hop, if_neg hskip, bpf2a32_eq_row p.behind hdst]
      exact ht
    · intro d cond off hbr
      simp only [branchCode, hop, if_neg hskip] at hbr
      rw [hcond _ _ _ _ hbr, comparisonTaken_eq hright]
      cases hless : isLess op with
      | false => rfl
      | true =>
          simp only [emitJump, jumpCond_less hless] at hbr
          cases hbr

end Comparisons

/-! ### Right for all contents -/

/-- The operations of the 64-bit class whose code is right for all contents. -/
def alwaysRight64 (i : Inst) : AluOp → Src → Bool
  | .add, _ | .sub, _ | .mul, _ | .and, _ | .or, .imm | .mov, .imm => true
  | .or, .reg => ¬InPair i.src
  | .xor, .reg => (i.src = 1 ∨ i.src = 6) ∧ i.dst ≠ 0
  | .lsh, .imm => i.imm.toNat < 64 ∧ (32 ≤ i.imm.toNat ∨ i.imm.toNat % 4 = 0)
  | .rsh, .imm | .arsh, .imm => i.imm.toNat < 64
  | .mov, .reg => i.imm ≠ 1
  | _, _ => false

/-- The instructions whose code is right for all contents. Of the loads these are
the loads of a doubleword, and of the jumps the ones on `>` and `>=` (signed) and
the ones that have no branch. -/
def alwaysRight (i : Inst) : Bool :=
  (i.op.usesDst = true → i.dst < 10) && (i.op.usesSrc = true → i.src < 10) &&
    match i.op with
    | .alu64 op source => alwaysRight64 i op source
    | .ldx .dw =>
        let off : Word := i.offset.signExtend 32
        decide ((-255 ≤ off.toInt ∧ off.toInt ≤ 251) ∨ within off 4091 = false)
    | .jmp op _ => !isCompared op
    | .lddw | .ja | .exit | .nop | .unknown => true
    | _ => false

theorem lshImmRight_of_mod {v : ℕ} (h : 32 ≤ v ∨ v % 4 = 0) (x : BitVec 64) : LshImmRight v x := by
  refine h.imp_right fun hmod => ⟨by omega, ?_⟩
  have hshift : misShift v (hiWord x) false = hiWord x <<< v := by
    unfold misShift misType
    simp only [hmod, shiftC]
    split
    · rename_i hzero
      rw [hzero, BitVec.shiftLeft_zero]
    · rfl
  rw [hshift, BitVec.xor_self, BitVec.zero_and]
  rfl

theorem alu64Right_of_alwaysRight {op : AluOp} {source : Src} (hop : i.op = .alu64 op source)
    (h : alwaysRight64 i op source = true) (ρ : Regs) : Alu64Right c op source i ρ := by
  cases op with
  | add | sub | mul | and => cases source <;> trivial
  | or =>
      simp only [Alu64Right, OrXor64Right, hop]
      cases source with
      | imm => trivial
      | reg => exact fun hpair => absurd hpair (by simpa [alwaysRight64] using h)
  | xor =>
      simp only [Alu64Right, OrXor64Right, hop]
      cases source with
      | imm => cases h
      | reg => simpa [alwaysRight64] using h
  | lsh =>
      cases source with
      | imm =>
          obtain ⟨hlt, hmod⟩ : i.imm.toNat < 64 ∧ (32 ≤ i.imm.toNat ∨ i.imm.toNat % 4 = 0) := by
            simpa [alwaysRight64] using h
          exact ⟨hlt, lshImmRight_of_mod hmod _⟩
      | reg => cases h
  | rsh | arsh =>
      cases source with
      | imm => simpa [alwaysRight64, Alu64Right] using h
      | reg => cases h
  | mov =>
      cases source with
      | imm => trivial
      | reg => simpa [alwaysRight64, Alu64Right] using h
  | div | mod => cases source <;> cases h

/-- The check says what its name does. -/
theorem instRight_of_alwaysRight (hcheck : c.vm.boundsCheckEnabled = false)
    (h : alwaysRight i = true) (ρ : Regs) : InstRight c i ρ := by
  simp only [alwaysRight, Bool.and_eq_true, decide_eq_true_eq] at h
  obtain ⟨⟨hdst, hsrc⟩, hkind⟩ := h
  refine ⟨hdst, hsrc, ?_⟩
  cases hop : i.op with
  | alu64 op source =>
      rw [hop] at hkind
      exact alu64Right_of_alwaysRight hop hkind ρ
  | ldx size =>
      rw [hop] at hkind
      cases size with
      | dw =>
          refine ⟨Or.inr (by simp [boundsCheck, hcheck]), ?_⟩
          simpa only [LoadRight, hop, decide_eq_true_eq] using hkind
      | _ => cases hkind
  | jmp op source =>
      rw [hop] at hkind
      intro hcmp
      simp [hcmp] at hkind
  | lddw | ja | exit | nop | unknown => trivial
  | _ =>
      rw [hop] at hkind
      cases hkind

end RapidPatch.Jit

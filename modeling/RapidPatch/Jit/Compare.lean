import RapidPatch.Jit.Branches
import RapidPatch.Jit.RegFile

/-!
Conditional jumps.

A conditional jump is a comparison and a branch on the flags it leaves
(`BranchesWhen`). A relation between two numbers of 64 bits takes the high
words first and the low words where those are equal. The comparison of the
unsigned relations compares both, one after the other, so that the low words
alone decide; the bit test adds where it should take the conjunction.
`compare_right_iff` says for which operands either comes to the same. The
relations `<` and `<=` have a comparison and no branch
(`lessJump_never_branches`).
-/

namespace RapidPatch.Jit

open RapidPatch.Vm RapidPatch.Thumb RapidPatch.Support

/-! ### A block and a branch behind it -/

section

variable {code block br : Code} {ρ : Regs} {taken b : Bool} {cond : BitVec 4} {off : Word}

/-- The code is a block and one branch behind it. From every core that holds
the contents `ρ` the block leaves them there, with the condition of the branch
true or false as `taken` says. -/
def BranchesWhen (code : Code) (ρ : Regs) (taken : Bool) : Prop :=
  ∃ block br cond off, code = block ++ br ∧ IsBranch br cond off ∧
    ∀ s, HoldsRegs ρ s → ∃ t, Runs block s t ∧ Arrives ρ s.mem s t ∧ condHolds t cond = taken

/-- At an address, such code goes where its branch goes or on behind itself. -/
theorem BranchesWhen.reaches (h : BranchesWhen code ρ taken) :
    ∃ target : Word, ∀ (mem : Word → BitVec 16) (a : Word) (s : Core), CodeAt mem a code →
      HoldsRegs ρ s → ∃ t, Arrives ρ s.mem s t ∧
        Reaches (step mem) ⟨a, s⟩ ⟨if taken then a + target else after a code.length, t⟩ := by
  obtain ⟨block, br, cond, off, rfl, hbr, hrun⟩ := h
  refine ⟨BitVec.ofNat 32 (2 * block.length) + 4 + off, fun mem a s hcode hs => ?_⟩
  obtain ⟨t, ht, harr, rfl⟩ := hrun s hs
  obtain ⟨hblock, hcode'⟩ := codeAt_append.mp hcode
  have hjump := reaches_branch (s := t) hbr hcode'
  rw [← after_add, ← List.length_append] at hjump
  refine ⟨t, harr, ?_⟩
  have htarget : a + (BitVec.ofNat 32 (2 * block.length) + 4 + off) =
      after a block.length + 4 + off := by
    simp only [after, BitVec.add_assoc]
  rw [htarget]
  exact (ht.reaches hblock).trans hjump

theorem branchesWhen_iff (hbr : IsBranch br cond off)
    (hrun : ∀ s, HoldsRegs ρ s → ∃ t, Runs block s t ∧ Arrives ρ s.mem s t ∧ condHolds t cond = b) :
    BranchesWhen (block ++ br) ρ taken ↔ taken = b := by
  constructor
  · rintro ⟨block', br', cond', off', hcode, hbr', hrun'⟩
    obtain ⟨s, hs, -⟩ := exists_holdsRegs_carry ρ false
    obtain ⟨t, ht, -, rfl⟩ := hrun s hs
    obtain ⟨t', ht', -, rfl⟩ := hrun' s hs
    obtain ⟨rfl, rfl⟩ := ht.branch_unique hbr ht' hbr' hcode
    rfl
  · rintro rfl
    exact ⟨block, br, cond, off, rfl, hbr, hrun⟩

/-- Code without a branch is no such code. -/
theorem not_branchesWhen (hrun : ∀ s, HoldsRegs ρ s → ∃ t, Runs code s t) :
    ¬BranchesWhen code ρ taken := by
  rintro ⟨block, br, cond, off, rfl, hbr, hrun'⟩
  obtain ⟨s, hs, -⟩ := exists_holdsRegs_carry ρ false
  obtain ⟨t, ht⟩ := hrun s hs
  obtain ⟨u, hu, -⟩ := hrun' s hs
  exact hbr.not_runs (hu.of_append ht)

end

/-! ### What the comparisons leave in the flags -/

theorem runs_cmpWords (p q : Fin 5) (s : Core) :
    ∃ t, Runs (emitCmpReg (hi p) (hi q) ++ emitCmpReg (lo p) (lo q)) s t ∧
      t.z = decide (loWord (val s (.pair p)) = loWord (val s (.pair q))) ∧
      t.c = decide (loWord (val s (.pair q)) ≤ loWord (val s (.pair p))) ∧ Keeps [] s t := by
  have hhi := runs_emitCmpReg true p q s
  have hlo := runs_emitCmpReg false p q
    (s.setFlags (addWithCarry (s.r (hiReg p)) (~~~(s.r (hiReg q))) true))
  refine ⟨_, hhi.append hlo, ?_, ?_, keeps_nil rfl fun _ _ _ => rfl⟩
  · show decide ((addWithCarry (s.r (loReg p)) (~~~(s.r (loReg q))) true).1 = 0) = _
    rw [addWithCarry_diff]
    have hzero : (0 : Word) + s.r (loReg q) = s.r (loReg q) := BitVec.zero_add _
    simp only [val, loWord_pair, BitVec.sub_eq_iff_eq_add, hzero]
  · simp only [val, loWord_pair]
    exact carry_diff _ _

theorem decode_testAdd : ∀ p q : Fin 5,
    decode32 (thumb32AddwRegT3 armIp (lo p) (lo q) 0 srtypeLsl flagNos) =
        some (.data (.dp .add false 12 (loReg p) (loReg q) .lsl 0)) ∧
      decode32 (thumb32AddwRegT3 armLr (hi p) (hi q) 0 srtypeLsl flagNos) =
        some (.data (.dp .add false 14 (hiReg p) (hiReg q) .lsl 0)) := by
  decide

theorem decode_testOrr : decode32 (thumb32OrrwRegT2 armIp armLr armIp 0 srtypeLsl flagS) =
    some (.data (.dp .orr true 12 14 12 .lsl 0)) := by
  decide

theorem runs_testWords (p q : Fin 5) (s : Core) :
    ∃ t, Runs (emitCmpCond (hi p) (lo p) (hi q) (lo q) .jset) s t ∧
      t.z = decide (loWord (val s (.pair p)) + loWord (val s (.pair q)) = 0 ∧
        hiWord (val s (.pair p)) + hiWord (val s (.pair q)) = 0) ∧ Keeps [] s t := by
  let u := s.set 12 (s.r (loReg p) + s.r (loReg q))
  let v := u.set 14 (s.r (hiReg p) + s.r (hiReg q))
  let w := v.r 14 ||| v.r 12
  let t := (v.set 12 w).setFlags (w, v.c, v.v)
  have h1 : execData s (.dp .add false 12 (loReg p) (loReg q) .lsl 0) = some u := by
    simp [execData, Core.dp, dpResult, shiftC, addWithCarry_sum, u]
  have h2 : execData u (.dp .add false 14 (hiReg p) (hiReg q) .lsl 0) = some v := by
    simp [execData, Core.dp, dpResult, shiftC, addWithCarry_sum, u, v]
  have h3 : execData v (.dp .orr true 12 14 12 .lsl 0) = some t := rfl
  refine ⟨t, ?_, ?_, keeps_nil rfl ?_⟩
  · exact ((runs_emit4 (decode_testAdd p q).1 h1).append
      (runs_emit4 (decode_testAdd p q).2 h2)).append (runs_emit4 decode_testOrr h3)
  · show decide (w = 0) = _
    have hw : w = (s.r (hiReg p) + s.r (hiReg q)) ||| (s.r (loReg p) + s.r (loReg q)) := by
      simp [w, v, u]
    rw [hw, decide_eq_decide]
    simp only [val, loWord_pair, hiWord_pair]
    exact BitVec.or_eq_zero_iff.trans and_comm
  · intro i h12 h14
    simp only [t, v, u, setFlags_r, set_r, if_neg h12, if_neg h14]

/-! ### What they decide -/

/-- The conditional jumps on an unsigned relation that have a branch. -/
def isCompared : JmpOp → Bool
  | .jeq | .jne | .jgt | .jge | .jset => true
  | _ => false

def compareCond : JmpOp → BitVec 4
  | .jeq => 0b0000
  | .jgt => 0b1000
  | .jge => 0b0010
  | _ => 0b0001

/-- What the translation decides on. -/
def wordsTaken (op : JmpOp) (x y : BitVec 64) : Bool :=
  match op with
  | .jeq => loWord x = loWord y
  | .jne => loWord x ≠ loWord y
  | .jgt => loWord y < loWord x
  | .jge => loWord y ≤ loWord x
  | _ => ¬(loWord x + loWord y = 0 ∧ hiWord x + hiWord y = 0)

theorem jumpCond_compared {op : JmpOp} (hop : isCompared op = true) :
    jumpCond op = some ((compareCond op).setWidth 32) ∧ bits (compareCond op) 1 3 ≠ 0b111 := by
  cases op <;> first | exact ⟨rfl, by decide⟩ | cases hop

/-- The comparison of a jump leaves its condition in the flags and the eBPF
registers where they are. -/
theorem runs_compare {op : JmpOp} (hop : isCompared op = true) (p q : Fin 5) (s : Core) :
    ∃ t, Runs (emitCmpCond (hi p) (lo p) (hi q) (lo q) op) s t ∧
      condHolds t (compareCond op) = wordsTaken op (val s (.pair p)) (val s (.pair q)) ∧
      Keeps [] s t := by
  cases op with
  | jset =>
      obtain ⟨t, ht, hz, hk⟩ := runs_testWords p q s
      refine ⟨t, ht, ?_, hk⟩
      show (!t.z) = _
      rw [hz, ← decide_not]
      rfl
  | jeq =>
      obtain ⟨t, ht, hz, -, hk⟩ := runs_cmpWords p q s
      exact ⟨t, ht, hz, hk⟩
  | jne =>
      obtain ⟨t, ht, hz, -, hk⟩ := runs_cmpWords p q s
      refine ⟨t, ht, ?_, hk⟩
      show (!t.z) = _
      rw [hz, ← decide_not]
      rfl
  | jge =>
      obtain ⟨t, ht, -, hc, hk⟩ := runs_cmpWords p q s
      exact ⟨t, ht, hc, hk⟩
  | jgt =>
      obtain ⟨t, ht, hz, hc, hk⟩ := runs_cmpWords p q s
      refine ⟨t, ht, ?_, hk⟩
      show (t.c && !t.z) = _
      rw [hz, hc, ← decide_not, ← Bool.decide_and, wordsTaken, decide_eq_decide]
      simp only [BitVec.le_def, BitVec.lt_def, ← BitVec.toNat_inj]
      omega
  | _ => cases hop

/-! ### Where that is right -/

/-- Where the words decide as the numbers do: where the low words are
enough, and, for the bit test, where a sum of words vanishes exactly with the
conjunction. -/
def CompareRight (op : JmpOp) (x y : BitVec 64) : Prop :=
  match op with
  | .jeq | .jne => loWord x = loWord y → hiWord x = hiWord y
  | .jgt => hiWord x = hiWord y ∨ (hiWord y < hiWord x ↔ loWord y < loWord x)
  | .jge => hiWord x = hiWord y ∨ (hiWord y < hiWord x ↔ loWord y ≤ loWord x)
  | .jset =>
      if x &&& y = 0 then x = 0 ∧ y = 0 else ¬(loWord x = -loWord y ∧ hiWord x = -hiWord y)
  | _ => False

instance (op : JmpOp) (x y : BitVec 64) : Decidable (CompareRight op x y) := by
  rcases op <;> unfold CompareRight <;> infer_instance

theorem pair_eq_zero {a b : Word} : (a ++ b : BitVec 64) = 0 ↔ a = 0 ∧ b = 0 :=
  pair_eq_iff a b 0 0

/-- Words with no bit in common have a vanishing sum only if they vanish. -/
theorem eq_zero_of_add {a b : Word} (h : a &&& b = 0) : a + b = 0 ↔ a = 0 ∧ b = 0 := by
  rw [BitVec.add_eq_or_of_and_eq_zero a b h]
  exact BitVec.or_eq_zero_iff

theorem add_eq_zero_iff_eq_neg (a b : Word) : a + b = 0 ↔ a = -b := by
  constructor <;> intro h <;> bv_omega

theorem compareRight_iff {op : JmpOp} (hop : isCompared op = true) (x y : BitVec 64) :
    isaJump op x y = wordsTaken op x y ↔ CompareRight op x y := by
  obtain ⟨a, b, rfl⟩ : ∃ a b : Word, x = a ++ b := ⟨_, _, (pair_words x).symm⟩
  obtain ⟨c, d, rfl⟩ : ∃ c d : Word, y = c ++ d := ⟨_, _, (pair_words y).symm⟩
  have ha := a.isLt
  have hb := b.isLt
  have hc := c.isLt
  have hd := d.isLt
  cases op with
  | jset =>
      have hand : ((a ++ b : BitVec 64).toNat &&& (c ++ d).toNat ≠ 0) ↔
          ¬(a ++ b) &&& (c ++ d) = (0 : BitVec 64) := by
        rw [← BitVec.toNat_and, ne_eq, ← BitVec.toNat_inj]
        rfl
      simp only [isaJump, wordsTaken, CompareRight, decide_eq_decide, loWord_pair, hiWord_pair,
        hand, not_iff_not]
      split
      · rename_i hzero
        have hwords := hzero
        rw [BitVec.and_append, pair_eq_zero] at hwords
        simp only [hzero, true_iff, eq_zero_of_add hwords.1, eq_zero_of_add hwords.2, pair_eq_zero]
        tauto
      · rename_i hne
        simp only [hne, false_iff, add_eq_zero_iff_eq_neg]
  | jeq | jne | jgt | jge =>
      simp only [isaJump, wordsTaken, CompareRight, decide_eq_decide, loWord_pair, hiWord_pair,
        BitVec.lt_def, BitVec.le_def, ← BitVec.toNat_inj, toNat_pair, ne_eq]
      omega
  | _ => cases hop

/-! ### The jumps -/

/-- The displacement `build_inst` computes for a conditional jump. -/
def jumpDisplacement (p : Input) (pass : Pass) (pc : ℕ) : BitVec 32 :=
  bpf2a32Offset pass pc (pc + (p.insts pc).offset.toInt) (branchSize p.instNum)

/-- There is an encoding of the conditional branch for the displacement. -/
def BranchInRange (d : BitVec 32) : Prop := -1048576 < d.toInt ∧ d.toInt < 1048574

instance (d : BitVec 32) : Decidable (BranchInRange d) := inferInstanceAs (Decidable (_ ∧ _))

theorem isBranch_of_inRange {n : ℕ} {d : BitVec 32} {c : BitVec 4} (hc : bits c 1 3 ≠ 0b111)
    (h : BranchInRange d) : IsBranch (emitBCond n d (c.setWidth 32)) c (evenPart d) := by
  by_cases hshort : useB4 n = false ∧ -256 ≤ d.toInt ∧ d.toInt ≤ 254
  · refine isBranch_emitBCond hc ?_
    rw [hshort.1]
    exact hshort.2
  · have hcode : emitBCond n d (c.setWidth 32) = emit4 (thumb32BwT3 d (c.setWidth 32)) := by
      have hlong : ¬(!useB4 n && (decide (d.toInt ≥ -256) && decide (d.toInt ≤ 254))) = true := by
        simpa using hshort
      rw [emitBCond, if_neg hlong, if_pos (by simpa [BranchInRange] using h)]
    rw [hcode]
    exact isBranch_thumb32BwT3 hc h.1.le (by have := h.2; omega)

theorem emitBCond_eq_nil {n : ℕ} {d c : BitVec 32} (h : ¬BranchInRange d) :
    emitBCond n d c = [] := by
  have hlen := emitBCond_length n d c
  unfold BranchInRange at h
  rw [if_neg (by omega), if_neg h] at hlen
  exact List.length_eq_zero_iff.mp hlen

section Instructions

variable {ρ : Regs} {d e : BitVec 4} {source : Src} {src : Row} {imm : BitVec 32} {s : Core}

theorem operand_eq_operand64 (source : Src) (v : BitVec 64) (imm : BitVec 32) :
    operand source v imm = operand64 source v imm := by
  cases source <;> rfl

def compareCode (dst src : Row) (source : Src) (imm : BitVec 32) (op : JmpOp) : Code :=
  let ops := jmpOperands dst src source imm
  ops.1 ++ emitCmpCond ops.2.1 ops.2.2.1 ops.2.2.2.1 ops.2.2.2.2 op

theorem buildInst_jmp (p : Input) (pass : Pass) (idx pc : ℕ) {op : JmpOp}
    (hop : (p.insts pc).op = .jmp op source) (hoff : (p.insts pc).offset ≠ 0)
    (hdst : (p.insts pc).dst < 10) :
    (buildInst p pass idx pc).code =
      compareCode (locOf (p.insts pc).dst).row (bpf2a32 p.behind (p.insts pc).src) source
        (p.insts pc).imm op ++ emitJump p.instNum (jumpDisplacement p pass pc) op := by
  have hskip : ¬(source = .imm ∧ (p.insts pc).offset.signExtend 32 = 0) := by
    rintro ⟨-, hzero⟩
    apply hoff
    have hval := congrArg BitVec.toInt hzero
    rw [BitVec.toInt_signExtend_of_le (by decide)] at hval
    exact BitVec.eq_of_toInt_eq hval
  simp only [buildInst, hop, if_neg hskip, built, bpf2a32_eq_row p.behind hdst]
  rfl

theorem runs_compareCode {op : JmpOp} {P : BitVec 64 → BitVec 64 → Core → Prop}
    (hcmp : ∀ p q s, ∃ t, Runs (emitCmpCond (hi p) (lo p) (hi q) (lo q) op) s t ∧
      P (val s (.pair p)) (val s (.pair q)) t ∧ Keeps [] s t)
    (hd : d < 10) (he : source = .reg → e < 10)
    (hrow : source = .reg → src = (locOf e).row) (hs : HoldsRegs ρ s) :
    ∃ t, Runs (compareCode (locOf d).row src source imm op) s t ∧ Arrives ρ s.mem s t ∧
      P (ρ d) (operand64 source (ρ e) imm) t := by
  obtain ⟨u, p, q, hu, hregs, hvp, hvq, hku⟩ :=
    runs_jmpOperands (locOf_not_temp d) (locOf_not_temp e) hrow imm hs.aligned
  obtain ⟨t, ht, hP, hk⟩ := hcmp p q u
  have hkeep := hku.append_nil hk
  refine ⟨t, ?_, ⟨hkeep.fp, fun r hr => ?_, hkeep.mem⟩, ?_⟩
  · simp only [compareCode, hregs]
    exact hu.append ht
  · rw [hkeep.toSame.same _ (locOf_not_temp r), hs.regs r hr]
  · rw [hvp, hvq, hs.regs d hd, operand_eq_operand64] at hP
    cases source with
    | imm => exact hP
    | reg => rwa [hs.regs e (he rfl)] at hP

end Instructions

/-- A jump on an unsigned relation branches as its words say. -/
theorem branchesWhen_compare_iff (p : Input) (pass : Pass) (idx pc : ℕ) (ρ : Regs) {op : JmpOp}
    {source : Src} (hop : (p.insts pc).op = .jmp op source) (hkind : isCompared op = true)
    (hoff : (p.insts pc).offset ≠ 0) (hdst : (p.insts pc).dst < 10)
    (hsrc : source = .reg → (p.insts pc).src < 10) {taken : Bool} :
    BranchesWhen (buildInst p pass idx pc).code ρ taken ↔
      BranchInRange (jumpDisplacement p pass pc) ∧
        taken = wordsTaken op (ρ (p.insts pc).dst)
          (operand64 source (ρ (p.insts pc).src) (p.insts pc).imm) := by
  have hrow : source = .reg → bpf2a32 p.behind (p.insts pc).src = (locOf (p.insts pc).src).row :=
    fun h => bpf2a32_eq_row p.behind (hsrc h)
  have hrun : ∀ s, HoldsRegs ρ s → ∃ t, Runs (compareCode (locOf (p.insts pc).dst).row
      (bpf2a32 p.behind (p.insts pc).src) source (p.insts pc).imm op) s t ∧
        Arrives ρ s.mem s t ∧ condHolds t (compareCond op) = wordsTaken op (ρ (p.insts pc).dst)
          (operand64 source (ρ (p.insts pc).src) (p.insts pc).imm) :=
    fun s hs =>
      runs_compareCode (P := fun x y t => condHolds t (compareCond op) = wordsTaken op x y)
        (runs_compare hkind) hdst hsrc hrow hs
  obtain ⟨hcond, hbits⟩ := jumpCond_compared hkind
  simp only [buildInst_jmp p pass idx pc hop hoff hdst, emitJump, hcond]
  by_cases hrange : BranchInRange (jumpDisplacement p pass pc)
  · rw [branchesWhen_iff (isBranch_of_inRange hbits hrange) hrun]
    exact (and_iff_right hrange).symm
  · refine iff_of_false ?_ fun h => hrange h.1
    rw [emitBCond_eq_nil hrange, List.append_nil]
    refine not_branchesWhen fun s hs => ?_
    obtain ⟨t, ht, -⟩ := hrun s hs
    exact ⟨t, ht⟩

/-- The branch of a jump on an unsigned relation is taken as the relation
says exactly where its words decide it, if there is a branch for its
displacement. -/
theorem compare_right_iff (p : Input) (pass : Pass) (idx pc : ℕ) (ρ : Regs) {op : JmpOp}
    {source : Src} (hop : (p.insts pc).op = .jmp op source) (hkind : isCompared op = true)
    (hoff : (p.insts pc).offset ≠ 0) (hdst : (p.insts pc).dst < 10)
    (hsrc : source = .reg → (p.insts pc).src < 10) :
    BranchesWhen (buildInst p pass idx pc).code ρ
        (isaJump op (ρ (p.insts pc).dst)
          (operand64 source (ρ (p.insts pc).src) (p.insts pc).imm)) ↔
      BranchInRange (jumpDisplacement p pass pc) ∧
        CompareRight op (ρ (p.insts pc).dst)
          (operand64 source (ρ (p.insts pc).src) (p.insts pc).imm) := by
  rw [branchesWhen_compare_iff p pass idx pc ρ hop hkind hoff hdst hsrc, compareRight_iff hkind]

def jumpR0 (op : JmpOp) (imm : BitVec 32) : Inst :=
  { opcode := (Opcode.jmp op .imm).byte, dst := 0, src := 0, offset := 1, imm := imm }

theorem jumpR0_op (op : JmpOp) (imm : BitVec 32) : (jumpR0 op imm).op = .jmp op .imm :=
  opcodeOf_byte (.jmp op .imm)

theorem compare_seven_three :
    BranchesWhen (buildInst (single (jumpR0 .jgt 3)) genPass 0 0).code (fun _ => 7)
      (isaJump .jgt 7 (operand64 .imm 7 3)) :=
  (compare_right_iff (single (jumpR0 .jgt 3)) genPass 0 0 (fun _ => 7) (jumpR0_op .jgt 3) rfl
    (by decide) (by decide) (by decide)).mpr (by decide)

/-- The jump on equality takes `2 ^ 32` for zero, the bit test one and two for
numbers with a bit in common. -/
theorem compare_low_words_wrong :
    (¬BranchesWhen (buildInst (single (jumpR0 .jeq 0)) genPass 0 0).code (fun _ => 0x100000000)
      (isaJump .jeq 0x100000000 (operand64 .imm 0x100000000 0))) ∧
    ¬BranchesWhen (buildInst (single (jumpR0 .jset 2)) genPass 0 0).code (fun _ => 1)
      (isaJump .jset 1 (operand64 .imm 1 2)) := by
  constructor
  · exact (branchesWhen_compare_iff (single (jumpR0 .jeq 0)) genPass 0 0 _ (jumpR0_op .jeq 0) rfl
      (by decide) (by decide) (by decide)).not.mpr (by decide)
  · exact (branchesWhen_compare_iff (single (jumpR0 .jset 2)) genPass 0 0 _ (jumpR0_op .jset 2) rfl
      (by decide) (by decide) (by decide)).not.mpr (by decide)

/-! ### Jumps without a branch -/

/-- The jumps on `<` and `<=`. -/
def isLess : JmpOp → Bool
  | .jlt | .jle | .jslt | .jsle => true
  | _ => false

theorem jumpCond_less {op : JmpOp} (hop : isLess op = true) : jumpCond op = none := by
  cases op <;> first | rfl | cases hop

theorem runs_compareLess {op : JmpOp} (hop : isLess op = true) (p q : Fin 5) (s : Core) :
    ∃ t, Runs (emitCmpCond (hi p) (lo p) (hi q) (lo q) op) s t ∧ Keeps [] s t := by
  cases op with
  | jlt | jle =>
      obtain ⟨t, ht, -, -, hk⟩ := runs_cmpWords p q s
      exact ⟨t, ht, hk⟩
  | jslt =>
      obtain ⟨t, ht, -, hk⟩ := runs_cmp p q s
      exact ⟨t, ht, hk⟩
  | jsle =>
      obtain ⟨t, ht, -, hk⟩ := runs_cmp q p s
      exact ⟨t, ht, hk⟩
  | _ => cases hop

/-- The code of a jump on `<` or `<=` is its comparison. -/
theorem lessJump_falls_through (p : Input) (pass : Pass) (idx pc : ℕ) (ρ : Regs) {op : JmpOp}
    {source : Src} (hop : (p.insts pc).op = .jmp op source) (hkind : isLess op = true)
    (hoff : (p.insts pc).offset ≠ 0) (hdst : (p.insts pc).dst < 10)
    (hsrc : source = .reg → (p.insts pc).src < 10) (s : Core) (hs : HoldsRegs ρ s) :
    ∃ t, Runs (buildInst p pass idx pc).code s t ∧ Arrives ρ s.mem s t := by
  have hrow : source = .reg → bpf2a32 p.behind (p.insts pc).src = (locOf (p.insts pc).src).row :=
    fun h => bpf2a32_eq_row p.behind (hsrc h)
  have hcmp : ∀ a b u, ∃ t, Runs (emitCmpCond (hi a) (lo a) (hi b) (lo b) op) u t ∧
      True ∧ Keeps [] u t := fun a b u => by
    obtain ⟨t, ht, hk⟩ := runs_compareLess hkind a b u
    exact ⟨t, ht, trivial, hk⟩
  obtain ⟨t, ht, harr, -⟩ :=
    runs_compareCode (P := fun _ _ _ => True) hcmp hdst hsrc hrow hs
  refine ⟨t, ?_, harr⟩
  rwa [buildInst_jmp p pass idx pc hop hoff hdst, emitJump, jumpCond_less hkind, List.append_nil]

/-- No jump on `<` or `<=` has a branch: the code of none of them ends in one
that is taken as its relation says, or as anything else says. -/
theorem lessJump_never_branches (p : Input) (pass : Pass) (idx pc : ℕ) (ρ : Regs) {op : JmpOp}
    {source : Src} (hop : (p.insts pc).op = .jmp op source) (hkind : isLess op = true)
    (hoff : (p.insts pc).offset ≠ 0) (hdst : (p.insts pc).dst < 10)
    (hsrc : source = .reg → (p.insts pc).src < 10) (taken : Bool) :
    ¬BranchesWhen (buildInst p pass idx pc).code ρ taken := by
  refine not_branchesWhen fun s hs => ?_
  obtain ⟨t, ht, -⟩ := lessJump_falls_through p pass idx pc ρ hop hkind hoff hdst hsrc s hs
  exact ⟨t, ht⟩

theorem jlt_r0_never_branches :
    ¬BranchesWhen (buildInst (single (jumpR0 .jlt 4)) genPass 0 0).code (fun _ => 3)
      (isaJump .jlt 3 (operand64 .imm 3 4)) :=
  lessJump_never_branches (single (jumpR0 .jlt 4)) genPass 0 0 (fun _ => 3) (jumpR0_op .jlt 4) rfl
    (by decide) (by decide) (by decide) _

theorem jle_three_four_falls_through :
    isaJump .jle 3 (operand64 .imm 3 4) = true ∧
      ¬BranchesWhen (buildInst (single (jumpR0 .jle 4)) genPass 0 0).code (fun _ => 3) true := by
  refine ⟨by decide, not_branchesWhen fun s hs => ?_⟩
  obtain ⟨t, ht, -⟩ := lessJump_falls_through (single (jumpR0 .jle 4)) genPass 0 0 (fun _ => 3)
    (jumpR0_op .jle 4) rfl (by decide) (by decide) (by decide) s hs
  exact ⟨t, ht⟩

end RapidPatch.Jit

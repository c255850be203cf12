import RapidPatch.Jit.FragmentLayout
import RapidPatch.Vm.Budget
import RapidPatch.Vm.Fetch

/-!
The translated program simulates the interpreter.

States are related when the processor stands at the first byte of the
instruction the interpreter is about to fetch and every location holds the
eBPF register that lives there. One iteration of the interpreter is matched
by the code of one instruction: computing instructions are blocks, and the
jumps end in a branch whose target the layout fixes. `Reaches.simulate` lifts this
to runs, and at `EXIT` the code goes to the epilogue.
-/

namespace RapidPatch.Jit

open RapidPatch.Vm RapidPatch.Thumb RapidPatch.Support

variable {p : Input} {offsets : ℤ → BitVec 32} {code : Word → BitVec 16} {base : Word}

/-- The processor is about to execute what the interpreter is about to
fetch, on the same registers. -/
structure Sim (p : Input) (base : Word) (s : State) (t : Cpu) : Prop where
  place : ∃ l r, visited p = l ++ s.pc.toNat :: r ∧
    t.pc = base + BitVec.ofNat 32 (nominalIdx p l)
  regs : ∀ i < 10, val t.core (locOf i) = s.reg i
  fp : aligned (t.core.r 11)

/-! ### The code of one instruction -/

theorem secondState_code_append (offsets : ℤ → BitVec 32) (l r : List ℕ) :
    ∃ rest, (secondState p offsets (l ++ r)).code = (secondState p offsets l).code ++ rest := by
  induction r using List.reverseRecOn with
  | nil => exact ⟨[], by simp⟩
  | append_singleton r q ih =>
      obtain ⟨rest, hrest⟩ := ih
      refine ⟨rest ++ secondCode p offsets (l ++ r) q, ?_⟩
      rw [← List.append_assoc, secondState_concat_code, hrest, List.append_assoc]

/-- The instruction memory holds the code of each instruction at its offset. -/
theorem codeAt_secondCode (hagree : LayoutAgrees p offsets)
    (hcode : CodeAt code base (jitCompile p offsets).code) {l r : List ℕ} {pc : ℕ}
    (hsplit : visited p = l ++ pc :: r) :
    CodeAt code (base + BitVec.ofNat 32 (nominalIdx p l)) (secondCode p offsets l pc) := by
  obtain ⟨rest, hrest⟩ := secondState_code_append (p := p) offsets (l ++ [pc]) r
  have hall : (jitCompile p offsets).code = (secondState p offsets l).code ++
      (secondCode p offsets l pc ++ (rest ++ buildEpilogue)) := by
    rw [Compiled.code, jitCompile_second, hsplit, show l ++ pc :: r = (l ++ [pc]) ++ r by simp,
      hrest, secondState_concat_code]
    simp only [List.append_assoc]
  rw [hall, codeAt_append, codeAt_append] at hcode
  have haddr : after base (secondState p offsets l).code.length =
      base + BitVec.ofNat 32 (nominalIdx p l) := by
    rw [← hagree.idx_eq l (pc :: r) hsplit]
    rfl
  rw [← haddr]
  exact hcode.2.1

theorem after_nominal (a : Word) (m n : ℕ) :
    after (a + BitVec.ofNat 32 m) n = a + BitVec.ofNat 32 (m + 2 * n) := by
  rw [after, BitVec.ofNat_add, BitVec.add_assoc]

theorem reaches_block (hagree : LayoutAgrees p offsets)
    (hcode : CodeAt code base (jitCompile p offsets).code) {l r : List ℕ} {pc : ℕ}
    (hsplit : visited p = l ++ pc :: r) {s t : Core} (hrun : Runs (secondCode p offsets l pc) s t) :
    Reaches (Thumb.step code) ⟨base + BitVec.ofNat 32 (nominalIdx p l), s⟩
      ⟨base + BitVec.ofNat 32 (nominalIdx p (l ++ [pc])), t⟩ := by
  have hreach := hrun.reaches (codeAt_secondCode hagree hcode hsplit)
  have hend : nominalIdx p (l ++ [pc]) =
      nominalIdx p l + 2 * (secondCode p offsets l pc).length := by
    rw [← hagree.idx_eq l (pc :: r) hsplit, ← hagree.idx_eq (l ++ [pc]) r (by rw [hsplit]; simp),
      secondState_concat_idx]
  rw [after_nominal, ← hend] at hreach
  exact hreach

/-- An instruction that is a block and a branch leads to where the branch
lands, or to the next instruction. -/
theorem reaches_jump (hagree : LayoutAgrees p offsets)
    (hcode : CodeAt code base (jitCompile p offsets).code) {l r : List ℕ} {pc : ℕ}
    (hsplit : visited p = l ++ pc :: r) {s t : Core} (hrun : Runs (fixedCode p pc) s t)
    {cond : BitVec 4} {off : Word} (hbr : IsBranch (branchAt p offsets l pc) cond off)
    {target : BitVec 32}
    (htarget : ∀ x, Lands p offsets l pc x → x = target) :
    Reaches (Thumb.step code) ⟨base + BitVec.ofNat 32 (nominalIdx p l), s⟩
      ⟨base + if condHolds t cond then target
        else BitVec.ofNat 32 (nominalIdx p (l ++ [pc])), t⟩ := by
  have hsecond : secondCode p offsets l pc = fixedCode p pc ++ branchAt p offsets l pc := by
    rw [secondCode, buildInst_code]
    rfl
  have hat := codeAt_secondCode hagree hcode hsplit
  rw [hsecond, codeAt_append, after_nominal] at hat
  have hblock := hrun.reaches hat.1
  have hjump := reaches_branch (s := t) hbr hat.2
  have hstart := branchStart_eq hagree hsplit
  have hland := htarget _ (Or.inr ⟨cond, off, hbr, rfl⟩)
  have hend : nominalIdx p (l ++ [pc]) = nominalIdx p l + 2 * (fixedCode p pc).length +
      2 * (branchAt p offsets l pc).length := by
    rw [← hagree.idx_eq l (pc :: r) hsplit, ← hagree.idx_eq (l ++ [pc]) r (by rw [hsplit]; simp),
      secondState_concat_idx, hsecond, List.length_append]
    omega
  rw [after_nominal] at hblock
  rw [after_nominal, ← hend] at hjump
  refine hblock.trans ?_
  have hpc : (if condHolds t cond then
      base + BitVec.ofNat 32 (nominalIdx p l + 2 * (fixedCode p pc).length) + 4 + off
      else base + BitVec.ofNat 32 (nominalIdx p (l ++ [pc]))) =
      base + if condHolds t cond then target else BitVec.ofNat 32 (nominalIdx p (l ++ [pc])) := by
    rw [hstart] at hland
    split
    · rw [← hland]
      simp only [BitVec.add_assoc]
    · rfl
  rw [hpc] at hjump
  exact hjump

/-! ### One iteration -/

theorem regsInFile_of_supported {i : Inst} (hs : Supported i) : i.regsInFile = true := by
  obtain ⟨hdst, hsrc, _⟩ := hs
  have hsmall : ∀ r : BitVec 4, r < 10 → r.toNat < maxBpfExtReg := by decide
  unfold Inst.regsInFile
  cases hd : i.op.usesDst with
  | false =>
      cases hr : i.op.usesSrc with
      | false => rfl
      | true => simp [hsmall _ (hsrc hr)]
  | true =>
      cases hr : i.op.usesSrc with
      | false => simp [hsmall _ (hdst hd)]
      | true => simp [hsmall _ (hdst hd), hsmall _ (hsrc hr)]

theorem not_stores_of_supported {i : Inst} (hs : Supported i) : ¬i.stores = true := by
  have hkind := hs.2.2
  unfold Inst.stores
  cases hop : i.op with
  | st | stx | call =>
      rw [hop] at hkind
      exact hkind.elim
  | _ => exact Bool.false_ne_true

theorem toNat_pc_add {pc : BitVec 16} {k : ℕ} (h : pc.toNat + k < 2 ^ 16) :
    (pc + BitVec.ofNat 16 k).toNat = pc.toNat + k := by
  rw [BitVec.toNat_add, BitVec.toNat_ofNat]
  omega

theorem toNat_pc_target {pc off : BitVec 16} {t : ℕ}
    (ht : (t : ℤ) = pc.toNat + 1 + off.toInt) (hlt : t < 256) : (pc + 1 + off).toNat = t := by
  have hoff := off.toInt_eq_toNat_cond
  have hone : (1 : BitVec 16).toNat = 1 := rfl
  have h1 := pc.isLt
  have h2 := off.isLt
  rw [BitVec.toNat_add, BitVec.toNat_add, hone]
  split at hoff <;> omega

theorem op_ne_exit_of_isJump {pc : ℕ} (hjump : IsJump p pc) : (p.insts pc).op ≠ .exit := by
  intro hexit
  simp [IsJump, hexit] at hjump

theorem branchAt_eq (hagree : LayoutAgrees p offsets) {l r : List ℕ} {pc : ℕ}
    (hsplit : visited p = l ++ pc :: r) :
    branchAt p offsets l pc = branchCode p pc (nominalDisplacement p offsets l pc) := by
  rw [branchAt, hagree.idx_eq l (pc :: r) hsplit]
  rfl

section Step

variable (hp : CoreFragment p offsets) {c : Call} (hc : ∀ m, c.vm.insts m = p.insts) {s : State}
  {t : Core} {l r : List ℕ} (hsplit : visited p = l ++ s.pc.toNat :: r)

include hp hsplit

theorem sim_next (hexit : (p.insts s.pc.toNat).op ≠ .exit) {s' : State} {u : Core}
    (hpc : s'.pc.toNat = slotOf p s.pc.toNat + 1)
    (hregs : ∀ i < 10, val u (locOf i) = s'.reg i) (hfp : aligned (u.r 11)) :
    Sim p base s' ⟨base + BitVec.ofNat 32 (nominalIdx p (l ++ [s.pc.toNat])), u⟩ := by
  rcases hp.next hsplit with ⟨_, hlast⟩ | ⟨r', rfl⟩
  · rw [hlast] at hexit
    exact absurd hp.last.2 hexit
  · refine ⟨⟨l ++ [s.pc.toNat], r', ?_, rfl⟩, hregs, hfp⟩
    rw [hpc, hsplit]
    simp

theorem slot_bound : slotOf p s.pc.toNat < 256 :=
  Nat.lt_of_lt_of_le (hp.slot_lt (by rw [hsplit]; simp)) hp.slots

omit hp hsplit in
theorem regs_of_writes {d : BitVec 4} (hd : d < 10) {v : BitVec 64} {u : Core}
    (hw : Writes (locOf d) v t u) (hregs : ∀ i < 10, val t (locOf i) = s.reg i) :
    ∀ i < 10, val u (locOf i) = (s.setReg d v).reg i := by
  intro i hi
  rw [setReg_reg]
  by_cases hid : i = d
  · rw [if_pos hid, hid, hw.written]
  · rw [if_neg hid, hw.other _ (locOf_not_temp i) fun h => hid (locOf_injective hi hd h),
      hregs i hi]

/-- A branch of the fragment lands at the first byte of its target. -/
theorem lands_target (hjump : IsJump p s.pc.toNat) (hne : branchCode p s.pc.toNat 0 ≠ []) :
    ∃ (t : ℕ) (lt rt : List ℕ), visited p = lt ++ t :: rt ∧
      (t : ℤ) = s.pc.toNat + 1 + (p.insts s.pc.toNat).offset.toInt ∧ t < 256 ∧
      ∀ x, Lands p offsets l s.pc.toNat x → x = BitVec.ofNat 32 (nominalIdx p lt) := by
  obtain ⟨t, ht, hpos, hlt, hslot⟩ := hp.targets s.pc.toNat (by rw [hsplit]; simp) hjump
  obtain ⟨lt, rt, htarget⟩ := List.append_of_mem (hp.target_mem hlt hslot)
  refine ⟨t, lt, rt, htarget, ht, Nat.lt_of_lt_of_le hlt hp.slots, ?_⟩
  intro x hx
  obtain ⟨k, hk⟩ := nominalIdx_even (p := p) lt
  rw [lands_table hp.layoutAgrees hsplit hjump hne] at hx
  rw [hx, show (s.pc.toNat + (p.insts s.pc.toNat).offset.toInt : ℤ) = t - 1 by omega,
    table_before offsets htarget (by omega), hk, evenPart_ofNat_even]

theorem pc_succ (hjump : IsJump p s.pc.toNat) : (s.pc + 1).toNat = s.pc.toNat + 1 := by
  have hbound := slot_bound hp hsplit
  rw [slotOf_jump hjump] at hbound
  exact toNat_pc_add (k := 1) (by omega)

/-- A jump for which no code is emitted. -/
theorem sim_skip (hcode : CodeAt code base (jitCompile p offsets).code)
    (hjump : IsJump p s.pc.toNat)
    (hnil : fixedCode p s.pc.toNat ++ branchAt p offsets l s.pc.toNat = []) {s' : State}
    (hpc : s'.pc = s.pc + 1) (hregs : ∀ i < 10, val t (locOf i) = s'.reg i)
    (hfp : aligned (t.r 11)) :
    ∃ t', Reaches (Thumb.step code) ⟨base + BitVec.ofNat 32 (nominalIdx p l), t⟩ t' ∧
      Sim p base s' t' := by
  have hblock : Runs (secondCode p offsets l s.pc.toNat) t t := by
    rw [secondCode, buildInst_code]
    exact hnil ▸ Runs.nil t
  refine ⟨_, reaches_block hp.layoutAgrees hcode hsplit hblock, ?_⟩
  refine sim_next hp hsplit (op_ne_exit_of_isJump hjump) ?_ hregs hfp
  rw [slotOf_jump hjump, hpc, pc_succ hp hsplit hjump]

/-- A jump with a branch: if the condition holds it lands at the target, and
else it goes on behind the branch. -/
theorem sim_branch (hcode : CodeAt code base (jitCompile p offsets).code)
    (hjump : IsJump p s.pc.toNat) {v : Core} (hfixed : Runs (fixedCode p s.pc.toNat) t v)
    {cond : BitVec 4} {off : Word} (hbr : IsBranch (branchAt p offsets l s.pc.toNat) cond off)
    {s' : State}
    (hpc : s'.pc = if condHolds v cond then s.pc + 1 + (p.insts s.pc.toNat).offset else s.pc + 1)
    (hregs : ∀ i < 10, val v (locOf i) = s'.reg i) (hfp : aligned (v.r 11)) :
    ∃ t', Reaches (Thumb.step code) ⟨base + BitVec.ofNat 32 (nominalIdx p l), t⟩ t' ∧
      Sim p base s' t' := by
  have hne : branchCode p s.pc.toNat 0 ≠ [] := by
    rw [← List.length_pos_iff, ← (branchCode_length_iff s.pc.toNat _).mpr
      (hp.layoutAgrees.fit.branches l s.pc.toNat r hsplit),
      ← branchAt_eq hp.layoutAgrees hsplit, List.length_pos_iff]
    rintro hnil
    rw [hnil] at hbr
    cases hbr
  obtain ⟨k, lt, rt, htarget, hk, hk256, hland⟩ := lands_target hp hsplit hjump hne
  refine ⟨_, reaches_jump hp.layoutAgrees hcode hsplit hfixed hbr hland, ?_⟩
  cases htaken : condHolds v cond with
  | true =>
      rw [htaken, if_pos rfl] at hpc
      refine ⟨⟨lt, rt, ?_, rfl⟩, hregs, hfp⟩
      rw [htarget, hpc, toNat_pc_target hk hk256]
  | false =>
      rw [htaken, if_neg Bool.false_ne_true] at hpc
      refine sim_next hp hsplit (op_ne_exit_of_isJump hjump) ?_ hregs hfp
      rw [slotOf_jump hjump, hpc, pc_succ hp hsplit hjump]

include hc

theorem sim_compute (hcode : CodeAt code base (jitCompile p offsets).code)
    (hregs : ∀ i < 10, val t (locOf i) = s.reg i) (hfp : aligned (t.r 11))
    (hop : (∃ op source, (p.insts s.pc.toNat).op = .alu64 op source) ∨
      (p.insts s.pc.toNat).op = .lddw) {s' : State} (hstep : Vm.step c s = .cont s') :
    ∃ t', Reaches (Thumb.step code) ⟨base + BitVec.ofNat 32 (nominalIdx p l), t⟩ t' ∧
      Sim p base s' t' := by
  have hs := hp.supported s.pc.toNat (by rw [hsplit]; simp)
  have hfile := regsInFile_of_supported hs
  have hbound := slot_bound hp hsplit
  obtain ⟨u, hexec, _, rfl⟩ := step_cont hstep
  rw [Vm.fetch, hc] at hexec
  simp only [execInst, hfile, Bool.not_true, Bool.false_eq_true, if_false] at hexec
  rcases hop with ⟨op, source, hop⟩ | hop
  · have hdst : (p.insts s.pc.toNat).dst < 10 := hs.1 (by rw [hop]; rfl)
    -- the source field names a register of the file only if the operand is one
    have hsrc : source = .reg →
        val t (locOf (p.insts s.pc.toNat).src) = s.reg (p.insts s.pc.toNat).src := by
      rintro rfl
      exact hregs _ (hs.2.1 (by rw [hop]; rfl))
    obtain ⟨t', v, hrun, hw, hval⟩ := writes_alu64 c p.behind hop hs hfp hsrc
    rw [hregs _ hdst] at hval
    simp only [hop, hval, finishAlu, Next.cont.injEq] at hexec
    subst hexec
    have hslot : slotOf p s.pc.toNat = s.pc.toNat := by simp [slotOf, instRet, hop]
    rw [hslot] at hbound
    have hblock : Runs (secondCode p offsets l s.pc.toNat) t t' := by
      simpa only [secondCode, buildInst, hop] using hrun
    refine ⟨_, reaches_block hp.layoutAgrees hcode hsplit hblock, ?_⟩
    refine sim_next hp hsplit (by rw [hop]; exact Opcode.noConfusion) ?_ ?_ ?_
    · rw [hslot]
      exact toNat_pc_add (k := 1) (by omega)
    · exact regs_of_writes hdst hw hregs
    · rw [hw.fp]
      exact hfp
  · have hdst : (p.insts s.pc.toNat).dst < 10 := hs.1 (by rw [hop]; rfl)
    have hslot : slotOf p s.pc.toNat = s.pc.toNat + 1 := by simp [slotOf, instRet, hop]
    rw [hslot] at hbound
    have hsecond : (s.pc + 1).toNat = s.pc.toNat + 1 := toNat_pc_add (k := 1) (by omega)
    simp only [hop, Next.cont.injEq, hc, hsecond] at hexec
    subst hexec
    obtain ⟨t', hrun, hw⟩ := writes_movI64 (locOf (p.insts s.pc.toNat).dst)
      ((p.insts s.pc.toNat).imm.setWidth 64 |||
        (p.insts (s.pc.toNat + 1)).imm.setWidth 64 <<< 32) hfp
    have hblock : Runs (secondCode p offsets l s.pc.toNat) t t' := by
      simpa only [secondCode, buildInst, hop, bpf2a32_eq_row _ hdst] using hrun
    refine ⟨_, reaches_block hp.layoutAgrees hcode hsplit hblock, ?_⟩
    refine sim_next hp hsplit (by rw [hop]; exact Opcode.noConfusion) ?_ ?_ ?_
    · rw [hslot]
      show (s.pc + 1 + 1).toNat = _
      rw [BitVec.add_assoc]
      exact toNat_pc_add (k := 2) (by omega)
    · exact regs_of_writes hdst hw hregs
    · rw [hw.fp]
      exact hfp

/-- `JA`: a branch that is always taken. -/
theorem sim_ja (hcode : CodeAt code base (jitCompile p offsets).code)
    (hregs : ∀ i < 10, val t (locOf i) = s.reg i) (hfp : aligned (t.r 11))
    (hop : (p.insts s.pc.toNat).op = .ja) {s' : State} (hstep : Vm.step c s = .cont s') :
    ∃ t', Reaches (Thumb.step code) ⟨base + BitVec.ofNat 32 (nominalIdx p l), t⟩ t' ∧
      Sim p base s' t' := by
  have hs := hp.supported s.pc.toNat (by rw [hsplit]; simp)
  have hjump : IsJump p s.pc.toNat := by simp only [IsJump, hop]
  obtain ⟨u, hexec, _, rfl⟩ := step_cont hstep
  rw [Vm.fetch, hc] at hexec
  simp only [execInst, regsInFile_of_supported hs, Bool.not_true, Bool.false_eq_true, if_false,
    hop, Next.cont.injEq] at hexec
  subst hexec
  by_cases hoff : (p.insts s.pc.toNat).offset = 0
  · -- nothing is emitted for a jump to the next instruction
    have hnil : fixedCode p s.pc.toNat ++ branchAt p offsets l s.pc.toNat = [] := by
      simp only [fixedCode, branchAt, branchCode, hop, if_pos hoff, List.append_nil]
    refine sim_skip hp hsplit hcode hjump hnil ?_ hregs hfp
    rw [hoff]
    exact BitVec.add_zero _
  · have hfit := hp.layoutAgrees.fit.branches l s.pc.toNat r hsplit
    simp only [BranchFits, hop, hoff, false_or] at hfit
    have hbr : IsBranch (branchAt p offsets l s.pc.toNat) condAl
        (evenPart (nominalDisplacement p offsets l s.pc.toNat)) := by
      rw [branchAt_eq hp.layoutAgrees hsplit]
      simp only [branchCode, hop, if_neg hoff]
      exact isBranch_emitB hfit.1 hfit.2
    have hfixed : Runs (fixedCode p s.pc.toNat) t t := by
      simpa only [fixedCode, hop] using Runs.nil t
    exact sim_branch hp hsplit hcode hjump hfixed hbr rfl hregs hfp

/-- The signed conditional jumps: a comparison, and a branch on its flags. -/
theorem sim_jmp (hcode : CodeAt code base (jitCompile p offsets).code)
    (hregs : ∀ i < 10, val t (locOf i) = s.reg i) (hfp : aligned (t.r 11)) {op : JmpOp}
    {source : Src} (hop : (p.insts s.pc.toNat).op = .jmp op source) {s' : State}
    (hstep : Vm.step c s = .cont s') :
    ∃ t', Reaches (Thumb.step code) ⟨base + BitVec.ofNat 32 (nominalIdx p l), t⟩ t' ∧
      Sim p base s' t' := by
  have hs := hp.supported s.pc.toNat (by rw [hsplit]; simp)
  have hjump : IsJump p s.pc.toNat := by simp only [IsJump, hop]
  have hsigned : op = .jsgt ∨ op = .jsge := by
    have hkind := hs.2.2
    rw [hop] at hkind
    cases op <;> first | exact Or.inl rfl | exact Or.inr rfl | exact hkind.elim
  have hdst : (p.insts s.pc.toNat).dst < 10 := hs.1 (by rw [hop]; rfl)
  have hsrc : source = .reg → (p.insts s.pc.toNat).src < 10 := by
    rintro rfl
    exact hs.2.1 (by rw [hop]; rfl)
  obtain ⟨u, hexec, _, rfl⟩ := step_cont hstep
  rw [Vm.fetch, hc] at hexec
  simp only [execInst, regsInFile_of_supported hs, Bool.not_true, Bool.false_eq_true, if_false,
    hop] at hexec
  by_cases hskip : source = .imm ∧ (p.insts s.pc.toNat).offset = 0
  · -- taken or not, the interpreter goes on to the next instruction
    have hpc : u.pc = s.pc + 1 ∧ u.reg = s.reg := by
      rw [hskip.2] at hexec
      split at hexec <;> cases hexec
      · exact ⟨BitVec.add_zero _, rfl⟩
      · exact ⟨rfl, rfl⟩
    have hnil : fixedCode p s.pc.toNat ++ branchAt p offsets l s.pc.toNat = [] := by
      simp only [fixedCode, branchAt, branchCode, hop, if_pos hskip, List.append_nil]
    refine sim_skip hp hsplit hcode hjump hnil hpc.1 ?_ hfp
    intro i hi
    rw [hregs i hi]
    exact (congrFun hpc.2 i).symm
  · obtain ⟨v, hrun, hcond, hsame⟩ := runs_jmp hsigned (locOf_not_temp (p.insts s.pc.toNat).dst)
      (locOf_not_temp (p.insts s.pc.toNat).src)
      (fun h => bpf2a32_eq_row p.behind (hsrc h)) (p.insts s.pc.toNat).imm hfp
    have htaken : condHolds v (signedCond op) = jmpTaken op source
        (s.reg (p.insts s.pc.toNat).dst) (s.reg (p.insts s.pc.toNat).src)
        (p.insts s.pc.toNat).imm := by
      rw [hcond, hregs _ hdst]
      cases source with
      | imm => rfl
      | reg => rw [hregs _ (hsrc rfl)]
    have hpc : u.pc = (if condHolds v (signedCond op) then
        s.pc + 1 + (p.insts s.pc.toNat).offset else s.pc + 1) ∧ u.reg = s.reg := by
      rw [htaken]
      split at hexec <;> cases hexec
      · rename_i htrue
        exact ⟨(if_pos htrue).symm, rfl⟩
      · rename_i hfalse
        exact ⟨(if_neg hfalse).symm, rfl⟩
    have hfixed : Runs (fixedCode p s.pc.toNat) t v := by
      simpa only [fixedCode, hop, if_neg hskip, bpf2a32_eq_row _ hdst] using hrun
    have hfit := hp.layoutAgrees.fit.branches l s.pc.toNat r hsplit
    simp only [BranchFits, hop, hskip, jumpCond_signed hsigned, false_or, reduceCtorEq] at hfit
    have hbr : IsBranch (branchAt p offsets l s.pc.toNat) (signedCond op)
        (evenPart (nominalDisplacement p offsets l s.pc.toNat)) := by
      rw [branchAt_eq hp.layoutAgrees hsplit]
      simp only [branchCode, hop, if_neg hskip, emitJump, jumpCond_signed hsigned]
      exact isBranch_emitBCond (by rcases hsigned with rfl | rfl <;> decide) hfit
    refine sim_branch hp hsplit hcode hjump hfixed hbr hpc.1 ?_ ?_
    · intro i hi
      rw [hsame.same _ (locOf_not_temp i), hregs i hi]
      exact (congrFun hpc.2 i).symm
    · rw [hsame.fp]
      exact hfp

theorem sim_jump (hcode : CodeAt code base (jitCompile p offsets).code)
    (hregs : ∀ i < 10, val t (locOf i) = s.reg i) (hfp : aligned (t.r 11))
    (hjump : IsJump p s.pc.toNat) {s' : State} (hstep : Vm.step c s = .cont s') :
    ∃ t', Reaches (Thumb.step code) ⟨base + BitVec.ofNat 32 (nominalIdx p l), t⟩ t' ∧
      Sim p base s' t' := by
  cases hop : (p.insts s.pc.toNat).op with
  | ja => exact sim_ja hp hc hsplit hcode hregs hfp hop hstep
  | jmp op source => exact sim_jmp hp hc hsplit hcode hregs hfp hop hstep
  | _ => simp [IsJump, hop] at hjump

end Step

/-! ### Runs -/

section Run

variable (hp : CoreFragment p offsets) {c : Call} (hc : ∀ m, c.vm.insts m = p.insts)
  (hcode : CodeAt code base (jitCompile p offsets).code)

include hp hc hcode

/-- One iteration of the interpreter is matched by the code of one
instruction. -/
theorem sim_step (s s' : State) (t : Cpu) (hsim : Sim p base s t)
    (hstep : Vm.step c s = .cont s') :
    ∃ t', Reaches (Thumb.step code) t t' ∧ Sim p base s' t' := by
  obtain ⟨⟨l, r, hsplit, hpc⟩, hregs, hfp⟩ := hsim
  obtain ⟨pc, core⟩ := t
  simp only at hpc hregs hfp
  subst hpc
  have hs := hp.supported s.pc.toNat (by rw [hsplit]; simp)
  have hkind := hs.2.2
  cases hop : (p.insts s.pc.toNat).op with
  | alu64 op source =>
      exact sim_compute hp hc hsplit hcode hregs hfp (Or.inl ⟨op, source, hop⟩) hstep
  | lddw => exact sim_compute hp hc hsplit hcode hregs hfp (Or.inr hop) hstep
  | jmp op source =>
      exact sim_jump hp hc hsplit hcode hregs hfp (by simp only [IsJump, hop]) hstep
  | ja => exact sim_jump hp hc hsplit hcode hregs hfp (by simp only [IsJump, hop]) hstep
  | exit =>
      obtain ⟨u, hexec, _⟩ := step_cont hstep
      rw [Vm.fetch, hc] at hexec
      simp only [execInst, regsInFile_of_supported hs, hop] at hexec
      cases hexec
  | _ =>
      rw [hop] at hkind
      exact hkind.elim

/-- `EXIT` leads to the epilogue, with r0 in R1:R0. -/
theorem sim_exit {s : State} {t : Cpu} (hsim : Sim p base s t) {v : BitVec 64}
    (hstep : Vm.step c s = .stop (.returned .exit v)) :
    ∃ u : Core, Reaches (Thumb.step code) t
        ⟨base + BitVec.ofNat 32 (jitCompile p offsets).second.idx, u⟩ ∧
      u.r 1 ++ u.r 0 = v := by
  obtain ⟨⟨l, r, hsplit, hpc⟩, hregs, hfp⟩ := hsim
  obtain ⟨pc, core⟩ := t
  simp only at hpc hregs hfp
  subst hpc
  have hexit : (p.insts s.pc.toNat).op = .exit ∧ v = s.reg 0 := by
    rcases step_stop hstep with hexec | ⟨_, hbudget⟩
    · rw [Vm.fetch, hc] at hexec
      rcases execInst_returned hexec with ⟨_, hop, hv⟩ | ⟨hsite, _⟩
      · exact ⟨hop, hv⟩
      · cases hsite
    · cases hbudget
  obtain ⟨hop, rfl⟩ := hexit
  refine ⟨core, ?_, hregs 0 (by decide)⟩
  have hfixed : fixedCode p s.pc.toNat = [] := by simp only [fixedCode, hop]
  by_cases hlast : (s.pc.toNat : ℤ) = p.instNum - 1
  · -- the last one emits nothing and the epilogue follows
    have hr : r = [] := by
      rcases hp.next hsplit with ⟨hr, _⟩ | ⟨r', rfl⟩
      · exact hr
      · have : slotOf p s.pc.toNat + 1 < p.instNum := visited_lt (by rw [hsplit]; simp)
        have := le_slotOf p s.pc.toNat
        omega
    have hend : (jitCompile p offsets).second.idx = nominalIdx p l := by
      rw [jitCompile_second, hp.layoutAgrees.idx_eq (visited p) [] (by simp), hsplit, hr,
        nominalIdx_concat, nominal, hfixed]
      simp [branchCode, hop, hlast]
    rw [hend]
    exact .refl _
  · have hfit := hp.layoutAgrees.fit.branches l s.pc.toNat r hsplit
    simp only [BranchFits, hop, hlast, false_or] at hfit
    have hat : branchAt p offsets l s.pc.toNat =
        emitB (nominalDisplacement p offsets l s.pc.toNat) := by
      rw [branchAt_eq hp.layoutAgrees hsplit]
      simp only [branchCode, hop, if_neg hlast]
    have hbr := isBranch_emitB hfit.1 hfit.2
    rw [← hat] at hbr
    have hland : ∀ x, Lands p offsets l s.pc.toNat x →
        x = BitVec.ofNat 32 (jitCompile p offsets).second.idx :=
      fun x hx => hx.unique (lands_epilogue hp.layoutAgrees hsplit hop hlast)
    exact reaches_jump hp.layoutAgrees hcode hsplit (by rw [hfixed]; exact .nil core) hbr hland

end Run

/-- A run of the interpreter keeps to the instructions that were compiled. -/
theorem fetches_of_sim (hp : CoreFragment p offsets) {c : Call} {reg : BitVec 4 → BitVec 64}
    {mem : Mem} (hc : ∀ n < p.instNum, c.vm.insts mem n = p.insts n)
    (hcode : CodeAt code base (jitCompile p offsets).code) {t₀ : Cpu}
    (hstart : Sim p base (initState c reg mem) t₀) {s : State}
    (hs : Reaches (Vm.step (c.withInsts p.insts)) (initState c reg mem) s) :
    Fetches p.insts c s := by
  have hplace {u : State} (hu : Reaches (Vm.step (c.withInsts p.insts)) (initState c reg mem) u) :
      ∃ l r, visited p = l ++ u.pc.toNat :: r := by
    obtain ⟨t, -, hsim⟩ := Reaches.simulate (sim_step hp (fun _ => rfl) hcode) hu hstart
    obtain ⟨⟨l, r, hsplit, -⟩, -, -⟩ := hsim
    exact ⟨l, r, hsplit⟩
  -- no instruction of the fragment stores
  have hmem : s.mem = mem := by
    induction hs with
    | refl => rfl
    | @tail u v hu hstep ih =>
        obtain ⟨l, r, hsplit⟩ := hplace hu
        refine (step_mem hstep ?_).trans ih
        exact not_stores_of_supported (hp.supported u.pc.toNat (by rw [hsplit]; simp))
  obtain ⟨l, r, hsplit⟩ := hplace hs
  refine ⟨?_, fun hop => ?_⟩
  · rw [Vm.fetch, hmem]
    exact hc _ (visited_lt (by rw [hsplit]; simp))
  · have hnext : slotOf p s.pc.toNat < p.instNum := hp.slot_lt (by rw [hsplit]; simp)
    have hslots := hp.slots
    have hwide : slotOf p s.pc.toNat = s.pc.toNat + 1 := by simp [slotOf, instRet, hop]
    have hsecond : (s.pc + 1).toNat = s.pc.toNat + 1 := toNat_pc_add (k := 1) (by omega)
    rw [hmem, hsecond]
    exact hc _ (by omega)

/-- Translated code simulates the interpreter. From the end of the prologue,
on the registers the interpreter starts with, it reaches the epilogue with
R1:R0 holding the value the interpreter returns at `EXIT`. -/
theorem jitCompile_simulates (p : Input) (offsets : ℤ → BitVec 32) (hp : CoreFragment p offsets)
    (c : Call) (reg : BitVec 4 → BitVec 64) (mem : Mem)
    (hc : ∀ n < p.instNum, c.vm.insts mem n = p.insts n) (code : Word → BitVec 16) (base : Word)
    (hcode : CodeAt code base (jitCompile p offsets).code) (t₀ : Core) (hfp : aligned (t₀.r 11))
    (hregs : ∀ i < 10, val t₀ (locOf i) = (initState c reg mem).reg i) (v : BitVec 64)
    (hexit : ebpfVmExec c reg mem = .stop (.returned .exit v)) :
    ∃ t : Core, Reaches (Thumb.step code)
        ⟨base + BitVec.ofNat 32 (2 * (buildPrologue p).length), t₀⟩
        ⟨base + BitVec.ofNat 32 (jitCompile p offsets).second.idx, t⟩ ∧
      t.r 1 ++ t.r 0 = v := by
  have hstart : Sim p base (initState c reg mem)
      ⟨base + BitVec.ofNat 32 (2 * (buildPrologue p).length), t₀⟩ := by
    have hne : visited p ≠ [] := List.ne_nil_of_mem hp.last.1
    obtain ⟨q, r, hsplit⟩ := List.exists_cons_of_ne_nil hne
    refine ⟨⟨[], r, ?_, rfl⟩, hregs, hfp⟩
    rw [hsplit, visited_head hsplit]
    rfl
  rw [ebpfVmExec_withInsts fun _ hs => fetches_of_sim hp hc hcode hstart hs] at hexit
  obtain ⟨s, hreach, hstop⟩ := reaches_of_run_stop hexit
  obtain ⟨t, ht, hsim⟩ := Reaches.simulate (sim_step hp (fun _ => rfl) hcode) hreach hstart
  obtain ⟨u, hu, hval⟩ := sim_exit hp (fun _ => rfl) hcode hsim hstop
  exact ⟨u, ht.trans hu, hval⟩

theorem codeAt_getD (pre l : List (BitVec 16)) (h : 2 * (pre.length + l.length) ≤ 2 ^ 32) :
    CodeAt (fun a => (pre ++ l).getD (a.toNat / 2) 0) (BitVec.ofNat 32 (2 * pre.length)) l := by
  induction l generalizing pre with
  | nil => trivial
  | cons hw l ih =>
      rw [List.length_cons] at h
      refine ⟨?_, ?_⟩
      · show (pre ++ hw :: l).getD ((BitVec.ofNat 32 (2 * pre.length)).toNat / 2) 0 = hw
        rw [BitVec.toNat_ofNat, Nat.mod_eq_of_lt (by omega), Nat.mul_div_cancel_left _ (by omega)]
        simp
      · have hlen : 2 * ((pre ++ [hw]).length + l.length) ≤ 2 ^ 32 := by
          simp only [List.length_append, List.length_singleton]
          omega
        have hrest := ih (pre ++ [hw]) hlen
        rw [List.length_append, Nat.mul_add, BitVec.ofNat_add, List.append_assoc] at hrest
        exact hrest

/-- `lddw r2, 5`, `mov r0, 0`, and a loop of `add r0, r2` and `sub r2, 1` while
`r2 > 0`. -/
def sumDown : List (BitVec 8) :=
  [0x18, 0x02, 0, 0, 5, 0, 0, 0, 0, 0, 0, 0, 0, 0, 0, 0, 0xb7, 0x00, 0, 0, 0, 0, 0, 0,
   0x0f, 0x20, 0, 0, 0, 0, 0, 0, 0x17, 0x02, 0, 0, 1, 0, 0, 0,
   0x65, 0x02, 0xfd, 0xff, 0, 0, 0, 0, 0x95, 0x00, 0, 0, 0, 0, 0, 0]

/-- What `jit_compile` reads of it. -/
def sumDownInput : Input where
  insts := codeInst sumDown
  instNum := 7
  callBase := fun _ => 0
  behind := (0, 0)

theorem sumDown_fragment : CoreFragment sumDownInput fun _ => 0 := by
  have hvisited : visited sumDownInput = [0, 2, 3, 4, 5, 6] := by decide +kernel
  have hcases : ∀ pc ∈ visited sumDownInput,
      pc = 0 ∨ pc = 2 ∨ pc = 3 ∨ pc = 4 ∨ pc = 5 ∨ pc = 6 := by
    intro pc hpc
    simpa [hvisited] using hpc
  refine ⟨by decide, ?_, by decide +kernel, ?_, by decide +kernel, ?_⟩
  · intro pc hpc
    rcases hcases pc hpc with rfl | rfl | rfl | rfl | rfl | rfl
    all_goals
      unfold Supported
      exact ⟨by decide, by decide, trivial⟩
  · intro pc hpc hjump
    rcases hcases pc hpc with rfl | rfl | rfl | rfl | rfl | rfl
    case inr.inr.inr.inr.inl =>
      refine ⟨3, by decide, by decide, by decide, ?_⟩
      rintro ⟨q, hq, hop, hthree⟩
      obtain rfl : q = 2 := by omega
      cases hop
    all_goals exact hjump.elim
  · intro _ pc hpc op source hop
    rcases hcases pc hpc with rfl | rfl | rfl | rfl | rfl | rfl
    case inr.inr.inr.inr.inl => exact ⟨by decide +kernel, by decide +kernel⟩
    all_goals cases hop

/-- A core with something in every register but the high half of r1. -/
def busyCore : Core :=
  ⟨fun r => if r = 3 then 0 else 0x20001000 + 4 * r.setWidth 32, true, false, true, false,
    fun _ => 0xa5⟩

def sumDownCall : Call := { callOf sumDown with mem := busyCore.r 2 }

theorem sumDown_simulated :
    ∃ t : Core, Reaches
        (Thumb.step fun a => (jitCompile sumDownInput fun _ => 0).code.getD (a.toNat / 2) 0)
        ⟨26, busyCore⟩
        ⟨BitVec.ofNat 32 (jitCompile sumDownInput fun _ => 0).second.idx, t⟩ ∧
      t.r 1 ++ t.r 0 = (15 : BitVec (32 + 32)) := by
  have hcode := codeAt_getD [] (jitCompile sumDownInput fun _ => 0).code (by decide +kernel)
  have hstands := (callOf_loaded sumDown fun _ => 0).stands
  have hprologue : 2 * (buildPrologue sumDownInput).length = 26 := by decide +kernel
  have hregs : ∀ i < 10, val busyCore (locOf i) = (initState sumDownCall
      (fun i => val busyCore (locOf i)) (memcpy (fun _ => 0) codeBase sumDown)).reg i := by
    decide +kernel
  have hrun : ebpfVmExec sumDownCall (fun i => val busyCore (locOf i))
      (memcpy (fun _ => 0) codeBase sumDown) = .stop (.returned .exit 15) := by
    rfl
  have hsim := jitCompile_simulates sumDownInput (fun _ => 0) sumDown_fragment sumDownCall _ _
    hstands _ 0 hcode busyCore (by decide) hregs 15 hrun
  have hzero (x : Word) : 0 + x = x := BitVec.zero_add x
  rwa [hprologue, hzero, hzero] at hsim

end RapidPatch.Jit

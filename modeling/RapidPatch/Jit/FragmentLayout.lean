import Mathlib.Tactic.SplitIfs
import RapidPatch.Jit.Branches
import RapidPatch.Jit.Fragment
import RapidPatch.Jit.Sizes

/-!
Programs of the fragment are laid out alike by both passes.

The emitted code fits the buffer by assumption, and that is a fact about the
second pass. The first pass reserves no more than the second one uses: the
sizes of the instructions are bounded (`nominal_length_le`), so no
displacement is so large that a branch would be left out. With both passes
in the buffer every branch is in range.
-/

namespace RapidPatch.Jit

open RapidPatch.Vm RapidPatch.Thumb

/-! ### Sizes -/

theorem emitMovImm_length_le (reg : ℤ) (v : BitVec 32) : (emitMovImm reg v).length ≤ 4 := by
  simp only [emitMovImm]
  by_cases hsmall : v ≤ 0xff ∧ reg % 256 < 8
  · rw [if_pos hsmall, emit2_length]
    omega
  · rw [if_neg hsmall, List.length_append, emit4_length]
    split <;> simp

theorem emitMovReg_length_le (src dst : ℤ) : (emitMovReg src dst).length ≤ 2 := by
  unfold emitMovReg
  split <;> simp

theorem armBpfGetReg32_length_le (reg tmp : ℤ) : (armBpfGetReg32 reg tmp).1.length ≤ 2 := by
  unfold armBpfGetReg32 emitLdrI
  split
  · split <;> simp
  · simp

theorem armBpfPutReg32_length_le (reg src : ℤ) : (armBpfPutReg32 reg src).length ≤ 2 := by
  have := emitMovReg_length_le src reg
  unfold armBpfPutReg32 emitStrI
  split
  · simp
  · split
    · omega
    · simp

theorem armBpfGetReg64_length_le (reg tmp : Row) : (armBpfGetReg64 reg tmp).1.length ≤ 2 := by
  unfold armBpfGetReg64 emitLdrdI
  split <;> simp

theorem emitA32MovReg_length_le (src dst : ℤ) : (emitA32MovReg src dst).length ≤ 4 := by
  have h1 := armBpfGetReg32_length_le src tmpReg1.hi
  have h2 := armBpfPutReg32_length_le dst (armBpfGetReg32 src tmpReg1.hi).2
  simp only [emitA32MovReg, List.length_append]
  omega

theorem armBpfPutReg64_length_le (reg src : Row) : (armBpfPutReg64 reg src).length ≤ 8 := by
  have h1 := emitA32MovReg_length_le src.lo reg.lo
  have h2 := emitA32MovReg_length_le src.hi reg.hi
  unfold armBpfPutReg64 emitStrdI
  split
  · simp
  · rw [List.length_append]
    split <;> split <;> simp <;> omega

theorem emitMovI64_length_le (dst : Row) (v : BitVec 64) : (emitMovI64 dst v).length ≤ 16 := by
  set rd := if isStacked dst.lo then tmpReg1 else dst with hrd
  have h1 := emitMovImm_length_le rd.lo (v.setWidth 32)
  have h2 := emitMovImm_length_le rd.hi ((v >>> 32).setWidth 32)
  have h3 := armBpfPutReg64_length_le dst rd
  simp only [emitMovI64, ← hrd, List.length_append]
  omega

theorem emitMovSeImm64_length_le (dst : Row) (v : BitVec 32) :
    (emitMovSeImm64 true dst v).length ≤ 16 := emitMovI64_length_le dst _

theorem emitMovReg64_length_le (dst src : Row) : (emitMovReg64 true dst src).length ≤ 4 := by
  have h1 := emitMovReg_length_le src.lo dst.lo
  have h2 := emitMovReg_length_le src.hi dst.hi
  simp only [emitMovReg64, emitLdrdI, emitStrdI, Bool.not_true, Bool.false_eq_true, if_false]
  split
  · simp
  · split
    · simp
    · split
      · simp
      · rw [List.length_append]
        omega

theorem emitLowOr_length_le (base wide : BitVec 32) (rd rn : ℤ) :
    (emitLowOr base wide rd rn).length ≤ 2 := by
  unfold emitLowOr
  split <;> simp

theorem emitAluOp_length_le (rd rn : ℤ) (is64 hiWord : Bool) (op : AluOp) :
    (emitAluOp rd rn is64 hiWord op).length ≤ 2 := by
  cases op with
  | add =>
      simp only [emitAluOp, emitAddReg]
      split
      · split <;> simp
      · simp
  | sub =>
      simp only [emitAluOp, emitSubReg]
      split
      · simp
      · split
        · simp
        · split <;> simp
  | or =>
      simp only [emitAluOp, emitOrrReg]
      split <;> simp
  | and =>
      simp only [emitAluOp, emitAndReg]
      split <;> simp
  | xor => exact emitLowOr_length_le _ _ _ _
  | mul => exact emitLowOr_length_le _ _ _ _
  | lsh => exact emitLowOr_length_le _ _ _ _
  | rsh => exact emitLowOr_length_le _ _ _ _
  | arsh => exact emitLowOr_length_le _ _ _ _
  | div => simp [emitAluOp]
  | mod => simp [emitAluOp]
  | mov => simp [emitAluOp]

theorem emitAlu32Reg_length_le (dst src : ℤ) (is64 hiWord : Bool) (op : AluOp) :
    (emitAlu32Reg dst src is64 hiWord op).length ≤ 8 := by
  have h1 := armBpfGetReg32_length_le src tmpReg1.lo
  have h2 := armBpfGetReg32_length_le dst tmpReg1.hi
  have h3 := emitAluOp_length_le (armBpfGetReg32 dst tmpReg1.hi).2
    (armBpfGetReg32 src tmpReg1.lo).2 is64 hiWord op
  have h4 := armBpfPutReg32_length_le dst (armBpfGetReg32 dst tmpReg1.hi).2
  simp only [emitAlu32Reg, List.length_append]
  omega

theorem emitAlu64Reg_length_le (dst src : Row) (op : AluOp) :
    (emitAlu64Reg true dst src op).length ≤ 28 := by
  have h1 := armBpfGetReg64_length_le dst tmpReg1
  have h2 := armBpfGetReg64_length_le src tmpReg2
  have h3 := emitAlu32Reg_length_le (armBpfGetReg64 dst tmpReg1).2.lo
    (armBpfGetReg64 src tmpReg2).2.lo true false op
  have h4 := emitAlu32Reg_length_le (armBpfGetReg64 dst tmpReg1).2.hi
    (armBpfGetReg64 src tmpReg2).2.hi true true op
  have h5 := armBpfPutReg64_length_le dst (armBpfGetReg64 dst tmpReg1).2
  simp only [emitAlu64Reg, if_true, List.length_append]
  omega

theorem emitA32MulR64_length_le (dst src : Row) : (emitA32MulR64 dst src).length ≤ 16 := by
  have h1 := armBpfGetReg64_length_le dst tmpReg1
  have h2 := armBpfGetReg64_length_le src tmpReg2
  have h3 := armBpfPutReg32_length_le dst.lo armIp
  have h4 := armBpfPutReg32_length_le dst.hi (armBpfGetReg64 dst tmpReg1).2.hi
  simp only [emitA32MulR64, List.length_append, emit2_length, emit4_length]
  omega

theorem emitA32RshI64_length_le (dst : Row) (amount : BitVec 16) :
    (emitA32RshI64 dst amount).length ≤ 16 := by
  have h1 := armBpfGetReg64_length_le dst tmpReg1
  have h2 := armBpfPutReg64_length_le dst (armBpfGetReg64 dst tmpReg1).2
  have h3 := emitMovReg_length_le (armBpfGetReg64 dst tmpReg1).2.hi
    (armBpfGetReg64 dst tmpReg1).2.lo
  have h4 := emitMovImm_length_le (armBpfGetReg64 dst tmpReg1).2.hi 0
  simp only [emitA32RshI64, List.length_append]
  split
  · simp only [List.length_nil]
    omega
  · split
    · simp only [List.length_append, emit4_length]
      omega
    · split <;> simp only [List.length_append, emit4_length] <;> omega

theorem emitA32ArshI64_length_le (dst : Row) (v : BitVec 32) :
    (emitA32ArshI64 dst v).length ≤ 16 := by
  have h1 := armBpfGetReg64_length_le dst tmpReg1
  have h2 := armBpfPutReg64_length_le dst (armBpfGetReg64 dst tmpReg1).2
  have h3 := emitMovReg_length_le (armBpfGetReg64 dst tmpReg1).2.hi
    (armBpfGetReg64 dst tmpReg1).2.lo
  simp only [emitA32ArshI64, List.length_append]
  split
  · simp only [List.length_nil]
    omega
  · split
    · simp only [List.length_append, emit4_length]
      omega
    · split <;> simp only [List.length_append, emit4_length] <;> omega

theorem jmpOperands_length_le (dst src : Row) (source : Src) (imm : BitVec 32) :
    (jmpOperands dst src source imm).1.length ≤ 18 := by
  have h1 := armBpfGetReg64_length_le dst tmpReg1
  cases source with
  | imm =>
      have h2 := emitMovSeImm64_length_le tmpReg2 imm
      simp only [jmpOperands, List.length_append]
      omega
  | reg =>
      have h2 := armBpfGetReg32_length_le src.hi tmpReg2.hi
      have h3 := armBpfGetReg32_length_le src.lo tmpReg2.lo
      simp only [jmpOperands, List.length_append]
      omega

theorem buildAlu64_length_le {i : Inst} {op : AluOp} {source : Src} (dst src : Row)
    (hop : i.op = .alu64 op source) (hs : Supported i) :
    (buildAlu64 dst src i.imm op source).code.length ≤ 44 := by
  have hkind := hs.2.2
  rw [hop] at hkind
  have himm := emitMovSeImm64_length_le tmpReg2 i.imm
  cases source with
  | imm =>
      have halu := emitAlu64Reg_length_le dst tmpReg2 op
      cases op with
      | mov =>
          have := emitMovSeImm64_length_le dst i.imm
          simp only [buildAlu64, built]
          omega
      | add | sub | and =>
          simp only [buildAlu64, built, List.length_append]
          omega
      | mul =>
          have := emitA32MulR64_length_le dst tmpReg2
          simp only [buildAlu64, built, List.length_append]
          omega
      | rsh =>
          have := emitA32RshI64_length_le dst (i.imm.setWidth 16)
          simp only [buildAlu64, built]
          omega
      | arsh =>
          have := emitA32ArshI64_length_le dst i.imm
          simp only [buildAlu64, built]
          omega
      | _ => exact hkind.elim
  | reg =>
      have halu := emitAlu64Reg_length_le dst src op
      cases op with
      | mov =>
          have := emitMovReg64_length_le dst src
          have hzero : i.imm = 0 := hkind
          simp only [buildAlu64, built, hzero]
          rw [if_neg (by decide)]
          omega
      | add | sub | and =>
          simp only [buildAlu64, built]
          omega
      | mul =>
          have := emitA32MulR64_length_le dst src
          simp only [buildAlu64, built]
          omega
      | _ => exact hkind.elim

/-- Whatever the displacement, an instruction has no branch, a `B` or a
conditional one. -/
theorem branchCode_form (p : Input) (pc : ℕ) :
    (∀ d, branchCode p pc d = []) ∨ (∀ d, branchCode p pc d = emitB d) ∨
      ∃ cond, ∀ d, branchCode p pc d = emitBCond p.instNum d cond := by
  unfold branchCode
  cases (p.insts pc).op with
  | jmp op source =>
      simp only [emitJump]
      split
      · exact .inl fun _ => rfl
      · cases jumpCond op with
        | none => exact .inl fun _ => rfl
        | some cond => exact .inr (.inr ⟨cond, fun _ => rfl⟩)
  | ja =>
      simp only
      split
      · exact .inl fun _ => rfl
      · exact .inr (.inl fun _ => rfl)
  | exit =>
      simp only
      split
      · exact .inl fun _ => rfl
      · exact .inr (.inl fun _ => rfl)
  | _ => exact .inl fun _ => rfl

theorem branchCode_length_le (p : Input) (pc : ℕ) (d : BitVec 32) :
    (branchCode p pc d).length ≤ 2 := by
  have hb : (emitB d).length ≤ 2 := by
    rw [emitB_length]
    split
    · omega
    · split <;> omega
  have hc : ∀ cond, (emitBCond p.instNum d cond).length ≤ 2 := by
    intro cond
    rw [emitBCond_length]
    split
    · omega
    · split <;> omega
  rcases branchCode_form p pc with hnone | hB | ⟨cond, hcond⟩
  · rw [hnone]
    exact Nat.zero_le _
  · rw [hB]
    exact hb
  · rw [hcond]
    exact hc cond

/-- No instruction of the fragment takes more than a hundred bytes. -/
theorem nominal_length_le {p : Input} {pc : ℕ} (hs : Supported (p.insts pc)) :
    (nominal p pc).length ≤ 50 := by
  have hbr := branchCode_length_le p pc 0
  have hfixed : (fixedCode p pc).length ≤ 44 := by
    unfold fixedCode
    cases hop : (p.insts pc).op with
    | alu64 op source =>
        have := buildAlu64_length_le (bpf2a32 p.behind (p.insts pc).dst)
          (bpf2a32 p.behind (p.insts pc).src) hop hs
        simpa only [buildInst, hop] using this
    | lddw =>
        have := emitMovI64_length_le (bpf2a32 p.behind (p.insts pc).dst)
          ((p.insts pc).imm.setWidth 64 ||| (p.insts (pc + 1)).imm.setWidth 64 <<< 32)
        simp only [buildInst, hop]
        omega
    | jmp op source =>
        have hkind := hs.2.2
        rw [hop] at hkind
        have hops := jmpOperands_length_le (bpf2a32 p.behind (p.insts pc).dst)
          (bpf2a32 p.behind (p.insts pc).src) source (p.insts pc).imm
        by_cases hskip : source = .imm ∧ (p.insts pc).offset = 0
        · simp only [hop, if_pos hskip, List.length_nil]
          omega
        · simp only [hop, if_neg hskip]
          cases op with
          | jsgt | jsge =>
              simp only [emitCmpCond, List.length_append, emitCmpReg_length, emit4_length]
              omega
          | _ => exact hkind.elim
    | ja => simp [hop]
    | exit => simp [hop]
    | _ =>
        have hkind := hs.2.2
        rw [hop] at hkind
        exact hkind.elim
  rw [nominal, List.length_append]
  omega

/-- A branch over any distance that can occur takes at least its nominal
size. -/
theorem branchCode_length_ge (p : Input) (pc : ℕ) {d : BitVec 32} (hlo : -1048576 < d.toInt)
    (hhi : d.toInt < 1048574) : (branchCode p pc 0).length ≤ (branchCode p pc d).length := by
  have hzero : (0 : BitVec 32).toInt = 0 := by decide
  have hb : (emitB 0).length ≤ (emitB d).length := by
    rw [emitB_length, emitB_length, hzero]
    split_ifs <;> omega
  have hc : ∀ cond, (emitBCond p.instNum 0 cond).length ≤ (emitBCond p.instNum d cond).length := by
    intro cond
    rw [emitBCond_length, emitBCond_length, hzero]
    cases useB4 p.instNum with
    | true => simp [hlo, hhi]
    | false =>
        simp only [true_and]
        split_ifs <;> omega
  rcases branchCode_form p pc with hnone | hB | ⟨cond, hcond⟩
  · rw [hnone]
    exact Nat.zero_le _
  · rw [hB, hB]
    exact hb
  · rw [hcond, hcond]
    exact hc cond

/-! ### The fragment -/

def condDisplacement (p : Input) (offsets : ℤ → BitVec 32) (pc : ℕ) : BitVec 32 :=
  bpf2a32Offset (secondPass p offsets) pc (pc + (p.insts pc).offset.toInt) (branchSize p.instNum)

/-- A program of at most 256 slots, all of whose instructions are in the
fragment, that ends with `EXIT` and jumps to instructions but not to the
first one, whose code fits the buffer, and, if it is short, whose conditional
branches fit their short encoding. -/
structure CoreFragment (p : Input) (offsets : ℤ → BitVec 32) : Prop where
  slots : p.instNum ≤ 256
  supported : ∀ pc ∈ visited p, Supported (p.insts pc)
  last : p.instNum - 1 ∈ visited p ∧ (p.insts (p.instNum - 1)).op = .exit
  targets : ∀ pc ∈ visited p, IsJump p pc →
    ∃ t : ℕ, (t : ℤ) = pc + 1 + (p.insts pc).offset.toInt ∧ 1 ≤ t ∧ t < p.instNum ∧
      ¬IsSecondSlot p t
  fits : 2 * (jitCompile p offsets).code.length ≤ jitBufferSize
  near : p.instNum ≤ 20 → ∀ pc ∈ visited p, ∀ op source,
    (p.insts pc).op = .jmp op source →
      -256 ≤ (condDisplacement p offsets pc).toInt ∧ (condDisplacement p offsets pc).toInt ≤ 254

theorem instRet_of_supported {i : Inst} (hs : Supported i) :
    0 ≤ instRet i ∧ (0 < instRet i → i.op = .lddw) := by
  have hkind := hs.2.2
  unfold instRet
  cases hop : i.op with
  | lddw => simp
  | alu op source =>
      rw [hop] at hkind
      exact hkind.elim
  | le | be =>
      rw [hop] at hkind
      exact hkind.elim
  | _ => simp

namespace CoreFragment

variable {p : Input} {offsets : ℤ → BitVec 32} (hp : CoreFragment p offsets)

include hp

theorem target_mem {t : ℕ} (ht : t < p.instNum) (hslot : ¬IsSecondSlot p t) : t ∈ visited p := by
  have hok : ∀ pc ∈ visited p, 0 ≤ instRet (p.insts pc) :=
    fun pc hpc => (instRet_of_supported (hp.supported pc hpc)).1
  rcases mem_visit_or p.instNum 0 hok (Nat.zero_le t) (by omega) with h | ⟨pc, hpc, hpos, rfl⟩
  · exact h
  · exact absurd ⟨pc, hpc, (instRet_of_supported (hp.supported pc hpc)).2 hpos, rfl⟩ hslot

theorem next {l r : List ℕ} {pc : ℕ} (hsplit : visited p = l ++ pc :: r) :
    (r = [] ∧ pc = p.instNum - 1) ∨ ∃ r', r = (slotOf p pc + 1) :: r' := by
  rcases r with _ | ⟨q, r'⟩
  · left
    refine ⟨rfl, ?_⟩
    have hmem := hp.last.1
    have hlt : pc < p.instNum := visited_lt (by rw [hsplit]; simp)
    rw [hsplit, List.mem_append, List.mem_singleton] at hmem
    rcases hmem with hmem | hmem
    · -- an instruction in front of `pc` lies below it
      obtain ⟨l₁, l₂, rfl⟩ := List.append_of_mem hmem
      have hfirst : visited p = l₁ ++ (p.instNum - 1) :: (l₂ ++ [pc]) := by rw [hsplit]; simp
      have hslot : slotOf p (p.instNum - 1) < pc := slot_lt_of_split hfirst (by simp)
      have := le_slotOf p (p.instNum - 1)
      omega
    · exact hmem.symm
  · right
    exact ⟨r', by rw [(next_of_split hsplit).1]⟩

theorem slot_lt {pc : ℕ} (hpc : pc ∈ visited p) : slotOf p pc < p.instNum := by
  obtain ⟨l, r, hsplit⟩ := List.append_of_mem hpc
  rcases hp.next hsplit with ⟨_, hlast⟩ | ⟨r', rfl⟩
  · have hexit := hp.last.2
    rw [← hlast] at hexit
    have hslot : slotOf p pc = pc := by simp [slotOf, instRet, hexit]
    rw [hslot]
    exact visited_lt hpc
  · have : slotOf p pc + 1 < p.instNum := visited_lt (by rw [hsplit]; simp)
    omega

/-! The sizes of the first pass. -/

theorem nominalIdx_small {l r : List ℕ} (hsplit : visited p = l ++ r) :
    nominalIdx p l ≤ 30000 := by
  have hlen : (visited p).length ≤ 256 := Nat.le_trans (visit_length_le _ _) hp.slots
  have hprologue : (buildPrologue p).length ≤ 100 := by
    rw [show buildPrologue p = buildPrologue longJump from rfl]
    decide
  have hall : ∀ pc ∈ l, (nominal p pc).length ≤ 50 :=
    fun pc hpc => nominal_length_le (hp.supported pc (by rw [hsplit]; simp [hpc]))
  have hflat : (l.flatMap (nominal p)).length ≤ 50 * l.length := by
    clear hsplit
    induction l with
    | nil => simp
    | cons pc l ih =>
        have hpc := hall pc (by simp)
        have := ih fun q hq => hall q (by simp [hq])
        simp only [List.flatMap_cons, List.length_append, List.length_cons]
        omega
  rw [hsplit, List.length_append] at hlen
  unfold nominalIdx
  omega

omit hp in
theorem toInt_distance {a b : ℕ} (ha : a ≤ 30000) (hb : b ≤ 30000) :
    (BitVec.ofNat 32 a - BitVec.ofNat 32 b - 4).toInt = a - b - 4 := by
  have h4 : (4 : BitVec 32).toNat = 4 := rfl
  have hcond := (BitVec.ofNat 32 a - BitVec.ofNat 32 b - 4).toInt_eq_toNat_cond
  rw [hcond]
  simp only [BitVec.toNat_sub, BitVec.toNat_ofNat, h4]
  split <;> omega

/-- The displacement of a jump in the layout of the first pass. -/
theorem displacement_eq {l r : List ℕ} {pc : ℕ} (hsplit : visited p = l ++ pc :: r)
    (hjump : IsJump p pc) (hne : branchCode p pc 0 ≠ []) (idx : ℕ) :
    ∃ lt rt, visited p = lt ++ rt ∧
      displacement p (secondPass p offsets) idx pc = BitVec.ofNat 32 (nominalIdx p lt) -
        BitVec.ofNat 32 (nominalIdx p l + 2 * (fixedCode p pc).length) - 4 := by
  have hpc : pc ∈ visited p := by rw [hsplit]; simp
  obtain ⟨t, ht, hpos, hlt, hslot⟩ := hp.targets pc hpc hjump
  obtain ⟨lt, rt, htarget⟩ := List.append_of_mem (hp.target_mem hlt hslot)
  refine ⟨lt, t :: rt, htarget, ?_⟩
  rw [displacement_jump hjump hne, table_from offsets hsplit hjump,
    show (pc + (p.insts pc).offset.toInt : ℤ) = t - 1 by omega,
    table_before offsets htarget (by omega)]

omit hp in
theorem branch_end (l : List ℕ) (pc : ℕ) :
    nominalIdx p l + 2 * (fixedCode p pc).length + 2 * (branchCode p pc 0).length =
      nominalIdx p (l ++ [pc]) := by
  rw [nominalIdx_concat, nominal, List.length_append]
  omega

theorem displacement_small {l r : List ℕ} {pc : ℕ} (hsplit : visited p = l ++ pc :: r)
    (hne : branchCode p pc 0 ≠ []) {idx : ℕ} (hidx : idx ≤ 30000) :
    -40000 < (displacement p (secondPass p offsets) idx pc).toInt ∧
      (displacement p (secondPass p offsets) idx pc).toInt < 40000 := by
  have hconcat : visited p = (l ++ [pc]) ++ r := by rw [hsplit]; simp
  have hfrom := branch_end (p := p) l pc
  have hend := hp.nominalIdx_small hconcat
  by_cases hjump : IsJump p pc
  · obtain ⟨lt, rt, hlt, hd⟩ := hp.displacement_eq hsplit hjump hne idx
    have hto := hp.nominalIdx_small hlt
    rw [hd, toInt_distance hto (by omega)]
    omega
  · -- what is left with a branch is `EXIT`
    unfold IsJump at hjump
    have hexit : (p.insts pc).op = .exit := by
      unfold branchCode at hne
      cases hop : (p.insts pc).op <;> simp_all
    have hall := hp.nominalIdx_small (show visited p = visited p ++ [] by simp)
    simp only [displacement, hexit]
    rw [show epilogueOffset (secondPass p offsets) idx =
      BitVec.ofNat 32 (nominalIdx p (visited p)) - BitVec.ofNat 32 idx - 4 from rfl,
      toInt_distance hall hidx]
    omega

/-- The first pass reserves no more than the second one uses. -/
theorem nominalIdx_le_second (l r : List ℕ) (hsplit : visited p = l ++ r) :
    nominalIdx p l ≤ (secondState p offsets l).idx := by
  induction l using List.reverseRecOn generalizing r with
  | nil => rw [secondState_nil_idx, nominalIdx_nil]
  | append_singleton l pc ih =>
      have hpc : visited p = l ++ pc :: r := by rw [hsplit]; simp
      have hidx := ih _ hpc
      have hsmall : (secondState p offsets l).idx ≤ 30000 := by
        have hle := secondState_idx_append_le (p := p) offsets l (pc :: r)
        have hfits := hp.fits
        rw [code_length, jitCompile_second, hpc] at hfits
        simp only [jitBufferSize] at hfits
        omega
      rw [secondState_concat_idx, nominalIdx_concat, secondCode, buildInst_code, nominal,
        List.length_append, List.length_append]
      by_cases hne : branchCode p pc 0 = []
      · rw [hne, List.length_nil]
        omega
      · obtain ⟨hlo, hhi⟩ := hp.displacement_small hpc hne hsmall
        have := branchCode_length_ge p pc (Int.lt_trans (by omega) hlo)
          (Int.lt_trans hhi (by omega))
        omega

/-- The code and the epilogue fit the buffer where the first pass puts them. -/
theorem nominalIdx_fits :
    nominalIdx p (visited p) + 2 * buildEpilogue.length ≤ jitBufferSize := by
  have hle := hp.nominalIdx_le_second (visited p) [] (by simp)
  have hfits := hp.fits
  rw [code_length, jitCompile_second] at hfits
  omega

theorem nominalIdx_le (l r : List ℕ) (hsplit : visited p = l ++ r) : nominalIdx p l ≤ 2040 := by
  have hfits := hp.nominalIdx_fits
  have hepi : 2 * buildEpilogue.length = 8 := by decide
  have hbuf : jitBufferSize = 2048 := rfl
  have hle := nominalIdx_append_le (p := p) l r
  rw [← hsplit] at hle
  omega

/-- A jump within the buffer is in reach of a branch. -/
theorem nominalDisplacement_jump {l r : List ℕ} {pc : ℕ} (hsplit : visited p = l ++ pc :: r)
    (hjump : IsJump p pc) (hne : branchCode p pc 0 ≠ []) :
    -2048 < (nominalDisplacement p offsets l pc).toInt ∧
      (nominalDisplacement p offsets l pc).toInt < 2046 := by
  obtain ⟨lt, rt, hlt, hd⟩ := hp.displacement_eq hsplit hjump hne (nominalIdx p l)
  have hto := hp.nominalIdx_le _ _ hlt
  have hend := hp.nominalIdx_le (l ++ [pc]) r (by rw [hsplit]; simp)
  have hfrom := branch_end (p := p) l pc
  have hpos := List.length_pos_iff.mpr hne
  rw [nominalDisplacement, hd, toInt_distance (by omega) (by omega)]
  omega

/-- So is the epilogue, which stands behind every instruction. -/
theorem nominalDisplacement_exit {l r : List ℕ} {pc : ℕ} (hsplit : visited p = l ++ pc :: r)
    (hop : (p.insts pc).op = .exit) :
    -2048 < (nominalDisplacement p offsets l pc).toInt ∧
      (nominalDisplacement p offsets l pc).toInt < 2046 := by
  have hall := hp.nominalIdx_le (visited p) [] (by simp)
  have hl := hp.nominalIdx_le l _ hsplit
  have hmono := nominalIdx_append_le (p := p) l (pc :: r)
  rw [← hsplit] at hmono
  have hd : nominalDisplacement p offsets l pc =
      BitVec.ofNat 32 (nominalIdx p (visited p)) - BitVec.ofNat 32 (nominalIdx p l) - 4 := by
    simp only [nominalDisplacement, displacement, hop]
    rfl
  rw [hd, toInt_distance (by omega) (by omega)]
  omega

theorem branchFits {l r : List ℕ} {pc : ℕ} (hsplit : visited p = l ++ pc :: r) :
    BranchFits p pc (nominalDisplacement p offsets l pc) := by
  have hpc : pc ∈ visited p := by rw [hsplit]; simp
  unfold BranchFits
  cases hop : (p.insts pc).op with
  | jmp op source =>
      have hjump : IsJump p pc := by simp only [IsJump, hop]
      by_cases hskip : source = .imm ∧ (p.insts pc).offset = 0
      · exact Or.inl hskip
      right
      by_cases hcond : jumpCond op = none
      · exact Or.inl hcond
      right
      cases hb4 : useB4 p.instNum with
      | true =>
          obtain ⟨cond, hsome⟩ := Option.ne_none_iff_exists'.mp hcond
          have hne : branchCode p pc 0 ≠ [] := by
            simp only [branchCode, hop, if_neg hskip, emitJump, hsome]
            rw [← List.length_pos_iff, emitBCond_length, hb4]
            decide
          have hd := hp.nominalDisplacement_jump hsplit hjump hne
          simp only [if_true]
          omega
      | false =>
          -- a short branch reaches its target only if that is near, which the fragment asks for
          have hn : p.instNum ≤ 20 := by simpa [useB4] using hb4
          have hnear := hp.near hn pc hpc op source hop
          have hd : nominalDisplacement p offsets l pc = condDisplacement p offsets pc := by
            simp only [nominalDisplacement, displacement, hop, condDisplacement]
          rw [hd]
          exact hnear
  | ja =>
      have hjump : IsJump p pc := by simp only [IsJump, hop]
      by_cases hskip : (p.insts pc).offset = 0
      · exact Or.inl hskip
      · refine Or.inr (hp.nominalDisplacement_jump hsplit hjump ?_)
        simp only [branchCode, hop, if_neg hskip]
        decide
  | exit => exact Or.inr (hp.nominalDisplacement_exit hsplit hop)
  | _ => trivial

/-- The passes agree on the layout of a program of the fragment. -/
theorem layoutAgrees : LayoutAgrees p offsets :=
  LayoutAgrees.of_fit
    ⟨fun _ hpc => Nat.lt_of_lt_of_le (hp.slot_lt hpc) hp.slots, hp.nominalIdx_fits,
      fun _ _ _ hsplit => hp.branchFits hsplit⟩

end CoreFragment

end RapidPatch.Jit

import RapidPatch.Jit.Gen
import RapidPatch.Jit.Sizes

/-!
Where the translator writes.

`emit_bytes` and the first pass write without a check, and a call of
`gen_jit_code` returns nothing. So a translation stays in the memory that
`jit_mem_allocate` returned exactly if it is small enough (`compile_inside_iff`).
How large it is follows from the sizes of the instructions: `outputSize`
adds them up, with each branch over the distance that the sizes of the first
pass give it.
-/

namespace RapidPatch.Jit

open RapidPatch.Vm RapidPatch.Support

variable {p : Input} {offsets : ℤ → BitVec 32}

/-! ### The layout from the sizes -/

def bCondSize (instNum : ℕ) (d : BitVec 32) : ℕ :=
  if useB4 instNum = false ∧ -256 ≤ d.toInt ∧ d.toInt ≤ 254 then 1
  else if -1048576 < d.toInt ∧ d.toInt < 1048574 then 2 else 0

def bSize (d : BitVec 32) : ℕ :=
  if -2048 < d.toInt ∧ d.toInt < 2046 then 1
  else if -16777216 < d.toInt ∧ d.toInt < 16777214 then 2 else 0

/-- The halfwords of an instruction's branch over a distance. -/
def jumpSize (p : Input) (pc : ℕ) (d : BitVec 32) : ℕ :=
  match (p.insts pc).op with
  | .jmp op source =>
      if (source = .imm ∧ (p.insts pc).offset = 0) ∨ jumpCond op = none then 0
      else bCondSize p.instNum d
  | .ja => if (p.insts pc).offset = 0 then 0 else bSize d
  | .exit => if (pc : ℤ) = p.instNum - 1 then 0 else bSize d
  | _ => 0

/-- The bytes of `build_prologue` and of `build_epilogue`. -/
def prologueSize : ℕ := 26

def epilogueSize : ℕ := 8

/-- The bytes of an instruction, with a distance for its branch. -/
def byteSize (p : Input) (pc : ℕ) (d : BitVec 32) : ℕ := 2 * (instSize p pc + jumpSize p pc d)

/-- The ends of some instructions in the first pass, entered from an index on
over what memory held before. -/
def endTable (p : Input) : ℕ → List ℕ → (ℤ → BitVec 32) → ℤ → BitVec 32
  | _, [], offsets => offsets
  | idx, pc :: r, offsets =>
      let idx := idx + byteSize p pc 0
      endTable p idx r fun j => if j = (slotOf p pc : ℤ) then BitVec.ofNat 32 idx else offsets j

/-- What the branches of the second pass are computed from. -/
def sizedPass (p : Input) (offsets : ℤ → BitVec 32) : Pass where
  needGen := true
  offsets := endTable p prologueSize (visited p) offsets
  epilogueOffset :=
    BitVec.ofNat 32 ((visited p).foldl (fun idx pc => idx + byteSize p pc 0) prologueSize)

def endOf (p : Input) (offsets : ℤ → BitVec 32) (l : List ℕ) : ℕ :=
  l.foldl (fun idx pc => idx + byteSize p pc (displacement p (sizedPass p offsets) idx pc))
    prologueSize

def outputSize (p : Input) (offsets : ℤ → BitVec 32) : ℕ :=
  endOf p offsets (visited p) + epilogueSize

theorem branchCode_length (pc : ℕ) (d : BitVec 32) :
    (branchCode p pc d).length = jumpSize p pc d := by
  unfold branchCode jumpSize
  cases hop : (p.insts pc).op with
  | jmp op source =>
      by_cases hskip : source = .imm ∧ (p.insts pc).offset = 0
      · simp only [hskip, and_self, true_or, if_true, List.length_nil]
      · cases hcond : jumpCond op with
        | none => simp only [hskip, hcond, emitJump, or_true, if_true, if_false, List.length_nil]
        | some cond =>
            simp only [hskip, hcond, emitJump, reduceCtorEq, or_self, if_false]
            exact emitBCond_length ..
  | ja =>
      simp only [apply_ite List.length, List.length_nil]
      rw [emitB_length]
      rfl
  | exit =>
      simp only [apply_ite List.length, List.length_nil]
      rw [emitB_length]
      rfl
  | _ => rfl

theorem buildPrologue_length : 2 * (buildPrologue p).length = prologueSize := by
  rw [show buildPrologue p = buildPrologue longJump from rfl]
  decide

theorem buildEpilogue_length : 2 * buildEpilogue.length = epilogueSize := by decide

theorem buildInst_length (pass : Pass) (idx pc : ℕ) :
    2 * (buildInst p pass idx pc).code.length = byteSize p pc (displacement p pass idx pc) := by
  rw [buildInst_code, List.length_append, fixedCode_length, branchCode_length, byteSize]

theorem nominal_length (pc : ℕ) : 2 * (nominal p pc).length = byteSize p pc 0 := by
  rw [nominal, List.length_append, fixedCode_length, branchCode_length, byteSize]

theorem nominalIdx_eq (l : List ℕ) :
    nominalIdx p l = l.foldl (fun idx pc => idx + byteSize p pc 0) prologueSize := by
  induction l using List.reverseRecOn with
  | nil => rw [nominalIdx_nil, buildPrologue_length, List.foldl_nil]
  | append_singleton l pc ih =>
      rw [nominalIdx_concat, ih, nominal_length, List.foldl_concat]

theorem endTable_eq (l r : List ℕ) (offsets : ℤ → BitVec 32) :
    endTable p (nominalIdx p l) r offsets = nominalTable p offsets l r := by
  induction r generalizing l offsets with
  | nil => rfl
  | cons pc r ih =>
      simp only [endTable, nominalTable, ← nominal_length, ← nominalIdx_concat]
      exact ih ..

theorem sizedPass_eq : sizedPass p offsets = secondPass p offsets := by
  have htable := endTable_eq (p := p) [] (visited p) offsets
  rw [nominalIdx_nil, buildPrologue_length] at htable
  rw [sizedPass, secondPass, htable, nominalIdx_eq]

/-- The sizes give the index of the second pass. -/
theorem secondState_idx (l : List ℕ) : (secondState p offsets l).idx = endOf p offsets l := by
  induction l using List.reverseRecOn with
  | nil => rw [secondState_nil_idx, buildPrologue_length, endOf, List.foldl_nil]
  | append_singleton l pc ih =>
      rw [secondState_concat_idx, secondCode, buildInst_length, ih, ← sizedPass_eq, endOf, endOf,
        List.foldl_concat]

theorem codeBytes_outputSize :
    (codeBytes (jitCompile p offsets).code).length = outputSize p offsets := by
  rw [codeBytes_length, code_length, jitCompile_second, secondState_idx, buildEpilogue_length,
    outputSize]

/-! ### The memory -/

/-- What `jit_mem_allocate` returns, with the bytes that are behind
`jmp_offsets`. -/
structure JitArea extends JitMem where
  offsetSize : ℕ

/-- With `JIT_STATIC_MEM`. -/
def staticArea (im : Image) : JitArea where
  jitCode := im.jitBuffer
  codeSize := jitBufferSize
  jmpOffsets := im.offsetMem
  offsetSize := 1024

/-- Without it; the addresses are what `ebpf_malloc` returns. -/
def dynamicArea (jitCode jmpOffsets : BitVec 32) (instsNum : ℕ) : JitArea where
  jitCode := jitCode
  codeSize := 10 * instsNum + 16
  jmpOffsets := jmpOffsets
  offsetSize := 4 * instsNum + 16

namespace JitArea

/-- `state->jit_code`, which `jit_state_set_mem` aligns. -/
def start (a : JitArea) : ℕ := (a.jitCode &&& ~~~3#32).toNat

/-- `vm->jit_func` after the call, whatever `jit_compile` did. -/
def jitFunc (a : JitArea) : BitVec 32 := a.jitCode ||| 1#32

/-- The writes of `emit_bytes` stay in the code area, and those of the first
pass in the table. -/
structure Inside (a : JitArea) (p : Input) (offsets : ℤ → BitVec 32) : Prop where
  code : ∀ i < (codeBytes (jitCompile p offsets).code).length,
    a.jitCode.toNat ≤ a.start + i ∧ ((a.start + i : ℕ) : ℤ) < a.jitCode.toNat + a.codeSize
  slots : ∀ pc ∈ visited p, 4 * slotOf p pc + 4 ≤ a.offsetSize

/-- A caller sees an error if it gets no `jit_func`: the call returns nothing,
and its `jit_state` is gone. -/
def ReportsError (a : JitArea) : Prop := a.jitFunc = 0

theorem not_reportsError (a : JitArea) : ¬a.ReportsError := by
  intro h
  have hbit := congrArg (fun x : BitVec 32 => x.getLsbD 0) h
  simp [jitFunc] at hbit

theorem code_inside_iff (a : JitArea) (p : Input) (offsets : ℤ → BitVec 32) :
    (∀ i < (codeBytes (jitCompile p offsets).code).length,
        a.jitCode.toNat ≤ a.start + i ∧ ((a.start + i : ℕ) : ℤ) < a.jitCode.toNat + a.codeSize) ↔
      a.jitCode.toNat % 4 = 0 ∧ (outputSize p offsets : ℤ) ≤ a.codeSize := by
  have hstart : a.start = a.jitCode.toNat / 4 * 4 := toNat_and_not_three _
  have hpos : epilogueSize ≤ outputSize p offsets := Nat.le_add_left ..
  rw [codeBytes_outputSize, hstart]
  unfold epilogueSize at hpos
  constructor
  · intro h
    have hfirst := h 0 (by omega)
    have hlast := h (outputSize p offsets - 1) (by omega)
    omega
  · rintro ⟨haligned, hsize⟩ i hi
    omega

end JitArea

/-- A slot of the table is at most the number of instructions. -/
theorem slotOf_le {pc : ℕ} (hpc : pc ∈ visited p) : slotOf p pc ≤ p.instNum := by
  have hlt := visited_lt hpc
  unfold slotOf
  split <;> omega

/-- Every write of a translation is inside what was allocated for it, or the caller
sees an error, exactly if the code area is aligned, the sizes add up to no more
than it has, and, with the static table, no instruction has a slot from 256 on. -/
theorem compile_inside_iff (p : Input) (offsets : ℤ → BitVec 32) (im : Image)
    (jitCode jmpOffsets : BitVec 32) :
    ((staticArea im).Inside p offsets ∨ (staticArea im).ReportsError ↔
      im.jitBuffer.toNat % 4 = 0 ∧ outputSize p offsets ≤ 2048 ∧
        ∀ pc ∈ visited p, slotOf p pc < 256) ∧
    ((dynamicArea jitCode jmpOffsets p.instNum).Inside p offsets ∨
        (dynamicArea jitCode jmpOffsets p.instNum).ReportsError ↔
      jitCode.toNat % 4 = 0 ∧ outputSize p offsets ≤ 10 * p.instNum + 16) := by
  have hcode := (staticArea im).code_inside_iff p offsets
  have hcode' := (dynamicArea jitCode jmpOffsets p.instNum).code_inside_iff p offsets
  have hstatic : (staticArea im).codeSize = 2048 := rfl
  have hdynamic : (dynamicArea jitCode jmpOffsets p.instNum).codeSize = 10 * p.instNum + 16 := rfl
  rw [hstatic] at hcode
  rw [hdynamic] at hcode'
  rw [or_iff_left (staticArea im).not_reportsError,
    or_iff_left (dynamicArea jitCode jmpOffsets p.instNum).not_reportsError]
  refine ⟨⟨?_, ?_⟩, ⟨?_, ?_⟩⟩
  · rintro ⟨hin, hslots⟩
    obtain ⟨haligned, hsize⟩ := hcode.mp hin
    refine ⟨haligned, by exact_mod_cast hsize, ?_⟩
    intro pc hpc
    have hslot : 4 * slotOf p pc + 4 ≤ 1024 := hslots pc hpc
    omega
  · rintro ⟨haligned, hsize, hslots⟩
    refine ⟨hcode.mpr ⟨haligned, by exact_mod_cast hsize⟩, ?_⟩
    intro pc hpc
    have hslot := hslots pc hpc
    show 4 * slotOf p pc + 4 ≤ 1024
    omega
  · rintro ⟨hin, -⟩
    obtain ⟨haligned, hsize⟩ := hcode'.mp hin
    exact ⟨haligned, by exact_mod_cast hsize⟩
  · rintro ⟨haligned, hsize⟩
    refine ⟨hcode'.mpr ⟨haligned, by exact_mod_cast hsize⟩, ?_⟩
    intro pc hpc
    have hslot := slotOf_le hpc
    show 4 * slotOf p pc + 4 ≤ 4 * p.instNum + 16
    omega

/-- A machine with `r0 = 0` 256 times and `exit`. -/
def longProgram : JitVm where
  insts := fun i =>
    { opcode := if i < 256 then (Opcode.alu64 .mov .imm).byte else Opcode.exit.byte
      dst := 0, src := 0, offset := 0, imm := 0 }
  numInsts := 257
  extFuncs := fun _ => 0
  jitFunc := 0
  jmem := false

/-- The end of the 257th instruction is recorded behind the static table; and code
for `r0 = 7; exit` is longer than what is allocated for two instructions. -/
theorem longProgram_not_inside :
    (¬((staticArea alignedImage).Inside (longProgram.input alignedImage)
          (clearedTable alignedImage) ∨ (staticArea alignedImage).ReportsError)) ∧
      ¬((dynamicArea 0x20000000 0x20000800 2).Inside ((returnConst 7).input alignedImage)
          (fun _ => 0) ∨ (dynamicArea 0x20000000 0x20000800 2).ReportsError) := by
  constructor
  · rintro (⟨-, hslots⟩ | herror)
    · have hret (pc : ℕ) : instRet (longProgram.insts pc) = 0 := by
        unfold longProgram
        by_cases hlt : pc < 256
        · simp only [if_pos hlt]
          decide
        · simp only [if_neg hlt]
          decide
      have hmem : 256 ∈ visited (longProgram.input alignedImage) := by
        rcases mem_visit_or (p := longProgram.input alignedImage) 257 0
          (fun pc _ => le_of_eq (hret pc).symm) (Nat.zero_le 256) (by decide) with h | ⟨pc, -, h, -⟩
        · exact h
        · exact absurd (hret pc) (ne_of_gt h)
      have hslot := hslots 256 hmem
      have hle := le_slotOf (longProgram.input alignedImage) 256
      have hsize : (staticArea alignedImage).offsetSize = 1024 := rfl
      omega
    · exact JitArea.not_reportsError _ herror
  · rintro (⟨hcode, -⟩ | herror)
    · have hsize := ((JitArea.code_inside_iff _ _ _).mp hcode).2
      exact absurd hsize (by decide)
    · exact JitArea.not_reportsError _ herror

end RapidPatch.Jit

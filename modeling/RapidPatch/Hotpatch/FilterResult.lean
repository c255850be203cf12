import RapidPatch.Vm.Budget

/-!
How the dispatchers read a filter's 64-bit result, and what they make of the
value the interpreter returns when its budget is exhausted.

The upper word of the result is the operation, the lower word its argument.
Each dispatcher has its own chain of comparisons; the branch it takes is all
that matters here.
-/

namespace RapidPatch.Hotpatch

open RapidPatch.Support RapidPatch.Vm

def filterPass : BitVec 32 := 0

def filterDrop : BitVec 32 := 1

def filterRedirect : BitVec 32 := 2

/-- `uint32_t op = ret >> 32`. -/
def filterOp (ret : BitVec 64) : BitVec 32 := (ret >>> 32).setWidth 32

/-- `uint32_t ret_code = ret & 0x00000000ffffffff`. -/
def filterRetCode (ret : BitVec 64) : BitVec 32 := (ret &&& 0x00000000ffffffff).setWidth 32

/-- The branch a dispatcher takes on a filter's result. -/
inductive FilterBranch
  | pass
  | drop (retCode : BitVec 32)
  | redirect (target : BitVec 32)
  | other
  deriving DecidableEq, Repr

/-- The comparisons of `dispatch_fixed_patch_point`: every operation it does
not name passes. -/
def dispatchFixedPatchPoint (ret : BitVec 64) : FilterBranch :=
  if filterOp ret = filterDrop then .drop (filterRetCode ret)
  else if filterOp ret = filterRedirect then .redirect (filterRetCode ret)
  else .pass

/-- The comparisons of `leave_fpb_bpkt`, which tests for a pass first and
leaves every operation it does not name to the saved link register. -/
def leaveFpbBpkt (ret : BitVec 64) : FilterBranch :=
  if filterOp ret = filterPass then .pass
  else if filterOp ret = filterDrop then .drop (filterRetCode ret)
  else if filterOp ret = filterRedirect then .redirect (filterRetCode ret)
  else .other

/-- The comparisons of `run_patch_here`. -/
def runPatchHere (ret : BitVec 64) : FilterBranch :=
  if filterOp ret = filterDrop then .drop (filterRetCode ret)
  else if filterOp ret = filterRedirect then .redirect (filterRetCode ret)
  else .pass

/-- A result whose operation is not `FILTER_DROP` is dropped by none of the
three dispatchers. -/
theorem not_drop_of_op_ne {ret : BitVec 64} (h : filterOp ret ≠ filterDrop) (v : BitVec 32) :
    dispatchFixedPatchPoint ret ≠ .drop v ∧ leaveFpbBpkt ret ≠ .drop v ∧
      runPatchHere ret ≠ .drop v := by
  refine ⟨?_, ?_, ?_⟩
  · unfold dispatchFixedPatchPoint
    rw [if_neg h]
    split <;> simp
  · unfold leaveFpbBpkt
    rw [if_neg h]
    split
    · simp
    · split <;> simp
  · unfold runPatchHere
    rw [if_neg h]
    split <;> simp

/-! ### The value of an exhausted budget -/

/-- An `int` converted to `u64` has a constant upper word: zero or all ones.
Whatever `1 << 32` evaluates to, its operation is not `FILTER_DROP`. -/
theorem filterOp_signExtend_ne_drop (x : BitVec 32) :
    filterOp (x.signExtend 64) ≠ filterDrop := by
  intro h
  -- bits 0 and 1 of the upper word are both the sign of `x`
  have h0 := congrArg (fun y : BitVec 32 => y.getLsbD 0) h
  have h1 := congrArg (fun y : BitVec 32 => y.getLsbD 1) h
  simp [filterOp, filterDrop] at h0 h1
  rw [BitVec.getElem_signExtend] at h0 h1
  simp at h0 h1
  rw [h0] at h1
  cases h1

theorem budget_value {c : Call} {reg : BitVec 4 → BitVec 64} {mem : Mem} {v : BitVec 64}
    (h : ebpfVmExec c reg mem = .stop (.returned .budget v)) :
    v = c.oneShl32.signExtend 64 := by
  obtain ⟨s, _, hstop⟩ := reaches_of_run_stop h
  rcases step_stop hstop with hexec | ⟨_, hv⟩
  · exact absurd hexec (execInst_ne_budget _ _ _ v)
  · cases hv
    rfl

/-- Every run that leaves the loop by exceeding `MAX_ITERS` returns a value
that no dispatcher drops, whatever the program, the memory and the compiler's
value of `1 << 32`. -/
theorem budget_exit_not_dropped (c : Call) (reg : BitVec 4 → BitVec 64) (mem : Mem)
    (v : BitVec 64) (h : ebpfVmExec c reg mem = .stop (.returned .budget v)) :
    filterOp v ≠ filterDrop ∧
      ∀ retCode, dispatchFixedPatchPoint v ≠ .drop retCode ∧
        leaveFpbBpkt v ≠ .drop retCode ∧ runPatchHere v ≠ .drop retCode := by
  have hop : filterOp v ≠ filterDrop := by
    rw [budget_value h]
    exact filterOp_signExtend_ne_drop c.oneShl32
  exact ⟨hop, not_drop_of_op_ne hop⟩

/-! ### A program that runs into the budget -/

/-- `ja -1`, in every slot of the code memory. -/
def jumpToSelf : Inst := { opcode := Opcode.ja.byte, dst := 0, src := 0, offset := -1, imm := 0 }

/-- A call that runs `ja -1` with no memory, under a compiler that folds
`1 << 32` to zero. -/
def selfLoop : Call where
  vm := { insts := fun _ _ => jumpToSelf, boundsCheckEnabled := false, extFuncs := fun _ => none }
  mem := 0
  memLen := 0
  stack := 0x20000000
  overshift := fun _ _ => 0
  oneShl32 := 0

theorem execInst_selfLoop (s : State) :
    execInst selfLoop (fetch selfLoop s) { s with pc := s.pc + 1 } = .cont s := by
  have hfetch : fetch selfLoop s = jumpToSelf := rfl
  have hop : jumpToSelf.op = .ja := opcodeOf_byte .ja
  have hregs : jumpToSelf.regsInFile = true := by simp [Inst.regsInFile, hop, Opcode.usesDst,
    Opcode.usesSrc]
  have hpc : s.pc + 1#16 + jumpToSelf.offset = s.pc := by
    simp only [jumpToSelf]
    bv_omega
  simp [hfetch, execInst, hregs, hop]
  rw [hpc]

theorem selfLoop_exhausts_budget :
    ebpfVmExec selfLoop (fun _ => 0) (fun _ => 0) = .stop (.returned .budget 0) := by
  obtain ⟨o, ho⟩ := run_stops selfLoop (initState selfLoop (fun _ => 0) (fun _ => 0))
  obtain ⟨s, _, hstop⟩ := reaches_of_run_stop ho
  have hbudget : o = .returned .budget 0 := by
    rcases step_stop hstop with hexec | ⟨_, hv⟩
    · rw [execInst_selfLoop] at hexec
      cases hexec
    · rw [hv]
      rfl
  rw [← hbudget]
  exact ho

/-- The endless loop is stopped by the budget, and its result is a pass for
all three dispatchers. -/
theorem selfLoop_passes :
    ebpfVmExec selfLoop (fun _ => 0) (fun _ => 0) = .stop (.returned .budget 0) ∧
      filterOp 0 ≠ filterDrop ∧ dispatchFixedPatchPoint 0 = .pass ∧
      leaveFpbBpkt 0 = .pass ∧ runPatchHere 0 = .pass :=
  ⟨selfLoop_exhausts_budget, by decide, by decide, by decide, by decide⟩

theorem selfLoop_not_dropped :
    filterOp 0 ≠ filterDrop ∧
      ∀ retCode, dispatchFixedPatchPoint 0 ≠ .drop retCode ∧
        leaveFpbBpkt 0 ≠ .drop retCode ∧ runPatchHere 0 ≠ .drop retCode :=
  budget_exit_not_dropped selfLoop _ _ 0 selfLoop_exhausts_budget

end RapidPatch.Hotpatch

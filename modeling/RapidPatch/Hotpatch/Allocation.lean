import Mathlib.Data.Bool.Basic
import RapidPatch.Hotpatch.PatchList
import RapidPatch.Store.Arraymap

/-!
Installing a patch when the heap is exhausted.

The context and `notify_new_patch` are those of `Context`, with the table of
fixed patches as it is in memory, and with every allocation of the call
succeeding or returning a null pointer. `init_ebpf_vm` and `ebpf_patch_setup`
pass the missing VM on as a missing patch, which nobody behind them expects,
and no other result of an allocation is looked at. So each one that fails ends
in an access through a null pointer, before the call could return
(`failed_allocation_not_atomic`); and when all succeed, the call does what `Context` says
(`notifyNewPatchIn_eq`).
-/

namespace RapidPatch.Hotpatch

open RapidPatch.Support RapidPatch.Store

inductive Fault
  | nullPointer
  | outsideBlock
  deriving DecidableEq

/-- Which of the allocations of a call succeed, if they are made. -/
structure Allocs where
  vm : Bool
  helperEnv : Bool
  extFuncs : Bool
  patch : Bool
  node : Bool
  keys : Bool
  vals : Bool

def deref {α : Type} : Option α → Except Fault α
  | none => .error .nullPointer
  | some a => .ok a

/-! ### The call -/

section

variable (al : Allocs) (heap : Heap) (ptr : ℕ → BitVec 32) (env : Env Arraymap)

/-- `init_ebpf_vm`: whether there is a VM. `use_default_helper_func` allocates
the helper table unless there is one. -/
def initEbpfVmIn (helpers : Bool) : Except Fault Bool :=
  if !al.vm then .ok false
  -- `g_helper_func->ext_funcs = ...`, and `set_default_helpers` stores through `ext_funcs`
  else if !helpers && !(al.helperEnv && al.extFuncs) then .error .nullPointer
  else .ok true

/-- `ebpf_patch_setup`, with the patch it returns. -/
def ebpfPatchSetupIn (helpers : Bool) (s : PatchSys Arraymap) (d : ℕ) :
    Except Fault (PatchSys Arraymap × Option ℕ) := do
  let vm ← initEbpfVmIn al helpers
  if !vm then return (s, none)
  -- `patch->vm = vm`
  else if !al.patch then throw .nullPointer
  else
    let (s, p) := ebpfPatchSetup s d
    return (s, some p)

/-- Whether `arraymap_set` gets to its two calls of `ebpf_realloc`. -/
def growsFor (m : Arraymap) (key : BitVec 32) : Bool :=
  m.curSize ≠ 0 && m.key heap (lowerBound (m.key heap) m.curSize.toNat key) ≠ key &&
    m.maxSize ≤ m.curSize

/-- `arraymap_set`. Behind the growth, `keys[insert]` and `vals[insert]` are
stored to on every path. -/
def arraymapSetIn (m : Arraymap) (key val : BitVec 32) : Except Fault Arraymap :=
  if growsFor heap m key && !(al.keys && al.vals) then .error .nullPointer
  else
    match arraymapSet heap m key val with
    | none => .error .outsideBlock
    | some (m, _) => .ok m

/-- `add_fixed_patch_to_ctx`. -/
def addFixedPatchToCtxIn (s : PatchSys Arraymap) (patch : Option ℕ) :
    Except Fault (PatchSys Arraymap) := do
  let p ← deref patch
  let fixed ← deref s.fixedPatches
  let fixed ← arraymapSetIn al heap fixed (s.desc (s.patch p).desc).addr (ptr p)
  return { s with fixedPatches := some fixed }

/-- The descriptor's address is in no node, and there is room for one more. -/
def addsNode (s : PatchSys Arraymap) (addr : BitVec 32) : Bool :=
  let (passed, found) := s.search fun dp => dp.instAddr = addr
  found.isNone && passed.length ≤ maxDpNum

/-- `add_dynamic_patch_to_ctx`. Whether the list is empty or not, the
descriptor of the patch is read, and the new node is written. -/
def addDynamicPatchToCtxIn (s : PatchSys Arraymap) (patch : Option ℕ) :
    Except Fault (PatchSys Arraymap) := do
  let p ← deref patch
  if addsNode s (s.desc (s.patch p).desc).addr && !al.node then throw .nullPointer
  else return (addDynamicPatchToCtx env s p).1

/-- `add_ebpf_patch`. -/
def addEbpfPatchIn (helpers : Bool) (s : PatchSys Arraymap) (d : ℕ) :
    Except Fault (PatchSys Arraymap × Option ℕ) := do
  let (s, patch) ← ebpfPatchSetupIn al helpers s d
  let desc := s.desc d
  if desc.type = fixedPatchPoint then
    let s ← addFixedPatchToCtxIn al heap ptr s patch
    return (s, patch)
  else if desc.type = dynamicPatchPoint then
    let aligned := { desc with addr := desc.addr &&& ~~~0x3#32 }
    let s := { s with desc := Function.update s.desc d aligned }
    let s ← addDynamicPatchToCtxIn al env s patch
    return (s, patch)
  else return (s, patch)

/-- `active_patch`. -/
def activePatchIn (s : PatchSys Arraymap) (patch : Option ℕ) :
    Except Fault (PatchSys Arraymap) := do
  let p ← deref patch
  deref (activePatch env s p)

/-- `notify_new_patch`, where the helper table is there already or not. -/
def notifyNewPatchIn (helpers : Bool) (s : PatchSys Arraymap) (d : ℕ) :
    Except Fault (PatchSys Arraymap) := do
  let (s, patch) ← addEbpfPatchIn al heap ptr env helpers s d
  activePatchIn env s patch

/-! ### Failures -/

/-- An allocation that the call makes fails, those before it having
succeeded or not. -/
inductive AllocationFails (helpers : Bool) (s : PatchSys Arraymap) (d : ℕ) : Prop
  | vm (h : al.vm = false)
  | helperEnv (hhelpers : helpers = false) (h : al.helperEnv = false)
  | extFuncs (hhelpers : helpers = false) (h : al.extFuncs = false)
  | patch (h : al.patch = false)
  | node (htype : (s.desc d).type = dynamicPatchPoint) (hadds : addsNode s (s.wordAddr d) = true)
      (h : al.node = false)
  | growth (htype : (s.desc d).type = fixedPatchPoint) (fixed : Arraymap)
      (hfixed : s.fixedPatches = some fixed) (hgrows : growsFor heap fixed (s.desc d).addr = true)
      (h : al.keys = false ∨ al.vals = false)

structure Unchanged (s s' : PatchSys Arraymap) : Prop where
  node : s'.node = s.node
  fixedPatches : s'.fixedPatches = s.fixedPatches
  fbitsFilter : s'.fbitsFilter = s.fbitsFilter
  dbitsFilterBpkt : s'.dbitsFilterBpkt = s.dbitsFilterBpkt
  dbitsFilterPc : s'.dbitsFilterPc = s.dbitsFilterPc

def ReturnsUnchanged (helpers : Bool) (s : PatchSys Arraymap) (d : ℕ) : Prop :=
  ∃ s', notifyNewPatchIn al heap ptr env helpers s d = .ok s' ∧ Unchanged s s'

/-- The environment of `Context` with the table in memory. -/
def memoryEnv : Env Arraymap :=
  { env with
    arraymapSet := fun m key p => ((arraymapSet heap m key (ptr p)).map (·.1)).getD m }

variable {al heap ptr env} {helpers : Bool} {s : PatchSys Arraymap} {d : ℕ}

theorem ebpfPatchSetupIn_cases (al : Allocs) (helpers : Bool) (s : PatchSys Arraymap) (d : ℕ) :
    ebpfPatchSetupIn al helpers s d = .error .nullPointer ∨
    (al.vm = false ∧ ebpfPatchSetupIn al helpers s d = .ok (s, none)) ∨
    (al.vm = true ∧ (helpers = false → al.helperEnv = true ∧ al.extFuncs = true) ∧
      al.patch = true ∧
      ebpfPatchSetupIn al helpers s d = .ok ((ebpfPatchSetup s d).1, some (s.patchCount + 1))) := by
  obtain ⟨vm, helperEnv, extFuncs, patch, node, keys, vals⟩ := al
  cases vm with
  | false => exact .inr (.inl ⟨rfl, rfl⟩)
  | true =>
      cases patch with
      | false =>
          left
          cases helpers <;> cases helperEnv <;> cases extFuncs <;> rfl
      | true =>
          cases helpers with
          | true => exact .inr (.inr ⟨rfl, (fun h => by cases h), rfl, rfl⟩)
          | false =>
              cases helperEnv with
              | false => exact .inl rfl
              | true =>
                  cases extFuncs with
                  | false => exact .inl rfl
                  | true => exact .inr (.inr ⟨rfl, fun _ => ⟨rfl, rfl⟩, rfl, rfl⟩)

theorem notifyNewPatchIn_eq_bind {t : PatchSys Arraymap} {patch : Option ℕ}
    (h : ebpfPatchSetupIn al helpers s d = .ok (t, patch)) (hdesc : t.desc = s.desc) :
    notifyNewPatchIn al heap ptr env helpers s d =
      if (s.desc d).type = fixedPatchPoint then
        (addFixedPatchToCtxIn al heap ptr t patch).bind fun t => activePatchIn env t patch
      else if (s.desc d).type = dynamicPatchPoint then
        (addDynamicPatchToCtxIn al env
          { t with desc := Function.update t.desc d { t.desc d with addr := s.wordAddr d } }
          patch).bind fun t => activePatchIn env t patch
      else activePatchIn env t patch := by
  rw [notifyNewPatchIn, addEbpfPatchIn, h]
  simp only [bind, Except.bind, pure, Except.pure, hdesc, PatchSys.wordAddr]
  by_cases hfixed : (s.desc d).type = fixedPatchPoint
  · simp only [if_pos hfixed]
    cases addFixedPatchToCtxIn al heap ptr t patch <;> rfl
  · by_cases hdynamic : (s.desc d).type = dynamicPatchPoint
    · simp only [if_neg hfixed, if_pos hdynamic]
      generalize addDynamicPatchToCtxIn al env _ patch = r
      cases r <;> rfl
    · simp only [if_neg hfixed, if_neg hdynamic]

/-- Without a patch, every path comes to an access through it. -/
theorem notifyNewPatchIn_missing (h : ebpfPatchSetupIn al helpers s d = .ok (s, none)) :
    notifyNewPatchIn al heap ptr env helpers s d = .error .nullPointer := by
  rw [notifyNewPatchIn_eq_bind h rfl]
  split
  · rfl
  · split <;> rfl

/-- An allocation that fails ends the call at a null pointer. -/
theorem notifyNewPatchIn_of_fails (h : AllocationFails al heap helpers s d) :
    notifyNewPatchIn al heap ptr env helpers s d = .error .nullPointer := by
  rcases ebpfPatchSetupIn_cases al helpers s d with herror | ⟨-, hmissing⟩ |
    ⟨hvm, hhelpers, hpatch, hsetup⟩
  · rw [notifyNewPatchIn, addEbpfPatchIn, herror]
    rfl
  · exact notifyNewPatchIn_missing hmissing
  · rw [notifyNewPatchIn_eq_bind hsetup rfl]
    cases h with
    | vm h =>
        rw [hvm] at h
        cases h
    | helperEnv hnone h =>
        rw [(hhelpers hnone).1] at h
        cases h
    | extFuncs hnone h =>
        rw [(hhelpers hnone).2] at h
        cases h
    | patch h =>
        rw [hpatch] at h
        cases h
    | node htype hadds h =>
        have hfixed : (s.desc d).type ≠ fixedPatchPoint := by
          rw [htype]
          decide
        rw [if_neg hfixed, if_pos htype]
        have hnull : addDynamicPatchToCtxIn al env (prepared s d) (some (s.patchCount + 1)) =
            .error .nullPointer := by
          have haddr : ((prepared s d).desc ((prepared s d).patch (s.patchCount + 1)).desc).addr =
              s.wordAddr d := prepared_addr s d
          have hadds' : addsNode (prepared s d) (s.wordAddr d) = true := hadds
          simp only [addDynamicPatchToCtxIn, deref, bind, Except.bind, haddr, hadds', h]
          rfl
        exact congrArg (Except.bind · _) hnull
    | growth htype fixed hfixed hgrows h =>
        rw [if_pos htype]
        have hnull : addFixedPatchToCtxIn al heap ptr (ebpfPatchSetup s d).1
            (some (s.patchCount + 1)) = .error .nullPointer := by
          have hdesc : ((ebpfPatchSetup s d).1.patch (s.patchCount + 1)).desc = d := by
            simp [ebpfPatchSetup]
          have hfixed' : (ebpfPatchSetup s d).1.fixedPatches = some fixed := hfixed
          have hgrows' : growsFor heap fixed ((ebpfPatchSetup s d).1.desc d).addr = true := hgrows
          have hfail : (!(al.keys && al.vals)) = true := by
            rcases h with h | h <;> simp [h]
          simp only [addFixedPatchToCtxIn, deref, bind, Except.bind, hdesc, hfixed',
            arraymapSetIn, hgrows', hfail]
          rfl
        exact congrArg (Except.bind · _) hnull

theorem ebpfPatchSetupIn_of_succeeds (hok : ¬AllocationFails al heap helpers s d) :
    ebpfPatchSetupIn al helpers s d =
      .ok ((ebpfPatchSetup s d).1, some (s.patchCount + 1)) := by
  have hvm : al.vm = true := Bool.eq_true_of_not_eq_false fun h => hok (.vm h)
  have hpatch : al.patch = true := Bool.eq_true_of_not_eq_false fun h => hok (.patch h)
  cases helpers with
  | true =>
      simp only [ebpfPatchSetupIn, initEbpfVmIn, hvm, hpatch]
      rfl
  | false =>
      have henv : al.helperEnv = true :=
        Bool.eq_true_of_not_eq_false fun h => hok (.helperEnv rfl h)
      have hfuncs : al.extFuncs = true :=
        Bool.eq_true_of_not_eq_false fun h => hok (.extFuncs rfl h)
      simp only [ebpfPatchSetupIn, initEbpfVmIn, hvm, hpatch, henv, hfuncs]
      rfl

theorem addFixedPatchToCtxIn_eq (hok : ¬AllocationFails al heap helpers s d)
    (htype : (s.desc d).type = fixedPatchPoint)
    (hin : ∀ fixed, s.fixedPatches = some fixed →
      (arraymapSet heap fixed (s.desc d).addr (ptr (s.patchCount + 1))).isSome) :
    addFixedPatchToCtxIn al heap ptr (ebpfPatchSetup s d).1 (some (s.patchCount + 1)) =
      deref (addFixedPatchToCtx (memoryEnv heap ptr env) (ebpfPatchSetup s d).1
        (s.patchCount + 1)) := by
  have hdesc : ((ebpfPatchSetup s d).1.patch (s.patchCount + 1)).desc = d := by
    simp [ebpfPatchSetup]
  have hsame : (ebpfPatchSetup s d).1.fixedPatches = s.fixedPatches := rfl
  cases hfixed : s.fixedPatches with
  | none =>
      simp only [addFixedPatchToCtxIn, addFixedPatchToCtx, hsame, hfixed]
      rfl
  | some fixed =>
      have hroom : (growsFor heap fixed ((ebpfPatchSetup s d).1.desc d).addr &&
          !(al.keys && al.vals)) = false := by
        by_contra hno
        rw [Bool.not_eq_false, Bool.and_eq_true] at hno
        refine hok (.growth htype fixed hfixed hno.1 ?_)
        simpa [Bool.and_eq_true, ← imp_iff_not_or] using hno.2
      obtain ⟨⟨m, i⟩, hset⟩ := Option.isSome_iff_exists.mp (hin fixed hfixed)
      have hset' : arraymapSet heap fixed ((ebpfPatchSetup s d).1.desc d).addr
          (ptr (s.patchCount + 1)) = some (m, i) := hset
      have hstored : addFixedPatchToCtx (memoryEnv heap ptr env) (ebpfPatchSetup s d).1
          (s.patchCount + 1) = some { (ebpfPatchSetup s d).1 with fixedPatches := some m } := by
        simp only [addFixedPatchToCtx, hsame, hfixed, hdesc, memoryEnv, Option.bind_eq_bind,
          Option.bind_some, hset', Option.map_some, Option.getD_some]
        rfl
      rw [hstored]
      simp only [addFixedPatchToCtxIn, hsame, hfixed, deref, bind, Except.bind, hdesc,
        arraymapSetIn, hroom, hset']
      rfl

theorem addDynamicPatchToCtxIn_eq (hok : ¬AllocationFails al heap helpers s d)
    (htype : (s.desc d).type = dynamicPatchPoint) :
    addDynamicPatchToCtxIn al env (prepared s d) (some (s.patchCount + 1)) =
      .ok (addDynamicPatchToCtx env (prepared s d) (s.patchCount + 1)).1 := by
  have haddr : ((prepared s d).desc ((prepared s d).patch (s.patchCount + 1)).desc).addr =
      s.wordAddr d := prepared_addr s d
  have hroom : (addsNode (prepared s d) (s.wordAddr d) && !al.node) = false := by
    by_contra hno
    rw [Bool.not_eq_false, Bool.and_eq_true] at hno
    exact hok (.node htype hno.1 (by simpa using hno.2))
  simp only [addDynamicPatchToCtxIn, deref, bind, Except.bind, haddr, hroom]
  rfl

/-- When no allocation fails and the table is written inside its blocks, the
call does what `Context` says. -/
theorem notifyNewPatchIn_eq (hok : ¬AllocationFails al heap helpers s d)
    (hin : (s.desc d).type = fixedPatchPoint → ∀ fixed, s.fixedPatches = some fixed →
      (arraymapSet heap fixed (s.desc d).addr (ptr (s.patchCount + 1))).isSome) :
    notifyNewPatchIn al heap ptr env helpers s d =
      deref (notifyNewPatch (memoryEnv heap ptr env) s d) := by
  rw [notifyNewPatchIn_eq_bind (ebpfPatchSetupIn_of_succeeds hok) rfl]
  by_cases hfixed : (s.desc d).type = fixedPatchPoint
  · have hadd := @addFixedPatchToCtxIn_eq al heap ptr env helpers s d hok hfixed (hin hfixed)
    have hdesc : ((ebpfPatchSetup s d).1.desc d).type = fixedPatchPoint := hfixed
    rw [if_pos hfixed, hadd, notifyNewPatch]
    simp only [addEbpfPatch, if_pos hdesc]
    have hptr : (ebpfPatchSetup s d).2 = s.patchCount + 1 := rfl
    rw [hptr]
    cases addFixedPatchToCtx (memoryEnv heap ptr env) (ebpfPatchSetup s d).1 (s.patchCount + 1) with
    | none => rfl
    | some t => rfl
  · by_cases hdynamic : (s.desc d).type = dynamicPatchPoint
    · have hadd := @addDynamicPatchToCtxIn_eq al heap env helpers s d hok hdynamic
      rw [if_neg hfixed, if_pos hdynamic, notifyNewPatch_dynamic hdynamic]
      exact congrArg (Except.bind · _) hadd
    · have hfixed' : ¬((ebpfPatchSetup s d).1.desc d).type = fixedPatchPoint := hfixed
      have hdynamic' : ¬((ebpfPatchSetup s d).1.desc d).type = dynamicPatchPoint := hdynamic
      rw [if_neg hfixed, if_neg hdynamic, notifyNewPatch]
      simp only [addEbpfPatch, if_neg hfixed', if_neg hdynamic']
      rfl

/-- Whatever allocation fails, in whatever context and for whatever descriptor,
a null pointer is dereferenced. -/
theorem failed_allocation_not_atomic (al : Allocs) (heap : Heap) (ptr : ℕ → BitVec 32)
    (env : Env Arraymap) (helpers : Bool) (s : PatchSys Arraymap) (d : ℕ)
    (h : AllocationFails al heap helpers s d) :
    notifyNewPatchIn al heap ptr env helpers s d = .error .nullPointer ∧
      ¬ReturnsUnchanged al heap ptr env helpers s d := by
  have hnull := @notifyNewPatchIn_of_fails al heap ptr env helpers s d h
  refine ⟨hnull, ?_⟩
  rintro ⟨s', hs', -⟩
  rw [hnull] at hs'
  cases hs'

end

/-! ### An initialised context -/

def zeroHeap : Heap where
  keysBehind := fun _ => 0
  valsBehind := fun _ => 0
  keysFresh := fun _ => 0
  valsFresh := fun _ => 0

/-- The table of fixed patches in that heap, and a flash of 16-bit
instructions. -/
def zeroEnv : Env Arraymap where
  arraymapNew := arraymapNew zeroHeap 4
  arraymapSet := fun m key p => ((arraymapSet zeroHeap m key (BitVec.ofNat 32 p)).map (·.1)).getD m
  arraymapVals := fun m =>
    ((List.range m.curSize.toNat).map fun i => (m.val zeroHeap i).toNat).filter (· ≠ 0)
  flash := fun _ => 0xbf00

/-- A context before its initialisation, with dynamic descriptors for
`0x08000100`. -/
def emptyBoot : PatchSys Arraymap where
  ctxInit := false
  fbitsFilter := 0
  dbitsFilterBpkt := 0
  dbitsFilterPc := 0
  fixedPatches := none
  node := fun _ => { patch := 0, next := none, instAddr := 0, pcAddr := 0 }
  nodeCount := 0
  patch := fun _ => { desc := 0, isActive := false }
  patchCount := 0
  desc := fun _ => { type := dynamicPatchPoint, addr := 0x08000100 }

/-- `emptyBoot` behind `init_patch_sys`. -/
def emptyContext : PatchSys Arraymap := (initPatchSys zeroEnv emptyBoot).get rfl

def noNode : Allocs where
  vm := true
  helperEnv := true
  extFuncs := true
  patch := true
  node := false
  keys := true
  vals := true

theorem emptyContext_reachable : Reachable zeroEnv emptyContext :=
  .initPatchSys (.boot (s := emptyBoot) rfl rfl rfl) (Option.some_get _).symm

theorem noNode_fails : AllocationFails noNode zeroHeap true emptyContext 0 :=
  .node rfl (by decide) rfl

theorem failed_node_allocation :
    notifyNewPatchIn noNode zeroHeap (BitVec.ofNat 32) zeroEnv true emptyContext 0 =
        .error .nullPointer ∧
      ¬ReturnsUnchanged noNode zeroHeap (BitVec.ofNat 32) zeroEnv true emptyContext 0 :=
  failed_allocation_not_atomic noNode zeroHeap (BitVec.ofNat 32) zeroEnv true emptyContext 0
    (.node rfl (by decide) rfl)

/-- In a context that was just initialised, a failure of the node's allocation
is not reported but dereferenced. -/
theorem missing_node_dereferenced :
    Reachable zeroEnv emptyContext ∧ AllocationFails noNode zeroHeap true emptyContext 0 ∧
      notifyNewPatchIn noNode zeroHeap (BitVec.ofNat 32) zeroEnv true emptyContext 0 =
        .error .nullPointer :=
  ⟨emptyContext_reachable, noNode_fails, notifyNewPatchIn_of_fails noNode_fails⟩

end RapidPatch.Hotpatch

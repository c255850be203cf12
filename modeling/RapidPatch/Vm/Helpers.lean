import Mathlib.Data.Finset.Card
import RapidPatch.Support.Events
import RapidPatch.Vm.Inst

/-!
The helper table that all VMs share.

`g_helper_func` is allocated by the first VM that asks for it and freed by
the destruction of a VM that finds its count at one. VMs and tables are
blocks of memory named by numbers; an operation that allocates one is given
the address that the allocator returns, which is any address not in use.

`Owned` is what the count is for: it is the number of live VMs that point to
the table. Two operations miss it. `ebpf_vm_set_inst` clears the VM it is
given, with the reference the VM may have, before it takes one; and
`ebpf_vm_destroy` gives back a reference also for a VM that has none.
`owned_throughout_iff` says that nothing else does.
-/

namespace RapidPatch.Vm

open RapidPatch.Support

/-- What `ext_funcs` can hold: the functions of `ebpf_helper_impl.h`, and
those of other callers of `ebpf_register` by their address. -/
inductive HelperFn
  | iotPrintLog
  | iotCallCFuncNoret
  | tmpMapSaveVal
  | tmpMapGetVal
  | other (fn : BitVec 32)
  deriving DecidableEq

structure EbpfHelperEnv where
  extFuncs : ℕ → Option HelperFn
  refcnt : ℤ

/-- `g_helper_func`, the tables in use, and the VMs with their
`helper_func`. -/
structure HelperSys where
  gHelperFunc : Option ℕ
  table : ℕ → Option EbpfHelperEnv
  live : Finset ℕ
  helperFunc : ℕ → Option ℕ

namespace HelperSys

variable {s t : HelperSys}

/-- `use_default_helper_func`, with the address of a new table. -/
def useDefaultHelperFunc (s : HelperSys) (addr : ℕ) : Option (HelperSys × ℕ) :=
  match s.gHelperFunc with
  | none =>
      if (s.table addr).isSome then none
      else
        let env : EbpfHelperEnv := { extFuncs := fun _ => none, refcnt := 0 + 1 }
        some ({ s with
          gHelperFunc := some addr
          table := Function.update s.table addr (some env) }, addr)
  | some g =>
      match s.table g with
      | none => none
      | some env =>
          some ({ s with
            table := Function.update s.table g (some { env with refcnt := env.refcnt + 1 }) }, g)

/-- `vm->helper_func = use_default_helper_func()`. -/
def setHelperFunc (s : HelperSys) (vm addr : ℕ) : Option (HelperSys × ℕ) :=
  (s.useDefaultHelperFunc addr).map fun (s, g) =>
    ({ s with helperFunc := Function.update s.helperFunc vm (some g) }, g)

/-- `ebpf_register` on a live VM. The table is written through the VM's
pointer, which is an error where it has been freed. -/
def ebpfRegister (s : HelperSys) (vm idx : ℕ) (fn : HelperFn) (addr : ℕ) : Option HelperSys := do
  let (s, g) ← match s.helperFunc vm with
    | none => s.setHelperFunc vm addr
    | some g => some (s, g)
  if maxExtFuncs ≤ idx then return s
  let env ← s.table g
  return { s with
    table := Function.update s.table g
      (some { env with extFuncs := Function.update env.extFuncs idx (some fn) }) }

def setDefaultHelpers (s : HelperSys) (vm addr : ℕ) : Option HelperSys := do
  let s ← s.ebpfRegister vm 1 .iotPrintLog addr
  let s ← s.ebpfRegister vm 2 .iotCallCFuncNoret addr
  let s ← s.ebpfRegister vm 3 .tmpMapSaveVal addr
  s.ebpfRegister vm 4 .tmpMapGetVal addr

def initIotEbpfHelpers (s : HelperSys) (vm addr : ℕ) : Option HelperSys := do
  let (s, _) ← s.setHelperFunc vm addr
  s.setDefaultHelpers vm addr

/-- `init_ebpf_vm`, with the address of the new VM. Its `helper_func` is
whatever the memory held until it is set. -/
def initEbpfVm (s : HelperSys) (vm addr : ℕ) : Option HelperSys :=
  if vm ∈ s.live then none
  else initIotEbpfHelpers { s with live := insert vm s.live } vm addr

/-- `ebpf_create`, with the address of the new VM. -/
def ebpfCreate (s : HelperSys) (vm : ℕ) : Option HelperSys :=
  if vm ∈ s.live then none
  else some { s with
    live := insert vm s.live
    helperFunc := Function.update s.helperFunc vm none }

def ebpfVmSetInst (s : HelperSys) (vm addr : ℕ) : Option HelperSys :=
  if vm ∈ s.live then
    initIotEbpfHelpers { s with helperFunc := Function.update s.helperFunc vm none } vm addr
  else none

def ebpfVmDestroy (s : HelperSys) (vm : ℕ) : Option HelperSys :=
  if vm ∈ s.live then
    match s.gHelperFunc with
    | none => some { s with live := s.live.erase vm }
    | some g =>
        match s.table g with
        | none => none
        | some env =>
            if env.refcnt - 1 = 0 then
              some { s with
                gHelperFunc := none
                table := Function.update s.table g none
                live := s.live.erase vm }
            else
              some { s with
                table := Function.update s.table g (some { env with refcnt := env.refcnt - 1 })
                live := s.live.erase vm }
  else none

/-- The operations on VMs, with the addresses that they may need. -/
inductive Op
  | initEbpfVm (vm addr : ℕ)
  | ebpfCreate (vm : ℕ)
  | ebpfVmSetInst (vm addr : ℕ)
  | ebpfRegister (vm idx : ℕ) (fn : HelperFn) (addr : ℕ)
  | ebpfVmDestroy (vm : ℕ)

/-- One operation. It is impossible on a VM that is not there, and where it
would follow a pointer to a freed table. -/
def step (s : HelperSys) : Op → Option HelperSys
  | .initEbpfVm vm addr => s.initEbpfVm vm addr
  | .ebpfCreate vm => s.ebpfCreate vm
  | .ebpfVmSetInst vm addr => s.ebpfVmSetInst vm addr
  | .ebpfRegister vm idx fn addr => if vm ∈ s.live then s.ebpfRegister vm idx fn addr else none
  | .ebpfVmDestroy vm => s.ebpfVmDestroy vm

def boot : HelperSys where
  gHelperFunc := none
  table := fun _ => none
  live := ∅
  helperFunc := fun _ => none

/-! ### Counting -/

/-- The live VMs that point to a table. -/
def users (s : HelperSys) (g : ℕ) : Finset ℕ := {vm ∈ s.live | s.helperFunc vm = some g}

/-- The count of a table in use. -/
def refcnt (s : HelperSys) (g : ℕ) : Option ℤ := (s.table g).map (·.refcnt)

/-- The shared table has the count of its users, there is one as long as it
has users and no longer, and live VMs point to no other. -/
structure Owned (s : HelperSys) : Prop where
  counted : ∀ g, s.gHelperFunc = some g → s.refcnt g = some ((s.users g).card : ℤ)
  used : ∀ g, s.gHelperFunc = some g → (s.users g).Nonempty
  shared : ∀ vm ∈ s.live, ∀ g, s.helperFunc vm = some g → s.gHelperFunc = some g
  freed : ∀ g, s.refcnt g ≠ none → s.gHelperFunc = some g

/-- Nothing that `Owned` looks at differs. -/
structure SameRefs (s t : HelperSys) : Prop where
  gHelperFunc : t.gHelperFunc = s.gHelperFunc
  refcnt : ∀ g, t.refcnt g = s.refcnt g
  live : t.live = s.live
  helperFunc : t.helperFunc = s.helperFunc

theorem SameRefs.trans {u : HelperSys} (h₁ : SameRefs s t) (h₂ : SameRefs t u) :
    SameRefs s u where
  gHelperFunc := h₂.gHelperFunc.trans h₁.gHelperFunc
  refcnt g := (h₂.refcnt g).trans (h₁.refcnt g)
  live := h₂.live.trans h₁.live
  helperFunc := h₂.helperFunc.trans h₁.helperFunc

theorem SameRefs.users (h : SameRefs s t) (g : ℕ) : t.users g = s.users g := by
  simp only [HelperSys.users, h.live, h.helperFunc]

theorem SameRefs.symm (h : SameRefs s t) : SameRefs t s where
  gHelperFunc := h.gHelperFunc.symm
  refcnt g := (h.refcnt g).symm
  live := h.live.symm
  helperFunc := h.helperFunc.symm

theorem SameRefs.owned (h : SameRefs s t) (ho : s.Owned) : t.Owned := by
  constructor
  · intro g hg
    rw [h.refcnt, h.users]
    exact ho.counted g (h.gHelperFunc ▸ hg)
  · intro g hg
    rw [h.users]
    exact ho.used g (h.gHelperFunc ▸ hg)
  · intro vm hvm g hg
    rw [h.gHelperFunc]
    exact ho.shared vm (h.live ▸ hvm) g (h.helperFunc ▸ hg)
  · intro g hg
    rw [h.gHelperFunc]
    exact ho.freed g (h.refcnt g ▸ hg)

theorem SameRefs.owned_iff (h : SameRefs s t) : t.Owned ↔ s.Owned :=
  ⟨h.symm.owned, h.owned⟩

/-! ### Taking a reference -/

/-- The VM, live from now on, has been given a reference to the shared table,
whatever it had before. -/
structure Acquires (s : HelperSys) (vm g : ℕ) (t : HelperSys) : Prop where
  gHelperFunc : t.gHelperFunc = some g
  before : s.gHelperFunc = some g ∨ s.gHelperFunc = none ∧ s.refcnt g = none
  refcnt : ∀ x, t.refcnt x = if x = g then some ((s.refcnt g).getD 0 + 1) else s.refcnt x
  live : t.live = insert vm s.live
  helperFunc : t.helperFunc = Function.update s.helperFunc vm (some g)

theorem Acquires.users {vm g : ℕ} (h : Acquires s vm g t) :
    t.users g = insert vm (s.users g) := by
  ext w
  simp only [HelperSys.users, h.live, h.helperFunc, Finset.mem_filter, Finset.mem_insert,
    Function.update_apply]
  by_cases hw : w = vm <;> simp [hw]

/-- Before, the count was that of the users, or there was neither table nor
user. -/
theorem Acquires.count_before {vm g : ℕ} (h : Acquires s vm g t) (ho : s.Owned) :
    (s.refcnt g).getD 0 = ((s.users g).card : ℤ) := by
  rcases h.before with hg | ⟨hnone, hfree⟩
  · rw [ho.counted g hg]
    rfl
  · have hempty : s.users g = ∅ := by
      rw [HelperSys.users, Finset.filter_eq_empty_iff]
      intro w hw hg
      rw [ho.shared w hw g hg] at hnone
      cases hnone
    rw [hfree, hempty]
    rfl

/-- A VM that had a reference is counted twice. -/
theorem Acquires.owned_iff {vm g : ℕ} (h : Acquires s vm g t) (ho : s.Owned) :
    t.Owned ↔ (vm ∈ s.live → s.helperFunc vm = none) := by
  have hmem : vm ∈ s.users g ↔ vm ∈ s.live ∧ s.helperFunc vm = some g := Finset.mem_filter
  have hold {g' : ℕ} (hg' : s.gHelperFunc = some g') : g' = g := by
    rcases h.before with hg | ⟨hnone, _⟩
    · exact Option.some.inj (hg'.symm.trans hg)
    · rw [hnone] at hg'
      cases hg'
  constructor
  · intro hot hvm
    by_contra hne
    obtain ⟨g', hg'⟩ := Option.ne_none_iff_exists'.mp hne
    have hu : vm ∈ s.users g := hmem.mpr ⟨hvm, hold (ho.shared vm hvm g' hg') ▸ hg'⟩
    have hcount := hot.counted g h.gHelperFunc
    rw [h.refcnt, if_pos rfl, h.count_before ho, h.users, Finset.insert_eq_of_mem hu,
      Option.some.injEq] at hcount
    omega
  · intro hvm
    have hu : vm ∉ s.users g := by
      intro hu
      rw [hmem] at hu
      rw [hvm hu.1] at hu
      cases hu.2
    constructor
    · intro g' hg'
      obtain rfl : g' = g := Option.some.inj (hg'.symm.trans h.gHelperFunc)
      rw [h.refcnt, if_pos rfl, h.count_before ho, h.users, Finset.card_insert_of_notMem hu]
      rfl
    · intro g' hg'
      obtain rfl : g' = g := Option.some.inj (hg'.symm.trans h.gHelperFunc)
      exact h.users ▸ Finset.insert_nonempty _ _
    · intro w hw g' hg'
      rw [h.live, Finset.mem_insert] at hw
      rw [h.helperFunc, Function.update_apply] at hg'
      by_cases hwv : w = vm
      · rw [if_pos hwv] at hg'
        exact h.gHelperFunc.trans hg'
      · rw [if_neg hwv] at hg'
        rw [h.gHelperFunc, hold (ho.shared w (hw.resolve_left hwv) g' hg')]
    · intro x hx
      rw [h.refcnt] at hx
      by_cases hxg : x = g
      · rw [hxg]
        exact h.gHelperFunc
      · rw [if_neg hxg] at hx
        exact absurd (hold (ho.freed x hx)) hxg

/-- The reference is taken by `use_default_helper_func`. -/
theorem setHelperFunc_acquires {vm addr g : ℕ} (hvm : vm ∈ s.live)
    (h : s.setHelperFunc vm addr = some (t, g)) : Acquires s vm g t := by
  simp only [setHelperFunc, Option.map_eq_some_iff, Prod.mk.injEq, Prod.exists] at h
  obtain ⟨u, g', hu, rfl, rfl⟩ := h
  unfold useDefaultHelperFunc at hu
  split at hu
  · rename_i hg
    split at hu
    · cases hu
    · rename_i hfree
      cases hu
      rw [Bool.not_eq_true, Option.isSome_eq_false_iff, Option.isNone_iff_eq_none] at hfree
      refine ⟨rfl, .inr ⟨hg, by rw [refcnt, hfree]; rfl⟩, ?_, (Finset.insert_eq_of_mem hvm).symm,
        rfl⟩
      intro x
      by_cases hx : x = addr <;> simp [refcnt, hx, hfree]
  · rename_i g hg
    split at hu
    · cases hu
    · rename_i env henv
      cases hu
      refine ⟨hg, .inl hg, ?_, (Finset.insert_eq_of_mem hvm).symm, rfl⟩
      intro x
      by_cases hx : x = g' <;> simp [refcnt, hx, henv]

/-- A VM with a table registers its functions there and changes no count. -/
theorem ebpfRegister_sameRefs {vm idx addr g : ℕ} {fn : HelperFn}
    (hg : s.helperFunc vm = some g) (h : s.ebpfRegister vm idx fn addr = some t) :
    SameRefs s t := by
  simp only [ebpfRegister, hg, Option.bind_eq_bind, Option.bind_some] at h
  split at h
  · cases h
    exact ⟨rfl, fun _ => rfl, rfl, rfl⟩
  · simp only [Option.bind_eq_some_iff] at h
    obtain ⟨env, henv, h⟩ := h
    cases h
    refine ⟨rfl, ?_, rfl, rfl⟩
    intro x
    by_cases hx : x = g <;> simp [refcnt, hx, henv]

theorem setDefaultHelpers_sameRefs {vm addr g : ℕ} (hg : s.helperFunc vm = some g)
    (h : s.setDefaultHelpers vm addr = some t) : SameRefs s t := by
  simp only [setDefaultHelpers, Option.bind_eq_bind, Option.bind_eq_some_iff] at h
  obtain ⟨s₁, h₁, s₂, h₂, s₃, h₃, h₄⟩ := h
  have r₁ := ebpfRegister_sameRefs hg h₁
  have r₂ := ebpfRegister_sameRefs (by rw [r₁.helperFunc, hg]) h₂
  have r₃ := ebpfRegister_sameRefs (by rw [r₂.helperFunc, r₁.helperFunc, hg]) h₃
  have r₄ := ebpfRegister_sameRefs (by rw [r₃.helperFunc, r₂.helperFunc, r₁.helperFunc, hg]) h₄
  exact r₁.trans (r₂.trans (r₃.trans r₄))

theorem Acquires.sameRefs {u : HelperSys} {vm g : ℕ} (h : Acquires s vm g t)
    (hr : SameRefs t u) : Acquires s vm g u where
  gHelperFunc := hr.gHelperFunc.trans h.gHelperFunc
  before := h.before
  refcnt x := (hr.refcnt x).trans (h.refcnt x)
  live := hr.live.trans h.live
  helperFunc := hr.helperFunc.trans h.helperFunc

theorem initIotEbpfHelpers_acquires {vm addr : ℕ} (hvm : vm ∈ s.live)
    (h : s.initIotEbpfHelpers vm addr = some t) : ∃ g, Acquires s vm g t := by
  simp only [initIotEbpfHelpers, Option.bind_eq_bind, Option.bind_eq_some_iff, Prod.exists] at h
  obtain ⟨u, g, hu, h⟩ := h
  have hacq := setHelperFunc_acquires hvm hu
  have hg : u.helperFunc vm = some g := by rw [hacq.helperFunc, Function.update_self]
  exact ⟨g, hacq.sameRefs (setDefaultHelpers_sameRefs hg h)⟩

/-! ### One operation -/

/-- The condition under which an operation keeps the count right: a VM whose
code is set has no reference yet, and one that is destroyed has one, unless
there is no table. -/
def Careful (s : HelperSys) : Op → Prop
  | .ebpfVmSetInst vm _ => s.helperFunc vm = none
  | .ebpfVmDestroy vm => s.helperFunc vm ≠ none ∨ s.gHelperFunc = none
  | _ => True

theorem initEbpfVm_owned {vm addr : ℕ} (ho : s.Owned) (h : s.initEbpfVm vm addr = some t) :
    t.Owned := by
  unfold initEbpfVm at h
  split at h
  · cases h
  · rename_i hvm
    obtain ⟨g, hacq⟩ := initIotEbpfHelpers_acquires (Finset.mem_insert_self vm s.live) h
    have hacq' : Acquires s vm g t :=
      { hacq with live := by rw [hacq.live, Finset.insert_idem] }
    exact (hacq'.owned_iff ho).mpr fun hin => absurd hin hvm

theorem ebpfVmSetInst_owned_iff {vm addr : ℕ} (ho : s.Owned)
    (h : s.ebpfVmSetInst vm addr = some t) : t.Owned ↔ s.helperFunc vm = none := by
  unfold ebpfVmSetInst at h
  split at h
  · rename_i hvm
    obtain ⟨g, hacq⟩ := initIotEbpfHelpers_acquires
      (s := { s with helperFunc := Function.update s.helperFunc vm none }) hvm h
    have hacq' : Acquires s vm g t :=
      { hacq with helperFunc := by rw [hacq.helperFunc, Function.update_idem] }
    rw [hacq'.owned_iff ho]
    exact ⟨fun hnone => hnone hvm, fun hnone _ => hnone⟩
  · cases h

theorem ebpfRegister_owned {vm idx addr : ℕ} {fn : HelperFn} (ho : s.Owned) (hvm : vm ∈ s.live)
    (h : s.ebpfRegister vm idx fn addr = some t) : t.Owned := by
  cases hg : s.helperFunc vm with
  | some g => exact (ebpfRegister_sameRefs hg h).owned ho
  | none =>
      -- the reference is taken first, and the rest is a registration with a table
      cases hu : s.setHelperFunc vm addr with
      | none =>
          simp only [ebpfRegister, hg, hu, Option.bind_eq_bind, Option.bind_none] at h
          cases h
      | some p =>
          obtain ⟨u, g⟩ := p
          have hacq := setHelperFunc_acquires hvm hu
          have hug : u.helperFunc vm = some g := by rw [hacq.helperFunc, Function.update_self]
          have hreg : u.ebpfRegister vm idx fn addr = some t := by
            simp only [ebpfRegister, hg, hu, Option.bind_eq_bind, Option.bind_some] at h
            simp only [ebpfRegister, hug, Option.bind_eq_bind, Option.bind_some]
            exact h
          exact (ebpfRegister_sameRefs hug hreg).owned ((hacq.owned_iff ho).mpr fun _ => hg)

theorem ebpfCreate_owned {vm : ℕ} (ho : s.Owned) (h : s.ebpfCreate vm = some t) : t.Owned := by
  unfold ebpfCreate at h
  split at h
  · cases h
  · rename_i hvm
    cases h
    have husers (g : ℕ) : users { s with
        live := insert vm s.live
        helperFunc := Function.update s.helperFunc vm none } g = s.users g := by
      ext w
      simp only [users, Finset.mem_filter, Finset.mem_insert, Function.update_apply]
      by_cases hw : w = vm
      · simp [hw, hvm]
      · simp [hw]
    constructor
    · intro g hg
      rw [husers]
      exact ho.counted g hg
    · intro g hg
      rw [husers]
      exact ho.used g hg
    · intro w hw g hg
      simp only [Function.update_apply] at hg
      split at hg
      · cases hg
      · rename_i hne
        exact ho.shared w ((Finset.mem_insert.mp hw).resolve_left hne) g hg
    · exact ho.freed

/-- A VM with a reference is one of the users of the shared table. -/
theorem Owned.mem_users_iff {vm g : ℕ} (ho : s.Owned) (hvm : vm ∈ s.live)
    (hg : s.gHelperFunc = some g) : vm ∈ s.users g ↔ s.helperFunc vm ≠ none := by
  rw [users, Finset.mem_filter]
  constructor
  · rintro ⟨_, h⟩
    rw [h]
    exact Option.some_ne_none g
  · intro hne
    obtain ⟨g', hg'⟩ := Option.ne_none_iff_exists'.mp hne
    have hsame : some g' = some g := (ho.shared vm hvm g' hg').symm.trans hg
    exact ⟨hvm, hg'.trans hsame⟩

theorem Owned.refcnt_eq {g : ℕ} {env : EbpfHelperEnv} (ho : s.Owned)
    (hg : s.gHelperFunc = some g) (henv : s.table g = some env) :
    env.refcnt = (s.users g).card := by
  have hcount := ho.counted g hg
  rw [refcnt, henv] at hcount
  exact Option.some.inj hcount

theorem users_erase (s : HelperSys) (vm g : ℕ) (x : Option ℕ) (y : ℕ → Option EbpfHelperEnv) :
    users { s with gHelperFunc := x, table := y, live := s.live.erase vm } g =
      (s.users g).erase vm := by
  simp only [users, Finset.filter_erase]

/-- The last reference is given back, with the table. -/
theorem destroy_last_owned_iff {vm g : ℕ} (ho : s.Owned)
    (hg : s.gHelperFunc = some g) (hcard : (s.users g).card = 1) :
    Owned { s with
        gHelperFunc := none
        table := Function.update s.table g none
        live := s.live.erase vm } ↔
      vm ∈ s.users g := by
  obtain ⟨w, hw⟩ := Finset.card_eq_one.mp hcard
  have hwu : w ∈ s.live ∧ s.helperFunc w = some g :=
    Finset.mem_filter.mp (hw ▸ Finset.mem_singleton_self w : w ∈ s.users g)
  constructor
  · intro hot
    by_contra hnot
    have hne : w ≠ vm := by
      rintro rfl
      exact hnot (hw ▸ Finset.mem_singleton_self w)
    have hdangling := hot.shared w (Finset.mem_erase.mpr ⟨hne, hwu.1⟩) g hwu.2
    cases hdangling
  · intro hu
    obtain rfl : vm = w := Finset.mem_singleton.mp (hw ▸ hu)
    constructor
    · intro g' hg'
      cases hg'
    · intro g' hg'
      cases hg'
    · intro x hx g' hg'
      obtain ⟨hne, hx⟩ := Finset.mem_erase.mp hx
      have hxu : x ∈ s.users g := (ho.mem_users_iff hx hg).mpr (by rw [hg']; simp)
      rw [hw, Finset.mem_singleton] at hxu
      exact absurd hxu hne
    · intro x hx
      by_cases hxg : x = g
      · simp [refcnt, hxg] at hx
      · have hx' : s.refcnt x ≠ none := by simpa [refcnt, hxg] using hx
        exact absurd (Option.some.inj ((ho.freed x hx').symm.trans hg)) hxg

/-- One of several references is given back. -/
theorem destroy_more_owned_iff {vm g : ℕ} {env : EbpfHelperEnv} (ho : s.Owned)
    (hg : s.gHelperFunc = some g) (henv : s.table g = some env)
    (hcard : (s.users g).card ≠ 1) :
    Owned { s with
        table := Function.update s.table g (some { env with refcnt := env.refcnt - 1 })
        live := s.live.erase vm } ↔
      vm ∈ s.users g := by
  have hcount := ho.refcnt_eq hg henv
  have hpos : 0 < (s.users g).card := Finset.card_pos.mpr (ho.used g hg)
  constructor
  · intro hot
    by_contra hnot
    have hafter := hot.counted g hg
    rw [users_erase, Finset.erase_eq_of_notMem hnot] at hafter
    simp only [refcnt, Function.update_self, Option.map_some, Option.some.injEq] at hafter
    omega
  · intro hu
    have herase : ((s.users g).erase vm).card = (s.users g).card - 1 :=
      Finset.card_erase_of_mem hu
    constructor
    · intro g' hg'
      obtain rfl : g = g' := Option.some.inj (hg.symm.trans hg')
      rw [users_erase, herase]
      simp only [refcnt, Function.update_self, Option.map_some, Option.some.injEq]
      omega
    · intro g' hg'
      obtain rfl : g = g' := Option.some.inj (hg.symm.trans hg')
      rw [users_erase, ← Finset.card_pos, herase]
      omega
    · intro x hx g' hg'
      exact ho.shared x (Finset.mem_of_mem_erase hx) g' hg'
    · intro x hx
      by_cases hxg : x = g
      · rw [hxg]
        exact hg
      · exact ho.freed x (by simpa [refcnt, hxg] using hx)

theorem ebpfVmDestroy_owned_iff {vm : ℕ} (ho : s.Owned) (h : s.ebpfVmDestroy vm = some t) :
    t.Owned ↔ s.helperFunc vm ≠ none ∨ s.gHelperFunc = none := by
  unfold ebpfVmDestroy at h
  split at h
  case isFalse => cases h
  case isTrue hvm =>
    split at h
    · rename_i hnone
      cases h
      refine ⟨fun _ => .inr hnone, fun _ => ?_⟩
      constructor
      · intro g hg
        exact absurd (hnone.symm.trans hg) (by simp)
      · intro g hg
        exact absurd (hnone.symm.trans hg) (by simp)
      · intro w hw g hg
        exact ho.shared w (Finset.mem_of_mem_erase hw) g hg
      · exact ho.freed
    · rename_i g hg
      have hiff : s.helperFunc vm ≠ none ∨ s.gHelperFunc = none ↔ vm ∈ s.users g := by
        rw [ho.mem_users_iff hvm hg, hg]
        simp
      rw [hiff]
      split at h
      · cases h
      · rename_i env henv
        have hcount := ho.refcnt_eq hg henv
        split at h
        · cases h
          exact destroy_last_owned_iff ho hg (by omega)
        · cases h
          exact destroy_more_owned_iff ho hg henv (by omega)

/-- An operation keeps the count right exactly under its condition. -/
theorem step_owned_iff {op : Op} (ho : s.Owned) (h : s.step op = some t) :
    t.Owned ↔ s.Careful op := by
  cases op with
  | initEbpfVm vm addr => exact iff_of_true (initEbpfVm_owned ho h) trivial
  | ebpfCreate vm => exact iff_of_true (ebpfCreate_owned ho h) trivial
  | ebpfVmSetInst vm addr => exact ebpfVmSetInst_owned_iff ho h
  | ebpfRegister vm idx fn addr =>
      simp only [step] at h
      split at h
      · rename_i hvm
        exact iff_of_true (ebpfRegister_owned ho hvm h) trivial
      · cases h
  | ebpfVmDestroy vm => exact ebpfVmDestroy_owned_iff ho h

/-! ### Every sequence of operations -/

theorem boot_owned : boot.Owned where
  counted g hg := by cases hg
  used g hg := by cases hg
  shared vm hvm := by cases hvm
  freed g hg := absurd rfl hg

/-- In a sequence of operations on VMs the shared table has the count of its
users throughout, and is there as long as it has users, exactly if every
operation meets its condition. -/
theorem owned_throughout_iff (ops : List Op) :
    Throughout step Owned boot ops ↔ EachStep step Careful boot ops :=
  throughout_iff_eachStep (fun _ _ _ => step_owned_iff) boot_owned ops

/-- Two VMs, one of them without helpers; destroying that one frees the table
of the other. -/
theorem destroy_frees_used_table :
    ∃ s, runEvents step boot [.initEbpfVm 1 0, .ebpfCreate 2, .ebpfVmDestroy 2] = some s ∧
      1 ∈ s.live ∧ s.helperFunc 1 = some 0 ∧ (s.table 0).isNone = true :=
  ⟨_, rfl, by decide, by decide, by decide⟩

end HelperSys

end RapidPatch.Vm

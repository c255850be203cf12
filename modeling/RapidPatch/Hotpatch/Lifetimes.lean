import RapidPatch.Hotpatch.FixedPatches
import RapidPatch.Support.Blocks
import RapidPatch.Support.Events

/-!
The heap blocks behind local patches.

`read_local_patch` and `load_local_fixed_patch` each keep a descriptor and a
patch in static variables and put the patch into the global context; the
patch has a VM. `destroy_patch_context` frees the table of fixed patches,
and with each node of the dynamic list also the patch, its descriptor and its
VM. Here every one of these is a block that is live or not, and a function
is `none` where it would follow a null pointer or a pointer to a freed block, or
free a block again.

The fixed patch is only in the table, so that it survives; and its loader
asks for `init_patch_sys` each time. The dynamic patch is in the list, and
its loader's `is_init` stays set when its blocks are gone.
-/

namespace RapidPatch.Hotpatch

open RapidPatch.Support

/-! ### The heap -/

/-- `ebpf_patch`, with its pointers. -/
structure PatchBlock where
  desc : Option ℕ
  vm : Option ℕ
  isActive : Bool

/-- `ebpf_vm`: the local patch whose code it runs, and how. -/
structure VmBlock where
  code : ℤ
  useJit : Bool

/-- `dynamic_patch`, with its pointers. -/
structure NodeBlock where
  patch : Option ℕ
  next : Option ℕ
  instAddr : BitVec 32
  pcAddr : BitVec 32

structure LoaderStatics where
  isInit : Bool
  desc : Option ℕ
  patch : Option ℕ

/-- The blocks, the context, and the two loaders. -/
structure HeapSys (F : Type) where
  descs : Blocks PatchDesc
  patches : Blocks PatchBlock
  vms : Blocks VmBlock
  nodes : Blocks NodeBlock
  maps : Blocks F
  ctxInit : Bool
  fbitsFilter : BitVec 32
  dbitsFilterBpkt : BitVec 32
  dbitsFilterPc : BitVec 32
  /-- `pctx.fpatch_list.fiexed_patches`. -/
  fixedPatches : Option ℕ
  /-- `pctx.dpatch_list.next`. -/
  dpatchList : Option ℕ
  dynamicLoader : LoaderStatics
  fixedLoader : LoaderStatics

namespace HeapSys

variable {F : Type}

/-- The nodes from a pointer on, followed for at most as many turns as there
are blocks. -/
def nodesFrom (nodes : Blocks NodeBlock) : ℕ → Option ℕ → Option (List (ℕ × NodeBlock))
  | _, none => some []
  | 0, some _ => none
  | n + 1, some i => do
      let dp ← nodes.read (some i)
      let rest ← nodesFrom nodes n dp.next
      return (i, dp) :: rest

def nodeList (s : HeapSys F) : Option (List (ℕ × NodeBlock)) :=
  nodesFrom s.nodes s.nodes.count s.dpatchList

section

variable (env : Env F)

/-! ### The context -/

def fixedBits (s : HeapSys F) (vals : List ℕ) : Option (BitVec 32) :=
  vals.foldlM (fun bits p => do
    let patch ← s.patches.read (some p)
    if patch.isActive then
      let desc ← s.descs.read patch.desc
      return bits ||| desc.addr
    else return bits) 0

def updateBitsFilter (s : HeapSys F) : Option (HeapSys F) := do
  let table ← s.maps.read s.fixedPatches
  let bits ← s.fixedBits (env.arraymapVals table)
  let nodes ← s.nodeList
  return { s with
    fbitsFilter := bits
    dbitsFilterPc := nodes.foldl (fun bits dp => bits ||| dp.2.pcAddr) 0
    dbitsFilterBpkt := nodes.foldl (fun bits dp => bits ||| dp.2.instAddr) 0 }

def activePatch (s : HeapSys F) (p : Option ℕ) : Option (HeapSys F) := do
  let s ← s.updateBitsFilter env
  let patch ← s.patches.read p
  let desc ← s.descs.read patch.desc
  let s :=
    if desc.type = fixedPatchPoint then { s with fbitsFilter := s.fbitsFilter ||| desc.addr }
    else s
  let patches ← s.patches.write p { patch with isActive := true }
  return { s with patches := patches }

/-- `add_dynamic_patch_to_ctx`. A null pointer for the tail is the list head
in the context. -/
def addDynamicPatchToCtx (s : HeapSys F) (p : Option ℕ) : Option (HeapSys F) := do
  let nodes ← s.nodeList
  let patch ← s.patches.read p
  let desc ← s.descs.read patch.desc
  let passed := nodes.takeWhile fun dp => dp.2.instAddr ≠ desc.addr
  let found := (nodes.drop passed.length).head?
  let tail := passed.getLast?
  let instAddr := calcBpktAddr desc.addr
  let node : NodeBlock :=
    { patch := p, next := none, instAddr := instAddr, pcAddr := calcBpktPc env instAddr }
  match found with
  | some (cur, _) =>
      let nodes ← s.nodes.write (some cur) node
      return { s with nodes := nodes }
  | none =>
      match tail with
      | none =>
          let (nodes, cur) := s.nodes.alloc node
          return { s with nodes := nodes, dpatchList := some cur }
      | some (tail, dp) =>
          if passed.length > maxDpNum then
            let nodes ← s.nodes.write (some tail) node
            return { s with nodes := nodes }
          else
            let (nodes, cur) := s.nodes.alloc node
            let nodes ← nodes.write (some tail) { dp with next := some cur }
            return { s with nodes := nodes }

def addFixedPatchToCtx (s : HeapSys F) (p : Option ℕ) : Option (HeapSys F) := do
  let table ← s.maps.read s.fixedPatches
  let patch ← s.patches.read p
  let desc ← s.descs.read patch.desc
  let maps ← s.maps.write s.fixedPatches (env.arraymapSet table desc.addr (p.getD 0))
  return { s with maps := maps }

def initPatchSys (s : HeapSys F) : Option (HeapSys F) :=
  if s.ctxInit then some s
  else do
    -- `memset` of the whole context, the list head included
    let (maps, map) := s.maps.alloc env.arraymapNew
    let s ← updateBitsFilter env { s with
      fbitsFilter := 0
      dbitsFilterBpkt := 0
      dbitsFilterPc := 0
      dpatchList := none
      maps := maps
      fixedPatches := some map }
    return { s with ctxInit := true }

def loadLocalPatchToCtx (s : HeapSys F) (p : Option ℕ) : Option (HeapSys F) := do
  let patch ← s.patches.read p
  let desc ← s.descs.read patch.desc
  if desc.type = fixedPatchPoint then
    let s ← s.addFixedPatchToCtx env p
    s.activePatch env p
  else if desc.type = dynamicPatchPoint then
    let nodes ← s.nodeList
    match nodes.find? fun dp => dp.2.patch = p with
    | none =>
        let s ← s.addDynamicPatchToCtx env p
        s.activePatch env p
    | some (i, dp) =>
        let instAddr := calcBpktAddr desc.addr
        let nodes ← s.nodes.write (some i)
          { dp with instAddr := instAddr, pcAddr := calcBpktPc env instAddr }
        activePatch env { s with nodes := nodes } p
  else return s

def destroyEbpfPatch (s : HeapSys F) (p : Option ℕ) : Option (HeapSys F) :=
  match p with
  | none => some s
  | some _ => do
      let patch ← s.patches.read p
      let descs ← s.descs.free patch.desc
      let vms ← s.vms.free patch.vm
      let patches ← s.patches.free p
      return { s with descs := descs, vms := vms, patches := patches }

/-- The loop of `destroy_patch_context`. The turns are bounded by the number
of blocks. -/
def destroyNodes : ℕ → Option ℕ → HeapSys F → Option (HeapSys F)
  | _, none, s => some s
  | 0, some _, _ => none
  | n + 1, some i, s => do
      let dp ← s.nodes.read (some i)
      let s ← s.destroyEbpfPatch dp.patch
      let nodes ← s.nodes.free (some i)
      destroyNodes n dp.next { s with nodes := nodes }

/-- `destroy_patch_context`, without the breakpoint unit. `arraymap_destroy`
is not called with a null pointer. -/
def destroyPatchContext (s : HeapSys F) : Option (HeapSys F) := do
  let maps ← s.maps.free s.fixedPatches
  let s : HeapSys F := { s with maps := maps, fixedPatches := none }
  let s ← destroyNodes s.nodes.count s.dpatchList s
  return { s with
    dpatchList := none
    dbitsFilterBpkt := 0
    dbitsFilterPc := 0
    fbitsFilter := 0
    ctxInit := false }

/-! ### The loaders -/

/-- `ebpf_calloc` of a loader's descriptor and patch. -/
def callocStatics (s : HeapSys F) : HeapSys F × LoaderStatics :=
  let (descs, desc) := s.descs.alloc { type := 0, addr := 0 }
  let (patches, patch) := s.patches.alloc { desc := none, vm := none, isActive := false }
  ({ s with descs := descs, patches := patches },
    { isInit := true, desc := some desc, patch := some patch })

/-- What both loaders do with their descriptor, their patch and its VM, up to
the call of `load_local_patch_to_ctx`. `ebpf_vm_set_inst` writes the whole
VM. -/
def fillPatch (s : HeapSys F) (l : LoaderStatics) (type : BitVec 16) (loc : BitVec 32) (pid : ℤ)
    (useJit : Bool) : Option (HeapSys F) := do
  let descs ← s.descs.write l.desc { type := type, addr := loc }
  let patch ← s.patches.read l.patch
  let (vms, vm) := match patch.vm with
    | none =>
        let (vms, vm) := s.vms.alloc { code := pid, useJit := false }
        (vms, some vm)
    | some vm => (s.vms, some vm)
  let vms ← vms.write vm { code := pid, useJit := useJit }
  let patches ← s.patches.write l.patch { patch with desc := l.desc, vm := vm }
  return { s with descs := descs, patches := patches, vms := vms }

variable (dynamicPatches fixedPatchList : LocalPatches)

/-- `read_local_patch`. The context is asked for only at the first call. -/
def readLocalPatch (s : HeapSys F) (pid : ℤ) : Option (HeapSys F) :=
  if pid > dynamicPatches.count then some s
  else do
    let s ← if s.dynamicLoader.isInit then some s
      else
        let (s, statics) := s.callocStatics
        initPatchSys env { s with dynamicLoader := statics }
    let s ← s.fillPatch s.dynamicLoader dynamicPatchPoint (dynamicPatches.loc pid) pid true
    s.loadLocalPatchToCtx env s.dynamicLoader.patch

/-- The part of `load_local_fixed_patch` that is run once. -/
def setupFixed (s : HeapSys F) : HeapSys F :=
  if s.fixedLoader.isInit then s
  else
    let (s, statics) := s.callocStatics
    { s with fixedLoader := statics }

def loadLocalFixedPatch (s : HeapSys F) (pid : ℤ) : Option (HeapSys F) :=
  if pid > fixedPatchList.count then some s
  else do
    let s ← s.setupFixed.initPatchSys env
    let s ← s.fillPatch s.fixedLoader fixedPatchPoint (fixedPatchList.loc pid) pid false
    s.loadLocalPatchToCtx env s.fixedLoader.patch

def ValidId (l : LocalPatches) : Type := { pid : ℤ // 0 ≤ pid ∧ pid < l.count }

inductive Op
  | readLocalPatch (pid : ValidId dynamicPatches)
  | loadLocalFixedPatch (pid : ValidId fixedPatchList)
  | destroyPatchContext

def step (s : HeapSys F) : Op dynamicPatches fixedPatchList → Option (HeapSys F)
  | .readLocalPatch pid => s.readLocalPatch env dynamicPatches pid.1
  | .loadLocalFixedPatch pid => s.loadLocalFixedPatch env fixedPatchList pid.1
  | .destroyPatchContext => s.destroyPatchContext

end

def boot : HeapSys F where
  descs := .empty
  patches := .empty
  vms := .empty
  nodes := .empty
  maps := .empty
  ctxInit := false
  fbitsFilter := 0
  dbitsFilterBpkt := 0
  dbitsFilterPc := 0
  fixedPatches := none
  dpatchList := none
  dynamicLoader := { isInit := false, desc := none, patch := none }
  fixedLoader := { isInit := false, desc := none, patch := none }

/-! ### What the loaders own -/

structure Owner where
  desc : ℕ
  patch : ℕ
  vm : ℕ

/-- The loader's static variables point to live blocks of its own: a
descriptor of its type, a patch with that descriptor, and a VM run its way. -/
structure Owns (descs : Blocks PatchDesc) (patches : Blocks PatchBlock) (vms : Blocks VmBlock)
    (l : LoaderStatics) (type : BitVec 16) (useJit : Bool) (o : Owner) : Prop where
  statics : l = { isInit := true, desc := some o.desc, patch := some o.patch }
  desc : ∃ addr, descs.cell o.desc = some { type := type, addr := addr }
  patch : ∃ isActive, patches.cell o.patch =
    some { desc := some o.desc, vm := some o.vm, isActive := isActive }
  vm : ∃ code, vms.cell o.vm = some { code := code, useJit := useJit }

section

variable {descs : Blocks PatchDesc} {patches : Blocks PatchBlock} {vms vms' : Blocks VmBlock}
  {l l' : LoaderStatics} {type : BitVec 16} {useJit : Bool} {o o' : Owner}

theorem Owns.putDesc (h : Owns descs patches vms l type useJit o) {i : ℕ} (hi : o.desc ≠ i)
    (x : Option PatchDesc) : Owns (descs.put i x) patches vms l type useJit o where
  statics := h.statics
  desc := h.desc.imp fun _ hd => (Blocks.put_cell_of_ne hi).trans hd
  patch := h.patch
  vm := h.vm

theorem Owns.putPatch (h : Owns descs patches vms l type useJit o) {i : ℕ} (hi : o.patch ≠ i)
    (x : Option PatchBlock) : Owns descs (patches.put i x) vms l type useJit o where
  statics := h.statics
  desc := h.desc
  patch := h.patch.imp fun _ hp => (Blocks.put_cell_of_ne hi).trans hp
  vm := h.vm

theorem Owns.ofVms (h : Owns descs patches vms l type useJit o)
    (hvm : ∀ vb, vms.cell o.vm = some vb → vms'.cell o.vm = some vb) :
    Owns descs patches vms' l type useJit o where
  statics := h.statics
  desc := h.desc
  patch := h.patch
  vm := h.vm.imp fun _ hv => hvm _ hv

theorem Owns.allocDesc (h : Owns descs patches vms l type useJit o) (x : PatchDesc) :
    Owns (descs.alloc x).1 patches vms l type useJit o where
  statics := h.statics
  desc := h.desc.imp fun _ hd => Blocks.alloc_cell hd
  patch := h.patch
  vm := h.vm

theorem Owns.allocPatch (h : Owns descs patches vms l type useJit o) (x : PatchBlock) :
    Owns descs (patches.alloc x).1 vms l type useJit o where
  statics := h.statics
  desc := h.desc
  patch := h.patch.imp fun _ hp => Blocks.alloc_cell hp
  vm := h.vm

theorem Owns.activate (h : Owns descs patches vms l type useJit o) {pb : PatchBlock}
    (hpb : patches.cell o.patch = some pb) :
    Owns descs (patches.put o.patch (some { pb with isActive := true })) vms l type useJit o where
  statics := h.statics
  desc := h.desc
  patch := by
    obtain ⟨isActive, hp⟩ := h.patch
    obtain rfl := Option.some.inj (hpb.symm.trans hp)
    exact ⟨true, Blocks.put_cell_self hp⟩
  vm := h.vm

theorem Owns.apart (h : Owns descs patches vms l dynamicPatchPoint true o)
    (h' : Owns descs patches vms l' fixedPatchPoint false o') :
    o.desc ≠ o'.desc ∧ o.patch ≠ o'.patch ∧ o.vm ≠ o'.vm := by
  obtain ⟨addr, hd⟩ := h.desc
  obtain ⟨addr', hd'⟩ := h'.desc
  have hdesc : o.desc ≠ o'.desc := by
    intro heq
    rw [heq, hd'] at hd
    cases hd
  refine ⟨hdesc, ?_, ?_⟩
  · intro heq
    obtain ⟨isActive, hp⟩ := h.patch
    obtain ⟨isActive', hp'⟩ := h'.patch
    rw [heq, hp'] at hp
    simp only [Option.some.injEq, PatchBlock.mk.injEq] at hp
    exact hdesc hp.1.symm
  · intro heq
    obtain ⟨code, hv⟩ := h.vm
    obtain ⟨code', hv'⟩ := h'.vm
    rw [heq, hv'] at hv
    cases hv

end

/-! ### The functions on sound states -/

section

variable {env : Env F} {s : HeapSys F}

/-- The patches of the table and their descriptors are live. -/
def Readable (descs : Blocks PatchDesc) (patches : Blocks PatchBlock) (vals : List ℕ) : Prop :=
  ∀ x ∈ vals, ∃ pb desc, patches.cell x = some pb ∧ descs.read pb.desc = some desc

theorem fixedBits_of_readable {vals : List ℕ} (h : Readable s.descs s.patches vals) :
    ∃ bits, s.fixedBits vals = some bits := by
  unfold fixedBits
  generalize (0 : BitVec 32) = bits
  induction vals generalizing bits with
  | nil => exact ⟨bits, rfl⟩
  | cons x vals ih =>
      obtain ⟨pb, desc, hp, hd⟩ := h x List.mem_cons_self
      have hrest : Readable s.descs s.patches vals := fun y hy => h y (List.mem_cons_of_mem x hy)
      simp only [List.foldlM_cons, Blocks.read_some, hp, hd, Option.bind_eq_bind,
        Option.bind_some]
      split
      · exact ih hrest _
      · exact ih hrest _

theorem nodeList_nil (h : s.dpatchList = none) : s.nodeList = some [] := by
  rw [nodeList, h]
  cases s.nodes.count <;> rfl

theorem nodeList_singleton {n : ℕ} {node : NodeBlock} (h : s.dpatchList = some n)
    (hn : s.nodes.cell n = some node) (hnext : node.next = none) :
    s.nodeList = some [(n, node)] := by
  obtain ⟨k, hk⟩ : ∃ k, s.nodes.count = k + 1 :=
    Nat.exists_eq_succ_of_ne_zero (Nat.ne_of_gt (Nat.zero_lt_of_lt (Blocks.lt_count hn)))
  have hrest : nodesFrom s.nodes k none = some [] := by cases k <;> rfl
  simp only [nodeList, h, hk, nodesFrom, Blocks.read_some, hn, hnext, hrest, Option.bind_eq_bind,
    Option.bind_some]
  rfl

theorem updateBitsFilter_eq {table : F} {nodes : List (ℕ × NodeBlock)}
    (hm : s.maps.read s.fixedPatches = some table)
    (hv : Readable s.descs s.patches (env.arraymapVals table)) (hn : s.nodeList = some nodes) :
    ∃ f b p, s.updateBitsFilter env =
      some { s with fbitsFilter := f, dbitsFilterBpkt := b, dbitsFilterPc := p } := by
  obtain ⟨bits, hbits⟩ := fixedBits_of_readable hv
  simp only [updateBitsFilter, hm, hbits, hn, Option.bind_eq_bind, Option.bind_some]
  exact ⟨_, _, _, rfl⟩

theorem activePatch_eq {table : F} {nodes : List (ℕ × NodeBlock)} {i : ℕ} {pb : PatchBlock}
    {desc : PatchDesc} (hm : s.maps.read s.fixedPatches = some table)
    (hv : Readable s.descs s.patches (env.arraymapVals table)) (hn : s.nodeList = some nodes)
    (hp : s.patches.cell i = some pb) (hd : s.descs.read pb.desc = some desc) :
    ∃ f b p, s.activePatch env (some i) =
      some { s with
        fbitsFilter := f
        dbitsFilterBpkt := b
        dbitsFilterPc := p
        patches := s.patches.put i (some { pb with isActive := true }) } := by
  obtain ⟨f, b, p, hbits⟩ := updateBitsFilter_eq hm hv hn
  simp only [activePatch, hbits, Blocks.read_some, hp, hd, Option.bind_eq_bind, Option.bind_some]
  split
  · simp only [Blocks.write_of_live hp, Option.bind_some]
    exact ⟨_, _, _, rfl⟩
  · simp only [Blocks.write_of_live hp, Option.bind_some]
    exact ⟨_, _, _, rfl⟩

/-- The blocks of a loader after `fillPatch`: its patch is complete, and has
the VM it had or a new one. -/
theorem fillPatch_eq {d p : ℕ} {x : PatchDesc} {pb : PatchBlock} (type : BitVec 16)
    (loc : BitVec 32) (pid : ℤ) (useJit : Bool) (hd : s.descs.cell d = some x)
    (hp : s.patches.cell p = some pb)
    (hv : ∀ v, pb.vm = some v → ∃ vb, s.vms.cell v = some vb) :
    ∃ vms v, s.fillPatch { isInit := true, desc := some d, patch := some p } type loc pid useJit =
        some { s with
          descs := s.descs.put d (some { type := type, addr := loc })
          patches := s.patches.put p (some { pb with desc := some d, vm := some v })
          vms := vms } ∧
      vms.cell v = some { code := pid, useJit := useJit } ∧
      (∀ w, pb.vm = some w → v = w) ∧
      ∀ i vb, pb.vm ≠ some i → s.vms.cell i = some vb → vms.cell i = some vb := by
  cases hvm : pb.vm with
  | none =>
      have halloc : (s.vms.alloc { code := pid, useJit := false }).1.cell s.vms.count =
          some { code := pid, useJit := false } := Blocks.alloc_cell_self
      refine ⟨_, s.vms.count, ?_, Blocks.put_cell_self halloc, ?_, ?_⟩
      · simp only [fillPatch, Blocks.write_of_live hd, Blocks.read_some, hp, hvm,
          Blocks.alloc_snd, Blocks.write_of_live halloc, Blocks.write_of_live hp,
          Option.bind_eq_bind, Option.bind_some]
        rfl
      · intro w hw
        cases hw
      · intro i vb _ hi
        rw [Blocks.put_cell_of_ne (Nat.ne_of_lt (Blocks.lt_count hi))]
        exact Blocks.alloc_cell hi
  | some v =>
      obtain ⟨vb, hvb⟩ := hv v hvm
      refine ⟨_, v, ?_, Blocks.put_cell_self hvb, ?_, ?_⟩
      · simp only [fillPatch, Blocks.write_of_live hd, Blocks.read_some, hp, hvm,
          Blocks.write_of_live hvb, Blocks.write_of_live hp, Option.bind_eq_bind,
          Option.bind_some]
        rfl
      · intro w hw
        exact Option.some.inj hw
      · intro i vb' hi hcell
        have hne : i ≠ v := fun heq => hi (congrArg some heq.symm)
        rw [Blocks.put_cell_of_ne hne]
        exact hcell

/-- What the values of the table are when it is new and after an entry, as
`Store.arraymapSet_vals` has it. -/
structure TableVals (env : Env F) : Prop where
  new : env.arraymapVals env.arraymapNew = []
  set : ∀ m k v, ∀ x ∈ env.arraymapVals (env.arraymapSet m k v), x = v ∨ x ∈ env.arraymapVals m

theorem loadLocalPatchToCtx_fixed (hmap : TableVals env) {table : F}
    {nodes : List (ℕ × NodeBlock)} {m i d : ℕ} {pb : PatchBlock} {addr : BitVec 32}
    (hm : s.fixedPatches = some m) (htable : s.maps.cell m = some table)
    (hv : Readable s.descs s.patches (env.arraymapVals table)) (hn : s.nodeList = some nodes)
    (hp : s.patches.cell i = some pb) (hpd : pb.desc = some d)
    (hd : s.descs.cell d = some { type := fixedPatchPoint, addr := addr }) :
    ∃ f b p, s.loadLocalPatchToCtx env (some i) =
      some { s with
        fbitsFilter := f
        dbitsFilterBpkt := b
        dbitsFilterPc := p
        maps := s.maps.put m (some (env.arraymapSet table addr i))
        patches := s.patches.put i (some { pb with isActive := true }) } := by
  have hvals : Readable s.descs s.patches (env.arraymapVals (env.arraymapSet table addr i)) := by
    intro x hx
    rcases hmap.set _ _ _ x hx with rfl | hold
    · exact ⟨pb, _, hp, by rw [hpd]; exact hd⟩
    · exact hv x hold
  have hread : (s.maps.put m (some (env.arraymapSet table addr i))).read s.fixedPatches =
      some (env.arraymapSet table addr i) := by
    rw [hm]
    exact Blocks.put_cell_self htable
  obtain ⟨f, b, p, hactive⟩ := activePatch_eq
    (s := { s with maps := s.maps.put m (some (env.arraymapSet table addr i)) })
    hread hvals hn hp (by rw [hpd]; exact hd)
  refine ⟨f, b, p, ?_⟩
  rw [← hactive]
  simp only [loadLocalPatchToCtx, addFixedPatchToCtx, Blocks.read_some, hp, hpd, hd, hm, htable,
    Blocks.write_of_live htable, Option.bind_eq_bind, Option.bind_some, if_true]
  rfl

theorem loadLocalPatchToCtx_insert {table : F} {i d : ℕ} {pb : PatchBlock} {addr : BitVec 32}
    (hm : s.maps.read s.fixedPatches = some table)
    (hv : Readable s.descs s.patches (env.arraymapVals table)) (hn : s.dpatchList = none)
    (hp : s.patches.cell i = some pb) (hpd : pb.desc = some d)
    (hd : s.descs.cell d = some { type := dynamicPatchPoint, addr := addr }) :
    ∃ f b p node, s.loadLocalPatchToCtx env (some i) =
        some { s with
          fbitsFilter := f
          dbitsFilterBpkt := b
          dbitsFilterPc := p
          nodes := (s.nodes.alloc node).1
          dpatchList := some s.nodes.count
          patches := s.patches.put i (some { pb with isActive := true }) } ∧
      node.patch = some i ∧ node.next = none := by
  let node : NodeBlock :=
    { patch := some i, next := none, instAddr := calcBpktAddr addr
      pcAddr := calcBpktPc env (calcBpktAddr addr) }
  have hnodes : HeapSys.nodeList { s with
      nodes := (s.nodes.alloc node).1, dpatchList := some s.nodes.count } =
      some [(s.nodes.count, node)] := nodeList_singleton rfl Blocks.alloc_cell_self rfl
  obtain ⟨f, b, p, hactive⟩ := activePatch_eq
    (s := { s with nodes := (s.nodes.alloc node).1, dpatchList := some s.nodes.count })
    hm hv hnodes hp (by rw [hpd]; exact hd)
  refine ⟨f, b, p, node, ?_, rfl, rfl⟩
  rw [← hactive]
  have hne : dynamicPatchPoint ≠ fixedPatchPoint := by decide
  simp only [loadLocalPatchToCtx, addDynamicPatchToCtx, nodeList_nil hn, Blocks.read_some, hp, hpd,
    hd, hne, Option.bind_eq_bind, Option.bind_some, if_true, if_false, List.find?_nil,
    List.takeWhile_nil, List.length_nil, List.drop_nil, List.head?_nil, List.getLast?_nil,
    Blocks.alloc_snd]
  rfl

theorem loadLocalPatchToCtx_update {table : F} {i d n : ℕ} {pb : PatchBlock} {node : NodeBlock}
    {addr : BitVec 32} (hm : s.maps.read s.fixedPatches = some table)
    (hv : Readable s.descs s.patches (env.arraymapVals table)) (hn : s.dpatchList = some n)
    (hnode : s.nodes.cell n = some node) (hpatch : node.patch = some i) (hnext : node.next = none)
    (hp : s.patches.cell i = some pb) (hpd : pb.desc = some d)
    (hd : s.descs.cell d = some { type := dynamicPatchPoint, addr := addr }) :
    ∃ f b p node', s.loadLocalPatchToCtx env (some i) =
        some { s with
          fbitsFilter := f
          dbitsFilterBpkt := b
          dbitsFilterPc := p
          nodes := s.nodes.put n (some node')
          patches := s.patches.put i (some { pb with isActive := true }) } ∧
      node'.patch = some i ∧ node'.next = none := by
  let node' : NodeBlock :=
    { node with
      instAddr := calcBpktAddr addr
      pcAddr := calcBpktPc env (calcBpktAddr addr) }
  have hnodes : HeapSys.nodeList { s with nodes := s.nodes.put n (some node') } =
      some [(n, node')] := nodeList_singleton hn (Blocks.put_cell_self hnode) hnext
  obtain ⟨f, b, p, hactive⟩ := activePatch_eq
    (s := { s with nodes := s.nodes.put n (some node') }) hm hv hnodes hp
    (by rw [hpd]; exact hd)
  refine ⟨f, b, p, node', ?_, hpatch, hnext⟩
  rw [← hactive]
  have hne : dynamicPatchPoint ≠ fixedPatchPoint := by decide
  have hfind : [(n, node)].find? (fun dp => dp.2.patch = some i) = some (n, node) := by
    simp [hpatch]
  simp only [loadLocalPatchToCtx, nodeList_singleton hn hnode hnext, Blocks.read_some, hp, hpd,
    hd, hne, hfind, Blocks.write_of_live hnode, Option.bind_eq_bind, Option.bind_some, if_true,
    if_false]
  rfl

/-- The context is initialised once, with an empty table and an empty list. -/
theorem initPatchSys_eq (hmap : TableVals env) (hoff : s.ctxInit = false) :
    ∃ f b p, s.initPatchSys env =
      some { s with
        fbitsFilter := f
        dbitsFilterBpkt := b
        dbitsFilterPc := p
        dpatchList := none
        maps := (s.maps.alloc env.arraymapNew).1
        fixedPatches := some s.maps.count
        ctxInit := true } := by
  have hread : (s.maps.alloc env.arraymapNew).1.read (some s.maps.count) =
      some env.arraymapNew := Blocks.alloc_cell_self
  have hvals : Readable s.descs s.patches (env.arraymapVals env.arraymapNew) := by
    rw [hmap.new]
    intro x hx
    cases hx
  obtain ⟨f, b, p, hbits⟩ := updateBitsFilter_eq
    (s := { s with
      fbitsFilter := 0
      dbitsFilterBpkt := 0
      dbitsFilterPc := 0
      dpatchList := none
      maps := (s.maps.alloc env.arraymapNew).1
      fixedPatches := some s.maps.count })
    hread hvals (nodeList_nil rfl)
  refine ⟨f, b, p, ?_⟩
  have hnot : ¬s.ctxInit = true := by
    rw [hoff]
    exact Bool.false_ne_true
  rw [initPatchSys, if_neg hnot]
  simp only [Blocks.alloc_snd, hbits, Option.bind_eq_bind, Option.bind_some]
  rfl

theorem destroyEbpfPatch_eq {l : LoaderStatics} {type : BitVec 16} {useJit : Bool} {o : Owner}
    (h : Owns s.descs s.patches s.vms l type useJit o) :
    s.destroyEbpfPatch (some o.patch) =
      some { s with
        descs := s.descs.put o.desc none
        vms := s.vms.put o.vm none
        patches := s.patches.put o.patch none } := by
  obtain ⟨addr, hd⟩ := h.desc
  obtain ⟨isActive, hp⟩ := h.patch
  obtain ⟨code, hv⟩ := h.vm
  simp only [destroyEbpfPatch, Blocks.read_some, hp, Blocks.free_of_live hd,
    Blocks.free_of_live hv, Blocks.free_of_live hp, Option.bind_eq_bind, Option.bind_some]
  rfl

/-! ### Sound states -/

/-- Where the dynamic patch is in its life. -/
inductive Phase
  | fresh
  | loaded
  | freed
  deriving DecidableEq

/-- The dynamic loader and the list it fills. Once its blocks are freed, its
descriptor stays gone. -/
def DynamicSound (s : HeapSys F) : Phase → Prop
  | .fresh => s.dynamicLoader.isInit = false ∧ s.dpatchList = none
  | .loaded => s.ctxInit = true ∧ ∃ o n node,
      Owns s.descs s.patches s.vms s.dynamicLoader dynamicPatchPoint true o ∧
      s.dpatchList = some n ∧ s.nodes.cell n = some node ∧ node.patch = some o.patch ∧
      node.next = none
  | .freed => s.dynamicLoader.isInit = true ∧ s.dpatchList = none ∧
      ∃ d, s.dynamicLoader.desc = some d ∧ d < s.descs.count ∧ s.descs.cell d = none

/-- The fixed loader, if it has been used, owns its blocks. -/
def FixedSound (s : HeapSys F) : Prop :=
  s.fixedLoader.isInit = false ∨
    ∃ o, Owns s.descs s.patches s.vms s.fixedLoader fixedPatchPoint false o

/-- There is a table, with no patch in it but that of the fixed loader. -/
def TableSound (env : Env F) (s : HeapSys F) : Prop :=
  ∃ m table, s.fixedPatches = some m ∧ s.maps.cell m = some table ∧
    ∀ x ∈ env.arraymapVals table, s.fixedLoader.isInit = true ∧ s.fixedLoader.patch = some x

structure Sound (env : Env F) (s : HeapSys F) (ph : Phase) : Prop where
  fixed : FixedSound s
  on : s.ctxInit = true → TableSound env s
  off : s.ctxInit = false → s.fixedPatches = none ∧ s.dpatchList = none
  dynamic : DynamicSound s ph

/-- What a table holds can be read for the filter. -/
theorem FixedSound.readable (h : FixedSound s) {vals : List ℕ}
    (hvals : ∀ x ∈ vals, s.fixedLoader.isInit = true ∧ s.fixedLoader.patch = some x) :
    Readable s.descs s.patches vals := by
  intro x hx
  obtain ⟨hinit, hpatch⟩ := hvals x hx
  rcases h with hnot | ⟨o, ho⟩
  · rw [hnot] at hinit
    cases hinit
  · obtain ⟨addr, hd⟩ := ho.desc
    obtain ⟨isActive, hp⟩ := ho.patch
    rw [ho.statics] at hpatch
    obtain rfl := Option.some.inj hpatch
    exact ⟨_, _, hp, hd⟩

/-- After `init_patch_sys` there is a context; the blocks of the loaders and
the list are what they were. -/
structure Initialised (env : Env F) (s s' : HeapSys F) : Prop where
  ctxInit : s'.ctxInit = true
  table : TableSound env s'
  descs : s'.descs = s.descs
  patches : s'.patches = s.patches
  vms : s'.vms = s.vms
  nodes : s'.nodes = s.nodes
  dpatchList : s'.dpatchList = s.dpatchList
  dynamicLoader : s'.dynamicLoader = s.dynamicLoader
  fixedLoader : s'.fixedLoader = s.fixedLoader

theorem initPatchSys_initialised (hmap : TableVals env)
    (hon : s.ctxInit = true → TableSound env s)
    (hoff : s.ctxInit = false → s.dpatchList = none) :
    ∃ s', s.initPatchSys env = some s' ∧ Initialised env s s' := by
  cases hctx : s.ctxInit with
  | true =>
      refine ⟨s, by simp only [initPatchSys, hctx, if_true], ?_⟩
      exact ⟨hctx, hon hctx, rfl, rfl, rfl, rfl, rfl, rfl, rfl⟩
  | false =>
      obtain ⟨f, b, p, hinit⟩ := initPatchSys_eq hmap hctx
      refine ⟨_, hinit, rfl, ?_, rfl, rfl, rfl, rfl, (hoff hctx).symm, rfl, rfl⟩
      refine ⟨s.maps.count, env.arraymapNew, rfl, Blocks.alloc_cell_self, ?_⟩
      rw [hmap.new]
      intro x hx
      cases hx

/-- A loader with a descriptor and a patch, and a VM or none yet. -/
structure Prepared (s : HeapSys F) (l : LoaderStatics) (d p : ℕ) (pb : PatchBlock) : Prop where
  statics : l = { isInit := true, desc := some d, patch := some p }
  desc : ∃ x, s.descs.cell d = some x
  patch : s.patches.cell p = some pb
  vm : ∀ v, pb.vm = some v → ∃ vb, s.vms.cell v = some vb

/-- An owner has none of the blocks of a prepared loader. -/
structure Owner.Apart (o : Owner) (d p : ℕ) (pb : PatchBlock) : Prop where
  desc : o.desc ≠ d
  patch : o.patch ≠ p
  vm : pb.vm ≠ some o.vm

/-- Filling its patch makes a prepared loader an owner, and takes nothing from
another one. -/
theorem fillPatch_owns {l : LoaderStatics} {d p : ℕ} {pb : PatchBlock} (h : Prepared s l d p pb)
    (type : BitVec 16) (loc : BitVec 32) (pid : ℤ) (useJit : Bool) :
    ∃ descs patches vms v, s.fillPatch l type loc pid useJit =
        some { s with descs := descs, patches := patches, vms := vms } ∧
      Owns descs patches vms l type useJit { desc := d, patch := p, vm := v } ∧
      (∀ l' type' useJit' o', Owns s.descs s.patches s.vms l' type' useJit' o' →
        o'.Apart d p pb → Owns descs patches vms l' type' useJit' o') ∧
      descs.count = s.descs.count ∧ ∀ i, i ≠ d → descs.cell i = s.descs.cell i := by
  obtain ⟨x, hd⟩ := h.desc
  obtain ⟨vms, v, hfill, hv, hsame, hother⟩ :=
    fillPatch_eq type loc pid useJit hd h.patch h.vm
  refine ⟨s.descs.put d (some { type := type, addr := loc }),
    s.patches.put p (some { pb with desc := some d, vm := some v }), vms, v,
    by rw [h.statics]; exact hfill, ?_, ?_, rfl, ?_⟩
  · exact ⟨h.statics, ⟨loc, Blocks.put_cell_self hd⟩, ⟨pb.isActive, Blocks.put_cell_self h.patch⟩,
      ⟨pid, hv⟩⟩
  · intro l' type' useJit' o' ho' hapart
    have hvms := ho'.ofVms fun vb => hother o'.vm vb hapart.vm
    exact (hvms.putDesc hapart.desc _).putPatch hapart.patch _
  · intro i hi
    exact Blocks.put_cell_of_ne hi

theorem Owns.prepared {l : LoaderStatics} {type : BitVec 16} {useJit : Bool} {o : Owner}
    (h : Owns s.descs s.patches s.vms l type useJit o) :
    ∃ pb, Prepared s l o.desc o.patch pb ∧ pb.vm = some o.vm := by
  obtain ⟨addr, hd⟩ := h.desc
  obtain ⟨isActive, hp⟩ := h.patch
  obtain ⟨code, hvm⟩ := h.vm
  refine ⟨_, ⟨h.statics, ⟨_, hd⟩, hp, ?_⟩, rfl⟩
  intro v hv
  obtain rfl := Option.some.inj hv
  exact ⟨_, hvm⟩

theorem callocStatics_prepared {s' : HeapSys F} (hd : s'.descs = s.callocStatics.1.descs)
    (hp : s'.patches = s.callocStatics.1.patches) :
    Prepared s' s.callocStatics.2 s.descs.count s.patches.count
      { desc := none, vm := none, isActive := false } where
  statics := rfl
  desc := ⟨{ type := 0, addr := 0 }, by rw [hd]; exact Blocks.alloc_cell_self⟩
  patch := by
    rw [hp]
    exact Blocks.alloc_cell_self
  vm := by
    intro v hv
    cases hv

theorem Owns.callocStatics {l : LoaderStatics} {type : BitVec 16} {useJit : Bool} {o : Owner}
    (h : Owns s.descs s.patches s.vms l type useJit o) :
    Owns s.callocStatics.1.descs s.callocStatics.1.patches s.callocStatics.1.vms l type useJit o :=
  (h.allocDesc _).allocPatch _

theorem Owns.apart_new {l : LoaderStatics} {type : BitVec 16} {useJit : Bool} {o : Owner}
    (h : Owns s.descs s.patches s.vms l type useJit o) :
    o.Apart s.descs.count s.patches.count { desc := none, vm := none, isActive := false } where
  desc := by
    obtain ⟨addr, hd⟩ := h.desc
    exact Nat.ne_of_lt (Blocks.lt_count hd)
  patch := by
    obtain ⟨isActive, hp⟩ := h.patch
    exact Nat.ne_of_lt (Blocks.lt_count hp)
  vm := by
    intro hv
    cases hv

/-! ### The dynamic loader -/

variable {dynamicPatches fixedPatchList : LocalPatches}

/-- Once the dynamic loader owns its blocks, and they are in the list, what it
did to the list and to its patch leaves a sound state. -/
theorem Sound.ofOwns {o : Owner} {n : ℕ} {node : NodeBlock} {pb : PatchBlock}
    {f b p : BitVec 32} {nodes : Blocks NodeBlock} (hctx : s.ctxInit = true)
    (hfixed : FixedSound s) (htable : TableSound env s)
    (ho : Owns s.descs s.patches s.vms s.dynamicLoader dynamicPatchPoint true o)
    (hp : s.patches.cell o.patch = some pb) (hnode : nodes.cell n = some node)
    (hpatch : node.patch = some o.patch) (hnext : node.next = none) :
    Sound env { s with
      fbitsFilter := f
      dbitsFilterBpkt := b
      dbitsFilterPc := p
      nodes := nodes
      dpatchList := some n
      patches := s.patches.put o.patch (some { pb with isActive := true }) } .loaded where
  fixed := by
    rcases hfixed with hnot | ⟨o', ho'⟩
    · exact .inl hnot
    · exact .inr ⟨o', ho'.putPatch (fun heq => (ho.apart ho').2.1 heq.symm) _⟩
  on _ := htable
  off := by
    intro hoff
    rw [hctx] at hoff
    cases hoff
  dynamic := ⟨hctx, o, n, node, ho.activate hp, rfl, hnode, hpatch, hnext⟩

/-- The first dynamic patch. -/
theorem readLocalPatch_fresh (hmap : TableVals env) (hs : Sound env s .fresh)
    (pid : ValidId dynamicPatches) :
    ∃ s', s.readLocalPatch env dynamicPatches pid.1 = some s' ∧ Sound env s' .loaded := by
  obtain ⟨hinit, hlist⟩ := hs.dynamic
  obtain ⟨s₁, hs₁, hI⟩ := initPatchSys_initialised
    (s := { s.callocStatics.1 with dynamicLoader := s.callocStatics.2 }) hmap hs.on
    (fun _ => hlist)
  have hprep : Prepared s₁ s₁.dynamicLoader s.descs.count s.patches.count
      { desc := none, vm := none, isActive := false } := by
    rw [hI.dynamicLoader]
    exact callocStatics_prepared hI.descs hI.patches
  obtain ⟨descs, patches, vms, v, hfill, howns, hframe, -, -⟩ := fillPatch_owns hprep
    dynamicPatchPoint (dynamicPatches.loc pid.1) pid.1 true
  have hfixed : FixedSound { s₁ with descs := descs, patches := patches, vms := vms } := by
    rcases hs.fixed with hnot | ⟨o', ho'⟩
    · left
      exact (congrArg LoaderStatics.isInit hI.fixedLoader).trans hnot
    · right
      refine ⟨o', hframe _ _ _ _ ?_ ho'.apart_new⟩
      rw [hI.descs, hI.patches, hI.vms, hI.fixedLoader]
      exact ho'.callocStatics
  obtain ⟨m, table, hm, htable, hvals⟩ := hI.table
  obtain ⟨addr, hd⟩ := howns.desc
  obtain ⟨isActive, hp⟩ := howns.patch
  obtain ⟨f, b, p, node, hload, hnode, hnext⟩ := loadLocalPatchToCtx_insert
    (s := { s₁ with descs := descs, patches := patches, vms := vms })
    (by simp only [hm]; exact htable) (hfixed.readable hvals) (hI.dpatchList.trans hlist) hp rfl hd
  have hrun : s.readLocalPatch env dynamicPatches pid.1 =
      HeapSys.loadLocalPatchToCtx env { s₁ with descs := descs, patches := patches, vms := vms }
        (some s.patches.count) := by
    rw [readLocalPatch, if_neg (Int.not_lt.mpr (Int.le_of_lt pid.2.2)), hinit]
    simp only [Bool.false_eq_true, if_false, hs₁, Option.bind_eq_bind, Option.bind_some, hfill]
    rw [howns.statics]
  refine ⟨_, hrun.trans hload, ?_⟩
  exact Sound.ofOwns hI.ctxInit hfixed ⟨m, table, hm, htable, hvals⟩ howns hp
    Blocks.alloc_cell_self hnode hnext

theorem Owns.apart_prepared {l l' : LoaderStatics} {o o' : Owner} {pb : PatchBlock}
    (h : Owns s.descs s.patches s.vms l dynamicPatchPoint true o)
    (h' : Owns s.descs s.patches s.vms l' fixedPatchPoint false o') (hvm : pb.vm = some o.vm) :
    o'.Apart o.desc o.patch pb := by
  obtain ⟨hdesc, hpatch, hvms⟩ := h.apart h'
  exact ⟨hdesc.symm, hpatch.symm, by rw [hvm]; exact fun heq => hvms (Option.some.inj heq)⟩

/-- Another dynamic patch, through the blocks of the first one. -/
theorem readLocalPatch_loaded (hs : Sound env s .loaded) (pid : ValidId dynamicPatches) :
    ∃ s', s.readLocalPatch env dynamicPatches pid.1 = some s' ∧ Sound env s' .loaded := by
  obtain ⟨hctx, o, n, node, ho, hlist, hnode, hpatch, hnext⟩ := hs.dynamic
  obtain ⟨pb, hprep, hvm⟩ := ho.prepared
  obtain ⟨descs, patches, vms, v, hfill, howns, hframe, -, -⟩ := fillPatch_owns hprep
    dynamicPatchPoint (dynamicPatches.loc pid.1) pid.1 true
  have hfixed : FixedSound { s with descs := descs, patches := patches, vms := vms } := by
    rcases hs.fixed with hnot | ⟨o', ho'⟩
    · exact .inl hnot
    · exact .inr ⟨o', hframe _ _ _ _ ho' (ho.apart_prepared ho' hvm)⟩
  obtain ⟨m, table, hm, htable, hvals⟩ := hs.on hctx
  obtain ⟨addr, hd⟩ := howns.desc
  obtain ⟨isActive, hp⟩ := howns.patch
  obtain ⟨f, b, p, node', hload, hnode', hnext'⟩ := loadLocalPatchToCtx_update
    (s := { s with descs := descs, patches := patches, vms := vms })
    (by simp only [hm]; exact htable) (hfixed.readable hvals) hlist hnode hpatch hnext hp rfl hd
  have hrun : s.readLocalPatch env dynamicPatches pid.1 =
      HeapSys.loadLocalPatchToCtx env { s with descs := descs, patches := patches, vms := vms }
        (some o.patch) := by
    rw [readLocalPatch, if_neg (Int.not_lt.mpr (Int.le_of_lt pid.2.2))]
    have hinit : s.dynamicLoader.isInit = true := by rw [ho.statics]
    simp only [hinit, if_true, Option.bind_eq_bind, Option.bind_some, hfill]
    rw [ho.statics]
  refine ⟨_, hrun.trans hload, ?_⟩
  rw [hlist]
  exact Sound.ofOwns (o := { desc := o.desc, patch := o.patch, vm := v }) hctx hfixed
    ⟨m, table, hm, htable, hvals⟩ howns hp (Blocks.put_cell_self hnode) hnode' hnext'

/-- A dynamic patch after a reset: the write to the descriptor comes too
late. -/
theorem readLocalPatch_freed (hs : Sound env s .freed) (pid : ValidId dynamicPatches) :
    s.readLocalPatch env dynamicPatches pid.1 = none := by
  obtain ⟨hinit, -, d, hd, -, hfreed⟩ := hs.dynamic
  have hfill : s.fillPatch s.dynamicLoader dynamicPatchPoint (dynamicPatches.loc pid.1) pid.1
      true = none := by
    simp only [fillPatch, hd, Blocks.write, hfreed, Option.isSome_none, Bool.false_eq_true,
      if_false, Option.bind_eq_bind, Option.bind_none]
  rw [readLocalPatch, if_neg (Int.not_lt.mpr (Int.le_of_lt pid.2.2))]
  simp only [hinit, if_true, Option.bind_eq_bind, Option.bind_some, hfill, Option.bind_none]

/-! ### The fixed loader -/

theorem DynamicSound.nodeList {ph : Phase} (h : DynamicSound s ph) :
    ∃ nodes, s.nodeList = some nodes := by
  cases ph with
  | fresh => exact ⟨[], nodeList_nil h.2⟩
  | loaded =>
      obtain ⟨-, o, n, node, -, hlist, hnode, -, hnext⟩ := h
      exact ⟨_, nodeList_singleton hlist hnode hnext⟩
  | freed => exact ⟨[], nodeList_nil h.2.1⟩

/-- What the fixed loader changes does not concern the dynamic one. -/
theorem DynamicSound.frame {s' : HeapSys F} {ph : Phase} (h : DynamicSound s ph)
    (hctx : s'.ctxInit = true) (hlist : s'.dpatchList = s.dpatchList)
    (hnodes : s'.nodes = s.nodes) (hl : s'.dynamicLoader = s.dynamicLoader)
    (howns : ∀ o, Owns s.descs s.patches s.vms s.dynamicLoader dynamicPatchPoint true o →
      Owns s'.descs s'.patches s'.vms s.dynamicLoader dynamicPatchPoint true o)
    (hfreed : ∀ i < s.descs.count, s.descs.cell i = none →
      i < s'.descs.count ∧ s'.descs.cell i = none) : DynamicSound s' ph := by
  cases ph with
  | fresh => exact ⟨by rw [hl]; exact h.1, hlist.trans h.2⟩
  | loaded =>
      obtain ⟨-, o, n, node, ho, hn, hnode, hpatch, hnext⟩ := h
      exact ⟨hctx, o, n, node, hl ▸ howns o ho, hlist.trans hn, by rw [hnodes]; exact hnode, hpatch,
        hnext⟩
  | freed =>
      obtain ⟨hinit, hnone, d, hd, hlt, hcell⟩ := h
      exact ⟨by rw [hl]; exact hinit, hlist.trans hnone, d, by rw [hl]; exact hd,
        hfreed d hlt hcell⟩

/-- After `setupFixed` the loader is prepared; what others own, and what is
gone, stays. -/
structure SetUp (s s' : HeapSys F) (d p : ℕ) (pb : PatchBlock) : Prop where
  prepared : Prepared s' s'.fixedLoader d p pb
  owns : ∀ o, Owns s.descs s.patches s.vms s.dynamicLoader dynamicPatchPoint true o →
    Owns s'.descs s'.patches s'.vms s.dynamicLoader dynamicPatchPoint true o ∧ o.Apart d p pb
  freed : ∀ i < s.descs.count, s.descs.cell i = none →
    i ≠ d ∧ i < s'.descs.count ∧ s'.descs.cell i = none
  table : s.fixedLoader.isInit = true → s.fixedLoader.patch = some p
  vms : s'.vms = s.vms
  nodes : s'.nodes = s.nodes
  maps : s'.maps = s.maps
  ctxInit : s'.ctxInit = s.ctxInit
  fixedPatches : s'.fixedPatches = s.fixedPatches
  dpatchList : s'.dpatchList = s.dpatchList
  dynamicLoader : s'.dynamicLoader = s.dynamicLoader

theorem setupFixed_setUp (h : FixedSound s) : ∃ d p pb, SetUp s s.setupFixed d p pb := by
  cases hinit : s.fixedLoader.isInit with
  | true =>
      rcases h with hnot | ⟨o', ho'⟩
      · rw [hinit] at hnot
        cases hnot
      · obtain ⟨pb, hprep, hvm⟩ := ho'.prepared
        have hs : s.setupFixed = s := by simp only [setupFixed, hinit, if_true]
        rw [hs]
        refine ⟨o'.desc, o'.patch, pb, hprep, ?_, ?_, ?_, rfl, rfl, rfl, rfl, rfl, rfl, rfl⟩
        · intro o ho
          obtain ⟨hdesc, hpatch, hvms⟩ := ho.apart ho'
          exact ⟨ho, hdesc, hpatch, by rw [hvm]; exact fun heq => hvms (Option.some.inj heq).symm⟩
        · intro i hi hcell
          refine ⟨?_, hi, hcell⟩
          rintro rfl
          obtain ⟨addr, hd⟩ := ho'.desc
          rw [hcell] at hd
          cases hd
        · intro _
          rw [ho'.statics]
  | false =>
      have hs : s.setupFixed = { s.callocStatics.1 with fixedLoader := s.callocStatics.2 } := by
        simp only [setupFixed, hinit, Bool.false_eq_true, if_false]
      rw [hs]
      refine ⟨s.descs.count, s.patches.count, _, callocStatics_prepared rfl rfl, ?_, ?_, ?_, rfl,
        rfl, rfl, rfl, rfl, rfl, rfl⟩
      · intro o ho
        exact ⟨ho.callocStatics, ho.apart_new⟩
      · intro i hi hcell
        exact ⟨Nat.ne_of_lt hi, Nat.lt_succ_of_lt hi, Blocks.alloc_cell_of_freed hi hcell⟩
      · intro h
        rw [hinit] at h
        cases h

/-- A fixed patch can be loaded at any time. -/
theorem loadLocalFixedPatch_sound (hmap : TableVals env) {ph : Phase} (hs : Sound env s ph)
    (pid : ValidId fixedPatchList) :
    ∃ s', s.loadLocalFixedPatch env fixedPatchList pid.1 = some s' ∧ Sound env s' ph := by
  obtain ⟨d, p, pb, hset⟩ := setupFixed_setUp hs.fixed
  -- what the table held before is the patch of the loader
  have htable : s.setupFixed.ctxInit = true → TableSound env s.setupFixed := by
    intro hctx
    obtain ⟨m, table, hm, htable, hvals⟩ := hs.on (hset.ctxInit ▸ hctx)
    refine ⟨m, table, hset.fixedPatches.trans hm, by rw [hset.maps]; exact htable, ?_⟩
    intro x hx
    obtain ⟨hinit, hpatch⟩ := hvals x hx
    rw [hset.prepared.statics]
    exact ⟨rfl, (hset.table hinit).symm.trans hpatch⟩
  obtain ⟨s₁, hs₁, hI⟩ := initPatchSys_initialised hmap htable
    (fun hoff => hset.dpatchList.trans (hs.off (hset.ctxInit ▸ hoff)).2)
  have hprep : Prepared s₁ s₁.fixedLoader d p pb := by
    obtain ⟨hst, hd, hp, hv⟩ := hset.prepared
    exact ⟨by rw [hI.fixedLoader]; exact hst, by rw [hI.descs]; exact hd,
      by rw [hI.patches]; exact hp, by rw [hI.vms]; exact hv⟩
  obtain ⟨descs, patches, vms, v, hfill, howns, hframe, hcount, hcells⟩ := fillPatch_owns hprep
    fixedPatchPoint (fixedPatchList.loc pid.1) pid.1 false
  -- the dynamic loader keeps its blocks, or goes on without them
  have hdyn : DynamicSound { s₁ with descs := descs, patches := patches, vms := vms } ph := by
    refine hs.dynamic.frame hI.ctxInit (hI.dpatchList.trans hset.dpatchList)
      (hI.nodes.trans hset.nodes) (hI.dynamicLoader.trans hset.dynamicLoader) ?_ ?_
    · intro o ho
      obtain ⟨ho', hapart⟩ := hset.owns o ho
      refine hframe _ _ _ _ ?_ hapart
      rw [hI.descs, hI.patches, hI.vms]
      exact ho'
    · intro i hi hcell
      obtain ⟨hne, hlt, hcell'⟩ := hset.freed i hi hcell
      refine ⟨?_, ?_⟩
      · simp only [hcount, hI.descs]
        exact hlt
      · simp only [hcells i hne, hI.descs]
        exact hcell'
  obtain ⟨nodes, hnodes⟩ := hdyn.nodeList
  have hfixed : FixedSound { s₁ with descs := descs, patches := patches, vms := vms } :=
    .inr ⟨_, howns⟩
  obtain ⟨m, table, hm, htable, hvals⟩ := hI.table
  obtain ⟨addr, hd⟩ := howns.desc
  obtain ⟨isActive, hp⟩ := howns.patch
  obtain ⟨f, b, q, hload⟩ := loadLocalPatchToCtx_fixed
    (s := { s₁ with descs := descs, patches := patches, vms := vms }) hmap hm htable
    (hfixed.readable hvals) hnodes hp rfl hd
  have hrun : s.loadLocalFixedPatch env fixedPatchList pid.1 =
      HeapSys.loadLocalPatchToCtx env { s₁ with descs := descs, patches := patches, vms := vms }
        (some p) := by
    rw [loadLocalFixedPatch, if_neg (Int.not_lt.mpr (Int.le_of_lt pid.2.2))]
    simp only [hs₁, Option.bind_eq_bind, Option.bind_some, hfill]
    rw [howns.statics]
  refine ⟨_, hrun.trans hload, ?_, ?_, ?_, ?_⟩
  · exact .inr ⟨_, howns.activate hp⟩
  · intro _
    refine ⟨m, _, hm, Blocks.put_cell_self htable, ?_⟩
    intro x hx
    rcases hmap.set _ _ _ x hx with rfl | hold
    · exact ⟨by simp only [howns.statics], by simp only [howns.statics]⟩
    · exact hvals x hold
  · intro hoff
    rw [hI.ctxInit] at hoff
    cases hoff
  · refine hdyn.frame hI.ctxInit rfl rfl rfl ?_ ?_
    · intro o ho
      exact ho.putPatch (ho.apart howns).2.1 _
    · intro i hi hcell
      exact ⟨hi, hcell⟩

/-! ### The reset -/

def Phase.reset : Phase → Phase
  | .fresh => .fresh
  | .loaded => .freed
  | .freed => .freed

theorem destroyNodes_none (n : ℕ) : destroyNodes n none s = some s := by
  cases n <;> rfl

/-- The context can be reset at any time: the table is freed, the fixed patch
stays, and the dynamic patch goes with its descriptor and its VM. -/
theorem destroyPatchContext_sound {ph : Phase} (hs : Sound env s ph) :
    ∃ s', s.destroyPatchContext = some s' ∧ Sound env s' ph.reset := by
  have hmaps : ∃ maps, s.maps.free s.fixedPatches = some maps := by
    cases hctx : s.ctxInit with
    | true =>
        obtain ⟨m, table, hm, htable, -⟩ := hs.on hctx
        exact ⟨_, by rw [hm]; exact Blocks.free_of_live htable⟩
    | false => exact ⟨s.maps, by rw [(hs.off hctx).1]; rfl⟩
  obtain ⟨maps, hmaps⟩ := hmaps
  -- an empty list leaves the blocks alone
  have hempty (hlist : s.dpatchList = none) : s.destroyPatchContext =
      some { s with
        maps := maps, fixedPatches := none, dpatchList := none, dbitsFilterBpkt := 0
        dbitsFilterPc := 0, fbitsFilter := 0, ctxInit := false } := by
    simp only [destroyPatchContext, hmaps, hlist, destroyNodes_none, Option.bind_eq_bind,
      Option.bind_some]
    rfl
  cases ph with
  | fresh =>
      refine ⟨_, hempty hs.dynamic.2, hs.fixed, ?_, fun _ => ⟨rfl, rfl⟩, hs.dynamic.1, rfl⟩
      intro hon
      cases hon
  | freed =>
      obtain ⟨hinit, hlist, hgone⟩ := hs.dynamic
      refine ⟨_, hempty hlist, hs.fixed, ?_, fun _ => ⟨rfl, rfl⟩, hinit, rfl, hgone⟩
      intro hon
      cases hon
  | loaded =>
      obtain ⟨-, o, n, node, ho, hlist, hnode, hpatch, hnext⟩ := hs.dynamic
      obtain ⟨k, hk⟩ : ∃ k, s.nodes.count = k + 1 :=
        Nat.exists_eq_succ_of_ne_zero (Nat.ne_of_gt (Nat.zero_lt_of_lt (Blocks.lt_count hnode)))
      have hdestroy := destroyEbpfPatch_eq (s := { s with maps := maps, fixedPatches := none }) ho
      simp only [hlist] at hdestroy
      have hrun : s.destroyPatchContext = some { s with
          maps := maps, fixedPatches := none, dpatchList := none, dbitsFilterBpkt := 0
          dbitsFilterPc := 0, fbitsFilter := 0, ctxInit := false
          descs := s.descs.put o.desc none
          vms := s.vms.put o.vm none
          patches := s.patches.put o.patch none
          nodes := s.nodes.put n none } := by
        simp only [destroyPatchContext, hmaps, hlist, hk, destroyNodes, Blocks.read_some, hnode,
          hpatch, hnext, hdestroy, Blocks.free_of_live hnode, destroyNodes_none,
          Option.bind_eq_bind, Option.bind_some]
        rfl
      refine ⟨_, hrun, ?_, ?_, fun _ => ⟨rfl, rfl⟩, ?_⟩
      · rcases hs.fixed with hnot | ⟨o', ho'⟩
        · exact .inl hnot
        · obtain ⟨hdesc, hp, hv⟩ := ho.apart ho'
          right
          refine ⟨o', ?_⟩
          exact ((ho'.putDesc hdesc.symm _).putPatch hp.symm _).ofVms
            fun vb hvb => (Blocks.put_cell_of_ne hv.symm).trans hvb
      · intro hon
        cases hon
      · obtain ⟨addr, hd⟩ := ho.desc
        have hlt : o.desc < s.descs.count := Blocks.lt_count hd
        exact ⟨by simp only [ho.statics], rfl, o.desc, by simp only [ho.statics], hlt,
          Blocks.put_cell_self hd⟩

/-! ### All orders of calls -/

inductive Call
  | read
  | load
  | destroy
  deriving DecidableEq

def Op.call : Op dynamicPatches fixedPatchList → Call
  | .readLocalPatch _ => .read
  | .loadLocalFixedPatch _ => .load
  | .destroyPatchContext => .destroy

/-- The life of the dynamic patch: once it is freed, it cannot be read
again. -/
def Phase.next : Phase → Call → Option Phase
  | .freed, .read => none
  | _, .read => some .loaded
  | ph, .load => some ph
  | ph, .destroy => some ph.reset

/-- What has to come before the life of the dynamic patch ends. -/
def Phase.ahead : Phase → List Call
  | .fresh => [.read, .destroy, .read]
  | .loaded => [.destroy, .read]
  | .freed => [.read]

/-- The calls can be made exactly if what is ahead is not among them, in that
order. -/
theorem Phase.run_isSome_iff (ph : Phase) (calls : List Call) :
    (runEvents Phase.next ph calls).isSome ↔ ¬ph.ahead.Sublist calls := by
  induction calls generalizing ph with
  | nil => cases ph <;> simp [Phase.ahead]
  | cons c calls ih =>
      -- reading what is not yet loaded, or resetting what is, takes a call off the
      -- list; reading what is freed ends the run; the others change nothing
      cases ph <;> cases c <;>
        simp [Phase.next, Phase.reset, ih, Phase.ahead, List.cons_sublist_cons']

/-- The heap can do a call exactly if the dynamic patch can. -/
theorem step_phase (hmap : TableVals env) {ph : Phase} (hs : Sound env s ph)
    (op : Op dynamicPatches fixedPatchList) :
    (∃ s' ph', s.step env dynamicPatches fixedPatchList op = some s' ∧
      ph.next op.call = some ph' ∧ Sound env s' ph') ∨
    s.step env dynamicPatches fixedPatchList op = none ∧ ph.next op.call = none := by
  cases op with
  | readLocalPatch pid =>
      cases ph with
      | fresh =>
          obtain ⟨s', hrun, hs'⟩ := readLocalPatch_fresh hmap hs pid
          exact .inl ⟨s', _, hrun, rfl, hs'⟩
      | loaded =>
          obtain ⟨s', hrun, hs'⟩ := readLocalPatch_loaded hs pid
          exact .inl ⟨s', _, hrun, rfl, hs'⟩
      | freed => exact .inr ⟨readLocalPatch_freed hs pid, rfl⟩
  | loadLocalFixedPatch pid =>
      obtain ⟨s', hrun, hs'⟩ := loadLocalFixedPatch_sound hmap hs pid
      exact .inl ⟨s', ph, hrun, by cases ph <;> rfl, hs'⟩
  | destroyPatchContext =>
      obtain ⟨s', hrun, hs'⟩ := destroyPatchContext_sound hs
      exact .inl ⟨s', ph.reset, hrun, by cases ph <;> rfl, hs'⟩

theorem boot_sound : Sound env boot .fresh where
  fixed := .inl rfl
  on := by
    intro hon
    cases hon
  off _ := ⟨rfl, rfl⟩
  dynamic := ⟨rfl, rfl⟩

/-- The heap can do a sequence of calls exactly if the dynamic patch can. -/
theorem run_isSome (hmap : TableVals env) (ops : List (Op dynamicPatches fixedPatchList)) :
    (runEvents (step env dynamicPatches fixedPatchList) boot ops).isSome =
      (runEvents Phase.next .fresh (ops.map Op.call)).isSome :=
  runEvents_isSome_congr (R := Sound env) (fun _ _ op hs => step_phase hmap hs op) boot_sound ops

end

/-- No call follows a null pointer or a pointer to a freed block, or frees a
block again, exactly if no dynamic patch is read after a reset that comes after
the first one. -/
theorem reload_safe_iff (env : Env F) (hmap : TableVals env)
    (dynamicPatches fixedPatchList : LocalPatches)
    (ops : List (Op dynamicPatches fixedPatchList)) :
    (runEvents (step env dynamicPatches fixedPatchList) boot ops).isSome ↔
      ¬[Call.read, .destroy, .read].Sublist (ops.map Op.call) := by
  rw [run_isSome hmap]
  exact Phase.run_isSome_iff .fresh (ops.map Op.call)

theorem listEnv_tableVals : TableVals listEnv where
  new := rfl
  set := by
    intro m k v x hx
    obtain ⟨e, he, rfl⟩ := List.mem_map.mp hx
    rcases List.mem_cons.mp he with rfl | he
    · exact .inl rfl
    · exact .inr (List.mem_map_of_mem (List.mem_of_mem_filter he))

def dynamicCvePatches : LocalPatches where
  count := 3
  loc := fun pid => if pid = 0 then 0x080072e0 else 0x00009740

def firstDynamic : ValidId dynamicCvePatches := ⟨0, by decide⟩

def firstFixed : ValidId cvePatches := ⟨0, by decide⟩

theorem fixed_reloaded :
    (runEvents (step listEnv dynamicCvePatches cvePatches) boot
      [.readLocalPatch firstDynamic, .loadLocalFixedPatch firstFixed, .destroyPatchContext,
        .loadLocalFixedPatch firstFixed]).isSome ∧ TableVals listEnv := by
  refine ⟨?_, listEnv_tableVals⟩
  rw [reload_safe_iff listEnv listEnv_tableVals]
  decide

theorem dynamic_not_reloaded :
    runEvents (step listEnv dynamicCvePatches cvePatches) boot
      [.readLocalPatch firstDynamic, .destroyPatchContext] ≠ none ∧
    runEvents (step listEnv dynamicCvePatches cvePatches) boot
      [.readLocalPatch firstDynamic, .destroyPatchContext, .readLocalPatch firstDynamic] =
        none := by
  refine ⟨?_, ?_⟩
  · rw [← Option.isSome_iff_ne_none, run_isSome listEnv_tableVals]
    decide
  · rw [← Option.not_isSome_iff_eq_none, run_isSome listEnv_tableVals]
    decide

end HeapSys

end RapidPatch.Hotpatch

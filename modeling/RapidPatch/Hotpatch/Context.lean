import RapidPatch.Support.LinkedList

/-!
The patch context of `iotpatch.c`.

Dynamic patches are a linked list of heap nodes behind `pctx.dpatch_list`,
which is itself a node; it is node 0 here, and the null pointer is `none`.
Patches and descriptors are heap objects too: a node points to a patch and a
patch to its descriptor, which belongs to the caller, who may reuse it.
`ebpf_malloc` never fails here and never returns an object again, so that
objects are numbered in the order they are allocated.

Of the table of fixed patches only three operations are used, and they are
a parameter: what is said about dynamic patches holds whatever the table does
with its entries. Arming a comparator of the breakpoint unit does not touch
the context and is left out.
-/

namespace RapidPatch.Hotpatch

open RapidPatch.Support

def fixedPatchPoint : BitVec 16 := 1

def dynamicPatchPoint : BitVec 16 := 2

def maxDpNum : ℕ := 6

/-- `patch_desc`; `addr` is `fixed_id` or `inst_addr`. -/
structure PatchDesc where
  type : BitVec 16
  addr : BitVec 32

structure EbpfPatch where
  desc : ℕ
  isActive : Bool

structure DynamicPatch where
  patch : ℕ
  next : Option ℕ
  instAddr : BitVec 32
  pcAddr : BitVec 32

/-- What the context uses of the table of fixed patches, and the flash. -/
structure Env (F : Type) where
  /-- `arraymap_new(4)`. -/
  arraymapNew : F
  arraymapSet : F → BitVec 32 → ℕ → F
  /-- The values `arraymap_iter_val` yields, without null pointers. -/
  arraymapVals : F → List ℕ
  /-- The halfword at an address of the flash. -/
  flash : BitVec 32 → BitVec 16

/-- The context and the heap. -/
structure PatchSys (F : Type) where
  ctxInit : Bool
  fbitsFilter : BitVec 32
  dbitsFilterBpkt : BitVec 32
  dbitsFilterPc : BitVec 32
  fixedPatches : Option F
  /-- Node 0 is `pctx.dpatch_list`. -/
  node : ℕ → DynamicPatch
  nodeCount : ℕ
  patch : ℕ → EbpfPatch
  patchCount : ℕ
  desc : ℕ → PatchDesc

/-! ### Addresses -/

/-- `calc_bpkt_addr`: the address as a comparator holds it. -/
def calcBpktAddr (instAddr : BitVec 32) : BitVec 32 :=
  let replace : BitVec 32 := if instAddr &&& 0x2 = 0 then 1 else 2
  let fpComp := (instAddr &&& ~~~0x3#32) ||| 0x1 ||| replace <<< 30
  let finalAddr := fpComp &&& 0x1ffffffc
  if fpComp >>> 30 = 0x2 then finalAddr ||| 0x2 else finalAddr

section

variable {F : Type} (env : Env F)

/-- `calc_bpkt_pc`: the address behind the instruction. -/
def calcBpktPc (instAddr : BitVec 32) : BitVec 32 :=
  let instVal := instAddr &&& ~~~0x1#32
  if env.flash instVal ≥ 0xe800 then instVal + 4 else instVal + 2

/-! ### The list -/

/-- The `next` fields. -/
def PatchSys.next (s : PatchSys F) : ℕ → Option ℕ := fun i => (s.node i).next

def PatchSys.setNode (s : PatchSys F) (i : ℕ) (dp : DynamicPatch) : PatchSys F :=
  { s with node := Function.update s.node i dp }

/-- A loop over the list of dynamic patches that ends at a node with a
property: the nodes it passed, and that node. -/
def PatchSys.search (s : PatchSys F) (stop : DynamicPatch → Bool) : List ℕ × Option ℕ :=
  walk s.next (fun i => stop (s.node i)) (s.nodeCount + 1) (s.next 0)

def updateBitsFilter (s : PatchSys F) : Option (PatchSys F) := do
  let fixed ← s.fixedPatches
  let nodes := (s.search fun _ => false).1
  return { s with
    fbitsFilter := (env.arraymapVals fixed).foldl
      (fun bits p => if (s.patch p).isActive then bits ||| (s.desc (s.patch p).desc).addr else bits)
      0
    dbitsFilterPc := nodes.foldl (fun bits i => bits ||| (s.node i).pcAddr) 0
    dbitsFilterBpkt := nodes.foldl (fun bits i => bits ||| (s.node i).instAddr) 0 }

def activePatch (s : PatchSys F) (p : ℕ) : Option (PatchSys F) := do
  let s ← updateBitsFilter env s
  let desc := s.desc (s.patch p).desc
  let s :=
    if desc.type = fixedPatchPoint then { s with fbitsFilter := s.fbitsFilter ||| desc.addr }
    else s
  return { s with patch := Function.update s.patch p { s.patch p with isActive := true } }

/-- `add_dynamic_patch_to_ctx`, with the node it returns. -/
def addDynamicPatchToCtx (s : PatchSys F) (p : ℕ) : PatchSys F × ℕ :=
  let desc := s.desc (s.patch p).desc
  let (passed, found) := s.search fun dp => dp.instAddr = desc.addr
  let tail := passed.getLastD 0
  let (s, cur) :=
    match found with
    | some dp => (s, dp)
    | none =>
        if passed.length > maxDpNum then (s, tail)
        else
          let cur := s.nodeCount + 1
          let s := { s with nodeCount := cur }
          (s.setNode tail { s.node tail with next := some cur }, cur)
  let instAddr := calcBpktAddr desc.addr
  let dp : DynamicPatch :=
    { patch := p, next := none, instAddr := instAddr, pcAddr := calcBpktPc env instAddr }
  (s.setNode cur dp, cur)

def addFixedPatchToCtx (s : PatchSys F) (p : ℕ) : Option (PatchSys F) := do
  let fixed ← s.fixedPatches
  return { s with
    fixedPatches := some (env.arraymapSet fixed (s.desc (s.patch p).desc).addr p) }

def ebpfPatchSetup (s : PatchSys F) (d : ℕ) : PatchSys F × ℕ :=
  let p := s.patchCount + 1
  ({ s with
      patchCount := p
      patch := Function.update s.patch p { desc := d, isActive := false } }, p)

def addEbpfPatch (s : PatchSys F) (d : ℕ) : Option (PatchSys F × ℕ) :=
  let (s, p) := ebpfPatchSetup s d
  let desc := s.desc d
  if desc.type = fixedPatchPoint then (addFixedPatchToCtx env s p).map fun s => (s, p)
  else if desc.type = dynamicPatchPoint then
    let aligned := { desc with addr := desc.addr &&& ~~~0x3#32 }
    let s := { s with desc := Function.update s.desc d aligned }
    some ((addDynamicPatchToCtx env s p).1, p)
  else some (s, p)

/-! ### The interface -/

def initPatchSys (s : PatchSys F) : Option (PatchSys F) :=
  if s.ctxInit then some s
  else do
    -- `memset` of the whole context, the list head included
    let head : DynamicPatch := { patch := 0, next := none, instAddr := 0, pcAddr := 0 }
    let s ← updateBitsFilter env { s.setNode 0 head with
      fbitsFilter := 0
      dbitsFilterBpkt := 0
      dbitsFilterPc := 0
      fixedPatches := some env.arraymapNew }
    return { s with ctxInit := true }

def destroyPatchContext (s : PatchSys F) : PatchSys F :=
  { s.setNode 0 { s.node 0 with next := none } with
    fixedPatches := none
    dbitsFilterBpkt := 0
    dbitsFilterPc := 0
    fbitsFilter := 0
    ctxInit := false }

/-- `notify_new_patch` of a descriptor. -/
def notifyNewPatch (s : PatchSys F) (d : ℕ) : Option (PatchSys F) := do
  let (s, p) ← addEbpfPatch env s d
  activePatch env s p

/-- `load_local_patch_to_ctx` of a patch. -/
def loadLocalPatchToCtx (s : PatchSys F) (p : ℕ) : Option (PatchSys F) :=
  let desc := s.desc (s.patch p).desc
  if desc.type = fixedPatchPoint then do
    let s ← addFixedPatchToCtx env s p
    activePatch env s p
  else if desc.type = dynamicPatchPoint then
    match (s.search fun dp => dp.patch = p).2 with
    | none => activePatch env (addDynamicPatchToCtx env s p).1 p
    | some i =>
        let instAddr := calcBpktAddr desc.addr
        let dp :=
          { s.node i with instAddr := instAddr, pcAddr := calcBpktPc env instAddr }
        activePatch env (s.setNode i dp) p
  else some s

def getDynamicPatchByBpkt (s : PatchSys F) (loc : BitVec 32) : Option ℕ :=
  if s.dbitsFilterBpkt &&& loc ≠ loc then none
  else
    (s.search fun dp => dp.instAddr = loc && (s.patch dp.patch).isActive).2.map
      fun i => (s.node i).patch

def getDynamicPatchByPc (s : PatchSys F) (loc : BitVec 32) : Option ℕ :=
  if s.dbitsFilterPc &&& loc ≠ loc then none
  else
    (s.search fun dp => dp.pcAddr = loc && (s.patch dp.patch).isActive).2.map
      fun i => (s.node i).patch

/-- `get_dynamic_patch_by_fpb`: with or without the Thumb bit. -/
def getDynamicPatchByFpb (s : PatchSys F) (fpbAddr : BitVec 32) : Option ℕ :=
  let alignAddr := fpbAddr &&& ~~~0x1#32
  if s.dbitsFilterBpkt &&& fpbAddr = fpbAddr ∨ s.dbitsFilterBpkt &&& alignAddr = alignAddr then
    (s.search fun dp =>
      (dp.instAddr = fpbAddr || dp.instAddr = alignAddr) && (s.patch dp.patch).isActive).2.map
      fun i => (s.node i).patch
  else none

/-- The contexts a system can be in. Besides calling the four functions, a
caller may write to a descriptor and allocate a patch of its own, inactive
as `ebpf_calloc` leaves it. -/
inductive Reachable : PatchSys F → Prop
  | boot {s : PatchSys F} (hinit : s.ctxInit = false) (hfixed : s.fixedPatches = none)
      (hnext : s.next 0 = none) : Reachable s
  | initPatchSys {s s' : PatchSys F} (h : Reachable s) (hs : initPatchSys env s = some s') :
      Reachable s'
  | notifyNewPatch {s s' : PatchSys F} (d : ℕ) (h : Reachable s)
      (hs : notifyNewPatch env s d = some s') : Reachable s'
  | loadLocalPatchToCtx {s s' : PatchSys F} (p : ℕ) (h : Reachable s)
      (hp : 0 < p ∧ p ≤ s.patchCount) (hs : loadLocalPatchToCtx env s p = some s') : Reachable s'
  | destroyPatchContext {s : PatchSys F} (h : Reachable s) : Reachable (destroyPatchContext s)
  | writeDesc {s : PatchSys F} (d : ℕ) (desc : PatchDesc) (h : Reachable s) :
      Reachable { s with desc := Function.update s.desc d desc }
  | allocPatch {s : PatchSys F} (d : ℕ) (h : Reachable s) : Reachable (ebpfPatchSetup s d).1

end

end RapidPatch.Hotpatch

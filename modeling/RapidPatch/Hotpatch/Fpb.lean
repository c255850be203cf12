import RapidPatch.Hotpatch.PatchList

/-!
The breakpoint unit of `cortex-m4_fbp.c`.

The unit has six comparators. In debug-monitor mode a comparator takes a word
address and says which half of the word to break on; in remap mode it takes a
word address whose contents are replaced by a branch to a trampoline. New
comparators are taken in turn, the sixth being followed by the first.

`active_patch` arms a comparator for a dynamic patch. The context does not
see the unit and the unit does not see the context, so that a `PatchedDevice`
is a pair of them, and its operations are those of `Context` with what they do
to the unit beside them.
-/

namespace RapidPatch.Hotpatch

open RapidPatch.Support

def maxBp : ℕ := 6

def getHwBkptNum : ℕ := 6

/-- The flash patch and breakpoint unit, `bpkt_info` and `REMAP_ADDR`. -/
structure Fpb where
  ctrl : BitVec 32
  comp : ℕ → BitVec 32
  curIdx : ℕ
  bpktNum : ℕ
  bpktIsInit : Bool
  /-- `REMAP_ADDR.active`. -/
  remapActive : Bool
  /-- The words from `get_fpb_patch_remap()` on. -/
  remapInst : ℕ → BitVec 32

/-- What a comparator is set to for a breakpoint at an address. -/
def fpComp (instAddr : BitVec 32) : BitVec 32 :=
  let replace : BitVec 32 := if instAddr &&& 0x2 = 0 then 1 else 2
  (instAddr &&& ~~~0x3#32) ||| 0x1 ||| replace <<< 30

def compEnabled (comp : BitVec 32) : Prop := comp &&& 0x1 ≠ 0

instance compEnabled.decidable (comp : BitVec 32) : Decidable (compEnabled comp) :=
  inferInstanceAs (Decidable (_ ≠ _))

/-- The address a comparator breaks at, as `show_hw_bkpt` prints it. -/
def compAddr (comp : BitVec 32) : BitVec 32 :=
  let instAddr := comp &&& 0x1ffffffc
  if comp >>> 30 = 0x2 then instAddr ||| 0x2 else instAddr

/-- `add_normal_bkpt`, with the index it returns. -/
def addNormalBkpt (f : Fpb) (instAddr : BitVec 32) : Fpb × ℤ :=
  match (List.range f.bpktNum).find? fun i => f.comp i = fpComp instAddr with
  | some i => (f, i)
  | none =>
      ({ f with
        comp := Function.update f.comp f.curIdx (fpComp instAddr)
        curIdx := f.curIdx + 1 }, f.curIdx)

/-! ### Remap mode -/

/-- `calc_branch_instr`: the branch to an address, its halves in reading
order. -/
def calcBranchInstr (instrAddr targetAddr : BitVec 32) : BitVec 32 :=
  let offset := (targetAddr &&& ~~~0x1#32) - (instrAddr &&& ~~~0x1#32) - 4
  let offset10Upper := (offset >>> 12) &&& 0x03ff
  let offset11Lower := (offset >>> 1) &&& 0x07ff
  let s := (offset >>> 24) &&& 0x01
  let i1 := (offset >>> 23) &&& 0x01
  let i2 := (offset >>> 22) &&& 0x01
  let j1 := 0x01 &&& (~~~i1 ^^^ s)
  let j2 := 0x01 &&& (~~~i2 ^^^ s)
  let upperBlInstr := ((0x1e : BitVec 32) <<< 11) ||| (s <<< 10) ||| offset10Upper
  let lowerBlInstr :=
    ((0x02 : BitVec 32) <<< 14) ||| (j1 <<< 13) ||| ((0x01 : BitVec 32) <<< 12) ||| (j2 <<< 11) |||
      offset11Lower
  (upperBlInstr <<< 16) ||| lowerBlInstr

def littleEndian16Bit (val : BitVec 32) : BitVec 32 :=
  ((val &&& 0xffff0000) >>> 16) ||| ((val &&& 0x0000ffff) <<< 16)

section

variable (flash : BitVec 32 → BitVec 16) (handler : ℕ → BitVec 32)

def flashWord (addr : BitVec 32) : BitVec 32 := flash (addr + 2) ++ flash addr

/-- `add_fpb_bkpt`, with the trampolines `FPB_Handler0` to `FPB_Handler5`. -/
def addFpbBkpt (f : Fpb) (instAddr : BitVec 32) : Fpb × ℤ :=
  let idx := f.curIdx
  let trampolineAddr := ((handler idx &&& ~~~0x3#32) + 3) &&& ~~~0x3#32
  let jumpInst := littleEndian16Bit (calcBranchInstr instAddr trampolineAddr)
  let instAddr := instAddr &&& ~~~0x1#32
  if instAddr.toNat % 4 = 0 then
    let comp := instAddr ||| 0x1
    match (List.range f.bpktNum).find? fun i => f.comp i = comp || f.comp i = instAddr with
    | some i => ({ f with comp := Function.update f.comp i comp }, i)
    | none =>
        ({ f with
          remapInst := Function.update f.remapInst idx jumpInst
          comp := Function.update f.comp idx comp
          curIdx := idx + 1 }, idx + 1)
  else
    let comp1 := instAddr &&& 0xfffffffc
    let comp2 := (instAddr &&& 0xfffffffc) + 4
    match (List.range (f.bpktNum - 1)).find? fun i =>
        f.comp i = comp1 && f.comp (i + 1) = comp2 with
    | some i => (f, i)
    | none =>
        let oldInstr0 := flashWord flash comp1
        let oldInstr1 := flashWord flash comp2
        let first := ((jumpInst &&& 0x0000ffff) <<< 16) ||| (oldInstr0 &&& 0x0000ffff)
        let second := (oldInstr1 &&& 0xffff0000) ||| ((jumpInst &&& 0xffff0000) >>> 16)
        ({ f with
          remapInst := Function.update (Function.update f.remapInst idx first) (idx + 1) second
          comp := Function.update (Function.update f.comp idx comp1) (idx + 1) comp2
          curIdx := idx + 2 }, idx + 2)

/-! ### Both modes -/

def addHwBkpt (f : Fpb) (instAddr : BitVec 32) : Fpb × ℤ :=
  let f := if !f.bpktIsInit then { f with curIdx := 0, bpktNum := getHwBkptNum, bpktIsInit := true }
    else f
  if instAddr ≥ 0x20000000 then (f, -1)
  else
    let f := if f.curIdx ≥ maxBp then { f with curIdx := 0 } else f
    if f.remapActive then addFpbBkpt flash handler f instAddr else addNormalBkpt f instAddr

end

/-- `clear_all_hw_bkpt`, for as many comparators as the unit says it has. -/
def clearAllHwBkpt (f : Fpb) : Fpb :=
  let numCodeComparators := (((f.ctrl >>> 12) &&& 0x7) <<< 4) ||| ((f.ctrl >>> 4) &&& 0xf)
  { f with
    comp := fun i => if i < numCodeComparators.toNat then 0 else f.comp i
    curIdx := 0
    ctrl := (f.ctrl &&& ~~~0x3#32) ||| 0x2 }

/-- `patch_mode_t`. -/
inductive PatchMode
  | cortexFpbPatch
  | cortexDebMonPatch
  deriving DecidableEq

/-- `set_patch_mode`. The debug monitor stays off, and the unit with it, while
a debugger has halting debug enabled. -/
def setPatchMode (haltingDebugEnabled : Bool) (f : Fpb) (mode : PatchMode) : Fpb :=
  let f := { clearAllHwBkpt f with remapInst := fun _ => 0, remapActive := false }
  match mode with
  | .cortexFpbPatch => { f with remapActive := true, ctrl := f.ctrl ||| 0x3 }
  | .cortexDebMonPatch =>
      if haltingDebugEnabled then f else { f with ctrl := f.ctrl ||| 0x3 }

/-! ### The context and the unit -/

structure PatchedDevice (F : Type) where
  sys : PatchSys F
  fpb : Fpb

section

variable {F : Type} (env : Env F) (handler : ℕ → BitVec 32)

/-- What `active_patch` does to the unit for a patch with a descriptor. -/
def armPatch (f : Fpb) (desc : PatchDesc) : Fpb :=
  if desc.type = dynamicPatchPoint then (addHwBkpt env.flash handler f desc.addr).1 else f

namespace PatchedDevice

def initPatchSys (m : PatchedDevice F) : Option (PatchedDevice F) := do
  let sys ← Hotpatch.initPatchSys env m.sys
  return { m with sys := sys }

/-- `notify_new_patch`. The descriptor is the one that `add_ebpf_patch`
aligned. -/
def notifyNewPatch (m : PatchedDevice F) (d : ℕ) : Option (PatchedDevice F) := do
  let sys ← Hotpatch.notifyNewPatch env m.sys d
  return { sys := sys, fpb := armPatch env handler m.fpb (sys.desc d) }

def loadLocalPatchToCtx (m : PatchedDevice F) (p : ℕ) : Option (PatchedDevice F) := do
  let sys ← Hotpatch.loadLocalPatchToCtx env m.sys p
  return { sys := sys, fpb := armPatch env handler m.fpb (sys.desc (sys.patch p).desc) }

def destroyPatchContext (m : PatchedDevice F) : PatchedDevice F where
  sys := Hotpatch.destroyPatchContext m.sys
  fpb := clearAllHwBkpt m.fpb

/-- The states a device can be in. `bpkt_is_init` and `REMAP_ADDR` are clear at
the start; the registers of the unit hold anything. -/
inductive Reachable : PatchedDevice F → Prop
  | boot {m : PatchedDevice F} (hsys : m.sys.ctxInit = false ∧ m.sys.fixedPatches = none ∧
      m.sys.next 0 = none) (hfpb : m.fpb.bpktIsInit = false) (hmode : m.fpb.remapActive = false) :
      Reachable m
  | setPatchMode {m : PatchedDevice F} (haltingDebugEnabled : Bool) (mode : PatchMode)
      (h : Reachable m) :
      Reachable { m with fpb := Hotpatch.setPatchMode haltingDebugEnabled m.fpb mode }
  | initPatchSys {m m' : PatchedDevice F} (h : Reachable m) (hm : m.initPatchSys env = some m') :
      Reachable m'
  | notifyNewPatch {m m' : PatchedDevice F} (d : ℕ) (h : Reachable m)
      (hm : m.notifyNewPatch env handler d = some m') : Reachable m'
  | loadLocalPatchToCtx {m m' : PatchedDevice F} (p : ℕ) (h : Reachable m)
      (hp : 0 < p ∧ p ≤ m.sys.patchCount) (hm : m.loadLocalPatchToCtx env handler p = some m') :
      Reachable m'
  | destroyPatchContext {m : PatchedDevice F} (h : Reachable m) : Reachable m.destroyPatchContext
  | writeDesc {m : PatchedDevice F} (d : ℕ) (desc : PatchDesc) (h : Reachable m) :
      Reachable { m with sys := { m.sys with desc := Function.update m.sys.desc d desc } }
  | allocPatch {m : PatchedDevice F} (d : ℕ) (h : Reachable m) :
      Reachable { m with sys := (ebpfPatchSetup m.sys d).1 }

end PatchedDevice

end

end RapidPatch.Hotpatch

import RapidPatch.Jit.Emit

/-!
The two passes of the translator.

`buildInst` is `build_inst` for one instruction: its result, the halfwords
it emits and the line it stores in `err_line`. It reads of the `jit_state`
what `Input` and `Pass` hold, and the index. `buildBody` is the loop over
the instructions, which skips the second slot of an `LDDW` and returns at the
first failure, and `jitCompile` runs both passes.

The first pass fills the table `offsets` with the ends of the instructions.
The table lies in memory, and reading it at a wrong index yields what memory
holds there. So it is a function on all indices, and what it holds before
the first pass is a parameter.
-/

namespace RapidPatch.Jit

open RapidPatch.Vm

/-- What a translation reads besides its own state. -/
structure Input where
  /-- The memory `insts` points to. -/
  insts : ℕ → Inst
  instNum : ℕ
  /-- The word at `__bpf_call_base + imm * 4`. -/
  callBase : BitVec 32 → BitVec 32
  /-- What lies behind the last row of `bpf2a32`. -/
  behind : Row

/-- The fields of `jit_state` that distinguish the passes. -/
structure Pass where
  needGen : Bool
  offsets : ℤ → BitVec 32
  epilogueOffset : BitVec 32

/-- The effect of `build_inst`: its result, what it emits, and the line it
stores in `err_line`, if it does. -/
structure BuildResult where
  ret : ℤ
  code : Code
  errLine : Option ℕ

def bpf2a32Offset (pass : Pass) (bpfFrom bpfTo : ℤ) (bsize : BitVec 32) : BitVec 32 :=
  if !pass.needGen then 0
  else
    let target := pass.offsets bpfTo
    let source := pass.offsets bpfFrom - bsize
    target - source - 4

/-- `epilogue_offset`; `idx` is the index before the branch. -/
def epilogueOffset (pass : Pass) (idx : ℕ) : BitVec 32 :=
  if !pass.needGen then 0 else pass.epilogueOffset - BitVec.ofNat 32 idx - 4

/-- The operands of a conditional jump: the code that sets them up, and the
four registers `rd[0]`, `rd[1]`, `rm`, `rn` that are compared. -/
def jmpOperands (dst src : Row) (source : Src) (imm : BitVec 32) : Code × ℤ × ℤ × ℤ × ℤ :=
  let (getSrc, rm, rn) := match source with
    | .reg =>
        let (getHi, rm) := armBpfGetReg32 src.hi tmpReg2.hi
        let (getLo, rn) := armBpfGetReg32 src.lo tmpReg2.lo
        (getHi ++ getLo, rm, rn)
    | .imm => (emitMovSeImm64 true tmpReg2 imm, tmpReg2.hi, tmpReg2.lo)
  let (getDst, rd) := armBpfGetReg64 dst tmpReg1
  (getSrc ++ getDst, rd.hi, rd.lo, rm, rn)

/-- The size `build_inst` assumes of a conditional branch. -/
def branchSize (instNum : ℕ) : BitVec 32 := if useB4 instNum then 4 else 2

/-- `EBPF_OP_CALL`: move and push the arguments, load the function's address
and call it. -/
def emitCall (p : Input) (imm : BitVec 32) : Code :=
  let row := bpf2a32 p.behind
  emitMovReg64 true (row 0) (row 1) ++ emitMovReg64 true (row 1) (row 2) ++
    emitPushR64 (row 5) ++ emitPushR64 (row 4) ++ emitPushR64 (row 3) ++
    emitMovImm tmpReg1.lo (p.callBase imm) ++ emit2 (thumb16BlxRegT1 tmpReg1.lo) ++
    emitAddImm armSp armSp 24

/-- A case that falls out of the switch. -/
def built (code : Code) : BuildResult := { ret := 0, code := code, errLine := none }

/-- The 32-bit shifts by an immediate. The test of the amount compares as
`int`, so that a negative amount is let through. -/
def buildShiftImm (base : BitVec 32) (dst : Row) (imm : BitVec 32) : BuildResult :=
  if imm.toInt > 31 then { ret := -1, code := [], errLine := some 1452 }
  else if imm = 0 then built []
  else built (emitAlu32Imm base dst.lo (imm.setWidth 16))

def buildAlu32 (dst src : Row) (imm : BitVec 32) : AluOp → Src → BuildResult
  | .mov, .reg => built (if imm = 1 then emitMovImm dst.hi 0 else emitMovReg64 false dst src)
  | .mov, .imm => built (emitMovSeImm64 false dst imm)
  | .div, source => built (emitU32DivMod dst src true source (imm.setWidth 16))
  | .mod, source => built (emitU32DivMod dst src false source (imm.setWidth 16))
  | .lsh, .imm => buildShiftImm 0x0000 dst imm
  | .rsh, .imm => buildShiftImm 0x0800 dst imm
  | .arsh, .imm => buildShiftImm 0x1000 dst imm
  | op, .imm => built (emitMovSeImm64 false tmpReg2 imm ++ emitAlu64Reg false dst tmpReg2 op)
  | op, .reg => built (emitAlu64Reg false dst src op)

/-- The cases of the 64-bit class. Division and remainder are those of the
32-bit class. -/
def buildAlu64 (dst src : Row) (imm : BitVec 32) : AluOp → Src → BuildResult
  | .mov, .reg => built (if imm = 1 then emitMovImm dst.hi 0 else emitMovReg64 true dst src)
  | .mov, .imm => built (emitMovSeImm64 true dst imm)
  | .div, source => built (emitU32DivMod dst src true source (imm.setWidth 16))
  | .mod, source => built (emitU32DivMod dst src false source (imm.setWidth 16))
  | .lsh, .reg => built (emitLsh64Reg dst src)
  | .lsh, .imm => built (emitLsh64Imm dst (imm.setWidth 16))
  | .rsh, .reg => built (emitA32RshR64 dst src)
  | .rsh, .imm => built (emitA32RshI64 dst (imm.setWidth 16))
  | .arsh, .reg => built (emitA32ArshR64 dst src)
  | .arsh, .imm => built (emitA32ArshI64 dst imm)
  | .mul, .imm => built (emitMovSeImm64 true tmpReg2 imm ++ emitA32MulR64 dst tmpReg2)
  | .mul, .reg => built (emitA32MulR64 dst src)
  | op, .imm => built (emitMovSeImm64 true tmpReg2 imm ++ emitAlu64Reg true dst tmpReg2 op)
  | op, .reg => built (emitAlu64Reg true dst src op)

/-- `build_inst` for the instruction at `pc`, with `idx` bytes emitted. -/
def buildInst (p : Input) (pass : Pass) (idx pc : ℕ) : BuildResult :=
  let inst := p.insts pc
  let dst := bpf2a32 p.behind inst.dst
  let src := bpf2a32 p.behind inst.src
  let off : BitVec 32 := inst.offset.signExtend 32
  let imm := inst.imm
  match inst.op with
  | .alu op source => buildAlu32 dst src imm op source
  | .alu64 op source => buildAlu64 dst src imm op source
  | .neg => built (emitNeg32 dst.lo)
  | .neg64 => built (emitA32Neg64 dst)
  | .le | .be => { ret := -1, code := [], errLine := none }
  | .lddw =>
      let val := imm.setWidth 64 ||| (p.insts (pc + 1)).imm.setWidth 64 <<< 32
      { ret := 1, code := emitMovI64 dst val, errLine := none }
  | .ldx size =>
      let (getSrc, rn) := armBpfGetReg32 src.lo tmpReg2.lo
      built (getSrc ++ emitLdxReg dst rn off size)
  | .st size =>
      built ((match size with
        | .dw => emitMovSeImm64 true tmpReg2 imm
        | .w | .h | .b => emitMovImm tmpReg2.lo imm) ++ emitStrReg dst.lo tmpReg2 off size)
  | .stx size =>
      let (getSrc, rs) := armBpfGetReg64 src tmpReg2
      built (getSrc ++ emitStrReg dst.lo rs off size)
  | .jmp op source =>
      if source = .imm ∧ off = 0 then built []
      else
        let (code, rdHi, rdLo, rm, rn) := jmpOperands dst src source imm
        let jmpOffset := bpf2a32Offset pass pc (pc + inst.offset.toInt) (branchSize p.instNum)
        built (code ++ emitCmpCond rdHi rdLo rm rn op ++ emitJump p.instNum jmpOffset op)
  | .ja =>
      if off = 0 then built []
      else built (emitB (bpf2a32Offset pass pc (pc + inst.offset.toInt) 2))
  | .call => built (emitCall p imm)
  | .exit =>
      if (pc : ℤ) = p.instNum - 1 then built [] else built (emitB (epilogueOffset pass idx))
  | .nop | .unknown => built []

/-! ### The passes -/

def buildPrologue (p : Input) : Code :=
  let r1 := bpf2a32 p.behind 1
  let fp := bpf2a32 p.behind 10
  emit4 (thumb32PushwT2 calleePushMask) ++ emitMovReg armSp armFp ++ emitMovImm r1.hi 0 ++
    emitSubImm r1.lo armSp (BitVec.ofInt 32 scratchSize) ++
    emitSubImm armSp armSp (BitVec.ofInt 32 ebpfStackSize) ++
    emitMovReg64 true fp r1 ++ emitMovReg armR0 r1.lo ++ emitMovImm r1.hi 0

def buildEpilogue : Code := emitMovReg armFp armSp ++ emit4 (thumb32PopwT2 calleePopMask)

/-- What a pass has done so far. The index is the length of the code. -/
structure PassState where
  code : Code
  offsets : ℤ → BitVec 32
  errLine : ℕ

/-- `state->idx`. -/
def PassState.idx (s : PassState) : ℕ := 2 * s.code.length

/-- `if (!state->needGen) state->offsets[i] = state->idx`. -/
def PassState.record (s : PassState) (needGen : Bool) (i : ℕ) : PassState :=
  if needGen then s
  else
    { s with offsets := fun j => if j = (i : ℤ) then BitVec.ofNat 32 s.idx else s.offsets j }

/-- The state after `build_inst`. -/
def PassState.append (s : PassState) (r : BuildResult) : PassState :=
  { s with code := s.code ++ r.code, errLine := r.errLine.getD s.errLine }

/-- The loop of `build_body` from index `i` on; `n` is the number of slots
left. The table the branches are computed from is the state's own. -/
def buildBodyLoop (p : Input) (needGen : Bool) (epilogue : BitVec 32) :
    ℕ → ℕ → PassState → PassState
  | 0, _, s => s
  | n + 1, i, s =>
      let r := buildInst p ⟨needGen, s.offsets, epilogue⟩ s.idx i
      let s := s.append r
      if r.ret > 0 then
        -- the second slot is skipped, and the end recorded there
        match n with
        | 0 => s.record needGen (i + 1)
        | n + 1 => buildBodyLoop p needGen epilogue n (i + 2) (s.record needGen (i + 1))
      else
        let s := s.record needGen i
        if r.ret < 0 then s else buildBodyLoop p needGen epilogue n (i + 1) s

def buildBody (p : Input) (needGen : Bool) (epilogue : BitVec 32) (s : PassState) : PassState :=
  buildBodyLoop p needGen epilogue p.instNum 0 s

/-- The two passes: the state at the end of the first, which is also where
`epilogue_offset` is taken, and the code of the second up to its epilogue. -/
structure Compiled where
  first : PassState
  second : PassState

/-- `jit_compile`, on a table that holds `offsets`. -/
def jitCompile (p : Input) (offsets : ℤ → BitVec 32) : Compiled :=
  let first := buildBody p false 0 ⟨buildPrologue p, offsets, 0⟩
  let second := buildBody p true (BitVec.ofNat 32 first.idx)
    ⟨buildPrologue p, first.offsets, first.errLine⟩
  ⟨first, second⟩

def Compiled.code (c : Compiled) : Code := c.second.code ++ buildEpilogue

end RapidPatch.Jit

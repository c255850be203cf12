import RapidPatch.Jit.Encode
import RapidPatch.Vm.Inst

/-!
The emitters of `jit_thumb2.c` below `build_inst`.

`emit_bytes` copies into the buffer in the generating pass and advances the
index in both, so an emitter is the list of halfwords it hands to `emit2`;
what it appends does not depend on the pass, branches apart. The emitters
that also pick a register return the register beside the code.

A row of `bpf2a32` is a pair, high word first as in the source. Non-negative
entries are core registers, negative ones offsets from the frame pointer.
-/

namespace RapidPatch.Jit

open RapidPatch.Vm

abbrev Code := List (BitVec 16)

/-- A row of `bpf2a32`: the registers or frame offsets of the high and the
low word. -/
abbrev Row := ℤ × ℤ

def Row.hi (r : Row) : ℤ := r.1
def Row.lo (r : Row) : ℤ := r.2

def emit2 (x : BitVec 16) : Code := [x]

/-- `emit4`: the upper halfword first. -/
def emit4 (x : BitVec 32) : Code := [(x >>> 16).setWidth 16, x.setWidth 16]

def stackOffset (k : ℤ) : ℤ := -4 - k * 4

/-- `SCRATCH_SIZE`: `BPF_JIT_SCRATCH_REGS` words. -/
def scratchSize : ℤ := 20 * 4

/-- `EBPF_STACK_SIZE` of `jit.h`. -/
def ebpfStackSize : ℤ := 256

/-- The table `bpf2a32`. A register field is four bits wide and the table has
fifteen rows; `behind` is what the word behind the last one reads as. -/
def bpf2a32 (behind : Row) (reg : BitVec 4) : Row :=
  match reg.toNat with
  | 0 => (1, 0)
  | 1 => (3, 2)
  | 2 => (stackOffset 0, stackOffset 1)
  | 3 => (stackOffset 2, stackOffset 3)
  | 4 => (stackOffset 4, stackOffset 5)
  | 5 => (stackOffset 6, stackOffset 7)
  | 6 => (5, 4)
  | 7 => (stackOffset 8, stackOffset 9)
  | 8 => (stackOffset 10, stackOffset 11)
  | 9 => (stackOffset 12, stackOffset 13)
  | 10 => (stackOffset 14, stackOffset 15)
  | 11 => (stackOffset 18, stackOffset 19)
  | 12 => (7, 6)
  | 13 => (9, 8)
  | 14 => (stackOffset 16, stackOffset 17)
  | _ => behind

/-- `bpf2a32[TMP_REG_1]`. -/
def tmpReg1 : Row := (7, 6)

/-- `bpf2a32[TMP_REG_2]`. -/
def tmpReg2 : Row := (9, 8)

def isStacked (reg : ℤ) : Bool := reg < 0

/-- The emitters' test for a low register: `reg < 8`, which a frame offset
passes too. -/
def isLow (reg : ℤ) : Bool := reg < 8

/-- An offset held in an `s16`, as the `int` it is promoted to. -/
def offWord (off : ℤ) : BitVec 32 := BitVec.ofInt 32 off

/-! ### Loads and stores of one register -/

def emitLdrI (rt rn : ℤ) (off : BitVec 32) : Code :=
  if off = 0 then emit4 (0xf8d00000 ||| regField rn 16 ||| regField rt 12 ||| (off &&& 0xfff))
  else emit4 (thumb32LdrImmT4 rt rn off)

/-- `-bound <= off && off <= bound`. -/
def within (off : BitVec 32) (bound : ℤ) : Bool := -bound ≤ off.toInt && off.toInt ≤ bound

def emitLdrbI (rt rn : ℤ) (off : BitVec 32) : Code :=
  if within off 0b11111 && isLow rt && isLow rn then emit2 (thumb16LdrbImmT1 rt rn off)
  else if within off 0xff then emit4 (thumb32LdrbImmT3 rt rn off)
  else if within off 0xfff then
    emit4 (0xf8900000 ||| regField rn 16 ||| regField rt 12 ||| off)
  else []

def emitLdrhI (rt rn : ℤ) (off : BitVec 32) : Code :=
  if within off 0b11111 then
    emit2 ((0x8800 ||| (off &&& 0b11111) <<< 6 ||| regField rn 3 ||| regField rt 0).setWidth 16)
  else if within off 0xff then
    emit4 (0xf8300000 ||| regField rn 16 ||| regField rt 12 ||| 0b1110 <<< 8 ||| (off &&& 0xff))
  else if within off 0xfff then
    emit4 (0xf8b00000 ||| regField rn 16 ||| regField rt 12 ||| (off &&& 0xfff))
  else []

def emitLdrdI (rt : Row) (rn : ℤ) (off : BitVec 32) : Code := emit4 (thumb32LdrdImmT1 rt rn off)

/-- `_emit_str_i`, whose magnitude is cut to a byte. -/
def emitStrI (rnSrc rt : ℤ) (off : BitVec 32) : Code :=
  let imm8 := magnitude off &&& 0xff
  let flag := 0b1000 ||| bit (off ≠ 0) 2 ||| bit (off.toInt > 0) 1
  emit4 (0xf8400000 ||| regField rnSrc 16 ||| regField rt 12 ||| flag <<< 8 ||| imm8)

def emitStrdI (rnSrc : Row) (rtDst : ℤ) (off : BitVec 32) : Code :=
  emit4 (thumb32StrdImmT1 rnSrc rtDst off)

/-! ### Moves -/

def emitMovReg (src dst : ℤ) : Code :=
  if dst ≠ armSp ∧ src ≠ armSp then emit2 (thumb16MovRegT1 dst src)
  else emit4 (thumb32MovwRegT3 dst src flagNos)

/-- The 16-bit immediate of `movw` and `movt`, spread over its four fields. -/
def movImm16 (base : BitVec 32) (rd : ℤ) (v : BitVec 32) : BitVec 32 :=
  let i4 := (v &&& 0xf000) >>> 12
  let i := (v &&& 0x0800) >>> 11
  let i3 := (v &&& 0x0700) >>> 8
  let i8 := v &&& 0x00ff
  base ||| i <<< 26 ||| i4 <<< 16 ||| i3 <<< 12 ||| regField rd 8 ||| i8

/-- `emit_mov_imm`. The register parameter is a `u8`, so that a frame offset
arrives as a large number. -/
def emitMovImm (reg : ℤ) (val : BitVec 32) : Code :=
  let rd := reg % 256
  if val ≤ 0xff ∧ rd < 8 then emit2 ((0x2000 ||| regField rd 8 ||| val).setWidth 16)
  else
    emit4 (movImm16 0xf2400000 rd (val &&& 0xffff)) ++
      if val > 0xffff then emit4 (movImm16 0xf2c00000 rd (val >>> 16)) else []

/-! ### Getting and putting eBPF registers -/

/-- `arm_bpf_get_reg32`: the code, and the register that then holds the word. -/
def armBpfGetReg32 (reg tmp : ℤ) : Code × ℤ :=
  if isStacked reg then (emitLdrI tmp armFp (offWord reg), tmp) else ([], reg)

def armBpfPutReg32 (reg src : ℤ) : Code :=
  if isStacked reg then emitStrI armFp src (offWord reg)
  else if reg ≠ src then emitMovReg src reg
  else []

def armBpfGetReg64 (reg tmp : Row) : Code × Row :=
  if isStacked reg.lo then (emitLdrdI tmp armFp (offWord reg.lo), tmp) else ([], reg)

def emitA32MovReg (src dst : ℤ) : Code :=
  let (code, rt) := armBpfGetReg32 src tmpReg1.hi
  code ++ armBpfPutReg32 dst rt

def armBpfPutReg64 (reg src : Row) : Code :=
  if isStacked reg.lo then emitStrdI src armFp (offWord reg.lo)
  else
    (if reg.lo ≠ src.lo then emitA32MovReg src.lo reg.lo else []) ++
      if reg.hi ≠ src.hi then emitA32MovReg src.hi reg.hi else []

def emitMovReg64 (is64 : Bool) (dst src : Row) : Code :=
  if !is64 then emitA32MovReg src.lo dst.lo
  else if isStacked src.lo && isStacked dst.lo then
    emitLdrdI tmpReg1 armFp (offWord src.lo) ++ emitStrdI tmpReg1 armFp (offWord dst.lo)
  else if isStacked src.lo then emitLdrdI dst armFp (offWord src.lo)
  else if isStacked dst.lo then emitStrdI src armFp (offWord dst.lo)
  else emitMovReg src.lo dst.lo ++ emitMovReg src.hi dst.hi

def emitMovI64 (dst : Row) (val : BitVec 64) : Code :=
  let rd := if isStacked dst.lo then tmpReg1 else dst
  emitMovImm rd.lo (val.setWidth 32) ++ emitMovImm rd.hi ((val >>> 32).setWidth 32) ++
    armBpfPutReg64 dst rd

def emitMovSeImm64 (is64 : Bool) (dst : Row) (val : BitVec 32) : Code :=
  if is64 then
    let val64 : BitVec 64 := val.setWidth 64
    emitMovI64 dst (if val &&& 0x80000000 ≠ 0 then val64 ||| 0xffffffff00000000 else val64)
  else emitMovImm dst.lo val

def emitPushR64 (src : Row) : Code :=
  let (code, rt) := armBpfGetReg64 src tmpReg2
  let regSet : BitVec 32 := 1 <<< rt.lo.toNat ||| 1 <<< rt.hi.toNat
  code ++
    if (rt.hi = armLr ∨ rt.hi < 8) ∧ (rt.lo = armLr ∨ rt.lo < 8) then
      emit2 (thumb16PushT1 regSet)
    else emit4 (thumb32PushwT2 regSet)

/-! ### Arithmetic -/

def emitAddReg (dst src : ℤ) (is64 hi : Bool) : Code :=
  if is64 then
    if hi then emit4 (0xeb400000 ||| regField src 16 ||| regField dst 8 ||| regField dst 0)
    else emit4 (0xeb100000 ||| regField src 16 ||| regField dst 8 ||| regField dst 0)
  else emit2 (thumb16AddRegT2 dst src)

def emitAddImm (dst src : ℤ) (val : BitVec 32) : Code :=
  if 0 ≤ val.toInt ∧ val.toInt ≤ 255 ∧ dst = src ∧ dst < 8 then emit2 (thumb16AddImmT2 dst val)
  else if 0 ≤ val.toInt ∧ val.toInt ≤ 4095 then emit4 (thumb32AddImmT4 dst src val)
  else []

def emitSubImm (dst src : ℤ) (val : BitVec 32) : Code :=
  if val.toInt < 0 ∨ val.toInt > 4095 then []
  else if dst < 8 ∧ dst ≥ 0 ∧ src < 8 ∧ src ≥ 0 ∧ dst = src ∧ val.toInt ≤ 0xff then
    emit2 (thumb16SubImmT2 dst val)
  else if dst < 8 ∧ dst ≥ 0 ∧ src < 8 ∧ src ≥ 0 ∧ val.toInt ≤ 0x7 then
    emit2 (thumb16SubImmT1 dst src val)
  else emit4 (thumb32SubwImmT4 dst src val)

def emitSubReg (dst src : ℤ) (is64 hi : Bool) : Code :=
  if is64 && !hi then emit4 (thumb32SubRegT2 dst dst src 0 srtypeLsl flagS)
  else if is64 && hi then emit4 (thumb32SbcwT2 dst dst src 0 srtypeLsl flagNos)
  else if isLow src && isLow dst then emit2 (thumb16SubRegT1 dst dst src)
  else emit4 (thumb32SubRegT2 dst dst src 0 srtypeLsl flagNos)

def emitOrrReg (dst src : ℤ) : Code :=
  if isLow dst && isLow src then emit2 (thumb16OrrRegT1 dst src)
  else emit4 (thumb32OrrwRegT2 dst dst src 0 srtypeAsl flagNos)

def emitAndReg (dst src : ℤ) : Code :=
  if isLow dst && isLow src then emit2 (thumb16AndRegT1 dst src)
  else emit4 (thumb32AndRegT2 dst dst src 0 srtypeAsl flagNos)

def emitCmpReg (rn rm : ℤ) : Code :=
  if isLow rn && isLow rm then emit2 (thumb16CmpRegT1 rn rm) else emit2 (thumb16CmpRegT2 rn rm)

/-- The cases of `emit_alu32_reg` with a two-register 16-bit form for the
registers r1 to r7. -/
def emitLowOr (base : BitVec 32) (wide : BitVec 32) (rd rn : ℤ) : Code :=
  if rn > 0 ∧ rn < 8 ∧ rd > 0 ∧ rd < 8 then emit2 (twoLow base rd rn) else emit4 wide

/-- The operation of `emit_alu32_reg` on two core registers. `DIV`, `MOD` and
`MOV` have no case and emit nothing. -/
def emitAluOp (rd rn : ℤ) (is64 hi : Bool) : AluOp → Code
  | .add => emitAddReg rd rn is64 hi
  | .sub => emitSubReg rd rn is64 hi
  | .or => emitOrrReg rd rn
  | .and => emitAndReg rd rn
  | .xor => emitLowOr 0x4040 (thumb32EorRegT2 rd rn rd 0 srtypeRor flagNos) rd rn
  | .mul => emitLowOr 0x4340 (thumb32MulT2 rd rn rd) rd rn
  | .lsh => emitLowOr 0x4080 (thumb32LslwRegT2 rd rd rn flagNos) rd rn
  | .rsh => emitLowOr 0x40c0 (thumb32LsrwRegT2 rd rd rn flagNos) rd rn
  | .arsh => emitLowOr 0x4100 (thumb32AsrwRegT2 rd rd rn flagNos) rd rn
  | .div | .mod | .mov => []

def emitAlu32Reg (dst src : ℤ) (is64 hi : Bool) (op : AluOp) : Code :=
  let (getSrc, rn) := armBpfGetReg32 src tmpReg1.lo
  let (getDst, rd) := armBpfGetReg32 dst tmpReg1.hi
  getSrc ++ getDst ++ emitAluOp rd rn is64 hi op ++ armBpfPutReg32 dst rd

/-- `emit_alu64_reg`. The 32-bit form passes `is64 = true` on to
`emit_alu32_reg`, as the code does. -/
def emitAlu64Reg (is64 : Bool) (dst src : Row) (op : AluOp) : Code :=
  let (getDst, rd) := armBpfGetReg64 dst tmpReg1
  getDst ++
    (if is64 then
      let (getSrc, rs) := armBpfGetReg64 src tmpReg2
      getSrc ++ emitAlu32Reg rd.lo rs.lo true false op ++ emitAlu32Reg rd.hi rs.hi true true op
    else
      let (getSrc, rs) := armBpfGetReg32 src.lo tmpReg2.lo
      getSrc ++ emitAlu32Reg rd.lo rs true false op) ++
    armBpfPutReg64 dst rd

/-- The immediate shifts of `emit_alu32_imm`; `val` is a `u16`. -/
def emitAlu32Imm (base : BitVec 32) (dst : ℤ) (val : BitVec 16) : Code :=
  let (getDst, rd) := armBpfGetReg32 dst tmpReg1.hi
  getDst ++
    emit2 ((base ||| val.setWidth 32 <<< 6 ||| regField rd 3 ||| regField rd 0).setWidth 16) ++
    armBpfPutReg32 dst rd

/-- `emit_alu32_imm` with `EBPF_ALU_NEG`. -/
def emitNeg32 (dst : ℤ) : Code :=
  let (getDst, rd) := armBpfGetReg32 dst tmpReg1.hi
  getDst ++ emit2 (twoLow 0x4240 rd rd) ++ armBpfPutReg32 dst rd

/-- `emit_u32_div_mod`; the immediate is a `u16`. -/
def emitU32DivMod (dst src : Row) (isDiv : Bool) (source : Src) (imm : BitVec 16) : Code :=
  let (getDst, rdLo) := armBpfGetReg32 dst.lo tmpReg2.lo
  let (getSrc, rt) := match source with
    | .reg => armBpfGetReg32 src.lo tmpReg2.hi
    | .imm => (emitMovImm tmpReg2.hi (imm.setWidth 32), tmpReg2.hi)
  getDst ++ getSrc ++
    (if isDiv then
      emit4 (0xfbb0f0f0 ||| regField rdLo 16 ||| regField rdLo 8 ||| regField rt 0)
    else
      emit4 (0xfbb0f0f0 ||| regField rdLo 16 ||| regField armIp 8 ||| regField rt 0) ++
        emit4 (0xfb000010 ||| regField rdLo 16 ||| regField armIp 12 ||| regField rdLo 8 |||
          regField rt 0)) ++
    armBpfPutReg32 dst.lo rdLo

/-! ### 64-bit shifts, negation and multiplication -/

def emitLsh64Reg (dst src : Row) : Code :=
  let (getSrc, rt) := armBpfGetReg32 src.lo tmpReg2.lo
  let (getDst, rd) := armBpfGetReg64 dst tmpReg1
  let t := tmpReg2.hi
  getSrc ++ getDst ++
    emit4 (0xf1a00000 ||| regField rt 16 ||| regField armIp 8 ||| 32) ++
    emit4 (0xfa00f000 ||| regField rd.hi 16 ||| regField t 8 ||| regField rt 0) ++
    emit4 (0xfa00f000 ||| regField rd.lo 16 ||| regField armIp 8 ||| regField armIp 0) ++
    emit4 (0xea400000 ||| regField t 16 ||| regField armIp 8 ||| regField armIp 0) ++
    emit4 (0xf1c00000 ||| regField rt 16 ||| regField t 8 ||| 32) ++
    emit4 (0xfa00f000 ||| regField rd.lo 16 ||| regField t 8 ||| regField t 0) ++
    emit4 (0xea400000 ||| regField t 16 ||| regField armIp 8 ||| regField armIp 0) ++
    emit4 (0xfa00f000 ||| regField rd.lo 16 ||| regField t 8 ||| regField rt 0) ++
    armBpfPutReg32 dst.lo t ++ armBpfPutReg32 dst.hi armIp

/-- `_emit_lsh64_imm`; the amount is a `u16`. -/
def emitLsh64Imm (dst : Row) (amount : BitVec 16) : Code :=
  let (getDst, rd) := armBpfGetReg64 dst tmpReg1
  let val : BitVec 32 := amount.setWidth 32
  let t := tmpReg2.hi
  getDst ++
    (if val < 32 then
      let rest := 32 - val
      emit4 (0xea5f0000 ||| ((val &&& 0b11100) >>> 2) <<< 12 ||| regField t 8 |||
        (val &&& 0b11) <<< 4 ||| regField rd.hi 0) ++
      emit4 (0xea500010 ||| regField t 16 ||| ((rest &&& 0b11100) >>> 2) <<< 12 |||
        regField rd.hi 8 ||| (rest &&& 0b11) <<< 6 ||| regField rd.lo 0) ++
      emit2 ((val <<< 6 ||| regField rd.lo 3 ||| regField rd.lo 0).setWidth 16)
    else
      (if val = 32 then emitMovReg rd.lo rd.hi
        else emit2 (((val - 32) <<< 6 ||| regField rd.lo 3 ||| regField rd.hi 0).setWidth 16)) ++
      emit2 (twoLow 0x4040 rd.lo rd.lo)) ++
    armBpfPutReg64 dst rd

def emitA32RshR64 (dst src : Row) : Code :=
  let (getSrc, rt) := armBpfGetReg32 src.lo tmpReg2.lo
  let (getDst, rd) := armBpfGetReg64 dst tmpReg1
  getSrc ++ getDst ++
    emit4 (thumb32RsbwImmT2 armIp rt 32 flagS) ++
    emit4 (thumb32SubwImmT4 tmpReg2.hi rt 32) ++
    emit4 (thumb32LsrwRegT2 armLr rd.lo rt flagS) ++
    emit4 (thumb32LslwRegT2 rd.hi rd.hi armIp flagS) ++
    emit4 (thumb32OrrwRegT2 armLr armLr rd.hi 0 srtypeLsl flagS) ++
    emit4 (thumb32LsrwRegT2 rd.hi rd.hi tmpReg2.hi flagS) ++
    emit4 (thumb32OrrwRegT2 armLr armLr rd.hi 0 srtypeLsl flagS) ++
    emit4 (thumb32LsrwRegT2 armIp rd.hi rt flagS) ++
    armBpfPutReg32 dst.lo armLr ++ armBpfPutReg32 dst.hi armIp

/-- `emit_a32_rsh_i64`; the amount is a `u16`. -/
def emitA32RshI64 (dst : Row) (amount : BitVec 16) : Code :=
  let (getDst, rd) := armBpfGetReg64 dst tmpReg1
  let val : BitVec 32 := amount.setWidth 32
  getDst ++
    (if val = 0 then []
    else if val < 32 then
      emit4 (thumb32LsrwImmT2 tmpReg2.lo rd.lo val flagNos) ++
      emit4 (thumb32OrrwRegT2 rd.lo tmpReg2.lo rd.hi (32 - val) srtypeLsl flagNos) ++
      emit4 (thumb32LsrwImmT2 rd.hi rd.hi val flagNos)
    else if val = 32 then emitMovReg rd.hi rd.lo ++ emitMovImm rd.hi 0
    else emit4 (thumb32LsrwImmT2 rd.lo rd.hi (val - 32) flagNos) ++ emitMovImm rd.hi 0) ++
    armBpfPutReg64 dst rd

def emitA32ArshR64 (dst src : Row) : Code :=
  let (getSrc, rt) := armBpfGetReg32 src.lo tmpReg2.lo
  let (getDst, rd) := armBpfGetReg64 dst tmpReg1
  getSrc ++ getDst ++
    emit4 (thumb32RsbwImmT2 armIp rt 32 flagS) ++
    emit4 (thumb32SubwImmT4 tmpReg2.hi rt 32) ++
    emit4 (thumb32LsrwRegT2 armLr rd.lo rt flagS) ++
    emit4 (thumb32LslwRegT2 rd.hi rd.hi tmpReg2.hi flagNos) ++
    emit4 (thumb32OrrwRegT2 armLr armLr rd.hi 0 srtypeLsl flagS) ++
    emit4 (thumb32AsrwRegT2 rd.hi rd.hi tmpReg2.hi flagNos) ++
    emit2 (thumb16ItT1 condPl itMaskNone) ++
    emit4 (thumb32OrrwRegT2 armLr armLr rd.hi 0 srtypeLsl flagS) ++
    emit4 (thumb32AsrwRegT2 armIp rd.hi rt flagS) ++
    armBpfPutReg32 dst.lo armLr ++ armBpfPutReg32 dst.hi armIp

/-- `emit_a32_arsh_i64`; the amount is a `u32`. -/
def emitA32ArshI64 (dst : Row) (val : BitVec 32) : Code :=
  let (getDst, rd) := armBpfGetReg64 dst tmpReg1
  getDst ++
    (if val = 0 then []
    else if val < 32 then
      emit4 (thumb32LsrwImmT2 tmpReg2.lo rd.lo val flagS) ++
      emit4 (thumb32OrrwRegT2 rd.lo tmpReg2.lo rd.hi (32 - val) srtypeLsl flagS) ++
      emit4 (thumb32AsrwImmT2 rd.hi rd.hi val flagS)
    else if val = 32 then
      emitMovReg rd.hi rd.lo ++ emit4 (thumb32AsrwImmT2 rd.hi rd.hi 31 flagS)
    else
      emit4 (thumb32AsrwImmT2 rd.lo rd.hi (val - 32) flagS) ++
      emit4 (thumb32AsrwImmT2 rd.hi rd.hi 31 flagS)) ++
    armBpfPutReg64 dst rd

def emitA32Neg64 (dst : Row) : Code :=
  let (getDst, rd) := armBpfGetReg64 dst tmpReg1
  getDst ++ emit4 (thumb32RsbwImmT2 rd.lo rd.lo 0 flagS) ++
    emit4 (thumb32RsbwImmT2 rd.hi rd.hi 0 flagS) ++ armBpfPutReg64 dst rd

def emitA32MulR64 (dst src : Row) : Code :=
  let (getDst, rd) := armBpfGetReg64 dst tmpReg1
  let (getSrc, rt) := armBpfGetReg64 src tmpReg2
  getDst ++ getSrc ++
    emit4 (thumb32MulT2 armIp rd.lo rt.hi) ++
    emit4 (thumb32MulT2 armLr rd.hi rt.lo) ++
    emit2 (thumb16AddRegT2 armLr armIp) ++
    emit4 (thumb32UmullT2 armIp rd.hi rd.lo rt.lo) ++
    emit2 (thumb16AddRegT2 rd.hi armLr) ++
    armBpfPutReg32 dst.lo armIp ++ armBpfPutReg32 dst.hi rd.hi

/-! ### Memory -/

def isLdstImm (off : BitVec 32) : Size → Bool
  | .b | .w => within off 0xfff
  | .h => within off 0xff
  | .dw => within off (0xfff - 4)

/-- `(s16)(off + 4)`, as the `int` it is promoted to. -/
def nextWord (off : BitVec 32) : BitVec 32 := ((off + 4).setWidth 16).signExtend 32

/-- `emit_ldx_reg`. The narrow loads leave the high word alone. -/
def emitLdxReg (dst : Row) (src : ℤ) (off : BitVec 32) (sz : Size) : Code :=
  let rd := if isStacked dst.lo then tmpReg1 else dst
  let far := !isLdstImm off sz
  let rm := if far || rd.lo = src then tmpReg1.hi else src
  let off' := if far then 0 else off
  (if far then emitMovImm tmpReg1.hi off ++ emitAddReg tmpReg1.hi src false false
    else if rd.lo = src then emitA32MovReg src tmpReg1.hi
    else []) ++
    (match sz with
    | .b => emitLdrbI rd.lo rm off'
    | .h => emitLdrhI rd.lo rm off'
    | .w => emitLdrI rd.lo rm off'
    | .dw => emitLdrI rd.lo rm off' ++ emitLdrI rd.hi rm (nextWord off')) ++
    armBpfPutReg64 dst rd

/-- `emit_str_reg`. The word stores hand the value register to `_emit_str_i`
as the base and the base as the value register. -/
def emitStrReg (dst : ℤ) (src : Row) (off : BitVec 32) (sz : Size) : Code :=
  let (getDst, rd) := armBpfGetReg32 dst tmpReg1.lo
  let far := !isLdstImm off sz
  let rd' := if far then tmpReg1.hi else rd
  let off' := if far then 0 else off
  getDst ++
    (if far then emitMovImm tmpReg1.hi off ++ emitAddReg tmpReg1.hi rd false false else []) ++
    match sz with
    | .b => emit4 (thumb32StrbImmT3 src.lo rd' off')
    | .h => emit4 (thumb32StrhImmT3 src.lo rd' off')
    | .w => emitStrI src.lo rd' off'
    | .dw => emitStrI src.lo rd' off' ++ emitStrI src.hi rd' (nextWord off')

/-! ### Comparison and branches -/

/-- `_emit_cmp_cond` for the 64-bit class, the only one the translator has
conditional jumps of: `rd rt` is the destination, `rm rn` the source. -/
def emitCmpCond (rd rt rm rn : ℤ) : JmpOp → Code
  | .jset =>
      emit4 (thumb32AddwRegT3 armIp rt rn 0 srtypeLsl flagNos) ++
      emit4 (thumb32AddwRegT3 armLr rd rm 0 srtypeLsl flagNos) ++
      emit4 (thumb32OrrwRegT2 armIp armLr armIp 0 srtypeLsl flagS)
  | .jeq | .jne | .jgt | .jge | .jle | .jlt => emitCmpReg rd rm ++ emitCmpReg rt rn
  | .jsle | .jsgt =>
      emitCmpReg rn rt ++ emit4 (thumb32SbcwT2 armIp rm rd 0 srtypeLsl flagS)
  | .jslt | .jsge =>
      emitCmpReg rt rn ++ emit4 (thumb32SbcwT2 armIp rd rm 0 srtypeLsl flagS)

def useB4 (instNum : ℕ) : Bool := instNum > 20

def emitBCond (instNum : ℕ) (off cond : BitVec 32) : Code :=
  if !useB4 instNum && (off.toInt ≥ -256 && off.toInt ≤ 254) then emit2 (thumb16BT1 off cond)
  else if off.toInt > -1048576 && off.toInt < 1048574 then emit4 (thumb32BwT3 off cond)
  else []

def emitB (off : BitVec 32) : Code :=
  if off.toInt > -2048 && off.toInt < 2046 then emit2 (thumb16BT2 off)
  else if off.toInt > -16777216 && off.toInt < 16777214 then emit4 (thumb32BwT4 off)
  else []

/-- The condition `_emit_jump` branches on, over its case labels in the
source's order. The operation is passed as an `s8`, while the labels are
`int`s: from `0xa0` on it arrives as a negative number. -/
def jumpCond (op : JmpOp) : Option (BitVec 32) :=
  let s8 := op.bits.toInt
  if s8 = 0x50 ∨ s8 = 0x40 then some condNe
  else if s8 = 0x10 then some condEq
  else if s8 = 0x20 then some condHi
  else if s8 = 0x30 then some condCs
  else if s8 = 0x60 then some condLt
  else if s8 = 0x70 then some condGe
  else if s8 = 0xb0 then some condLs
  else if s8 = 0xa0 then some condCc
  else if s8 = 0xc0 then some condLt
  else if s8 = 0xd0 then some condGe
  else none

def emitJump (instNum : ℕ) (off : BitVec 32) (op : JmpOp) : Code :=
  match jumpCond op with
  | some cond => emitBCond instNum off cond
  | none => []

end RapidPatch.Jit

import Mathlib.Data.Int.Notation
import Mathlib.Data.Nat.Notation

/-!
The instruction encoders of `jit_thumb2.h`.

A register number is an `s8` in the source and an integer here, negative
where it is a frame offset that nothing loaded into a register; shifted into
place it is promoted to `int`, which `regField` spells out. Displacements and
immediates are the 32-bit words they are in the source. The encoders take
no notice of operands that do not fit their field: a register that is
negative, an immediate that is too wide, spill into the neighbouring bits,
and so they do here.
-/

namespace RapidPatch.Jit

/-! ### Registers -/

def armR0 : ℤ := 0
def armFp : ℤ := 11
def armIp : ℤ := 12
def armSp : ℤ := 13
def armLr : ℤ := 14

/-- `reg << k`, on an `s8` promoted to `int`. -/
def regField (reg : ℤ) (k : ℕ) : BitVec 32 := BitVec.ofInt 32 reg <<< k

/-- `flag << k` of a C truth value. -/
def bit (b : Bool) (k : ℕ) : BitVec 32 := (BitVec.ofBool b).setWidth 32 <<< k

/-! ### Conditions, shift types and flags -/

def condEq : BitVec 32 := 0b0000
def condNe : BitVec 32 := 0b0001
def condCs : BitVec 32 := 0b0010
def condCc : BitVec 32 := 0b0011
def condPl : BitVec 32 := 0b0101
def condHi : BitVec 32 := 0b1000
def condLs : BitVec 32 := 0b1001
def condGe : BitVec 32 := 0b1010
def condLt : BitVec 32 := 0b1011

def itMaskNone : BitVec 32 := 0b1000

def srtypeLsl : BitVec 32 := 0
def srtypeRor : BitVec 32 := 3
def srtypeAsl : BitVec 32 := srtypeLsl

def flagNos : BitVec 32 := 0
def flagS : BitVec 32 := 1

/-- `CALLEE_PUSH_MASK`: r4 to r9, the frame pointer and the link register. -/
def calleePushMask : BitVec 32 := 0x4bf0

/-- `CALLEE_POP_MASK`: the same with the program counter in place of the link
register. -/
def calleePopMask : BitVec 32 := 0x8bf0

/-! ### Data processing

The shifted-register encodings share their layout; each keeps its own base
word. -/

def shiftedReg (base : BitVec 32) (rd rn rm : ℤ) (shiftImm5 srtype flagS : BitVec 32) :
    BitVec 32 :=
  let imm3 := (shiftImm5 >>> 2) &&& 0b111
  let imm2 := shiftImm5 &&& 0b11
  base ||| flagS <<< 20 ||| regField rn 16 ||| imm3 <<< 12 ||| regField rd 8 ||| imm2 <<< 6 |||
    srtype <<< 4 ||| regField rm 0

def threeReg (base : BitVec 32) (rd rn rm : ℤ) (flagS : BitVec 32) : BitVec 32 :=
  base ||| flagS <<< 20 ||| regField rn 16 ||| regField rd 8 ||| regField rm 0

/-- The check two of the encoders make first: an immediate outside `0..31`
is encoded as `-1`. -/
def imm5Or (shiftImm5 inst : BitVec 32) : BitVec 32 :=
  if shiftImm5.toInt < 0 ∨ shiftImm5.toInt > 0b11111 then -1 else inst

def thumb32SbcwT2 : ℤ → ℤ → ℤ → BitVec 32 → BitVec 32 → BitVec 32 → BitVec 32 :=
  shiftedReg 0xeb600000

def thumb32AddwRegT3 : ℤ → ℤ → ℤ → BitVec 32 → BitVec 32 → BitVec 32 → BitVec 32 :=
  shiftedReg 0xeb000000

def thumb32AndRegT2 : ℤ → ℤ → ℤ → BitVec 32 → BitVec 32 → BitVec 32 → BitVec 32 :=
  shiftedReg 0xea000000

def thumb32SubRegT2 : ℤ → ℤ → ℤ → BitVec 32 → BitVec 32 → BitVec 32 → BitVec 32 :=
  shiftedReg 0xeba00000

def thumb32EorRegT2 : ℤ → ℤ → ℤ → BitVec 32 → BitVec 32 → BitVec 32 → BitVec 32 :=
  shiftedReg 0xea800000

def thumb32OrrwRegT2 (rd rn rm : ℤ) (shiftImm5 srtype flagS : BitVec 32) : BitVec 32 :=
  imm5Or shiftImm5 (shiftedReg 0xea400000 rd rn rm shiftImm5 srtype flagS)

/-- `_thumb32_LSRW_IMM_T2`: a move of a register shifted by an immediate. -/
def thumb32LsrwImmT2 (rd rm : ℤ) (shiftImm5 flagS : BitVec 32) : BitVec 32 :=
  let imm3 := (shiftImm5 >>> 2) &&& 0b111
  let imm2 := shiftImm5 &&& 0b11
  imm5Or shiftImm5
    (0xea4f0010 ||| flagS <<< 20 ||| imm3 <<< 12 ||| regField rd 8 ||| imm2 <<< 6 ||| regField rm 0)

/-- `_thumb32_ASRW_IMM_T2`, which does not check its immediate. -/
def thumb32AsrwImmT2 (rd rm : ℤ) (imm5 flagS : BitVec 32) : BitVec 32 :=
  let imm3 := (imm5 >>> 2) &&& 0b111
  let imm2 := imm5 &&& 0b11
  0xea4f0020 ||| flagS <<< 20 ||| imm3 <<< 12 ||| regField rd 8 ||| imm2 <<< 6 ||| regField rm 0

def thumb32AsrwRegT2 : ℤ → ℤ → ℤ → BitVec 32 → BitVec 32 := threeReg 0xfa40f000

def thumb32LslwRegT2 : ℤ → ℤ → ℤ → BitVec 32 → BitVec 32 := threeReg 0xfa00f000

def thumb32LsrwRegT2 : ℤ → ℤ → ℤ → BitVec 32 → BitVec 32 := threeReg 0xfa20f000

/-- `_thumb32_MUL_T2` and `_thumb32_MUL_REG_T2`, which are the same. -/
def thumb32MulT2 (rd rn rm : ℤ) : BitVec 32 := threeReg 0xfb00f000 rd rn rm flagNos

def thumb32UmullT2 (rdLo rdHi rn rm : ℤ) : BitVec 32 :=
  0xfba00000 ||| regField rn 16 ||| regField rdLo 12 ||| regField rdHi 8 ||| regField rm 0

def thumb32MovwRegT3 (rd rm : ℤ) (flagS : BitVec 32) : BitVec 32 :=
  0xea4f0000 ||| flagS <<< 20 ||| regField rd 8 ||| regField rm 0

def thumb32RsbwImmT2 (rd rn : ℤ) (shiftImm12 flagS : BitVec 32) : BitVec 32 :=
  let imm8 := shiftImm12 &&& 0xff
  let imm3 := (shiftImm12 >>> 8) &&& 0b111
  let i := (shiftImm12 >>> 11) &&& 0x1
  0xf1c00000 ||| i <<< 26 ||| flagS <<< 20 ||| regField rn 16 ||| imm3 <<< 12 |||
    regField rd 8 ||| imm8

/-- `_thumb32_SUBW_IMM_T4`, whose flag argument is not used and whose
three-bit field is masked to two bits. -/
def thumb32SubwImmT4 (rd rn : ℤ) (imm12 : BitVec 32) : BitVec 32 :=
  let i := (imm12 >>> 11) &&& 0x1
  let imm3 := (imm12 >>> 8) &&& 0b11
  let imm8 := imm12 &&& 0xff
  0xf2a00000 ||| i <<< 26 ||| regField rn 16 ||| imm3 <<< 12 ||| regField rd 8 ||| imm8

def thumb32AddImmT4 (rd rn : ℤ) (imm12 : BitVec 32) : BitVec 32 :=
  let i := (imm12 >>> 11) &&& 0x1
  let imm3 := (imm12 >>> 8) &&& 0b111
  let imm8 := imm12 &&& 0xff
  0xf2000000 ||| i <<< 26 ||| regField rn 16 ||| imm3 <<< 12 ||| regField rd 8 ||| imm8

/-! ### 16-bit data processing -/

def twoLow (base : BitVec 32) (rdn rm : ℤ) : BitVec 16 :=
  (base ||| regField rm 3 ||| regField rdn 0).setWidth 16

def twoHigh (base : BitVec 32) (rd rm : ℤ) : BitVec 16 :=
  let d := (regField rd 0 >>> 3) &&& 0x1
  let rd3 := regField rd 0 &&& 0b111
  (base ||| d <<< 7 ||| regField rm 3 ||| rd3).setWidth 16

def thumb16CmpRegT1 : ℤ → ℤ → BitVec 16 := twoLow 0x4280

def thumb16AndRegT1 : ℤ → ℤ → BitVec 16 := twoLow 0x4000

def thumb16CmpRegT2 : ℤ → ℤ → BitVec 16 := twoHigh 0x4500

def thumb16AddRegT2 : ℤ → ℤ → BitVec 16 := twoHigh 0x4400

def thumb16MovRegT1 : ℤ → ℤ → BitVec 16 := twoHigh 0x4600

/-- `_thumb16_ORR_REG_T1`, which puts its first register at bit 4. -/
def thumb16OrrRegT1 (rdn rm : ℤ) : BitVec 16 :=
  (0x4300 ||| (regField rdn 0 &&& 0b111) <<< 4 ||| (regField rm 0 &&& 0b111)).setWidth 16

def thumb16SubRegT1 (rd rn rm : ℤ) : BitVec 16 :=
  (0x1a00 ||| regField rm 6 ||| regField rn 3 ||| regField rd 0).setWidth 16

def thumb16SubImmT1 (rd3 rn3 : ℤ) (imm3 : BitVec 32) : BitVec 16 :=
  (0x1e00 ||| (imm3 &&& 0b111) <<< 6 ||| regField rn3 3 ||| regField rd3 0).setWidth 16

def thumb16SubImmT2 (rdn3 : ℤ) (imm8 : BitVec 32) : BitVec 16 :=
  (0x3800 ||| regField rdn3 8 ||| (imm8 &&& 0xff)).setWidth 16

def thumb16AddImmT2 (rdn : ℤ) (imm8 : BitVec 32) : BitVec 16 :=
  (0x3000 ||| regField rdn 8 ||| (imm8 &&& 0xff)).setWidth 16

def thumb16ItT1 (cond mask : BitVec 32) : BitVec 16 :=
  (0xbf00 ||| cond <<< 4 ||| mask).setWidth 16

/-! ### Branches -/

def thumb16BT1 (offImm9 cond : BitVec 32) : BitVec 16 :=
  (0xd000 ||| cond <<< 8 ||| ((offImm9 >>> 1) &&& 0x00ff)).setWidth 16

def thumb16BT2 (offImm12 : BitVec 32) : BitVec 16 :=
  (0xe000 ||| ((offImm12 >>> 1) &&& 0x7ff)).setWidth 16

def thumb16BlxRegT1 (rm : ℤ) : BitVec 16 := (0x4780 ||| regField rm 3).setWidth 16

def thumb32BwT3 (offImm20 cond : BitVec 32) : BitVec 32 :=
  let imm11 := (offImm20 >>> 1) &&& 0x7ff
  let imm6 := (offImm20 >>> 12) &&& 0x3f
  let j1 := (offImm20 >>> 18) &&& 0x1
  let j2 := (offImm20 >>> 19) &&& 0x1
  0xf0008000 ||| bit (offImm20.toInt < 0) 26 ||| cond <<< 22 ||| imm6 <<< 16 ||| j1 <<< 13 |||
    j2 <<< 11 ||| imm11

/-- `_thumb32_BW_T4`, which starts from the base word of the conditional
encoding. -/
def thumb32BwT4 (offImm23 : BitVec 32) : BitVec 32 :=
  let s := bit (offImm23.toInt < 0) 0
  let imm11 := (offImm23 >>> 1) &&& 0x7ff
  let imm10 := (offImm23 >>> 12) &&& 0x3ff
  let i1 := (offImm23 >>> 18) &&& 0x1
  let i2 := (offImm23 >>> 19) &&& 0x1
  let j1 := (~~~i1 ^^^ s) &&& 0x1
  let j2 := (~~~i2 ^^^ s) &&& 0x1
  0xf0008000 ||| s <<< 26 ||| imm10 <<< 16 ||| j1 <<< 13 ||| j2 <<< 11 ||| imm11

/-! ### Loads, stores and the stack -/

/-- `off > 0 ? off : -off`. -/
def magnitude (off : BitVec 32) : BitVec 32 := if off.toInt > 0 then off else -off

def thumb16LdrbImmT1 (rt rn : ℤ) (offImm5 : BitVec 32) : BitVec 16 :=
  (0x7800 ||| offImm5 <<< 6 ||| regField rn 3 ||| regField rt 0).setWidth 16

def thumb32LdrbImmT3 (rt rn : ℤ) (offImm8 : BitVec 32) : BitVec 32 :=
  let flag := 0b1000 ||| bit true 2 ||| bit (offImm8.toInt ≥ 0) 1
  0xf8100000 ||| regField rn 16 ||| regField rt 12 ||| flag <<< 8 ||| magnitude offImm8

def thumb32LdrImmT4 (rt rn : ℤ) (offImm8 : BitVec 32) : BitVec 32 :=
  let flag := bit (offImm8 ≠ 0) 2 ||| bit (offImm8.toInt ≥ 0) 1
  0xf8500800 ||| regField rn 16 ||| regField rt 12 ||| flag <<< 8 ||| magnitude offImm8

/-- The two byte and halfword stores: the flags are or-ed into `0b111`. -/
def storeImmT3 (base : BitVec 32) (rn rt : ℤ) (offImm8 : BitVec 32) : BitVec 32 :=
  let flag := 0b111 ||| bit (offImm8 ≠ 0) 2 ||| bit (offImm8.toInt > 0) 1
  base ||| regField rn 16 ||| regField rt 12 ||| flag <<< 8 ||| magnitude offImm8

def thumb32StrbImmT3 : ℤ → ℤ → BitVec 32 → BitVec 32 := storeImmT3 0xf8000800

def thumb32StrhImmT3 : ℤ → ℤ → BitVec 32 → BitVec 32 := storeImmT3 0xf8200800

/-- `_thumb32_LDRD_IMM_T1`; the pair is high word first. -/
def thumb32LdrdImmT1 (rt : ℤ × ℤ) (rn : ℤ) (offImm8 : BitVec 32) : BitVec 32 :=
  let imm8 := (magnitude offImm8 >>> 2) &&& 0xff
  let flag := 0b0010 ||| bit (offImm8 ≠ 0) 3 ||| bit (offImm8.toInt > 0) 2
  0xe8500000 ||| flag <<< 21 ||| regField rn 16 ||| regField rt.2 12 ||| regField rt.1 8 ||| imm8

def thumb32StrdImmT1 (rnSrc : ℤ × ℤ) (rtDst : ℤ) (offImm8 : BitVec 32) : BitVec 32 :=
  let imm8 := (magnitude offImm8 >>> 2) &&& 0xff
  0xe8400000 ||| bit (offImm8 ≠ 0) 24 ||| bit (offImm8.toInt > 0) 23 ||| regField rtDst 16 |||
    regField rnSrc.2 12 ||| regField rnSrc.1 8 ||| imm8

def thumb16PushT1 (regMask : BitVec 32) : BitVec 16 :=
  (0xb400 ||| ((regMask >>> 14) &&& 0x1) <<< 8 ||| (regMask &&& 0xff)).setWidth 16

def thumb32PushwT2 (regMask : BitVec 32) : BitVec 32 :=
  0xe92d0000 ||| ((regMask >>> 14) &&& 0x1) <<< 14 ||| (regMask &&& 0x1fff)

def thumb32PopwT2 (regMask : BitVec 32) : BitVec 32 :=
  0xe8bd0000 ||| ((regMask >>> 15) &&& 0x1) <<< 15 ||| ((regMask >>> 14) &&& 0x1) <<< 14 |||
    (regMask &&& 0x1fff)

end RapidPatch.Jit

import RapidPatch.Jit.Layout

/-!
How much code an instruction takes.

`instSize` says for each instruction how many halfwords the translator emits in
front of its branch, from the opcode, the places of the two registers and the
immediate alone: nothing here looks at the code. There is one size for each
emitter, in the order of the emitters, and `fixedCode_length` is the agreement
of the two.

What moves the sizes are the rows of `bpf2a32`. A word in a frame slot takes a
load in front of the operation and a store behind it; core registers take a
move where the two differ, and the short encodings need low registers and small
immediates.
-/

namespace RapidPatch.Jit

open RapidPatch.Vm

/-! ### Moves -/

def movRegSize (src dst : ℤ) : ℕ := if dst ≠ armSp ∧ src ≠ armSp then 1 else 2

def movImmSize (reg : ℤ) (val : BitVec 32) : ℕ :=
  if val ≤ 0xff ∧ reg % 256 < 8 then 1 else if val > 0xffff then 4 else 2

/-- To get a word or a pair that is in a frame slot. -/
def getSize (reg : ℤ) : ℕ := if isStacked reg then 2 else 0

def got (reg tmp : ℤ) : ℤ := if isStacked reg then tmp else reg

def gotRow (reg tmp : Row) : Row := if isStacked reg.lo then tmp else reg

def put32Size (reg src : ℤ) : ℕ :=
  if isStacked reg then 2 else if reg ≠ src then movRegSize src reg else 0

def a32MovSize (src dst : ℤ) : ℕ := getSize src + put32Size dst (got src tmpReg1.hi)

def put64Size (reg src : Row) : ℕ :=
  if isStacked reg.lo then 2
  else
    (if reg.lo ≠ src.lo then a32MovSize src.lo reg.lo else 0) +
      if reg.hi ≠ src.hi then a32MovSize src.hi reg.hi else 0

def movReg64Size (is64 : Bool) (dst src : Row) : ℕ :=
  if !is64 then a32MovSize src.lo dst.lo
  else if isStacked src.lo && isStacked dst.lo then 4
  else if isStacked src.lo then 2
  else if isStacked dst.lo then 2
  else movRegSize src.lo dst.lo + movRegSize src.hi dst.hi

def movI64Size (dst : Row) (val : BitVec 64) : ℕ :=
  let rd := if isStacked dst.lo then tmpReg1 else dst
  movImmSize rd.lo (val.setWidth 32) + movImmSize rd.hi ((val >>> 32).setWidth 32) +
    put64Size dst rd

def movSeImmSize (is64 : Bool) (dst : Row) (val : BitVec 32) : ℕ :=
  if is64 then
    let val64 : BitVec 64 := val.setWidth 64
    movI64Size dst (if val &&& 0x80000000 ≠ 0 then val64 ||| 0xffffffff00000000 else val64)
  else movImmSize dst.lo val

def pushSize (src : Row) : ℕ :=
  let rt := gotRow src tmpReg2
  getSize src.lo +
    if (rt.hi = armLr ∨ rt.hi < 8) ∧ (rt.lo = armLr ∨ rt.lo < 8) then 1 else 2

@[simp] theorem emitLdrI_length (rt rn : ℤ) (off : BitVec 32) :
    (emitLdrI rt rn off).length = 2 := by
  unfold emitLdrI
  split <;> rfl

@[simp] theorem emitLdrdI_length (rt : Row) (rn : ℤ) (off : BitVec 32) :
    (emitLdrdI rt rn off).length = 2 := rfl

@[simp] theorem emitStrI_length (rn rt : ℤ) (off : BitVec 32) :
    (emitStrI rn rt off).length = 2 := rfl

@[simp] theorem emitStrdI_length (rn : Row) (rt : ℤ) (off : BitVec 32) :
    (emitStrdI rn rt off).length = 2 := rfl

theorem emitMovReg_length (src dst : ℤ) : (emitMovReg src dst).length = movRegSize src dst := by
  unfold emitMovReg movRegSize
  split <;> rfl

theorem emitMovImm_length (reg : ℤ) (val : BitVec 32) :
    (emitMovImm reg val).length = movImmSize reg val := by
  simp only [emitMovImm, movImmSize]
  split
  · rfl
  · rw [List.length_append]
    split <;> rfl

theorem armBpfGetReg32_eq (reg tmp : ℤ) :
    (armBpfGetReg32 reg tmp).1.length = getSize reg ∧
      (armBpfGetReg32 reg tmp).2 = got reg tmp := by
  unfold armBpfGetReg32 getSize got
  split
  · exact ⟨emitLdrI_length .., rfl⟩
  · exact ⟨rfl, rfl⟩

theorem armBpfGetReg64_eq (reg tmp : Row) :
    (armBpfGetReg64 reg tmp).1.length = getSize reg.lo ∧
      (armBpfGetReg64 reg tmp).2 = gotRow reg tmp := by
  unfold armBpfGetReg64 getSize gotRow
  split <;> exact ⟨rfl, rfl⟩

theorem armBpfPutReg32_length (reg src : ℤ) :
    (armBpfPutReg32 reg src).length = put32Size reg src := by
  unfold armBpfPutReg32 put32Size
  split
  · rfl
  · split
    · exact emitMovReg_length src reg
    · rfl

theorem emitA32MovReg_length (src dst : ℤ) :
    (emitA32MovReg src dst).length = a32MovSize src dst := by
  obtain ⟨hlen, hreg⟩ := armBpfGetReg32_eq src tmpReg1.hi
  simp only [emitA32MovReg, List.length_append, hlen, hreg, armBpfPutReg32_length, a32MovSize]

theorem armBpfPutReg64_length (reg src : Row) :
    (armBpfPutReg64 reg src).length = put64Size reg src := by
  unfold armBpfPutReg64 put64Size
  split
  · rfl
  · rw [List.length_append, apply_ite List.length, apply_ite List.length, emitA32MovReg_length,
      emitA32MovReg_length, List.length_nil]

theorem emitMovReg64_length (is64 : Bool) (dst src : Row) :
    (emitMovReg64 is64 dst src).length = movReg64Size is64 dst src := by
  unfold emitMovReg64 movReg64Size
  split
  · exact emitA32MovReg_length ..
  · split
    · rfl
    · split
      · rfl
      · split
        · rfl
        · rw [List.length_append, emitMovReg_length, emitMovReg_length]

theorem emitMovI64_length (dst : Row) (val : BitVec 64) :
    (emitMovI64 dst val).length = movI64Size dst val := by
  simp only [emitMovI64, movI64Size, List.length_append, emitMovImm_length, armBpfPutReg64_length]

theorem emitMovSeImm64_length (is64 : Bool) (dst : Row) (val : BitVec 32) :
    (emitMovSeImm64 is64 dst val).length = movSeImmSize is64 dst val := by
  unfold emitMovSeImm64 movSeImmSize
  split
  · exact emitMovI64_length ..
  · exact emitMovImm_length ..

theorem emitPushR64_length (src : Row) : (emitPushR64 src).length = pushSize src := by
  obtain ⟨hlen, hreg⟩ := armBpfGetReg64_eq src tmpReg2
  simp only [emitPushR64, pushSize, List.length_append, hlen, hreg]
  split <;> rfl

/-! ### Arithmetic -/

/-- `SUB` on two core registers. The 64-bit form has no short encoding. -/
def subRegSize (dst src : ℤ) (is64 : Bool) : ℕ :=
  if is64 then 2 else if isLow src && isLow dst then 1 else 2

/-- The operations whose short encoding takes r1 to r7 only. -/
def lowSize (rd rn : ℤ) : ℕ := if rn > 0 ∧ rn < 8 ∧ rd > 0 ∧ rd < 8 then 1 else 2

def aluOpSize (rd rn : ℤ) (is64 : Bool) : AluOp → ℕ
  | .add => if is64 then 2 else 1
  | .sub => subRegSize rd rn is64
  | .or | .and => if isLow rd && isLow rn then 1 else 2
  | .xor | .mul | .lsh | .rsh | .arsh => lowSize rd rn
  | .div | .mod | .mov => 0

def alu32RegSize (dst src : ℤ) (is64 : Bool) (op : AluOp) : ℕ :=
  getSize src + getSize dst + aluOpSize (got dst tmpReg1.hi) (got src tmpReg1.lo) is64 op +
    put32Size dst (got dst tmpReg1.hi)

def alu64RegSize (is64 : Bool) (dst src : Row) (op : AluOp) : ℕ :=
  let rd := gotRow dst tmpReg1
  getSize dst.lo +
    (if is64 then
      getSize src.lo + alu32RegSize rd.lo (gotRow src tmpReg2).lo true op +
        alu32RegSize rd.hi (gotRow src tmpReg2).hi true op
    else getSize src.lo + alu32RegSize rd.lo (got src.lo tmpReg2.lo) true op) +
    put64Size dst rd

/-- One halfword on a single word: the immediate shifts and `NEG`. -/
def alu32ImmSize (dst : ℤ) : ℕ := getSize dst + 1 + put32Size dst (got dst tmpReg1.hi)

def divModSize (dst src : Row) (isDiv : Bool) (source : Src) (imm : BitVec 16) : ℕ :=
  getSize dst.lo +
    (match source with
    | .reg => getSize src.lo
    | .imm => movImmSize tmpReg2.hi (imm.setWidth 32)) +
    (if isDiv then 2 else 4) + put32Size dst.lo (got dst.lo tmpReg2.lo)

theorem emitSubReg_length (dst src : ℤ) (is64 hi : Bool) :
    (emitSubReg dst src is64 hi).length = subRegSize dst src is64 := by
  unfold emitSubReg subRegSize
  cases is64 with
  | true => cases hi <;> rfl
  | false =>
      simp only [Bool.false_and, Bool.false_eq_true, if_false]
      split <;> rfl

theorem emitLowOr_length (base wide : BitVec 32) (rd rn : ℤ) :
    (emitLowOr base wide rd rn).length = lowSize rd rn := by
  unfold emitLowOr lowSize
  split <;> rfl

theorem emitAluOp_length (rd rn : ℤ) (is64 hi : Bool) (op : AluOp) :
    (emitAluOp rd rn is64 hi op).length = aluOpSize rd rn is64 op := by
  cases op with
  | add =>
      simp only [emitAluOp, emitAddReg, aluOpSize]
      cases is64 with
      | true => cases hi <;> rfl
      | false => rfl
  | sub => exact emitSubReg_length ..
  | or =>
      simp only [emitAluOp, emitOrrReg, aluOpSize]
      split <;> rfl
  | and =>
      simp only [emitAluOp, emitAndReg, aluOpSize]
      split <;> rfl
  | xor | mul | lsh | rsh | arsh => exact emitLowOr_length ..
  | div | mod | mov => rfl

theorem emitAlu32Reg_length (dst src : ℤ) (is64 hi : Bool) (op : AluOp) :
    (emitAlu32Reg dst src is64 hi op).length = alu32RegSize dst src is64 op := by
  obtain ⟨hsrc, hrn⟩ := armBpfGetReg32_eq src tmpReg1.lo
  obtain ⟨hdst, hrd⟩ := armBpfGetReg32_eq dst tmpReg1.hi
  simp only [emitAlu32Reg, alu32RegSize, List.length_append, hsrc, hrn, hdst, hrd,
    emitAluOp_length, armBpfPutReg32_length]

theorem emitAlu64Reg_length (is64 : Bool) (dst src : Row) (op : AluOp) :
    (emitAlu64Reg is64 dst src op).length = alu64RegSize is64 dst src op := by
  obtain ⟨hdst, hrd⟩ := armBpfGetReg64_eq dst tmpReg1
  obtain ⟨hsrc, hrs⟩ := armBpfGetReg64_eq src tmpReg2
  obtain ⟨hlo, hrlo⟩ := armBpfGetReg32_eq src.lo tmpReg2.lo
  simp only [emitAlu64Reg, alu64RegSize, List.length_append, apply_ite List.length, hdst, hrd,
    hsrc, hrs, hlo, hrlo, emitAlu32Reg_length, armBpfPutReg64_length]

theorem emitAlu32Imm_length (base : BitVec 32) (dst : ℤ) (val : BitVec 16) :
    (emitAlu32Imm base dst val).length = alu32ImmSize dst := by
  obtain ⟨hdst, hrd⟩ := armBpfGetReg32_eq dst tmpReg1.hi
  simp only [emitAlu32Imm, alu32ImmSize, List.length_append, hdst, hrd, emit2_length,
    armBpfPutReg32_length]

theorem emitNeg32_length (dst : ℤ) : (emitNeg32 dst).length = alu32ImmSize dst := by
  obtain ⟨hdst, hrd⟩ := armBpfGetReg32_eq dst tmpReg1.hi
  simp only [emitNeg32, alu32ImmSize, List.length_append, hdst, hrd, emit2_length,
    armBpfPutReg32_length]

theorem emitU32DivMod_length (dst src : Row) (isDiv : Bool) (source : Src) (imm : BitVec 16) :
    (emitU32DivMod dst src isDiv source imm).length = divModSize dst src isDiv source imm := by
  obtain ⟨hdst, hrd⟩ := armBpfGetReg32_eq dst.lo tmpReg2.lo
  obtain ⟨hsrc, -⟩ := armBpfGetReg32_eq src.lo tmpReg2.hi
  cases source with
  | reg =>
      simp only [emitU32DivMod, divModSize, List.length_append, apply_ite List.length, hdst, hrd,
        hsrc, emit4_length, armBpfPutReg32_length]
  | imm =>
      simp only [emitU32DivMod, divModSize, List.length_append, apply_ite List.length, hdst, hrd,
        emitMovImm_length, emit4_length, armBpfPutReg32_length]

/-! ### 64-bit shifts, negation and multiplication -/

/-- The shifts by a register, with `n` halfwords of arithmetic. -/
def shift64RegSize (dst src : Row) (n : ℕ) (lo hi : ℤ) : ℕ :=
  getSize src.lo + getSize dst.lo + n + put32Size dst.lo lo + put32Size dst.hi hi

def lsh64ImmSize (dst : Row) (amount : BitVec 16) : ℕ :=
  let rd := gotRow dst tmpReg1
  let val : BitVec 32 := amount.setWidth 32
  getSize dst.lo +
    (if val < 32 then 5 else (if val = 32 then movRegSize rd.lo rd.hi else 1) + 1) +
    put64Size dst rd

def rsh64ImmSize (dst : Row) (amount : BitVec 16) : ℕ :=
  let rd := gotRow dst tmpReg1
  let val : BitVec 32 := amount.setWidth 32
  getSize dst.lo +
    (if val = 0 then 0
    else if val < 32 then 6
    else if val = 32 then movRegSize rd.hi rd.lo + movImmSize rd.hi 0
    else 2 + movImmSize rd.hi 0) +
    put64Size dst rd

def arsh64ImmSize (dst : Row) (val : BitVec 32) : ℕ :=
  let rd := gotRow dst tmpReg1
  getSize dst.lo +
    (if val = 0 then 0
    else if val < 32 then 6
    else if val = 32 then movRegSize rd.hi rd.lo + 2
    else 4) +
    put64Size dst rd

def neg64Size (dst : Row) : ℕ := getSize dst.lo + 4 + put64Size dst (gotRow dst tmpReg1)

def mul64Size (dst src : Row) : ℕ :=
  getSize dst.lo + getSize src.lo + 8 + put32Size dst.lo armIp +
    put32Size dst.hi (gotRow dst tmpReg1).hi

theorem emitLsh64Reg_length (dst src : Row) :
    (emitLsh64Reg dst src).length = shift64RegSize dst src 16 tmpReg2.hi armIp := by
  obtain ⟨hsrc, -⟩ := armBpfGetReg32_eq src.lo tmpReg2.lo
  obtain ⟨hdst, -⟩ := armBpfGetReg64_eq dst tmpReg1
  simp only [emitLsh64Reg, shift64RegSize, List.length_append, hsrc, hdst, emit4_length,
    armBpfPutReg32_length]

theorem emitA32RshR64_length (dst src : Row) :
    (emitA32RshR64 dst src).length = shift64RegSize dst src 16 armLr armIp := by
  obtain ⟨hsrc, -⟩ := armBpfGetReg32_eq src.lo tmpReg2.lo
  obtain ⟨hdst, -⟩ := armBpfGetReg64_eq dst tmpReg1
  simp only [emitA32RshR64, shift64RegSize, List.length_append, hsrc, hdst, emit4_length,
    armBpfPutReg32_length]

theorem emitA32ArshR64_length (dst src : Row) :
    (emitA32ArshR64 dst src).length = shift64RegSize dst src 17 armLr armIp := by
  obtain ⟨hsrc, -⟩ := armBpfGetReg32_eq src.lo tmpReg2.lo
  obtain ⟨hdst, -⟩ := armBpfGetReg64_eq dst tmpReg1
  simp only [emitA32ArshR64, shift64RegSize, List.length_append, hsrc, hdst, emit2_length,
    emit4_length, armBpfPutReg32_length]

theorem emitLsh64Imm_length (dst : Row) (amount : BitVec 16) :
    (emitLsh64Imm dst amount).length = lsh64ImmSize dst amount := by
  obtain ⟨hdst, hrd⟩ := armBpfGetReg64_eq dst tmpReg1
  simp only [emitLsh64Imm, lsh64ImmSize, List.length_append, apply_ite List.length, hdst, hrd,
    emit2_length, emit4_length, emitMovReg_length, armBpfPutReg64_length]

theorem emitA32RshI64_length (dst : Row) (amount : BitVec 16) :
    (emitA32RshI64 dst amount).length = rsh64ImmSize dst amount := by
  obtain ⟨hdst, hrd⟩ := armBpfGetReg64_eq dst tmpReg1
  simp only [emitA32RshI64, rsh64ImmSize, List.length_append, apply_ite List.length, hdst, hrd,
    List.length_nil, emit4_length, emitMovReg_length, emitMovImm_length, armBpfPutReg64_length]

theorem emitA32ArshI64_length (dst : Row) (val : BitVec 32) :
    (emitA32ArshI64 dst val).length = arsh64ImmSize dst val := by
  obtain ⟨hdst, hrd⟩ := armBpfGetReg64_eq dst tmpReg1
  simp only [emitA32ArshI64, arsh64ImmSize, List.length_append, apply_ite List.length, hdst, hrd,
    List.length_nil, emit4_length, emitMovReg_length, armBpfPutReg64_length]

theorem emitA32Neg64_length (dst : Row) : (emitA32Neg64 dst).length = neg64Size dst := by
  obtain ⟨hdst, hrd⟩ := armBpfGetReg64_eq dst tmpReg1
  simp only [emitA32Neg64, neg64Size, List.length_append, hdst, hrd, emit4_length,
    armBpfPutReg64_length]

theorem emitA32MulR64_length (dst src : Row) :
    (emitA32MulR64 dst src).length = mul64Size dst src := by
  obtain ⟨hdst, hrd⟩ := armBpfGetReg64_eq dst tmpReg1
  obtain ⟨hsrc, -⟩ := armBpfGetReg64_eq src tmpReg2
  simp only [emitA32MulR64, mul64Size, List.length_append, hdst, hrd, hsrc, emit2_length,
    emit4_length, armBpfPutReg32_length]

/-! ### Memory and comparison -/

/-- A load or store whose offset is too large puts the address into a register
first. -/
def farSize (off : BitVec 32) : ℕ := movImmSize tmpReg1.hi off + 1

/-- The narrow loads, within the offsets they are given. -/
def narrowLoadSize (rt rn : ℤ) (off : BitVec 32) : Size → ℕ
  | .b => if within off 0b11111 && isLow rt && isLow rn then 1 else 2
  | .h => if within off 0b11111 then 1 else 2
  | .w => 2
  | .dw => 4

def ldxSize (dst : Row) (src : ℤ) (off : BitVec 32) (sz : Size) : ℕ :=
  let rd := if isStacked dst.lo then tmpReg1 else dst
  let far := !isLdstImm off sz
  let rm := if far || rd.lo = src then tmpReg1.hi else src
  (if far then farSize off else if rd.lo = src then a32MovSize src tmpReg1.hi else 0) +
    narrowLoadSize rd.lo rm (if far then 0 else off) sz + put64Size dst rd

def strSize (dst : ℤ) (off : BitVec 32) (sz : Size) : ℕ :=
  getSize dst + (if !isLdstImm off sz then farSize off else 0) +
    match sz with
    | .b | .h | .w => 2
    | .dw => 4

def cmpSize : JmpOp → ℕ
  | .jset => 6
  | .jeq | .jne | .jgt | .jge | .jle | .jlt => 2
  | .jsle | .jsgt | .jslt | .jsge => 3

def operandsSize (dst src : Row) (source : Src) (imm : BitVec 32) : ℕ :=
  (match source with
  | .reg => getSize src.hi + getSize src.lo
  | .imm => movSeImmSize true tmpReg2 imm) + getSize dst.lo

theorem emitAddReg_length (dst src : ℤ) : (emitAddReg dst src false false).length = 1 := rfl

theorem within_used (off : BitVec 32) (sz : Size) :
    isLdstImm (if !isLdstImm off sz then 0 else off) sz = true := by
  split
  · cases sz <;> decide
  · rename_i h
    simpa using h

theorem emitLdrbI_length {off : BitVec 32} (rt rn : ℤ) (h : within off 0xfff = true) :
    (emitLdrbI rt rn off).length = narrowLoadSize rt rn off .b := by
  unfold emitLdrbI narrowLoadSize
  split
  · rfl
  · split <;> rfl

theorem emitLdrhI_length {off : BitVec 32} (rt rn : ℤ) (h : within off 0xff = true) :
    (emitLdrhI rt rn off).length = narrowLoadSize rt rn off .h := by
  unfold emitLdrhI narrowLoadSize
  split
  · rfl
  · rfl

theorem emitLdxReg_length (dst : Row) (src : ℤ) (off : BitVec 32) (sz : Size) :
    (emitLdxReg dst src off sz).length = ldxSize dst src off sz := by
  have hused := within_used off sz
  cases sz with
  | b =>
      simp only [emitLdxReg, ldxSize, farSize, List.length_append, apply_ite List.length,
        emitMovImm_length, emitAddReg_length, emitA32MovReg_length, List.length_nil,
        armBpfPutReg64_length, emitLdrbI_length _ _ hused]
  | h =>
      simp only [emitLdxReg, ldxSize, farSize, List.length_append, apply_ite List.length,
        emitMovImm_length, emitAddReg_length, emitA32MovReg_length, List.length_nil,
        armBpfPutReg64_length, emitLdrhI_length _ _ hused]
  | w | dw =>
      simp only [emitLdxReg, ldxSize, farSize, List.length_append, apply_ite List.length,
        emitMovImm_length, emitAddReg_length, emitA32MovReg_length, List.length_nil,
        armBpfPutReg64_length, emitLdrI_length, narrowLoadSize]

theorem emitStrReg_length (dst : ℤ) (src : Row) (off : BitVec 32) (sz : Size) :
    (emitStrReg dst src off sz).length = strSize dst off sz := by
  obtain ⟨hdst, -⟩ := armBpfGetReg32_eq dst tmpReg1.lo
  cases sz <;>
    simp only [emitStrReg, strSize, farSize, List.length_append, apply_ite List.length, hdst,
      emitMovImm_length, emitAddReg_length, List.length_nil, emit4_length, emitStrI_length]

theorem emitCmpReg_length (rn rm : ℤ) : (emitCmpReg rn rm).length = 1 := by
  unfold emitCmpReg
  split <;> rfl

theorem emitCmpCond_length (rd rt rm rn : ℤ) (op : JmpOp) :
    (emitCmpCond rd rt rm rn op).length = cmpSize op := by
  cases op <;>
    simp only [emitCmpCond, cmpSize, List.length_append, emitCmpReg_length, emit4_length]

theorem jmpOperands_length (dst src : Row) (source : Src) (imm : BitVec 32) :
    (jmpOperands dst src source imm).1.length = operandsSize dst src source imm := by
  obtain ⟨hdst, -⟩ := armBpfGetReg64_eq dst tmpReg1
  cases source with
  | imm =>
      simp only [jmpOperands, operandsSize, List.length_append, hdst, emitMovSeImm64_length]
  | reg =>
      obtain ⟨hhi, -⟩ := armBpfGetReg32_eq src.hi tmpReg2.hi
      obtain ⟨hlo, -⟩ := armBpfGetReg32_eq src.lo tmpReg2.lo
      simp only [jmpOperands, operandsSize, List.length_append, hdst, hhi, hlo]

/-! ### Instructions -/

def callSize (p : Input) (imm : BitVec 32) : ℕ :=
  let row := bpf2a32 p.behind
  movReg64Size true (row 0) (row 1) + movReg64Size true (row 1) (row 2) + pushSize (row 5) +
    pushSize (row 4) + pushSize (row 3) + movImmSize tmpReg1.lo (p.callBase imm) + 3

/-- The immediate shifts of the 32-bit class, which a large amount stops. -/
def shift32ImmSize (dst : Row) (imm : BitVec 32) : ℕ :=
  if imm.toInt > 31 ∨ imm = 0 then 0 else alu32ImmSize dst.lo

def alu32Size (dst src : Row) (imm : BitVec 32) : AluOp → Src → ℕ
  | .mov, .reg => if imm = 1 then movImmSize dst.hi 0 else movReg64Size false dst src
  | .mov, .imm => movSeImmSize false dst imm
  | .div, source => divModSize dst src true source (imm.setWidth 16)
  | .mod, source => divModSize dst src false source (imm.setWidth 16)
  | .lsh, .imm | .rsh, .imm | .arsh, .imm => shift32ImmSize dst imm
  | op, .imm => movSeImmSize false tmpReg2 imm + alu64RegSize false dst tmpReg2 op
  | op, .reg => alu64RegSize false dst src op

def alu64Size (dst src : Row) (imm : BitVec 32) : AluOp → Src → ℕ
  | .mov, .reg => if imm = 1 then movImmSize dst.hi 0 else movReg64Size true dst src
  | .mov, .imm => movSeImmSize true dst imm
  | .div, source => divModSize dst src true source (imm.setWidth 16)
  | .mod, source => divModSize dst src false source (imm.setWidth 16)
  | .lsh, .reg => shift64RegSize dst src 16 tmpReg2.hi armIp
  | .lsh, .imm => lsh64ImmSize dst (imm.setWidth 16)
  | .rsh, .reg => shift64RegSize dst src 16 armLr armIp
  | .rsh, .imm => rsh64ImmSize dst (imm.setWidth 16)
  | .arsh, .reg => shift64RegSize dst src 17 armLr armIp
  | .arsh, .imm => arsh64ImmSize dst imm
  | .mul, .imm => movSeImmSize true tmpReg2 imm + mul64Size dst tmpReg2
  | .mul, .reg => mul64Size dst src
  | op, .imm => movSeImmSize true tmpReg2 imm + alu64RegSize true dst tmpReg2 op
  | op, .reg => alu64RegSize true dst src op

/-- The halfwords of an instruction in front of its branch. -/
def instSize (p : Input) (pc : ℕ) : ℕ :=
  let inst := p.insts pc
  let dst := bpf2a32 p.behind inst.dst
  let src := bpf2a32 p.behind inst.src
  let off : BitVec 32 := inst.offset.signExtend 32
  let imm := inst.imm
  match inst.op with
  | .alu op source => alu32Size dst src imm op source
  | .alu64 op source => alu64Size dst src imm op source
  | .neg => alu32ImmSize dst.lo
  | .neg64 => neg64Size dst
  | .lddw => movI64Size dst (imm.setWidth 64 ||| (p.insts (pc + 1)).imm.setWidth 64 <<< 32)
  | .ldx size => getSize src.lo + ldxSize dst (got src.lo tmpReg2.lo) off size
  | .st size =>
      (match size with
      | .dw => movSeImmSize true tmpReg2 imm
      | .w | .h | .b => movImmSize tmpReg2.lo imm) + strSize dst.lo off size
  | .stx size => getSize src.lo + strSize dst.lo off size
  | .jmp op source =>
      if source = .imm ∧ inst.offset = 0 then 0 else operandsSize dst src source imm + cmpSize op
  | .call => callSize p imm
  | .le | .be | .ja | .exit | .nop | .unknown => 0

theorem emitCall_length (p : Input) (imm : BitVec 32) :
    (emitCall p imm).length = callSize p imm := by
  have hadd : (emitAddImm armSp armSp 24).length = 2 := by decide
  simp only [emitCall, callSize, List.length_append, emitMovReg64_length, emitPushR64_length,
    emitMovImm_length, emit2_length, hadd]

theorem buildShiftImm_length (base : BitVec 32) (dst : Row) (imm : BitVec 32) :
    (buildShiftImm base dst imm).code.length = shift32ImmSize dst imm := by
  unfold buildShiftImm shift32ImmSize
  by_cases hbig : imm.toInt > 31
  · rw [if_pos hbig, if_pos (.inl hbig)]
    rfl
  · by_cases hzero : imm = 0
    · rw [if_neg hbig, if_pos hzero, if_pos (.inr hzero)]
      rfl
    · rw [if_neg hbig, if_neg hzero, if_neg (not_or.mpr ⟨hbig, hzero⟩)]
      exact emitAlu32Imm_length ..

theorem buildAlu32_length (dst src : Row) (imm : BitVec 32) (op : AluOp) (source : Src) :
    (buildAlu32 dst src imm op source).code.length = alu32Size dst src imm op source := by
  cases op <;> cases source <;>
    simp only [buildAlu32, alu32Size, built, buildShiftImm_length, apply_ite List.length,
      List.length_append, emitMovImm_length, emitMovReg64_length, emitMovSeImm64_length,
      emitU32DivMod_length, emitAlu64Reg_length]

theorem buildAlu64_length (dst src : Row) (imm : BitVec 32) (op : AluOp) (source : Src) :
    (buildAlu64 dst src imm op source).code.length = alu64Size dst src imm op source := by
  cases op <;> cases source <;>
    simp only [buildAlu64, alu64Size, built, apply_ite List.length, List.length_append,
      emitMovImm_length, emitMovReg64_length, emitMovSeImm64_length, emitU32DivMod_length,
      emitAlu64Reg_length, emitLsh64Reg_length, emitLsh64Imm_length, emitA32RshR64_length,
      emitA32RshI64_length, emitA32ArshR64_length, emitA32ArshI64_length, emitA32MulR64_length]

theorem fixedCode_length (p : Input) (pc : ℕ) : (fixedCode p pc).length = instSize p pc := by
  unfold fixedCode instSize
  cases hop : (p.insts pc).op with
  | alu op source => simp only [hop, buildInst, buildAlu32_length]
  | alu64 op source => simp only [hop, buildInst, buildAlu64_length]
  | neg => simp only [hop, buildInst, built, emitNeg32_length]
  | neg64 => simp only [hop, buildInst, built, emitA32Neg64_length]
  | lddw => simp only [hop, buildInst, emitMovI64_length]
  | ldx size =>
      obtain ⟨hsrc, hrn⟩ := armBpfGetReg32_eq (bpf2a32 p.behind (p.insts pc).src).lo tmpReg2.lo
      simp only [hop, buildInst, built, List.length_append, hsrc, hrn, emitLdxReg_length]
  | st size =>
      cases size <;>
        simp only [hop, buildInst, built, List.length_append, emitMovSeImm64_length,
          emitMovImm_length, emitStrReg_length]
  | stx size =>
      obtain ⟨hsrc, -⟩ := armBpfGetReg64_eq (bpf2a32 p.behind (p.insts pc).src) tmpReg2
      simp only [hop, buildInst, built, List.length_append, hsrc, emitStrReg_length]
  | jmp op source =>
      simp only [hop, apply_ite List.length, List.length_nil, List.length_append,
        jmpOperands_length, emitCmpCond_length]
  | call => simp only [hop, buildInst, built, emitCall_length]
  | le | be | nop | unknown => simp only [hop, buildInst, built, List.length_nil]
  | ja | exit => simp only [hop, List.length_nil]

end RapidPatch.Jit

import RapidPatch.Support.Machine
import RapidPatch.Support.Memory

/-!
A fragment of the Thumb-2 instruction set of ARMv7-M.

The fragment is closed under what compiled straight-line arithmetic, shifts,
divisions, loads and stores at an immediate offset, comparisons, branches
and one-instruction `IT` blocks need. `decode16` and `decode32` follow the
encoding tables of the architecture manual; an encoding outside the fragment,
or one the manual calls undefined or unpredictable, has no meaning here and
faults. Data instructions act on the `Core`, which has no program counter;
`step` fetches, decodes and moves the program counter.

A division by zero gives zero and an unaligned access of a word or halfword
is carried out: nothing sets the two trap bits of the configuration register.

Instructions are fetched from a memory of their own that no step changes.
The architecture makes no promise about executing code that was just
written, except after a barrier.
-/

namespace RapidPatch.Thumb

open RapidPatch.Support

abbrev Reg := BitVec 4
abbrev Word := BitVec 32

/-- Registers, flags and data memory. -/
structure Core where
  r : Reg → Word
  n : Bool
  z : Bool
  c : Bool
  v : Bool
  mem : Mem

/-- The processor: the address of the next instruction, and the rest. -/
structure Cpu where
  pc : Word
  core : Core

namespace Core

def set (s : Core) (rd : Reg) (x : Word) : Core :=
  { s with r := fun i => if i = rd then x else s.r i }

/-- The flags `N` and `Z` of a result. -/
def setNZ (s : Core) (x : Word) : Core := { s with n := x.msb, z := x = 0 }

end Core

/-! ### Arithmetic -/

/-- `AddWithCarry`: the sum, its carry and its signed overflow. -/
def addWithCarry (x y : Word) (c : Bool) : Word × Bool × Bool :=
  let sum := x + y + (if c then 1 else 0)
  (sum, 2 ^ 32 ≤ x.toNat + y.toNat + c.toNat, sum.toInt ≠ x.toInt + y.toInt + c.toNat)

inductive SRType
  | lsl | lsr | asr | ror | rrx
  deriving DecidableEq, Repr

/-- A word moved right by one place, with a carry moved in on top. -/
def rotateIn (x : Word) (c : Bool) : Word := (x >>> 1) ||| (if c then 0x80000000 else 0)

/-- `Shift_C`: the value and the carry out. -/
def shiftC (t : SRType) (x : Word) (amount : ℕ) (c : Bool) : Word × Bool :=
  if amount = 0 then (x, c)
  else
    match t with
    | .lsl => (x <<< amount, amount ≤ 32 && x.getLsbD (32 - amount))
    | .lsr => (x >>> amount, x.getLsbD (amount - 1))
    | .asr => (x.sshiftRight amount, x.getLsbD (min (amount - 1) 31))
    | .ror => (x.rotateRight amount, (x.rotateRight amount).msb)
    | .rrx => (rotateIn x c, x.getLsbD 0)

/-- The operations on a register and a shifted register or an immediate. -/
inductive DpOp
  | and | orr | eor | add | adc | sub | sbc | rsb
  deriving DecidableEq, Repr

/-- How a load or a store finds its address: whether the offset is applied
before the access, whether it is added, and whether the base register is
written back. -/
structure AddrMode where
  index : Bool
  add : Bool
  wback : Bool
  imm : ℕ
  deriving DecidableEq, Repr

/-- The instructions that leave the program counter to `step`. -/
inductive Data
  /-- A move of an immediate; the flag says whether `N` and `Z` are set. -/
  | movImm (s : Bool) (rd : Reg) (imm : Word)
  /-- A move into the upper halfword. -/
  | movt (rd : Reg) (imm : BitVec 16)
  | movReg (rd rm : Reg)
  | movShift (s : Bool) (t : SRType) (rd rm : Reg) (amount : ℕ)
  | dp (op : DpOp) (s : Bool) (rd rn rm : Reg) (t : SRType) (amount : ℕ)
  /-- The same under the condition of an `IT` block. -/
  | dpIf (cond : BitVec 4) (op : DpOp) (s : Bool) (rd rn rm : Reg) (t : SRType) (amount : ℕ)
  | dpImm (op : DpOp) (s : Bool) (rd rn : Reg) (imm : Word)
  | subImm (rd rn : Reg) (imm : Word)
  /-- A shift by the low byte of `rm`. -/
  | shiftReg (s : Bool) (t : SRType) (rd rn rm : Reg)
  | cmp (rn rm : Reg)
  | addReg (rdn rm : Reg)
  | mul (rd rn rm : Reg)
  | muls (rdm rn : Reg)
  | mls (rd rn rm ra : Reg)
  | udiv (rd rn rm : Reg)
  | umull (rdLo rdHi rn rm : Reg)
  /-- Loads and stores at a distance below the base register. -/
  | ldr (rt rn : Reg) (below : ℕ)
  | str (rt rn : Reg) (below : ℕ)
  | ldrd (rt rt2 rn : Reg) (below : ℕ)
  | strd (rt rt2 rn : Reg) (below : ℕ)
  /-- The loads and stores of one to four bytes in their other forms. -/
  | load (bytes : ℕ) (signed : Bool) (rt rn : Reg) (mode : AddrMode)
  | store (bytes : ℕ) (rt rn : Reg) (mode : AddrMode)
  deriving DecidableEq, Repr

inductive Instr
  | data (d : Data)
  /-- A branch to the address of the instruction plus four plus the offset. -/
  | b (cond : BitVec 4) (offset : Word)
  /-- The same, with the address behind the instruction put into `LR`. -/
  | bl (offset : Word)
  deriving DecidableEq, Repr

/-! ### Decoding -/

section Decode

variable {w : ℕ}

/-- The `len` bits of `x` from bit `lo` on. -/
def bits (x : BitVec w) (lo len : ℕ) : BitVec len := x.extractLsb' lo len

/-- `BadReg`: the stack pointer or the program counter. -/
def badReg (r : Reg) : Bool := r == 13 || r == 15

def lowReg (x : BitVec 3) : Reg := x.setWidth 4

def condAl : BitVec 4 := 0b1110

def decodeImmShift (type : BitVec 2) (imm5 : BitVec 5) : SRType × ℕ :=
  match type.toNat with
  | 0 => (.lsl, imm5.toNat)
  | 1 => (.lsr, if imm5 = 0 then 32 else imm5.toNat)
  | 2 => (.asr, if imm5 = 0 then 32 else imm5.toNat)
  | _ => if imm5 = 0 then (.rrx, 1) else (.ror, imm5.toNat)

/-- The 16-bit data-processing encodings, by their four bits of operation. -/
def decodeLow (hw : BitVec 16) : Option Instr :=
  let dn := lowReg (bits hw 0 3)
  let m := lowReg (bits hw 3 3)
  match (bits hw 6 4).toNat with
  | 0b0000 => some (.data (.dp .and true dn dn m .lsl 0))
  | 0b0001 => some (.data (.dp .eor true dn dn m .lsl 0))
  | 0b0010 => some (.data (.shiftReg true .lsl dn dn m))
  | 0b0011 => some (.data (.shiftReg true .lsr dn dn m))
  | 0b0100 => some (.data (.shiftReg true .asr dn dn m))
  | 0b0101 => some (.data (.dp .adc true dn dn m .lsl 0))
  | 0b0110 => some (.data (.dp .sbc true dn dn m .lsl 0))
  | 0b0111 => some (.data (.shiftReg true .ror dn dn m))
  | 0b1001 => some (.data (.dpImm .rsb true dn m 0))
  | 0b1010 => some (.data (.cmp dn m))
  | 0b1100 => some (.data (.dp .orr true dn dn m .lsl 0))
  | 0b1101 => some (.data (.muls dn m))
  | _ => none

/-- The encodings that start with `01000`. -/
def decodeTwoReg (hw : BitVec 16) : Option Instr :=
  let d : Reg := bits hw 7 1 ++ bits hw 0 3
  let m : Reg := bits hw 3 4
  match (bits hw 8 3).toNat with
  | 0b000 | 0b001 | 0b010 | 0b011 => decodeLow hw
  | 0b100 => if badReg d || badReg m then none else some (.data (.addReg d m))
  | 0b101 =>
      if badReg d || badReg m || (d < 8 && m < 8) then none else some (.data (.cmp d m))
  | 0b110 => if badReg d || badReg m then none else some (.data (.movReg d m))
  | _ => none

/-- The 16-bit shifts by an immediate. -/
def decodeShiftImm (hw : BitVec 16) : Option Instr :=
  let (t, amount) := decodeImmShift (bits hw 11 2) (bits hw 6 5)
  some (.data (.movShift true t (lowReg (bits hw 0 3)) (lowReg (bits hw 3 3)) amount))

/-- The address of the 16-bit loads and stores: a multiple of the size. -/
def lowMode (hw : BitVec 16) (size : ℕ) : AddrMode :=
  ⟨true, true, false, size * (bits hw 6 5).toNat⟩

/-- The 16-bit encodings, by their first five bits. -/
def decode16 (hw : BitVec 16) : Option Instr :=
  let t := lowReg (bits hw 0 3)
  let n := lowReg (bits hw 3 3)
  match (bits hw 11 5).toNat with
  | 0b00000 | 0b00001 | 0b00010 => decodeShiftImm hw
  | 0b00100 =>
      some (.data (.movImm true (lowReg (bits hw 8 3)) ((bits hw 0 8).setWidth 32)))
  | 0b01000 => decodeTwoReg hw
  | 0b01100 => some (.data (.store 4 t n (lowMode hw 4)))
  | 0b01101 => some (.data (.load 4 false t n (lowMode hw 4)))
  | 0b01110 => some (.data (.store 1 t n (lowMode hw 1)))
  | 0b01111 => some (.data (.load 1 false t n (lowMode hw 1)))
  | 0b10000 => some (.data (.store 2 t n (lowMode hw 2)))
  | 0b10001 => some (.data (.load 2 false t n (lowMode hw 2)))
  | 0b11010 | 0b11011 =>
      if bits hw 9 3 = 0b111 then none
      else some (.b (bits hw 8 4) ((bits hw 0 8 ++ (0 : BitVec 1)).signExtend 32))
  | 0b11100 => some (.b condAl ((bits hw 0 11 ++ (0 : BitVec 1)).signExtend 32))
  | _ => none

def dpOpOf (op : BitVec 4) : Option DpOp :=
  match op.toNat with
  | 0b0000 => some .and
  | 0b0010 => some .orr
  | 0b0100 => some .eor
  | 0b1000 => some .add
  | 0b1010 => some .adc
  | 0b1011 => some .sbc
  | 0b1101 => some .sub
  | 0b1110 => some .rsb
  | _ => none

def decodeShifted (x : BitVec 32) : Option Instr := do
  let s : Bool := bits x 20 1 = 1
  let rn := bits x 16 4
  let rd := bits x 8 4
  let rm := bits x 0 4
  let (t, amount) := decodeImmShift (bits x 4 2) (bits x 12 3 ++ bits x 6 2)
  if bits x 15 1 = 1 || badReg rd || badReg rm then none
  else if bits x 21 4 = 0b0010 && rn = 15 then return .data (.movShift s t rd rm amount)
  else if badReg rn then none
  else
    let op ← dpOpOf (bits x 21 4)
    return .data (.dp op s rd rn rm t amount)

/-- `LDRD` and `STRD` with an offset to subtract and no write-back. -/
def decodeDual (x : BitVec 32) : Option Instr :=
  let n := bits x 16 4
  let t := bits x 12 4
  let t2 := bits x 8 4
  let below := 4 * (bits x 0 8).toNat
  if badReg t || badReg t2 || n = 15 || (bits x 20 1 = 1 && t = t2) then none
  else if bits x 20 1 = 1 then some (.data (.ldrd t t2 n below))
  else some (.data (.strd t t2 n below))

/-- `LDR` and `STR` with an offset to subtract and no write-back. -/
def decodeSingle (x : BitVec 32) : Option Instr :=
  let n := bits x 16 4
  let t := bits x 12 4
  if badReg t || n = 15 then none
  else if bits x 20 1 = 1 then some (.data (.ldr t n (bits x 0 8).toNat))
  else some (.data (.str t n (bits x 0 8).toNat))

/-- The address of the 32-bit loads and stores of one register. The forms with
twelve bits of offset add it; the others have three bits for the mode. -/
def singleMode (x : BitVec 32) : Option AddrMode :=
  let index : Bool := bits x 10 1 = 1
  let add : Bool := bits x 9 1 = 1
  let wback : Bool := bits x 8 1 = 1
  if bits x 23 1 = 1 then some ⟨true, true, false, (bits x 0 12).toNat⟩
  else if bits x 11 1 = 0 || (!index && !wback) then none
  else if wback && bits x 16 4 = bits x 12 4 then none
  else some ⟨index, add, wback, (bits x 0 8).toNat⟩

/-- The 32-bit loads and stores of one register, by size. -/
def decodeLoadStore (x : BitVec 32) : Option Instr := do
  let signed : Bool := bits x 24 1 = 1
  let isLoad : Bool := bits x 20 1 = 1
  let n := bits x 16 4
  let t := bits x 12 4
  let size := 2 ^ (bits x 21 2).toNat
  let mode ← singleMode x
  if bits x 21 2 = 0b11 || badReg t || n = 15 || (signed && (!isLoad || size = 4)) then none
  else if isLoad then return .data (.load size signed t n mode)
  else return .data (.store size t n mode)

/-- Data processing with an immediate of eight bits; the patterns and
rotations an immediate of twelve bits stands for are not in the fragment. -/
def decodeModImm (x : BitVec 32) : Option Instr := do
  let s : Bool := bits x 20 1 = 1
  let n := bits x 16 4
  let d := bits x 8 4
  if badReg d || badReg n || bits x 26 1 = 1 || bits x 12 3 ≠ 0 then none
  else
    let op ← dpOpOf (bits x 21 4)
    return .data (.dpImm op s d n ((bits x 0 8).setWidth 32))

def decodeSubImm (x : BitVec 32) : Option Instr :=
  let n := bits x 16 4
  let d := bits x 8 4
  let imm12 : BitVec 12 := bits x 26 1 ++ (bits x 12 3 ++ bits x 0 8)
  if badReg d || badReg n then none else some (.data (.subImm d n (imm12.setWidth 32)))

def decodeMovImm16 (x : BitVec 32) : Option Instr :=
  let d := bits x 8 4
  let imm16 : BitVec 16 := bits x 16 4 ++ (bits x 26 1 ++ (bits x 12 3 ++ bits x 0 8))
  if badReg d then none
  else
    match (bits x 20 6).toNat with
    | 0b100100 => some (.data (.movImm false d (imm16.setWidth 32)))
    | 0b101100 => some (.data (.movt d imm16))
    | _ => none

def decodeBranch (x : BitVec 32) : Option Instr :=
  let offset : BitVec 21 := bits x 26 1 ++ (bits x 11 1 ++ (bits x 13 1 ++
    (bits x 16 6 ++ (bits x 0 11 ++ (0 : BitVec 1)))))
  let i1 : BitVec 1 := ~~~(bits x 13 1 ^^^ bits x 26 1)
  let i2 : BitVec 1 := ~~~(bits x 11 1 ^^^ bits x 26 1)
  let offset25 : BitVec 25 := bits x 26 1 ++ (i1 ++ (i2 ++
    (bits x 16 10 ++ (bits x 0 11 ++ (0 : BitVec 1)))))
  if bits x 14 1 = 0 && bits x 12 1 = 0 && bits x 23 3 ≠ 0b111 then
    some (.b (bits x 22 4) (offset.signExtend 32))
  else if bits x 14 1 = 1 && bits x 12 1 = 1 then some (.bl (offset25.signExtend 32))
  else none

def decodeShiftReg (x : BitVec 32) : Option Instr :=
  let s : Bool := bits x 20 1 = 1
  let n := bits x 16 4
  let d := bits x 8 4
  let m := bits x 0 4
  if bits x 12 4 ≠ 15 || bits x 4 4 ≠ 0 || badReg n || badReg d || badReg m then none
  else
    match (bits x 21 2).toNat with
    | 0 => some (.data (.shiftReg s .lsl d n m))
    | 1 => some (.data (.shiftReg s .lsr d n m))
    | 2 => some (.data (.shiftReg s .asr d n m))
    | _ => some (.data (.shiftReg s .ror d n m))

def decodeMul (x : BitVec 32) : Option Instr :=
  let n := bits x 16 4
  let t := bits x 12 4
  let d := bits x 8 4
  let m := bits x 0 4
  if bits x 20 7 = 0b0110000 && t = 15 && bits x 4 4 = 0 then
    if badReg n || badReg d || badReg m then none else some (.data (.mul d n m))
  else if bits x 20 7 = 0b0110000 && bits x 4 4 = 1 then
    if badReg n || badReg d || badReg m || badReg t then none else some (.data (.mls d n m t))
  else if bits x 20 7 = 0b0111011 && t = 15 && bits x 4 4 = 15 then
    if badReg n || badReg d || badReg m then none else some (.data (.udiv d n m))
  else if bits x 20 7 = 0b0111010 && bits x 4 4 = 0 then
    if badReg n || badReg t || badReg d || badReg m || t = d then none
    else some (.data (.umull t d n m))
  else none

/-- The 32-bit encodings, first halfword in the upper half of the word, by
their first five bits and then by the next. -/
def decode32 (x : BitVec 32) : Option Instr :=
  match (bits x 27 5).toNat with
  | 0b11101 =>
      if bits x 25 2 = 0b01 then decodeShifted x
      else if bits x 21 6 = 0b001010 then decodeDual x
      else none
  | 0b11110 =>
      if bits x 15 1 = 1 then decodeBranch x
      else if bits x 25 1 = 0 then decodeModImm x
      else if bits x 20 6 = 0b101010 then decodeSubImm x
      else decodeMovImm16 x
  | 0b11111 =>
      if bits x 21 6 = 0b000010 && bits x 8 4 = 0b1100 then decodeSingle x
      else if bits x 25 2 = 0 then decodeLoadStore x
      else if bits x 23 4 = 0b0100 then decodeShiftReg x
      else decodeMul x
  | _ => none

/-- A first halfword that announces a second one. -/
def isWide (hw : BitVec 16) : Bool := bits hw 11 5 ≥ 0b11101

/-- An `IT` instruction for one instruction. -/
def isIt (hw : BitVec 16) : Bool := bits hw 8 8 = 0b10111111 && bits hw 0 4 = 0b1000

/-- An `IT` instruction and the word behind it. Only data processing is in the
fragment. -/
def decodeIt (hw : BitVec 16) (x : BitVec 32) : Option Instr :=
  match decode32 x with
  | some (.data (.dp op s rd rn rm t amount)) =>
      some (.data (.dpIf (bits hw 4 4) op s rd rn rm t amount))
  | _ => none

end Decode

/-! ### Execution -/

def condHolds (s : Core) (cond : BitVec 4) : Bool :=
  match cond.toNat with
  | 0b0000 => s.z
  | 0b0001 => !s.z
  | 0b0010 => s.c
  | 0b0011 => !s.c
  | 0b0100 => s.n
  | 0b0101 => !s.n
  | 0b0110 => s.v
  | 0b0111 => !s.v
  | 0b1000 => s.c && !s.z
  | 0b1001 => !(s.c && !s.z)
  | 0b1010 => s.n == s.v
  | 0b1011 => s.n != s.v
  | 0b1100 => s.n == s.v && !s.z
  | 0b1101 => !(s.n == s.v && !s.z)
  | _ => true

/-- The result of an operation, with the carry and overflow it sets. The
logical operations take the carry of the shifter and keep `V`. -/
def dpResult (op : DpOp) (s : Core) (x y : Word) (shiftCarry : Bool) : Word × Bool × Bool :=
  match op with
  | .and => (x &&& y, shiftCarry, s.v)
  | .orr => (x ||| y, shiftCarry, s.v)
  | .eor => (x ^^^ y, shiftCarry, s.v)
  | .add => addWithCarry x y false
  | .adc => addWithCarry x y s.c
  | .sub => addWithCarry x (~~~y) true
  | .sbc => addWithCarry x (~~~y) s.c
  | .rsb => addWithCarry (~~~x) y true

/-- `N`, `Z`, `C` and `V` of a result. -/
def Core.setFlags (s : Core) (res : Word × Bool × Bool) : Core :=
  { s.setNZ res.1 with c := res.2.1, v := res.2.2 }

/-- Data processing with a shifted register. -/
def Core.dp (s : Core) (op : DpOp) (setflags : Bool) (rd rn rm : Reg) (t : SRType)
    (amount : ℕ) : Core :=
  let shifted := shiftC t (s.r rm) amount s.c
  let res := dpResult op s (s.r rn) shifted.1 shifted.2
  if setflags then (s.set rd res.1).setFlags res else s.set rd res.1

def AddrMode.offsetAddr (m : AddrMode) (base : Word) : Word :=
  if m.add then base + BitVec.ofNat 32 m.imm else base - BitVec.ofNat 32 m.imm

def AddrMode.address (m : AddrMode) (base : Word) : Word :=
  if m.index then m.offsetAddr base else base

def AddrMode.writeBack (m : AddrMode) (s : Core) (rn : Reg) (base : Word) : Core :=
  if m.wback then s.set rn (m.offsetAddr base) else s

/-- The word a load of fewer than four bytes leaves in its register. -/
def extend (bytes : ℕ) (signed : Bool) (v : ℕ) : Word :=
  if signed then (BitVec.ofNat (8 * bytes) v).signExtend 32 else BitVec.ofNat 32 v

/-- A doubleword transfer needs a word-aligned address. -/
def aligned (a : Word) : Bool := a &&& 3 = 0

theorem aligned_iff (a : Word) : aligned a = true ↔ a.toNat % 4 = 0 := by
  have hand : (a &&& 3).toNat = a.toNat % 4 := by
    rw [BitVec.toNat_and]
    exact Nat.and_two_pow_sub_one_eq_mod a.toNat 2
  rw [aligned, decide_eq_true_eq, ← BitVec.toNat_inj, hand]
  rfl

def execData (s : Core) : Data → Option Core
  | .movImm setflags rd imm => some (if setflags then (s.set rd imm).setNZ imm else s.set rd imm)
  | .movt rd imm => some (s.set rd (imm ++ (s.r rd).setWidth 16))
  | .movReg rd rm => some (s.set rd (s.r rm))
  | .movShift setflags t rd rm amount =>
      let res := shiftC t (s.r rm) amount s.c
      some (if setflags then { (s.set rd res.1).setNZ res.1 with c := res.2 } else s.set rd res.1)
  | .dp op setflags rd rn rm t amount => some (s.dp op setflags rd rn rm t amount)
  | .dpIf cond op setflags rd rn rm t amount =>
      some (if condHolds s cond then s.dp op setflags rd rn rm t amount else s)
  | .dpImm op setflags rd rn imm =>
      let res := dpResult op s (s.r rn) imm s.c
      some (if setflags then (s.set rd res.1).setFlags res else s.set rd res.1)
  | .subImm rd rn imm => some (s.set rd (s.r rn - imm))
  | .shiftReg setflags t rd rn rm =>
      let res := shiftC t (s.r rn) ((s.r rm).toNat % 256) s.c
      some (if setflags then { (s.set rd res.1).setNZ res.1 with c := res.2 } else s.set rd res.1)
  | .cmp rn rm => some (s.setFlags (addWithCarry (s.r rn) (~~~(s.r rm)) true))
  | .addReg rdn rm => some (s.set rdn (s.r rdn + s.r rm))
  | .mul rd rn rm => some (s.set rd (s.r rn * s.r rm))
  | .muls rdm rn =>
      let p := s.r rn * s.r rdm
      some ((s.set rdm p).setNZ p)
  | .mls rd rn rm ra => some (s.set rd (s.r ra - s.r rn * s.r rm))
  | .udiv rd rn rm => some (s.set rd (s.r rn / s.r rm))
  | .umull rdLo rdHi rn rm =>
      let p : BitVec 64 := (s.r rn).setWidth 64 * (s.r rm).setWidth 64
      some ((s.set rdLo (p.setWidth 32)).set rdHi ((p >>> 32).setWidth 32))
  | .ldr rt rn below => some (s.set rt (load32 s.mem (s.r rn - BitVec.ofNat 32 below)))
  | .str rt rn below =>
      some { s with mem := store32 s.mem (s.r rn - BitVec.ofNat 32 below) (s.r rt) }
  | .ldrd rt rt2 rn below =>
      let a := s.r rn - BitVec.ofNat 32 below
      if aligned a then some ((s.set rt (load32 s.mem a)).set rt2 (load32 s.mem (a + 4)))
      else none
  | .strd rt rt2 rn below =>
      let a := s.r rn - BitVec.ofNat 32 below
      if aligned a then
        some { s with mem := store32 (store32 s.mem a (s.r rt)) (a + 4) (s.r rt2) }
      else none
  | .load bytes signed rt rn mode =>
      let base := s.r rn
      let v := extend bytes signed (loadLE s.mem (mode.address base) bytes)
      some ((mode.writeBack s rn base).set rt v)
  | .store bytes rt rn mode =>
      let base := s.r rn
      let m := storeLE s.mem (mode.address base) bytes (s.r rt).toNat
      some (mode.writeBack { s with mem := m } rn base)

/-- The processor stops on what the fragment does not cover. -/
structure Fault where
  pc : Word

def fetch (code : Word → BitVec 16) (a : Word) : Option Instr × Word :=
  if isIt (code a) then (decodeIt (code a) (code (a + 2) ++ code (a + 4)), 6)
  else if isWide (code a) then (decode32 (code a ++ code (a + 2)), 4) else (decode16 (code a), 2)

def step (code : Word → BitVec 16) (s : Cpu) : Next Cpu Fault :=
  match fetch code s.pc with
  | (some (.data d), size) =>
      match execData s.core d with
      | some core => .cont ⟨s.pc + size, core⟩
      | none => .stop ⟨s.pc⟩
  | (some (.b cond offset), size) =>
      .cont ⟨if condHolds s.core cond then s.pc + 4 + offset else s.pc + size, s.core⟩
  | (some (.bl offset), size) =>
      .cont ⟨s.pc + 4 + offset, s.core.set 14 ((s.pc + size) ||| 1)⟩
  | (none, _) => .stop ⟨s.pc⟩

end RapidPatch.Thumb

import Mathlib.Data.Nat.Notation

/-!
The eBPF instruction format of `ebpf_inst.h`.

An instruction is eight bytes with five fields. The opcode byte is kept as
a byte, and `opcodeOf` names the case label of the interpreter and of the
translator it selects; the two switches run over the same macros, so one
enumeration serves both. A byte without a case label is `unknown`, and the
zero byte, for which only the translator has a label, is `nop`.
-/

namespace RapidPatch.Vm

/-- `struct ebpf_inst`. -/
structure Inst where
  opcode : BitVec 8
  dst : BitVec 4
  src : BitVec 4
  offset : BitVec 16
  imm : BitVec 32
  deriving DecidableEq, Repr, Inhabited

/-- `MAX_BPF_EXT_REG`: the registers r0 to r10 and the auxiliary register. -/
def maxBpfExtReg : ℕ := 12

def maxExtFuncs : ℕ := 12

def stackSize : ℕ := 128

def maxIters : ℕ := 0x8000

/-- `EBPF_ALU_*`, with `EBPF_ALU_NEG` and the byte-order operations apart. -/
inductive AluOp
  | add | sub | mul | div | or | and | lsh | rsh | mod | xor | mov | arsh
  deriving DecidableEq, Repr

/-- `EBPF_JEQ` to `EBPF_JSLE`. -/
inductive JmpOp
  | jeq | jgt | jge | jset | jne | jsgt | jsge | jlt | jle | jslt | jsle
  deriving DecidableEq, Repr

/-- `EBPF_SRC_IMM` and `EBPF_SRC_REG`. -/
inductive Src
  | imm | reg
  deriving DecidableEq, Repr

/-- `EBPF_SIZE_*`. -/
inductive Size
  | w | h | b | dw
  deriving DecidableEq, Repr

def Size.bytes : Size → ℕ
  | .w => 4
  | .h => 2
  | .b => 1
  | .dw => 8

/-- The case label an opcode byte selects. -/
inductive Opcode
  | alu (op : AluOp) (src : Src)
  | alu64 (op : AluOp) (src : Src)
  | neg
  | neg64
  | le
  | be
  | ldx (size : Size)
  | st (size : Size)
  | stx (size : Size)
  | lddw
  | ja
  | jmp (op : JmpOp) (src : Src)
  | call
  | exit
  | nop
  | unknown
  deriving DecidableEq, Repr

/-- The operation in the high four bits of an ALU opcode. The nibbles of
`NEG` and of the byte-order operations are not in the list. -/
def aluOpOf : ℕ → Option AluOp
  | 0x00 => some .add
  | 0x10 => some .sub
  | 0x20 => some .mul
  | 0x30 => some .div
  | 0x40 => some .or
  | 0x50 => some .and
  | 0x60 => some .lsh
  | 0x70 => some .rsh
  | 0x90 => some .mod
  | 0xa0 => some .xor
  | 0xb0 => some .mov
  | 0xc0 => some .arsh
  | _ => none

def jmpOpOf : ℕ → Option JmpOp
  | 0x10 => some .jeq
  | 0x20 => some .jgt
  | 0x30 => some .jge
  | 0x40 => some .jset
  | 0x50 => some .jne
  | 0x60 => some .jsgt
  | 0x70 => some .jsge
  | 0xa0 => some .jlt
  | 0xb0 => some .jle
  | 0xc0 => some .jslt
  | 0xd0 => some .jsle
  | _ => none

def bpfOp (code : BitVec 8) : ℕ := (code &&& 0xf0).toNat

def bpfClass (code : BitVec 8) : ℕ := (code &&& 0x07).toNat

def bpfSrc (code : BitVec 8) : Src := if code &&& 0x08 = 0 then .imm else .reg

/-- The case label of an opcode byte. Bytes with one label of their own come
first; the ALU and jump families follow by class, operation and source. -/
def opcodeOf (code : BitVec 8) : Opcode :=
  match code.toNat with
  | 0x00 => .nop
  | 0x84 => .neg
  | 0x87 => .neg64
  | 0xd4 => .le
  | 0xdc => .be
  | 0x61 => .ldx .w
  | 0x69 => .ldx .h
  | 0x71 => .ldx .b
  | 0x79 => .ldx .dw
  | 0x62 => .st .w
  | 0x6a => .st .h
  | 0x72 => .st .b
  | 0x7a => .st .dw
  | 0x63 => .stx .w
  | 0x6b => .stx .h
  | 0x73 => .stx .b
  | 0x7b => .stx .dw
  | 0x18 => .lddw
  | 0x05 => .ja
  | 0x85 => .call
  | 0x95 => .exit
  | _ =>
      match bpfClass code with
      | 0x04 => ((aluOpOf (bpfOp code)).map (.alu · (bpfSrc code))).getD .unknown
      | 0x07 => ((aluOpOf (bpfOp code)).map (.alu64 · (bpfSrc code))).getD .unknown
      | 0x05 => ((jmpOpOf (bpfOp code)).map (.jmp · (bpfSrc code))).getD .unknown
      | _ => .unknown

/-- `EBPF_SRC_IMM` and `EBPF_SRC_REG` as bits of an opcode. -/
def Src.bits : Src → BitVec 8
  | .imm => 0x00
  | .reg => 0x08

/-- `EBPF_SIZE_*` as bits of an opcode. -/
def Size.bits : Size → BitVec 8
  | .w => 0x00
  | .h => 0x08
  | .b => 0x10
  | .dw => 0x18

def AluOp.bits : AluOp → BitVec 8
  | .add => 0x00
  | .sub => 0x10
  | .mul => 0x20
  | .div => 0x30
  | .or => 0x40
  | .and => 0x50
  | .lsh => 0x60
  | .rsh => 0x70
  | .mod => 0x90
  | .xor => 0xa0
  | .mov => 0xb0
  | .arsh => 0xc0

def JmpOp.bits : JmpOp → BitVec 8
  | .jeq => 0x10
  | .jgt => 0x20
  | .jge => 0x30
  | .jset => 0x40
  | .jne => 0x50
  | .jsgt => 0x60
  | .jsge => 0x70
  | .jlt => 0xa0
  | .jle => 0xb0
  | .jslt => 0xc0
  | .jsle => 0xd0

/-- The macros `EBPF_OP_*`: class, mode, source and operation bits. -/
def Opcode.byte : Opcode → BitVec 8
  | .alu op src => 0x04 ||| src.bits ||| op.bits
  | .alu64 op src => 0x07 ||| src.bits ||| op.bits
  | .neg => 0x04 ||| 0x80
  | .neg64 => 0x07 ||| 0x80
  | .le => 0x04 ||| 0x00 ||| 0xd0
  | .be => 0x04 ||| 0x08 ||| 0xd0
  | .ldx size => 0x01 ||| 0x60 ||| size.bits
  | .st size => 0x02 ||| 0x60 ||| size.bits
  | .stx size => 0x03 ||| 0x60 ||| size.bits
  | .lddw => 0x00 ||| 0x00 ||| 0x18
  | .ja => 0x05 ||| 0x00
  | .jmp op src => 0x05 ||| src.bits ||| op.bits
  | .call => 0x05 ||| 0x80
  | .exit => 0x05 ||| 0x90
  | .nop => 0x00
  | .unknown => 0xff

/-- The switch finds every macro's own case label. -/
@[simp] theorem opcodeOf_byte (o : Opcode) : opcodeOf o.byte = o := by
  cases o with
  | alu op src => cases op <;> cases src <;> decide
  | alu64 op src => cases op <;> cases src <;> decide
  | jmp op src => cases op <;> cases src <;> decide
  | ldx size => cases size <;> decide
  | st size => cases size <;> decide
  | stx size => cases size <;> decide
  | _ => decide

def Inst.op (i : Inst) : Opcode := opcodeOf i.opcode

/-- The instruction's case reads or writes `reg[inst->dst]`. -/
def Opcode.usesDst : Opcode → Bool
  | .ja | .call | .exit | .nop | .unknown => false
  | _ => true

/-- The instruction's case reads `reg[inst->src]`. Every store checks an
address taken from the source register, also where it stores an immediate. -/
def Opcode.usesSrc : Opcode → Bool
  | .alu _ .reg | .alu64 _ .reg | .jmp _ .reg => true
  | .ldx _ | .st _ | .stx _ => true
  | _ => false

end RapidPatch.Vm

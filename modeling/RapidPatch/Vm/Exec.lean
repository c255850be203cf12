import RapidPatch.Support.Machine
import RapidPatch.Support.Memory
import RapidPatch.Vm.Inst

/-!
The interpreter `ebpf_vm_exec`, one loop iteration at a time.

`step` is one turn of the `while (true)` loop: fetch, the switch, and the
iteration check at the bottom. The interpreter never compares its program
counter with `num_insts`, so the code memory is a function on all indices:
what lies behind the loaded program is whatever memory holds there. It is a
function of the memory, so a program that stores to its own instructions runs
what it has stored; only the fields of the VM and the variables of the
interpreter are out of its reach. Pointers are 32 bits wide, as on the Cortex-M4
the translator targets.

Where C leaves an operation open, the model says so instead of choosing. A
register field above the register file, a division by zero and a call
through a missing table entry end the run as `undefined`; a shift by at
least the operand's width gives the value `overshift` names; and `1 << 32`,
the result of an exhausted budget, is whatever 32-bit `int` the compiler
gives it.
-/

namespace RapidPatch.Vm

open RapidPatch.Support

/-- An `ext_func`: five arguments, a result, and its effect on memory. -/
abbrev ExtFunc :=
  BitVec 64 → BitVec 64 → BitVec 64 → BitVec 64 → BitVec 64 → Mem → BitVec 64 × Mem

/-- The fields of `struct ebpf_vm` that the interpreter reads. -/
structure EbpfVm where
  /-- What memory holds at `insts`, slot by slot. -/
  insts : Mem → ℕ → Inst
  boundsCheckEnabled : Bool
  /-- `helper_func->ext_funcs`, with `none` for a null entry. -/
  extFuncs : ℕ → Option ExtFunc

/-- The arguments of one call of `ebpf_vm_exec`, the address of its local
array `stack`, and what C leaves open. -/
structure Call where
  vm : EbpfVm
  mem : BitVec 32
  memLen : BitVec 32
  stack : BitVec 32
  /-- The value of a shift by at least the operand's width. -/
  overshift : BitVec 64 → BitVec 64 → BitVec 64
  /-- The `int` that `1 << 32` evaluates to. -/
  oneShl32 : BitVec 32

/-- The locals of the loop, and memory. `tick` is a C `int`; that it stays
one is proved with the bound on the number of iterations. -/
structure State where
  pc : BitVec 16
  reg : BitVec 4 → BitVec 64
  mem : Mem
  tick : ℕ

/-- The three kinds of `return` in the loop. -/
inductive ReturnSite
  | exit
  | error
  | budget
  deriving DecidableEq, Repr

/-- How a run ends. -/
inductive Outcome
  | returned (site : ReturnSite) (value : BitVec 64)
  | undefined
  deriving DecidableEq, Repr

/-- `return -1`. -/
def returnError : Outcome := .returned .error (-1)

def State.setReg (s : State) (r : BitVec 4) (v : BitVec 64) : State :=
  { s with reg := fun i => if i = r then v else s.reg i }

/-! ### Arithmetic -/

/-- What an arithmetic case does with its operands. -/
inductive AluResult
  | value (v : BitVec 64)
  | divByZero
  | undefined

/-- A C division or remainder at width `w`, zero-extended. -/
def divOrMod {w : ℕ} (f : BitVec w → BitVec w → BitVec w) (x y : BitVec w) : AluResult :=
  if y = 0 then .undefined else .value ((f x y).setWidth 64)

/-- The 32-bit class. `d` and `s` are the whole registers; only the checked
divisor of the register forms and the amount of the arithmetic shift are
read at 64 bits. -/
def alu32 (c : Call) (op : AluOp) (src : Src) (d s : BitVec 64) (imm : BitVec 32) :
    AluResult :=
  let x := d.setWidth 32
  let y := match src with
    | .imm => imm
    | .reg => s.setWidth 32
  let wide (n : BitVec 64) (v : BitVec 32) : AluResult :=
    if n.toNat < 32 then .value (v.setWidth 64)
    else .value (((c.overshift d n).setWidth 32).setWidth 64)
  match op with
  | .add => .value ((x + y).setWidth 64)
  | .sub => .value ((x - y).setWidth 64)
  | .mul => .value ((x * y).setWidth 64)
  | .or => .value ((x ||| y).setWidth 64)
  | .and => .value ((x &&& y).setWidth 64)
  | .xor => .value ((x ^^^ y).setWidth 64)
  | .mov => .value (y.setWidth 64)
  | .lsh => wide (y.setWidth 64) (x <<< y.toNat)
  | .rsh => wide (y.setWidth 64) (x >>> y.toNat)
  | .arsh =>
      let n := match src with
        | .imm => imm.signExtend 64
        | .reg => s
      wide n (x.sshiftRight n.toNat)
  | .div =>
      match src with
      | .imm => divOrMod BitVec.udiv x y
      | .reg => if s = 0 then .divByZero else divOrMod BitVec.udiv x y
  | .mod =>
      match src with
      | .imm => divOrMod BitVec.umod x y
      | .reg => if s = 0 then .divByZero else divOrMod BitVec.umod x y

/-- The 64-bit class. `DIV64_REG` tests the source register and then
divides by the immediate, as the code does. -/
def alu64 (c : Call) (op : AluOp) (src : Src) (d s : BitVec 64) (imm : BitVec 32) :
    AluResult :=
  let y := match src with
    | .imm => imm.signExtend 64
    | .reg => s
  let wide (v : BitVec 64) : AluResult :=
    if y.toNat < 64 then .value v else .value (c.overshift d y)
  match op with
  | .add => .value (d + y)
  | .sub => .value (d - y)
  | .mul => .value (d * y)
  | .or => .value (d ||| y)
  | .and => .value (d &&& y)
  | .xor => .value (d ^^^ y)
  | .mov => .value y
  | .lsh => wide (d <<< y.toNat)
  | .rsh => wide (d >>> y.toNat)
  | .arsh => wide (d.sshiftRight y.toNat)
  | .div =>
      match src with
      | .imm => divOrMod BitVec.udiv d y
      | .reg => if s = 0 then .divByZero else divOrMod BitVec.udiv d (imm.signExtend 64)
  | .mod =>
      match src with
      | .imm => divOrMod BitVec.umod d y
      | .reg => if s = 0 then .divByZero else divOrMod BitVec.umod d y

def swap16 (x : BitVec 16) : BitVec 16 := ((x &&& 0x00ff) <<< 8) ||| ((x &&& 0xff00) >>> 8)

def swap32 (x : BitVec 32) : BitVec 32 :=
  ((x &&& 0x000000ff) <<< 24) ||| ((x &&& 0x0000ff00) <<< 8) |||
    ((x &&& 0x00ff0000) >>> 8) ||| ((x &&& 0xff000000) >>> 24)

def swap64 (x : BitVec 64) : BitVec 64 :=
  ((x &&& 0x00000000000000ff) <<< 56) ||| ((x &&& 0x000000000000ff00) <<< 40) |||
    ((x &&& 0x0000000000ff0000) <<< 24) ||| ((x &&& 0x00000000ff000000) <<< 8) |||
    ((x &&& 0x000000ff00000000) >>> 8) ||| ((x &&& 0x0000ff0000000000) >>> 24) |||
    ((x &&& 0x00ff000000000000) >>> 40) ||| ((x &&& 0xff00000000000000) >>> 56)

/-- `EBPF_OP_LE` on a little-endian host: the macros `my_htole*` are the
identity on the whole register. -/
def htole (x : BitVec 64) (imm : BitVec 32) : BitVec 64 :=
  match imm.toNat with
  | 16 => x
  | 32 => x
  | 64 => x
  | _ => x

/-- `EBPF_OP_BE` on a little-endian host. -/
def htobe (x : BitVec 64) (imm : BitVec 32) : BitVec 64 :=
  match imm.toNat with
  | 16 => (swap16 (x.setWidth 16)).setWidth 64
  | 32 => (swap32 (x.setWidth 32)).setWidth 64
  | 64 => swap64 x
  | _ => x

/-- The condition of a conditional jump. The immediate of the four unsigned
order relations is zero-extended by a cast to `u32`; everywhere else it is
sign-extended by the usual conversions. -/
def jmpTaken (op : JmpOp) (src : Src) (d s : BitVec 64) (imm : BitVec 32) : Bool :=
  let signed := match src with
    | .imm => imm.signExtend 64
    | .reg => s
  let unsigned := match src with
    | .imm => imm.setWidth 64
    | .reg => s
  match op with
  | .jeq => d == signed
  | .jne => d != signed
  | .jset => d &&& signed != 0
  | .jgt => unsigned.ult d
  | .jge => unsigned.ule d
  | .jlt => d.ult unsigned
  | .jle => d.ule unsigned
  | .jsgt => signed.slt d
  | .jsge => signed.sle d
  | .jslt => d.slt signed
  | .jsle => d.sle signed

/-! ### Memory -/

/-- `(uintptr)(base + inst->offset)`. -/
def address (base : BitVec 64) (i : Inst) : BitVec 32 :=
  (base + i.offset.signExtend 64).setWidth 32

/-- `bounds_check`. Both bounds are computed on `u32` pointers, so sizes and
lengths count words. -/
def boundsCheck (c : Call) (addr : BitVec 32) (size : ℕ) : Bool :=
  if !c.vm.boundsCheckEnabled then true
  else if c.mem ≠ 0 ∧ c.mem ≤ addr ∧
      addr + 4 * BitVec.ofNat 32 size ≤ c.mem + 4 * c.memLen then true
  else if c.stack ≤ addr ∧
      addr + 4 * BitVec.ofNat 32 size ≤ c.stack + 4 * BitVec.ofNat 32 stackSize then true
  else false

/-- `EBPF_OP_LDX*`. `LDXW` is the one load whose check is commented out. -/
def execLdx (c : Call) (size : Size) (i : Inst) (s : State) : Next State Outcome :=
  let addr := address (s.reg i.src) i
  let loaded : Next State Outcome :=
    .cont (s.setReg i.dst (BitVec.ofNat 64 (loadLE s.mem addr size.bytes)))
  match size with
  | .w => loaded
  | .dw | .h | .b => if boundsCheck c addr size.bytes then loaded else .stop returnError

/-- `EBPF_OP_ST*` and `EBPF_OP_STX*`. `BOUNDS_CHECK_STORE` checks an address
computed from the source register; the access goes through the destination
register. -/
def execStore (c : Call) (size : Size) (v : BitVec 64) (i : Inst) (s : State) :
    Next State Outcome :=
  if boundsCheck c (address (s.reg i.src) i) size.bytes then
    .cont { s with mem := storeLE s.mem (address (s.reg i.dst) i) size.bytes v.toNat }
  else .stop returnError

/-! ### The switch -/

def finishAlu (s : State) (i : Inst) : AluResult → Next State Outcome
  | .value v => .cont (s.setReg i.dst v)
  | .divByZero => .stop returnError
  | .undefined => .stop .undefined

/-- Every register field the case reads names a cell of `reg`. -/
def Inst.regsInFile (i : Inst) : Bool :=
  (!i.op.usesDst || i.dst.toNat < maxBpfExtReg) &&
    (!i.op.usesSrc || i.src.toNat < maxBpfExtReg)

/-- `EBPF_OP_CALL`. -/
def execCall (c : Call) (i : Inst) (s : State) : Next State Outcome :=
  match if i.imm.toNat < maxExtFuncs then c.vm.extFuncs i.imm.toNat else none with
  | some f =>
      let (v, m) := f (s.reg 1) (s.reg 2) (s.reg 3) (s.reg 4) (s.reg 5) s.mem
      .cont ({ s with mem := m }.setReg 0 v)
  | none => .stop .undefined

/-- The switch of `ebpf_vm_exec`, entered with `pc` already advanced. -/
def execInst (c : Call) (i : Inst) (s : State) : Next State Outcome :=
  if !i.regsInFile then .stop .undefined
  else
    match i.op with
    | .alu op src => finishAlu s i (alu32 c op src (s.reg i.dst) (s.reg i.src) i.imm)
    | .alu64 op src => finishAlu s i (alu64 c op src (s.reg i.dst) (s.reg i.src) i.imm)
    | .neg => .cont (s.setReg i.dst ((-(s.reg i.dst)).setWidth 32 |>.setWidth 64))
    | .neg64 => .cont (s.setReg i.dst (-(s.reg i.dst)))
    | .le => .cont (s.setReg i.dst (htole (s.reg i.dst) i.imm))
    | .be => .cont (s.setReg i.dst (htobe (s.reg i.dst) i.imm))
    | .ldx size => execLdx c size i s
    | .st size => execStore c size (i.imm.signExtend 64) i s
    | .stx size => execStore c size (s.reg i.src) i s
    | .lddw =>
        let hi := (c.vm.insts s.mem s.pc.toNat).imm
        .cont ({ s with pc := s.pc + 1 }.setReg i.dst
          (i.imm.setWidth 64 ||| (hi.setWidth 64 <<< 32)))
    | .ja => .cont { s with pc := s.pc + i.offset }
    | .jmp op src =>
        if jmpTaken op src (s.reg i.dst) (s.reg i.src) i.imm then
          .cont { s with pc := s.pc + i.offset }
        else .cont s
    | .call => execCall c i s
    | .exit => .stop (.returned .exit (s.reg 0))
    | .nop | .unknown => .cont s

def itersCheck (tick : ℕ) : Bool := !decide (maxIters < tick)

def fetch (c : Call) (s : State) : Inst := c.vm.insts s.mem s.pc.toNat

def step (c : Call) (s : State) : Next State Outcome :=
  match execInst c (fetch c s) { s with pc := s.pc + 1 } with
  | .stop o => .stop o
  | .cont t =>
      if itersCheck t.tick then .cont { t with tick := t.tick + 1 }
      else .stop (.returned .budget (c.oneShl32.signExtend 64))

/-- The state at the head of the first iteration. All registers but r1 and
r10 are uninitialised. -/
def initState (c : Call) (reg : BitVec 4 → BitVec 64) (mem : Mem) : State :=
  ({ pc := 0, reg := reg, mem := mem, tick := 0 } : State).setReg 1 (c.mem.setWidth 64)
    |>.setReg 10 ((c.stack + BitVec.ofNat 32 stackSize).setWidth 64)

/-- `ebpf_vm_exec`, given as many iterations as it can ever take. -/
def ebpfVmExec (c : Call) (reg : BitVec 4 → BitVec 64) (mem : Mem) : Next State Outcome :=
  run (step c) (maxIters + 2) (initState c reg mem)

/-! ### Reading a register back -/

@[simp] theorem setReg_reg (s : State) (r i : BitVec 4) (v : BitVec 64) :
    (s.setReg r v).reg i = if i = r then v else s.reg i := rfl

@[simp] theorem setReg_pc (s : State) (r : BitVec 4) (v : BitVec 64) :
    (s.setReg r v).pc = s.pc := rfl

@[simp] theorem setReg_mem (s : State) (r : BitVec 4) (v : BitVec 64) :
    (s.setReg r v).mem = s.mem := rfl

@[simp] theorem setReg_tick (s : State) (r : BitVec 4) (v : BitVec 64) :
    (s.setReg r v).tick = s.tick := rfl

end RapidPatch.Vm

import Mathlib.Logic.Function.Basic
import RapidPatch.Vm.Budget

/-!
The instruction set as arithmetic, and the interpreter against it.

`isaAlu` and `isaJump` say what an operation and a relation mean on the
numbers their operands stand for: sums and products modulo `2 ^ w`, shifts
as products and quotients by powers of two, comparisons in `ℕ` or in `ℤ`.
`isaExec` is one instruction over them: the next program counter, and the
registers, of which at most `dst` changes. Nothing in the three follows the
casts of the C text. `execInst_isa` is the comparison with the switch for
the opcodes of `Opcode.conforms`.

The four unsigned order relations with an immediate are not among these.
The interpreter casts their immediate to `u32` where the register forms
compare with a register that `MOV64_IMM` has sign-extended into;
`jmpTaken_forms_agree` says for which values this shows.
-/

namespace RapidPatch.Vm

open RapidPatch.Support

/-! ### The instruction set -/

/-- The result of an operation on operands of width `w`. -/
def isaAlu {w : ℕ} (op : AluOp) (x y : BitVec w) : BitVec w :=
  match op with
  | .add => BitVec.ofNat w (x.toNat + y.toNat)
  | .sub => BitVec.ofInt w (x.toNat - y.toNat)
  | .mul => BitVec.ofNat w (x.toNat * y.toNat)
  | .div => BitVec.ofNat w (x.toNat / y.toNat)
  | .mod => BitVec.ofNat w (x.toNat % y.toNat)
  | .or => BitVec.ofNat w (x.toNat ||| y.toNat)
  | .and => BitVec.ofNat w (x.toNat &&& y.toNat)
  | .xor => BitVec.ofNat w (x.toNat ^^^ y.toNat)
  | .lsh => BitVec.ofNat w (x.toNat * 2 ^ y.toNat)
  | .rsh => BitVec.ofNat w (x.toNat / 2 ^ y.toNat)
  | .arsh => BitVec.ofInt w (x.toInt / 2 ^ y.toNat)
  | .mov => y

/-- The negation of an operand of width `w`. -/
def isaNeg {w : ℕ} (x : BitVec w) : BitVec w := BitVec.ofInt w (-x.toNat)

def isaJump (op : JmpOp) (x y : BitVec 64) : Bool :=
  match op with
  | .jeq => x.toNat = y.toNat
  | .jne => x.toNat ≠ y.toNat
  | .jset => x.toNat &&& y.toNat ≠ 0
  | .jgt => y.toNat < x.toNat
  | .jge => y.toNat ≤ x.toNat
  | .jlt => x.toNat < y.toNat
  | .jle => x.toNat ≤ y.toNat
  | .jsgt => y.toInt < x.toInt
  | .jsge => y.toInt ≤ x.toInt
  | .jslt => x.toInt < y.toInt
  | .jsle => x.toInt ≤ y.toInt

def operand32 (src : Src) (s : BitVec 64) (imm : BitVec 32) : BitVec 32 :=
  match src with
  | .imm => imm
  | .reg => BitVec.ofNat 32 s.toNat

def operand64 (src : Src) (s : BitVec 64) (imm : BitVec 32) : BitVec 64 :=
  match src with
  | .imm => BitVec.ofInt 64 imm.toInt
  | .reg => s

def zeroExtended (v : BitVec 32) : BitVec 64 := BitVec.ofNat 64 v.toNat

/-- One instruction at `pc`: the next program counter and the registers. -/
def isaExec (code : ℕ → Inst) (i : Inst) (pc : BitVec 16) (reg : BitVec 4 → BitVec 64) :
    BitVec 16 × (BitVec 4 → BitVec 64) :=
  let next := BitVec.ofNat 16 (pc.toNat + 1)
  let target := BitVec.ofInt 16 (pc.toNat + 1 + i.offset.toInt)
  let d := reg i.dst
  let x := BitVec.ofNat 32 d.toNat
  match i.op with
  | .alu op src =>
      (next, Function.update reg i.dst
        (zeroExtended (isaAlu op x (operand32 src (reg i.src) i.imm))))
  | .alu64 op src =>
      (next, Function.update reg i.dst (isaAlu op d (operand64 src (reg i.src) i.imm)))
  | .neg => (next, Function.update reg i.dst (zeroExtended (isaNeg x)))
  | .neg64 => (next, Function.update reg i.dst (isaNeg d))
  | .lddw =>
      (BitVec.ofNat 16 (pc.toNat + 2), Function.update reg i.dst
        (BitVec.ofNat 64 (i.imm.toNat + 2 ^ 32 * (code next.toNat).imm.toNat)))
  | .ja => (target, reg)
  | .jmp op src =>
      (if isaJump op d (operand64 src (reg i.src) i.imm) then target else next, reg)
  | _ => (next, reg)

/-! ### What is compared -/

/-- `LSH`, `RSH` and `ARSH`. -/
def AluOp.isShift : AluOp → Bool
  | .lsh | .rsh | .arsh => true
  | _ => false

/-- `DIV` and `MOD`. -/
def AluOp.isDivision : AluOp → Bool
  | .div | .mod => true
  | _ => false

/-- The relations whose immediate the interpreter zero-extends. -/
def JmpOp.isUnsignedOrder : JmpOp → Bool
  | .jgt | .jge | .jlt | .jle => true
  | _ => false

/-- The opcodes the interpreter executes as the instruction set says. -/
def Opcode.conforms : Opcode → Bool
  | .alu op _ | .alu64 op _ => !op.isDivision
  | .neg | .neg64 | .lddw | .ja => true
  | .jmp _ .reg => true
  | .jmp op .imm => !op.isUnsignedOrder
  | _ => false

/-- The amount of a shift, as its case takes it. `LSH_REG` and `RSH_REG`
cast the source register to `u32`, `ARSH_REG` shifts by all of it. -/
def Inst.shiftAmount (i : Inst) (reg : BitVec 4 → BitVec 64) : ℕ :=
  match i.op with
  | .alu .arsh .reg => (reg i.src).toNat
  | .alu _ .reg => (reg i.src).toNat % 2 ^ 32
  | .alu64 _ .reg => (reg i.src).toNat
  | _ => i.imm.toNat

/-- A shift is by less than the width of its operand. -/
def Inst.ShiftInRange (i : Inst) (reg : BitVec 4 → BitVec 64) : Prop :=
  match i.op with
  | .alu op _ => op.isShift → i.shiftAmount reg < 32
  | .alu64 op _ => op.isShift → i.shiftAmount reg < 64
  | _ => True

/-! ### Operations at one width -/

section Width

variable {w : ℕ} (x y : BitVec w)

theorem add_eq_isaAlu : x + y = isaAlu .add x y := by
  show x + y = BitVec.ofNat w (x.toNat + y.toNat)
  apply BitVec.eq_of_toNat_eq
  simp

theorem sub_eq_isaAlu : x - y = isaAlu .sub x y := by
  show x - y = BitVec.ofInt w (x.toNat - y.toNat)
  simp only [Int.sub_eq_add_neg, BitVec.ofInt_add, BitVec.ofInt_neg, BitVec.ofInt_natCast,
    BitVec.ofNat_toNat, BitVec.setWidth_eq, BitVec.sub_eq_add_neg]

theorem mul_eq_isaAlu : x * y = isaAlu .mul x y := by
  show x * y = BitVec.ofNat w (x.toNat * y.toNat)
  apply BitVec.eq_of_toNat_eq
  simp

theorem or_eq_isaAlu : x ||| y = isaAlu .or x y := by
  show x ||| y = BitVec.ofNat w (x.toNat ||| y.toNat)
  apply BitVec.eq_of_toNat_eq
  simp

theorem and_eq_isaAlu : x &&& y = isaAlu .and x y := by
  show x &&& y = BitVec.ofNat w (x.toNat &&& y.toNat)
  apply BitVec.eq_of_toNat_eq
  simp

theorem xor_eq_isaAlu : x ^^^ y = isaAlu .xor x y := by
  show x ^^^ y = BitVec.ofNat w (x.toNat ^^^ y.toNat)
  apply BitVec.eq_of_toNat_eq
  simp

theorem shiftLeft_eq_isaAlu : x <<< y.toNat = isaAlu .lsh x y := by
  show x <<< y.toNat = BitVec.ofNat w (x.toNat * 2 ^ y.toNat)
  apply BitVec.eq_of_toNat_eq
  simp [Nat.shiftLeft_eq]

theorem ushiftRight_eq_isaAlu : x >>> y.toNat = isaAlu .rsh x y := by
  show x >>> y.toNat = BitVec.ofNat w (x.toNat / 2 ^ y.toNat)
  apply BitVec.eq_of_toNat_eq
  have hlt : x.toNat / 2 ^ y.toNat < 2 ^ w := (Nat.div_le_self _ _).trans_lt x.isLt
  simp [Nat.shiftRight_eq_div_pow, Nat.mod_eq_of_lt hlt]

theorem sshiftRight_eq_isaAlu : x.sshiftRight y.toNat = isaAlu .arsh x y := by
  show x.sshiftRight y.toNat = BitVec.ofInt w (x.toInt / 2 ^ y.toNat)
  simp [BitVec.sshiftRight, Int.shiftRight_eq_div_pow]

theorem neg_eq_isaNeg : -x = isaNeg x := by
  simp only [isaNeg, BitVec.ofInt_neg, BitVec.ofInt_natCast, BitVec.ofNat_toNat,
    BitVec.setWidth_eq]

end Width

/-! ### The two classes -/

variable {c : Call} {i : Inst} {s t : State}

theorem operand32_eq (src : Src) (s : BitVec 64) (imm : BitVec 32) :
    operand32 src s imm = match src with
      | .imm => imm
      | .reg => s.setWidth 32 := by
  cases src with
  | imm => rfl
  | reg => exact BitVec.ofNat_toNat 32 s

theorem operand64_eq (src : Src) (s : BitVec 64) (imm : BitVec 32) :
    operand64 src s imm = match src with
      | .imm => imm.signExtend 64
      | .reg => s := by
  cases src <;> rfl

@[simp] theorem zeroExtended_eq (v : BitVec 32) : zeroExtended v = v.setWidth 64 :=
  BitVec.ofNat_toNat 64 v

/-- The sign of an immediate below the width of a word does not show. -/
theorem signExtend_toNat_of_lt {imm : BitVec 32} (h : imm.toNat < 64) :
    (imm.signExtend 64).toNat = imm.toNat := by
  have hmsb : imm.msb = false := by
    rw [BitVec.msb_eq_false_iff_two_mul_lt]
    omega
  rw [BitVec.signExtend_eq_setWidth_of_msb_false hmsb, BitVec.toNat_setWidth]
  omega

/-- The 32-bit class computes on the low words and zero-extends. -/
theorem alu32_isa {op : AluOp} {src : Src} (hop : i.op = .alu op src)
    (hdiv : op.isDivision = false) (hshift : i.ShiftInRange s.reg) (d : BitVec 64) :
    alu32 c op src d (s.reg i.src) i.imm =
      .value ((isaAlu op (d.setWidth 32) (operand32 src (s.reg i.src) i.imm)).setWidth 64) := by
  simp only [Inst.ShiftInRange, Inst.shiftAmount, hop] at hshift
  rw [operand32_eq]
  cases op with
  | add => cases src <;> simp only [alu32, add_eq_isaAlu]
  | sub => cases src <;> simp only [alu32, sub_eq_isaAlu]
  | mul => cases src <;> simp only [alu32, mul_eq_isaAlu]
  | or => cases src <;> simp only [alu32, or_eq_isaAlu]
  | and => cases src <;> simp only [alu32, and_eq_isaAlu]
  | xor => cases src <;> simp only [alu32, xor_eq_isaAlu]
  | mov => rfl
  | div => cases hdiv
  | mod => cases hdiv
  | lsh =>
      have hlt := hshift rfl
      cases src <;> simp only at hlt <;>
        simp [alu32, ← shiftLeft_eq_isaAlu] <;> omega
  | rsh =>
      have hlt := hshift rfl
      cases src <;> simp only at hlt <;>
        simp [alu32, ← ushiftRight_eq_isaAlu] <;> omega
  | arsh =>
      have hlt := hshift rfl
      cases src <;> simp only at hlt
      case imm =>
        simp [alu32, ← sshiftRight_eq_isaAlu, signExtend_toNat_of_lt (hlt.trans (by decide)), hlt]
      case reg =>
        have hlow : ((s.reg i.src).setWidth 32).toNat = (s.reg i.src).toNat := by
          rw [BitVec.toNat_setWidth]
          omega
        simp only [alu32, ← sshiftRight_eq_isaAlu, hlow, if_pos hlt]

/-- The 64-bit class computes on whole registers and sign-extended
immediates. -/
theorem alu64_isa {op : AluOp} {src : Src} (hop : i.op = .alu64 op src)
    (hdiv : op.isDivision = false) (hshift : i.ShiftInRange s.reg) (d : BitVec 64) :
    alu64 c op src d (s.reg i.src) i.imm =
      .value (isaAlu op d (operand64 src (s.reg i.src) i.imm)) := by
  have hamount : op.isShift = true →
      (operand64 src (s.reg i.src) i.imm).toNat < 64 := by
    intro h
    simp only [Inst.ShiftInRange, Inst.shiftAmount, hop] at hshift
    have hlt := hshift h
    rw [operand64_eq]
    cases src <;> simp only at hlt ⊢
    · rwa [signExtend_toNat_of_lt hlt]
    · exact hlt
  rw [operand64_eq] at hamount ⊢
  cases op with
  | add => cases src <;> simp only [alu64, add_eq_isaAlu]
  | sub => cases src <;> simp only [alu64, sub_eq_isaAlu]
  | mul => cases src <;> simp only [alu64, mul_eq_isaAlu]
  | or => cases src <;> simp only [alu64, or_eq_isaAlu]
  | and => cases src <;> simp only [alu64, and_eq_isaAlu]
  | xor => cases src <;> simp only [alu64, xor_eq_isaAlu]
  | mov => rfl
  | div => cases hdiv
  | mod => cases hdiv
  | lsh =>
      have hlt := hamount rfl
      cases src <;> simp only [alu64, if_pos hlt, shiftLeft_eq_isaAlu]
  | rsh =>
      have hlt := hamount rfl
      cases src <;> simp only [alu64, if_pos hlt, ushiftRight_eq_isaAlu]
  | arsh =>
      have hlt := hamount rfl
      cases src <;> simp only [alu64, if_pos hlt, sshiftRight_eq_isaAlu]

/-- A register form compares the two registers as 64-bit numbers. -/
theorem jmpTaken_reg_isa (op : JmpOp) (d y : BitVec 64) (imm : BitVec 32) :
    jmpTaken op .reg d y imm = isaJump op d y := by
  rw [Bool.eq_iff_iff]
  cases op with
  | jeq => simp [jmpTaken, isaJump, BitVec.toNat_inj]
  | jne => simp [jmpTaken, isaJump, BitVec.toNat_inj]
  | jset => simp [jmpTaken, isaJump, ← BitVec.toNat_inj]
  | jgt => simp [jmpTaken, isaJump, BitVec.ult_iff_toNat_lt]
  | jge => simp [jmpTaken, isaJump, BitVec.ule_eq_decide]
  | jlt => simp [jmpTaken, isaJump, BitVec.ult_iff_toNat_lt]
  | jle => simp [jmpTaken, isaJump, BitVec.ule_eq_decide]
  | jsgt => simp [jmpTaken, isaJump, BitVec.slt_eq_decide]
  | jsge => simp [jmpTaken, isaJump, BitVec.sle_eq_decide]
  | jslt => simp [jmpTaken, isaJump, BitVec.slt_eq_decide]
  | jsle => simp [jmpTaken, isaJump, BitVec.sle_eq_decide]

/-- An immediate form outside the unsigned order relations is the register
form at the sign-extended immediate. -/
theorem jmpTaken_imm {op : JmpOp} (hop : op.isUnsignedOrder = false) (d s : BitVec 64)
    (imm : BitVec 32) :
    jmpTaken op .imm d s imm = jmpTaken op .reg d (imm.signExtend 64) imm := by
  cases op <;> first | rfl | cases hop

theorem jmpTaken_isa {op : JmpOp} {src : Src} (h : (Opcode.jmp op src).conforms)
    (d s : BitVec 64) (imm : BitVec 32) :
    jmpTaken op src d s imm = isaJump op d (operand64 src s imm) := by
  rw [operand64_eq]
  cases src with
  | imm =>
      have hop : op.isUnsignedOrder = false := by simpa [Opcode.conforms] using h
      rw [jmpTaken_imm hop, jmpTaken_reg_isa]
  | reg => exact jmpTaken_reg_isa op d s imm

/-! ### One iteration -/

theorem next_eq (pc : BitVec 16) (n : ℕ) :
    BitVec.ofNat 16 (pc.toNat + n) = pc + BitVec.ofNat 16 n := by
  rw [BitVec.ofNat_add, BitVec.ofNat_toNat, BitVec.setWidth_eq]

theorem target_eq (pc offset : BitVec 16) :
    BitVec.ofInt 16 (pc.toNat + 1 + offset.toInt) = pc + 1 + offset := by
  have hone : BitVec.ofInt 16 1 = 1 := rfl
  simp only [BitVec.ofInt_add, BitVec.ofInt_natCast, BitVec.ofNat_toNat, BitVec.setWidth_eq,
    BitVec.ofInt_toInt, hone]

theorem setReg_eq_update (s : State) (r : BitVec 4) (v : BitVec 64) :
    s.setReg r v = { s with reg := Function.update s.reg r v } := by
  simp only [State.setReg, State.mk.injEq, true_and, and_true]
  funext j
  rw [Function.update_apply]

/-- The condition of a conditional jump, read from the registers. -/
def takesJump (i : Inst) (s : State) : Bool :=
  match i.op with
  | .jmp op src => jmpTaken op src (s.reg i.dst) (s.reg i.src) i.imm
  | _ => false

/-- A conditional jump moves the program counter by its offset exactly when
it is taken, and changes nothing else. -/
theorem execInst_jmp {op : JmpOp} {src : Src} (hop : i.op = .jmp op src)
    (hregs : i.regsInFile) :
    execInst c i s = .cont { s with pc := if takesJump i s then s.pc + i.offset else s.pc } := by
  simp only [execInst, takesJump, hop, hregs, Bool.not_true, Bool.false_eq_true, if_false]
  split <;> rfl

/-- The two halves of `LDDW`. -/
theorem lddw_value (lo hi : BitVec 32) :
    (lo.setWidth 64 ||| (hi.setWidth 64 <<< 32) : BitVec 64) =
      BitVec.ofNat 64 (lo.toNat + 2 ^ 32 * hi.toNat) := by
  apply BitVec.eq_of_toNat_eq
  have hlo := lo.isLt
  have hhi := hi.isLt
  have hor : lo.toNat ||| hi.toNat <<< 32 = lo.toNat + 2 ^ 32 * hi.toNat := by
    rw [Nat.shiftLeft_eq, Nat.mul_comm, Nat.or_comm, ← Nat.two_pow_add_eq_or_of_lt hlo]
    exact Nat.add_comm _ _
  have hshl : (hi.toNat <<< 32) % 2 ^ 64 = hi.toNat <<< 32 := by
    rw [Nat.shiftLeft_eq]
    omega
  have hlo' : (lo.setWidth 64).toNat = lo.toNat := by
    rw [BitVec.toNat_setWidth]
    omega
  have hhi' : (hi.setWidth 64).toNat = hi.toNat := by
    rw [BitVec.toNat_setWidth]
    omega
  rw [BitVec.toNat_or, BitVec.toNat_shiftLeft, hlo', hhi', hshl, hor, BitVec.toNat_ofNat]
  omega

/-- The switch does what the instruction set says: the program counter and
the destination register get their values, and nothing else changes. -/
theorem execInst_isa (hconf : i.op.conforms) (hregs : i.regsInFile)
    (hshift : i.ShiftInRange s.reg) :
    execInst c i { s with pc := s.pc + 1 } =
      .cont { s with
        pc := (isaExec (c.vm.insts s.mem) i s.pc s.reg).1
        reg := (isaExec (c.vm.insts s.mem) i s.pc s.reg).2 } := by
  cases hop : i.op <;> rw [hop] at hconf
  case alu op src =>
    have hdiv : op.isDivision = false := by simpa [Opcode.conforms] using hconf
    have hval := alu32_isa (c := c) hop hdiv hshift (s.reg i.dst)
    simp [execInst, isaExec, hregs, hop, hval, finishAlu, setReg_eq_update, next_eq]
  case alu64 op src =>
    have hdiv : op.isDivision = false := by simpa [Opcode.conforms] using hconf
    have hval := alu64_isa (c := c) hop hdiv hshift (s.reg i.dst)
    simp [execInst, isaExec, hregs, hop, hval, finishAlu, setReg_eq_update, next_eq]
  case neg =>
    simp [execInst, isaExec, hregs, hop, setReg_eq_update, next_eq, ← neg_eq_isaNeg]
  case neg64 =>
    simp [execInst, isaExec, hregs, hop, setReg_eq_update, next_eq, ← neg_eq_isaNeg]
  case lddw =>
    simp [execInst, isaExec, hregs, hop, setReg_eq_update, next_eq, lddw_value,
      BitVec.add_assoc]
  case ja =>
    simp [execInst, isaExec, hregs, hop, target_eq]
  case jmp op src =>
    rw [execInst_jmp hop hregs]
    simp [isaExec, takesJump, hop, target_eq, next_eq, jmpTaken_isa hconf]
  all_goals cases hconf

/-- One iteration of the loop on a conforming instruction: the switch leaves
exactly the program counter and the registers of the instruction set, and
within the budget the loop goes on from there. -/
theorem step_isa (c : Call) (s : State) (hconf : (fetch c s).op.conforms)
    (hregs : (fetch c s).regsInFile) (hshift : (fetch c s).ShiftInRange s.reg) :
    let next := isaExec (c.vm.insts s.mem) (fetch c s) s.pc s.reg
    execInst c (fetch c s) { s with pc := s.pc + 1 } =
        .cont { s with pc := next.1, reg := next.2 } ∧
      (s.tick ≤ maxIters →
        step c s = .cont { s with pc := next.1, reg := next.2, tick := s.tick + 1 }) := by
  intro next
  have hexec := execInst_isa (c := c) hconf hregs hshift
  refine ⟨hexec, ?_⟩
  intro htick
  have hcheck : itersCheck s.tick = true := by simpa [itersCheck] using htick
  simp only [step, hexec, hcheck, if_true]
  rfl

/-- `sub32 r2, 1` at every address. -/
def borrow : Call where
  vm :=
    { insts := fun _ _ =>
        { opcode := (Opcode.alu .sub .imm).byte, dst := 2, src := 0, offset := 0, imm := 1 }
      boundsCheckEnabled := true
      extFuncs := fun _ => none }
  mem := 0
  memLen := 0
  stack := 0x20000000
  overshift := fun _ _ => 0
  oneShl32 := 0

theorem borrow_stays_low :
    ∃ t, step borrow (initState borrow (fun _ => 0) (fun _ => 0)) = .cont t ∧
      t.pc = 1 ∧ t.reg 2 = 0xffffffff := by
  have hop : (fetch borrow (initState borrow (fun _ => 0) (fun _ => 0))).op = .alu .sub .imm :=
    opcodeOf_byte (.alu .sub .imm)
  have hshift : (fetch borrow (initState borrow (fun _ => 0) (fun _ => 0))).ShiftInRange
      (initState borrow (fun _ => 0) (fun _ => 0)).reg := by
    simp only [Inst.ShiftInRange, hop]
    intro h
    cases h
  have hstep := (step_isa borrow (initState borrow (fun _ => 0) (fun _ => 0)) (by decide)
    (by decide) hshift).2 (Nat.zero_le _)
  exact ⟨_, hstep, by decide, by decide⟩

/-! ### Immediate and register forms of the jumps -/

/-- `EBPF_OP_J*_IMM`. -/
def jumpImm (op : JmpOp) (dst : BitVec 4) (offset : BitVec 16) (imm : BitVec 32) : Inst :=
  { opcode := (Opcode.jmp op .imm).byte, dst := dst, src := 0, offset := offset, imm := imm }

/-- `EBPF_OP_J*_REG`. -/
def jumpReg (op : JmpOp) (dst src : BitVec 4) (offset : BitVec 16) : Inst :=
  { opcode := (Opcode.jmp op .reg).byte, dst := dst, src := src, offset := offset, imm := 0 }

/-- `EBPF_OP_MOV64_IMM`. -/
def mov64Imm (dst : BitVec 4) (imm : BitVec 32) : Inst :=
  { opcode := (Opcode.alu64 .mov .imm).byte, dst := dst, src := 0, offset := 0, imm := imm }

/-- The value lies between the zero-extended and the sign-extended negative
immediate, so that one of the unsigned order relations tells them apart. -/
def betweenExtensions (op : JmpOp) (d : BitVec 64) (imm : BitVec 32) : Prop :=
  imm.msb = true ∧
    match op with
    | .jgt | .jle => imm.toNat < d.toNat ∧ d.toNat ≤ imm.toNat + (2 ^ 64 - 2 ^ 32)
    | .jge | .jlt => imm.toNat ≤ d.toNat ∧ d.toNat < imm.toNat + (2 ^ 64 - 2 ^ 32)
    | _ => False

theorem signExtend_toNat (imm : BitVec 32) :
    (imm.signExtend 64).toNat = imm.toNat + if imm.msb then 2 ^ 64 - 2 ^ 32 else 0 := by
  have hlt := imm.isLt
  rw [BitVec.toNat_signExtend, BitVec.toNat_setWidth]
  omega

/-- The two forms of a relation agree on a value unless it lies between the
two extensions of the immediate. -/
theorem jmpTaken_forms_agree (op : JmpOp) (d s : BitVec 64) (imm imm' : BitVec 32) :
    jmpTaken op .imm d s imm = jmpTaken op .reg d (imm.signExtend 64) imm' ↔
      ¬betweenExtensions op d imm := by
  have hlt := imm.isLt
  have hz : (imm.setWidth 64).toNat = imm.toNat := by
    rw [BitVec.toNat_setWidth]
    omega
  have hs := signExtend_toNat imm
  rw [Bool.eq_iff_iff]
  cases op with
  | jgt => simp only [jmpTaken, betweenExtensions, BitVec.ult_iff_toNat_lt]; grind
  | jge => simp only [jmpTaken, betweenExtensions, BitVec.ule_eq_decide]; grind
  | jlt => simp only [jmpTaken, betweenExtensions, BitVec.ult_iff_toNat_lt]; grind
  | jle => simp only [jmpTaken, betweenExtensions, BitVec.ule_eq_decide]; grind
  | _ => simp [jmpTaken, betweenExtensions]

theorem execInst_mov64Imm {r : BitVec 4} {imm : BitVec 32}
    (h : execInst c (mov64Imm r imm) s = .cont t) : t.reg r = imm.signExtend 64 := by
  have hop : (mov64Imm r imm).op = .alu64 .mov .imm :=
    opcodeOf_byte (.alu64 .mov .imm)
  simp only [execInst, hop, alu64, finishAlu] at h
  split at h
  · cases h
  · cases h
    simp [mov64Imm]

/-- After `MOV64_IMM` has loaded the immediate into the source register, the
two forms of a conditional jump decide alike exactly when the destination
does not lie between the two extensions of the immediate. -/
theorem takesJump_forms_agree_iff (c : Call) (op : JmpOp) (dst src : BitVec 4)
    (offset : BitVec 16) (imm : BitVec 32) (s t : State)
    (hmov : execInst c (mov64Imm src imm) s = .cont t) :
    takesJump (jumpImm op dst offset imm) t = takesJump (jumpReg op dst src offset) t ↔
      ¬betweenExtensions op (t.reg dst) imm := by
  have himm : (jumpImm op dst offset imm).op = .jmp op .imm := opcodeOf_byte (.jmp op .imm)
  have hreg : (jumpReg op dst src offset).op = .jmp op .reg := opcodeOf_byte (.jmp op .reg)
  simp only [takesJump, himm, hreg]
  simp only [jumpImm, jumpReg]
  rw [execInst_mov64Imm hmov]
  exact jmpTaken_forms_agree op (t.reg dst) (t.reg 0) imm 0

/-- The state in which the examples below jump: `r2` holds `2 ^ 32`. -/
def wideState : State where
  pc := 1
  reg := fun r => if r = 2 then 0x100000000 else 0
  mem := fun _ => 0
  tick := 0

theorem jgt_five_forms_agree :
    ∃ t, execInst borrow (mov64Imm 3 5) wideState = .cont t ∧
      takesJump (jumpImm .jgt 2 7 5) t = takesJump (jumpReg .jgt 2 3 7) t := by
  refine ⟨_, rfl, (takesJump_forms_agree_iff borrow .jgt 2 3 7 5 wideState _ rfl).mpr ?_⟩
  rintro ⟨hmsb, -⟩
  cases hmsb

/-- `JGT r2, -1` jumps for `2 ^ 32`, which is not above what `MOV64_IMM`
makes of `-1`. -/
theorem jgt_minus_one_forms_differ :
    ∃ t, execInst borrow (mov64Imm 3 (-1)) wideState = .cont t ∧
      takesJump (jumpImm .jgt 2 7 (-1)) t = true ∧
        takesJump (jumpReg .jgt 2 3 7) t = false :=
  ⟨_, rfl, by decide, by decide⟩

end RapidPatch.Vm

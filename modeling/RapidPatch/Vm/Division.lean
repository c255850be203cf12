import RapidPatch.Vm.Isa

/-!
Division and remainder.

The instruction set divides at the width of its class, and a divisor of zero
ends the run with `-1`. The interpreter has eight cases for it. The immediate
forms have no guard; the register forms of the 32-bit class guard the whole
source register and divide by its low word; `DIV64_REG` guards the source
register and divides by the immediate. `dividesRight_iff` says for which
operands none of this shows.
-/

namespace RapidPatch.Vm

open RapidPatch.Support

/-- `DIV`, `MOD`, `DIV64` and `MOD64`. -/
def Opcode.isDivision : Opcode → Bool
  | .alu op _ | .alu64 op _ => op.isDivision
  | _ => false

def Inst.isaDivisor (i : Inst) (reg : BitVec 4 → BitVec 64) : ℕ :=
  match i.op with
  | .alu _ src => (operand32 src (reg i.src) i.imm).toNat
  | .alu64 _ src => (operand64 src (reg i.src) i.imm).toNat
  | _ => 0

/-- A division as the instruction set has it: a divisor of zero ends the run
with `-1`, any other one leaves the quotient or the remainder in `dst` and
changes nothing else. -/
def DividesRight (c : Call) (s : State) : Prop :=
  let i := fetch c s
  let next := isaExec (c.vm.insts s.mem) i s.pc s.reg
  if i.isaDivisor s.reg = 0 then step c s = .stop returnError
  else execInst c i { s with pc := s.pc + 1 } = .cont { s with pc := next.1, reg := next.2 }

/-! ### The cases as divisions in `ℕ` -/

section Width

variable {w : ℕ} (x y : BitVec w)

theorem udiv_eq_isaAlu : BitVec.udiv x y = isaAlu .div x y := by
  show x / y = BitVec.ofNat w (x.toNat / y.toNat)
  apply BitVec.eq_of_toNat_eq
  have hlt : x.toNat / y.toNat < 2 ^ w := (Nat.div_le_self _ _).trans_lt x.isLt
  rw [BitVec.toNat_udiv, BitVec.toNat_ofNat, Nat.mod_eq_of_lt hlt]

theorem umod_eq_isaAlu : BitVec.umod x y = isaAlu .mod x y := by
  show x % y = BitVec.ofNat w (x.toNat % y.toNat)
  apply BitVec.eq_of_toNat_eq
  have hlt : x.toNat % y.toNat < 2 ^ w := (Nat.mod_le _ _).trans_lt x.isLt
  rw [BitVec.toNat_umod, BitVec.toNat_ofNat, Nat.mod_eq_of_lt hlt]

end Width

variable {c : Call} {i : Inst} {s t : State} {op : AluOp} {src : Src}

/-- The guard of the 32-bit class reads the whole register, the division its
low word. -/
theorem alu32_division (hop : op.isDivision) (d x : BitVec 64) (imm : BitVec 32) :
    alu32 c op .imm d x imm = divOrMod (isaAlu op) (d.setWidth 32) imm ∧
      alu32 c op .reg d x imm =
        if x = 0 then .divByZero else divOrMod (isaAlu op) (d.setWidth 32) (x.setWidth 32) := by
  cases op with
  | div => simp only [alu32, divOrMod, udiv_eq_isaAlu, and_self]
  | mod => simp only [alu32, divOrMod, umod_eq_isaAlu, and_self]
  | _ => cases hop

/-- The number `DIV64_REG` and `MOD64_REG` divide by. -/
def usedDivisor (op : AluOp) (x : BitVec 64) (imm : BitVec 32) : BitVec 64 :=
  match op with
  | .div => imm.signExtend 64
  | _ => x

theorem alu64_division (hop : op.isDivision) (d x : BitVec 64) (imm : BitVec 32) :
    alu64 c op .imm d x imm = divOrMod (isaAlu op) d (imm.signExtend 64) ∧
      alu64 c op .reg d x imm =
        if x = 0 then .divByZero else divOrMod (isaAlu op) d (usedDivisor op x imm) := by
  cases op with
  | div =>
      simp only [alu64, divOrMod, udiv_eq_isaAlu, usedDivisor, true_and]
      rfl
  | mod =>
      simp only [alu64, divOrMod, umod_eq_isaAlu, usedDivisor, true_and]
      rfl
  | _ => cases hop

/-! ### What a result of the switch becomes -/

theorem finishAlu_eq_cont {r : AluResult} {v : BitVec 64} :
    finishAlu s i r = .cont (s.setReg i.dst v) ↔ r = .value v := by
  cases r with
  | value w =>
      rw [finishAlu, Next.cont.injEq, AluResult.value.injEq]
      constructor
      · intro h
        have hdst := congrArg (fun t : State => t.reg i.dst) h
        simpa using hdst
      · rintro rfl
        rfl
  | divByZero => simp [finishAlu]
  | undefined => simp [finishAlu]

theorem step_eq_returnError {r : AluResult}
    (hexec : execInst c (fetch c s) { s with pc := s.pc + 1 } = finishAlu t i r) :
    step c s = .stop returnError ↔ r = .divByZero := by
  rw [step, hexec]
  cases r with
  | value v =>
      simp only [finishAlu, reduceCtorEq, iff_false]
      split <;> simp [returnError]
  | divByZero => simp [finishAlu]
  | undefined => simp [finishAlu, returnError]

/-- The two halves of `DividesRight`, on the result of the case. -/
theorem dividesRight_iff_result {r : AluResult} {v : BitVec 64}
    (hexec : execInst c (fetch c s) { s with pc := s.pc + 1 } =
      finishAlu { s with pc := s.pc + 1 } (fetch c s) r)
    (hisa : isaExec (c.vm.insts s.mem) (fetch c s) s.pc s.reg =
      (BitVec.ofNat 16 (s.pc.toNat + 1), Function.update s.reg (fetch c s).dst v)) :
    DividesRight c s ↔
      if (fetch c s).isaDivisor s.reg = 0 then r = .divByZero else r = .value v := by
  simp only [DividesRight]
  split
  · exact step_eq_returnError hexec
  · rw [hexec, ← finishAlu_eq_cont (s := { s with pc := s.pc + 1 }) (i := fetch c s), hisa,
      setReg_eq_update, next_eq]
    rfl

theorem not_dividesRight_of_regs (h : (fetch c s).regsInFile = false) : ¬DividesRight c s := by
  have hexec : execInst c (fetch c s) { s with pc := s.pc + 1 } = .stop .undefined := by
    simp [execInst, h]
  simp only [DividesRight, step, hexec]
  split <;> simp [returnError]

/-! ### The operands for which the code divides right -/

/-- The quotient of `d` by `x` is also its quotient by `y`. -/
def SameQuotient (d x y : ℕ) : Prop := d / x * y ≤ d ∧ d < (d / x + 1) * y

theorem sameQuotient_iff {d x y : ℕ} : SameQuotient d x y ↔ y ≠ 0 ∧ d / y = d / x := by
  constructor
  · rintro ⟨hle, hlt⟩
    have hy : y ≠ 0 := by
      rintro rfl
      exact absurd hlt (Nat.not_lt_zero d)
    refine ⟨hy, Nat.le_antisymm ?_ ?_⟩
    · exact Nat.le_of_lt_succ (Nat.div_lt_of_lt_mul (by rwa [Nat.mul_comm]))
    · exact (Nat.le_div_iff_mul_le (Nat.pos_of_ne_zero hy)).mpr hle
  · rintro ⟨hy, heq⟩
    rw [SameQuotient, ← heq]
    exact ⟨Nat.div_mul_le_self d y, Nat.lt_mul_of_div_lt (Nat.lt_succ_self _)
      (Nat.pos_of_ne_zero hy)⟩

/-- The registers exist, an immediate divisor is not zero, a source register
of the 32-bit class is zero only as a whole, and the immediate of `DIV64_REG`
gives the same quotient as the source register. -/
def DivisionGuarded (i : Inst) (reg : BitVec 4 → BitVec 64) : Prop :=
  i.regsInFile ∧
    match i.op with
    | .alu _ .imm | .alu64 _ .imm => i.imm ≠ 0
    | .alu _ .reg => reg i.src = 0 ∨ (reg i.src).setWidth 32 ≠ 0
    | .alu64 .div .reg =>
        reg i.src = 0 ∨
          SameQuotient (reg i.dst).toNat (reg i.src).toNat (i.imm.signExtend 64).toNat
    | _ => True

theorem divOrMod_eq_value {w : ℕ} {f : BitVec w → BitVec w → BitVec w} {x y : BitVec w}
    {v : BitVec 64} : divOrMod f x y = .value v ↔ y ≠ 0 ∧ (f x y).setWidth 64 = v := by
  unfold divOrMod
  split <;> simp_all

theorem divOrMod_ne_divByZero {w : ℕ} {f : BitVec w → BitVec w → BitVec w} {x y : BitVec w} :
    divOrMod f x y ≠ .divByZero := by
  unfold divOrMod
  split <;> simp

theorem toNat_eq_zero {w : ℕ} {y : BitVec w} : y.toNat = 0 ↔ y = 0 := by
  rw [← BitVec.toNat_inj]
  rfl

theorem unguarded_iff {w : ℕ} {f : BitVec w → BitVec w → BitVec w} {x y : BitVec w} :
    (if y.toNat = 0 then divOrMod f x y = .divByZero
      else divOrMod f x y = .value ((f x y).setWidth 64)) ↔ y ≠ 0 := by
  split
  · rename_i hy
    simp [divOrMod_ne_divByZero, toNat_eq_zero.mp hy]
  · rename_i hy
    simp [divOrMod_eq_value]

/-- A case that guards `g` and divides by `z` where it should divide by `y`. -/
theorem guarded_iff {w w' : ℕ} {f : BitVec w → BitVec w → BitVec w} {g : BitVec w'}
    {x y z : BitVec w} {v : BitVec 64} (hg : g = 0 → y = 0) :
    (if y.toNat = 0 then (if g = 0 then .divByZero else divOrMod f x z) = AluResult.divByZero
      else (if g = 0 then .divByZero else divOrMod f x z) = .value v) ↔
        g = 0 ∨ (y ≠ 0 ∧ z ≠ 0 ∧ (f x z).setWidth 64 = v) := by
  by_cases hg0 : g = 0
  · simp [hg0, hg hg0]
  · simp only [hg0, if_false, false_or]
    split
    · rename_i hy
      simp [divOrMod_ne_divByZero, toNat_eq_zero.mp hy]
    · rename_i hy
      have hy : y ≠ 0 := toNat_eq_zero.not.mp hy
      simp only [divOrMod_eq_value, ne_eq, hy, not_false_eq_true, true_and]

theorem signExtend_eq_zero {imm : BitVec 32} : imm.signExtend 64 = 0 ↔ imm = 0 := by
  constructor
  · intro h
    rw [← BitVec.toInt_inj] at h ⊢
    rwa [BitVec.toInt_signExtend_of_le (by decide)] at h
  · rintro rfl
    rfl

/-- The quotients that `DIV64_REG` and the instruction set compute. -/
theorem quotient_eq_iff {d x y : BitVec 64} :
    y ≠ 0 ∧ isaAlu .div d y = isaAlu .div d x ↔ SameQuotient d.toNat x.toNat y.toNat := by
  have hdiv : isaAlu .div d y = isaAlu .div d x ↔ (d / y).toNat = (d / x).toNat := by
    rw [← udiv_eq_isaAlu, ← udiv_eq_isaAlu, BitVec.toNat_inj]
    rfl
  rw [sameQuotient_iff, hdiv, BitVec.toNat_udiv, BitVec.toNat_udiv, Ne, Ne, toNat_eq_zero]

/-- A division does what the instruction set says exactly where its guard and
its divisor are the operand the instruction set divides by. -/
theorem dividesRight_iff (c : Call) (s : State) (hop : (fetch c s).op.isDivision) :
    DividesRight c s ↔ DivisionGuarded (fetch c s) s.reg := by
  cases hregs : (fetch c s).regsInFile with
  | false => simp [DivisionGuarded, not_dividesRight_of_regs hregs, hregs]
  | true =>
      cases hkind : (fetch c s).op <;> rw [hkind] at hop
      case alu op src =>
        have hdiv : op.isDivision := hop
        have hexec : execInst c (fetch c s) { s with pc := s.pc + 1 } =
            finishAlu { s with pc := s.pc + 1 } (fetch c s) (alu32 c op src
              (s.reg (fetch c s).dst) (s.reg (fetch c s).src) (fetch c s).imm) := by
          simp [execInst, hregs, hkind]
        rw [dividesRight_iff_result hexec (by simp only [isaExec, hkind]; rfl)]
        cases src with
        | imm =>
            rw [(alu32_division hdiv _ _ _).1]
            simp only [DivisionGuarded, Inst.isaDivisor, hkind, hregs, true_and]
            rw [zeroExtended_eq]
            exact unguarded_iff
        | reg =>
            rw [(alu32_division hdiv _ _ _).2]
            simp only [DivisionGuarded, Inst.isaDivisor, hkind, hregs, true_and]
            rw [guarded_iff (by rintro h; rw [h]; rfl)]
            simp [operand32_eq]
      case alu64 op src =>
        have hdiv : op.isDivision := hop
        have hexec : execInst c (fetch c s) { s with pc := s.pc + 1 } =
            finishAlu { s with pc := s.pc + 1 } (fetch c s) (alu64 c op src
              (s.reg (fetch c s).dst) (s.reg (fetch c s).src) (fetch c s).imm) := by
          simp [execInst, hregs, hkind]
        rw [dividesRight_iff_result hexec (by simp only [isaExec, hkind]; rfl)]
        cases src with
        | imm =>
            rw [(alu64_division hdiv _ _ _).1]
            simp only [DivisionGuarded, Inst.isaDivisor, hkind, hregs, true_and]
            have hresult := unguarded_iff (f := isaAlu op) (x := s.reg (fetch c s).dst)
              (y := (fetch c s).imm.signExtend 64)
            rw [BitVec.setWidth_eq, Ne, signExtend_eq_zero] at hresult
            exact hresult
        | reg =>
            rw [(alu64_division hdiv _ _ _).2]
            simp only [DivisionGuarded, Inst.isaDivisor, hkind, hregs, true_and]
            rw [guarded_iff (by rintro h; rw [h]; rfl), BitVec.setWidth_eq, operand64_eq]
            cases op with
            | div =>
                simp only [usedDivisor, quotient_eq_iff]
                grind
            | mod =>
                simp only [usedDivisor]
                grind
            | _ => cases hdiv
      all_goals cases hop

def everywhere (i : Inst) : Call := { borrow with vm := { borrow.vm with insts := fun _ _ => i } }

/-- `DIV64_REG r0, r1` as an assembler encodes it, with an immediate of zero. -/
def div64Reg : Inst :=
  { opcode := (Opcode.alu64 .div .reg).byte, dst := 0, src := 1, offset := 0, imm := 0 }

/-- The registers in which `div64-reg` divides. -/
def div64State : State where
  pc := 0
  reg := fun r => if r = 0 then 0xc00000000 else 4
  mem := fun _ => 0
  tick := 0

theorem dividesRight_same_immediate :
    DividesRight (everywhere { div64Reg with imm := 4 }) div64State := by
  refine (dividesRight_iff _ _ (by decide)).mpr ⟨by decide, Or.inr ?_⟩
  unfold SameQuotient
  decide

/-- `DIV64_REG` divides by its immediate, not by its source register. -/
theorem div64Reg_divides_by_zero : ¬DividesRight (everywhere div64Reg) div64State := by
  have hexec : execInst (everywhere div64Reg) (fetch (everywhere div64Reg) div64State)
      { div64State with pc := div64State.pc + 1 } = .stop .undefined := rfl
  have hdiv : (fetch (everywhere div64Reg) div64State).isaDivisor div64State.reg = 4 := by
    decide
  simp only [DividesRight, hdiv]
  intro h
  cases hexec.symm.trans h

end RapidPatch.Vm

import RapidPatch.Vm.Budget

/-!
Which bytes the memory instructions touch.

`memAccess` is the address a load or a store really uses, and `Sandboxed`
says of one iteration that every byte of that access lies in the argument
memory or on the VM stack, or that the iteration returns `-1` instead.

The checks of the interpreter do not give this. The check of `LDXW` is
commented out; `BOUNDS_CHECK_STORE` computes its address from the source
register while the store goes through the destination register; and
`bounds_check` adds sizes and lengths to `u32` pointers, so that the windows
it accepts are four times as long as the regions. `WellChecked` excludes
these three on the state before an iteration, and a run all of whose
iterations are well checked stays in the sandbox.
-/

namespace RapidPatch.Vm

open RapidPatch.Support

variable {c : Call} {s t : State}

/-! ### Accesses and regions -/

def memAccess (i : Inst) (s : State) : Option (BitVec 32 × Size) :=
  match i.op with
  | .ldx size => some (address (s.reg i.src) i, size)
  | .st size => some (address (s.reg i.dst) i, size)
  | .stx size => some (address (s.reg i.dst) i, size)
  | _ => none

/-- `x` is one of the `len` bytes from `base` on. -/
def InRegion (base : BitVec 32) (len : ℕ) (x : BitVec 32) : Prop :=
  base.toNat ≤ x.toNat ∧ x.toNat < base.toNat + len

/-- `x` is a byte of `[mem, mem + mem_len)` or of `[stack, stack + STACK_SIZE)`. -/
def InSandbox (c : Call) (x : BitVec 32) : Prop :=
  InRegion c.mem c.memLen.toNat x ∨ InRegion c.stack stackSize x

/-- The iteration from `s` touches sandboxed bytes only, or returns `-1`
without the access. -/
def Sandboxed (c : Call) (s : State) : Prop :=
  ∀ a size, memAccess (fetch c s) s = some (a, size) →
    (∀ j < size.bytes, InSandbox c (a + BitVec.ofNat 32 j)) ∨ step c s = .stop returnError

/-! ### What the checks let through -/

/-- The comparison `bounds_check` makes for one region: in words. -/
def InWindow (base len a : BitVec 32) (size : ℕ) : Prop :=
  base ≤ a ∧ a + 4 * BitVec.ofNat 32 size ≤ base + 4 * len

/-- An access of `size` bytes at `a` runs past the last of the `len` bytes
from `base` on, or past the end of the address space. -/
def PastEnd (base : BitVec 32) (len : ℕ) (a : BitVec 32) (size : ℕ) : Prop :=
  base.toNat + len < a.toNat + size ∨ 2 ^ 32 < a.toNat + size

/-- One of the two windows of `bounds_check` accepts the access. -/
def InSomeWindow (c : Call) (a : BitVec 32) (size : ℕ) : Prop :=
  (c.mem ≠ 0 ∧ InWindow c.mem c.memLen a size) ∨
    InWindow c.stack (BitVec.ofNat 32 stackSize) a size

/-- The access is accepted, but lies in what the accepting windows have over
their regions. -/
def Overshoots (c : Call) (a : BitVec 32) (size : ℕ) : Prop :=
  InSomeWindow c a size ∧
    (c.mem ≠ 0 ∧ InWindow c.mem c.memLen a size → PastEnd c.mem c.memLen.toNat a size) ∧
    (InWindow c.stack (BitVec.ofNat 32 stackSize) a size → PastEnd c.stack stackSize a size)

/-- The check the instruction makes before its access. -/
def checkPasses (c : Call) (i : Inst) (s : State) : Bool :=
  match i.op with
  | .ldx .w => true
  | .ldx size => boundsCheck c (address (s.reg i.src) i) size.bytes
  | .st size => boundsCheck c (address (s.reg i.src) i) size.bytes
  | .stx size => boundsCheck c (address (s.reg i.src) i) size.bytes
  | _ => true

/-- The iteration from `s` meets none of the three defects: when its own
check lets it through, `bounds_check` would accept the address it really
uses, and the access does not lie in what the window has over the region. -/
structure WellChecked (c : Call) (s : State) : Prop where
  regs : (fetch c s).regsInFile = true
  accepted : ∀ a size, memAccess (fetch c s) s = some (a, size) →
    checkPasses c (fetch c s) s = true → boundsCheck c a size.bytes = true
  inRegion : ∀ a size, memAccess (fetch c s) s = some (a, size) →
    checkPasses c (fetch c s) s = true → ¬Overshoots c a size.bytes

/-- With the checks on, `bounds_check` accepts exactly the two windows. -/
theorem boundsCheck_iff_window {a : BitVec 32} {size : ℕ}
    (hen : c.vm.boundsCheckEnabled = true) :
    boundsCheck c a size = true ↔ InSomeWindow c a size := by
  unfold boundsCheck InSomeWindow InWindow
  simp only [hen, Bool.not_true, Bool.false_eq_true, if_false]
  split
  · rename_i hmem
    exact ⟨fun _ => .inl hmem, fun _ => rfl⟩
  · rename_i hmem
    split
    · rename_i hstack
      exact ⟨fun _ => .inr hstack, fun _ => rfl⟩
    · rename_i hstack
      constructor
      · intro h
        cases h
      · rintro (h | h)
        · exact absurd h hmem
        · exact absurd h hstack

theorem inRegion_of_not_pastEnd {base a : BitVec 32} {len size j : ℕ} (hbase : base ≤ a)
    (hend : ¬PastEnd base len a size) (hj : j < size) :
    InRegion base len (a + BitVec.ofNat 32 j) := by
  unfold PastEnd at hend
  have ha := a.isLt
  have hle : base.toNat ≤ a.toNat := hbase
  have hx : (a + BitVec.ofNat 32 j).toNat = a.toNat + j := by
    rw [BitVec.toNat_add, BitVec.toNat_ofNat, Nat.mod_eq_of_lt (a := j) (by omega),
      Nat.mod_eq_of_lt (by omega)]
  unfold InRegion
  rw [hx]
  omega

/-- An accepted access that does not overshoot lies in a region. -/
theorem inSandbox_of_boundsCheck {a : BitVec 32} {size j : ℕ}
    (hen : c.vm.boundsCheckEnabled = true) (h : boundsCheck c a size = true)
    (hover : ¬Overshoots c a size) (hj : j < size) :
    InSandbox c (a + BitVec.ofNat 32 j) := by
  -- an access outside both regions runs past the end of every accepting window
  by_contra hout
  apply hover
  refine ⟨(boundsCheck_iff_window hen).mp h, fun hw => ?_, fun hw => ?_⟩
  · by_contra hend
    exact hout (.inl (inRegion_of_not_pastEnd hw.2.1 hend hj))
  · by_contra hend
    exact hout (.inr (inRegion_of_not_pastEnd hw.1 hend hj))

/-! ### One iteration -/

theorem execLdx_of_check_fails {size : Size} {i : Inst} {u : State} (hop : i.op = .ldx size)
    (h : checkPasses c i u = false) : execLdx c size i u = .stop returnError := by
  cases size <;> simp_all [checkPasses, execLdx]

theorem execInst_of_check_fails {i : Inst} {u : State} (hregs : i.regsInFile = true)
    (h : checkPasses c i u = false) : execInst c i u = .stop returnError := by
  unfold execInst
  rw [hregs]
  cases hop : i.op <;> simp only [Bool.not_true, Bool.false_eq_true, if_false]
  case ldx size => exact execLdx_of_check_fails hop h
  case st size => simp_all [checkPasses, execStore]
  case stx size => simp_all [checkPasses, execStore]
  all_goals simp [checkPasses, hop] at h

/-- An access whose check fails returns `-1`. -/
theorem step_of_check_fails (hregs : (fetch c s).regsInFile = true)
    (h : checkPasses c (fetch c s) s = false) : step c s = .stop returnError := by
  have hcheck : checkPasses c (fetch c s) { s with pc := s.pc + 1 } = false := h
  unfold step
  rw [execInst_of_check_fails hregs hcheck]

/-- A well-checked iteration stays in the sandbox. -/
theorem WellChecked.sandboxed (hen : c.vm.boundsCheckEnabled = true) (h : WellChecked c s) :
    Sandboxed c s := by
  intro a size hacc
  by_cases hcheck : checkPasses c (fetch c s) s = true
  · left
    intro j hj
    exact inSandbox_of_boundsCheck hen (h.accepted a size hacc hcheck)
      (h.inRegion a size hacc hcheck) hj
  · right
    exact step_of_check_fails h.regs (by simpa using hcheck)

/-- A byte outside the access of an iteration that calls no helper keeps its
value. -/
theorem step_mem_of_not_accessed {x : BitVec 32} (h : step c s = .cont t)
    (hcall : (fetch c s).op ≠ .call)
    (hx : ∀ a size, memAccess (fetch c s) s = some (a, size) →
      ∀ j < size.bytes, x ≠ a + BitVec.ofNat 32 j) :
    t.mem x = s.mem x := by
  obtain ⟨u, hu, _, rfl⟩ := step_cont h
  show u.mem x = s.mem x
  have store (size : Size) (v : BitVec 64)
      (hacc : memAccess (fetch c s) s = some (address (s.reg (fetch c s).dst) (fetch c s), size))
      (hst : execStore c size v (fetch c s) { s with pc := s.pc + 1 } = .cont u) :
      u.mem x = s.mem x := by
    simp only [execStore] at hst
    split at hst
    · cases hst
      show storeLE s.mem _ _ _ x = s.mem x
      unfold storeLE
      rw [if_neg]
      intro hlt
      -- a byte the store changes is one of the access
      apply hx _ _ hacc _ hlt
      bv_omega
    · cases hst
  unfold execInst at hu
  split at hu
  · cases hu
  · cases hop : (fetch c s).op <;> simp only [hop] at hu
    case alu =>
      obtain ⟨v, rfl⟩ := finishAlu_cont hu
      rfl
    case alu64 =>
      obtain ⟨v, rfl⟩ := finishAlu_cont hu
      rfl
    case ldx size =>
      cases size <;> simp only [execLdx] at hu
      case w =>
        cases hu
        rfl
      all_goals
        split at hu
        · cases hu
          rfl
        · cases hu
    case st size => exact store size _ (by simp [memAccess, hop]) hu
    case stx size => exact store size _ (by simp [memAccess, hop]) hu
    case call => exact absurd hop hcall
    case jmp =>
      split at hu
      all_goals
        cases hu
        rfl
    case exit => cases hu
    -- the others touch registers only
    all_goals
      cases hu
      rfl

/-! ### Whole runs -/

/-- Every run whose iterations are well checked is sandboxed: each byte its
memory instructions touch lies in the argument memory or on the stack, or
the run returns `-1` before the access. Helpers apart, no byte outside is
ever changed. -/
theorem ebpfVmExec_sandboxed (c : Call) (reg : BitVec 4 → BitVec 64) (mem : Mem)
    (hen : c.vm.boundsCheckEnabled = true)
    (hwell : ∀ s, Reaches (step c) (initState c reg mem) s → WellChecked c s) :
    (∀ s, Reaches (step c) (initState c reg mem) s → Sandboxed c s) ∧
      ((∀ s, Reaches (step c) (initState c reg mem) s → (fetch c s).op ≠ .call) →
        ∀ s, Reaches (step c) (initState c reg mem) s →
          ∀ x, ¬InSandbox c x → s.mem x = mem x) := by
  have hsafe (s : State) (hs : Reaches (step c) (initState c reg mem) s) : Sandboxed c s :=
    (hwell s hs).sandboxed hen
  refine ⟨hsafe, fun hcall s hs x hx => ?_⟩
  -- the induction is on the run; each step is sandboxed where it starts
  induction hs with
  | refl => rfl
  | tail hu hstep ih =>
      rename_i u v
      have hmem : v.mem x = u.mem x := by
        apply step_mem_of_not_accessed hstep (hcall u hu)
        rintro a size hacc j hj rfl
        rcases hsafe u hu a size hacc with hin | hstop
        · exact hx (hin j hj)
        · rw [hstop] at hstep
          cases hstep
      rw [hmem, ih]

/-! ### A load that is not checked -/

/-- `ldxw r0, [r10]` and `exit`: the word loaded starts right behind the
stack. -/
def loadBehindStack : Call where
  vm :=
    { insts := fun _ n => if n = 0
        then { opcode := (Opcode.ldx .w).byte, dst := 0, src := 10, offset := 0, imm := 0 }
        else { opcode := Opcode.exit.byte, dst := 0, src := 0, offset := 0, imm := 0 }
      boundsCheckEnabled := true
      extFuncs := fun _ => none }
  mem := 0
  memLen := 0
  stack := 0x20000000
  overshift := fun _ _ => 0
  oneShl32 := 0

theorem loadBehindStack_not_sandboxed :
    loadBehindStack.vm.boundsCheckEnabled = true ∧
      ∃ s, Reaches (step loadBehindStack) (initState loadBehindStack (fun _ => 0) (fun _ => 0)) s ∧
        ¬Sandboxed loadBehindStack s := by
  refine ⟨rfl, _, .refl _, ?_⟩
  intro h
  rcases h 0x20000080 .w (by decide) with hin | hstop
  · have hbyte := hin 0 (by decide)
    revert hbyte
    unfold InSandbox InRegion
    decide
  · cases hstop

/-- `ldxb r0, [r1]` and `exit`, on one byte of memory. -/
def loadFirstByte : Call where
  vm :=
    { insts := fun _ n => if n = 0
        then { opcode := (Opcode.ldx .b).byte, dst := 0, src := 1, offset := 0, imm := 0 }
        else { opcode := Opcode.exit.byte, dst := 0, src := 0, offset := 0, imm := 0 }
      boundsCheckEnabled := true
      extFuncs := fun _ => none }
  mem := 0x20001000
  memLen := 1
  stack := 0x20000000
  overshift := fun _ _ => 0
  oneShl32 := 0

theorem loadFirstByte_reaches {u v : State} (hu : u.pc = 0 ∧ u.reg 1 = 0x20001000 ∨ u.pc = 1)
    (h : step loadFirstByte u = .cont v) : v.pc = 1 := by
  obtain ⟨w, hw, _, rfl⟩ := step_cont h
  rcases hu with ⟨hpc, hr⟩ | hpc
  · have hfetch : fetch loadFirstByte u = loadFirstByte.vm.insts (fun _ => 0) 0 := by
      rw [fetch, hpc]
      rfl
    rw [hfetch] at hw
    have hld : execInst loadFirstByte (loadFirstByte.vm.insts (fun _ => 0) 0)
        { u with pc := u.pc + 1 } =
          execLdx loadFirstByte .b (loadFirstByte.vm.insts (fun _ => 0) 0)
            { u with pc := u.pc + 1 } := rfl
    rw [hld] at hw
    simp only [execLdx] at hw
    split at hw
    · cases hw
      show u.pc + 1 = 1
      rw [hpc]
      rfl
    · cases hw
  · have hfetch : fetch loadFirstByte u = loadFirstByte.vm.insts (fun _ => 0) 1 := by
      rw [fetch, hpc]
      rfl
    rw [hfetch] at hw
    cases hw

theorem loadFirstByte_wellChecked {u : State}
    (hu : u.pc = 0 ∧ u.reg 1 = 0x20001000 ∨ u.pc = 1) : WellChecked loadFirstByte u := by
  rcases hu with ⟨hpc, hr⟩ | hpc
  · have hfetch : fetch loadFirstByte u = loadFirstByte.vm.insts (fun _ => 0) 0 := by
      rw [fetch, hpc]
      rfl
    have hacc : memAccess (loadFirstByte.vm.insts (fun _ => 0) 0) u = some (0x20001000, .b) := by
      have haddr : address (u.reg 1) (loadFirstByte.vm.insts (fun _ => 0) 0) = 0x20001000 := by
        rw [hr]
        decide
      exact congrArg (fun a => some (a, Size.b)) haddr
    constructor <;> rw [hfetch]
    · decide
    · rintro a size h -
      rw [hacc] at h
      cases h
      decide
    · rintro a size h - hover
      rw [hacc] at h
      cases h
      have hend := hover.2.1 (by unfold InWindow; decide)
      revert hend
      unfold PastEnd
      decide
  · have hfetch : fetch loadFirstByte u = loadFirstByte.vm.insts (fun _ => 0) 1 := by
      rw [fetch, hpc]
      rfl
    constructor <;> rw [hfetch]
    · decide
    · rintro a size h -
      cases h
    · rintro a size h -
      cases h

theorem loadFirstByte_sandboxed :
    loadFirstByte.vm.boundsCheckEnabled = true ∧
      ∀ s, Reaches (step loadFirstByte) (initState loadFirstByte (fun _ => 0) (fun _ => 0)) s →
        Sandboxed loadFirstByte s := by
  refine ⟨rfl, (ebpfVmExec_sandboxed loadFirstByte (fun _ => 0) (fun _ => 0) rfl ?_).1⟩
  intro s hs
  apply loadFirstByte_wellChecked
  exact hs.invariant (P := fun u : State => u.pc = 0 ∧ u.reg 1 = 0x20001000 ∨ u.pc = 1)
    (fun u v hu hv => .inr (loadFirstByte_reaches hu hv)) (.inl ⟨rfl, by decide⟩)

end RapidPatch.Vm

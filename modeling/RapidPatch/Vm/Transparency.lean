import RapidPatch.Vm.Sandbox

/-!
The interpreter with and without its bounds checks.

A program whose accesses all lie in the argument memory or on the stack
should not notice `bounds_check_enabled`. Two runs of one call are compared,
with their results and with the memory they leave. They go together step by
step as long as `bounds_check` accepts the addresses it is handed
(`AcceptedAt`). For a load this is the address of the access, and an access
inside a region is accepted when the region, counted in words, ends inside
the address space (`RegionsFit`). For a store it is an address computed from
the source register, which has nothing to do with the access.
-/

namespace RapidPatch.Vm

open RapidPatch.Support

variable {c : Call} {i : Inst} {s t : State} {b : Bool}

/-! ### Results with the memory they leave -/

/-- The call with `bounds_check_enabled` set to `b`. -/
def Call.withChecks (c : Call) (b : Bool) : Call :=
  { c with vm := { c.vm with boundsCheckEnabled := b } }

/-- One iteration of the loop, with the memory it leaves where it returns. -/
def stepMem (c : Call) (s : State) : Next State (Outcome × Mem) :=
  match execInst c (fetch c s) { s with pc := s.pc + 1 } with
  | .stop o => .stop (o, s.mem)
  | .cont t =>
      if itersCheck t.tick then .cont { t with tick := t.tick + 1 }
      else .stop (.returned .budget (c.oneShl32.signExtend 64), t.mem)

/-- `ebpf_vm_exec`: what it returns, and the memory it leaves. -/
def ebpfVmExecMem (c : Call) (reg : BitVec 4 → BitVec 64) (mem : Mem) :
    Next State (Outcome × Mem) :=
  run (stepMem c) (maxIters + 2) (initState c reg mem)

theorem stepMem_cont_iff : stepMem c s = .cont t ↔ step c s = .cont t := by
  unfold stepMem step
  cases execInst c (fetch c s) { s with pc := s.pc + 1 } with
  | stop o => simp
  | cont u => by_cases h : itersCheck u.tick = true <;> simp [h]

/-- Both machines go through the same states. -/
theorem reaches_stepMem : Reaches (stepMem c) s t ↔ Reaches (step c) s t := by
  unfold Reaches
  simp only [stepMem_cont_iff]

/-- Whatever the program, the run returns. -/
theorem ebpfVmExecMem_stops (c : Call) (reg : BitVec 4 → BitVec 64) (mem : Mem) :
    ∃ r, ebpfVmExecMem c reg mem = .stop r := by
  refine run_stops_of_variant (P := fun _ => True) (fun u : State => maxIters + 1 - u.tick) ?_
    trivial
  intro u v _ hstep
  obtain ⟨w, _, hle, rfl⟩ := step_cont (stepMem_cont_iff.mp hstep)
  exact ⟨trivial, by simp only; omega⟩

theorem stepMem_of_exit {v : BitVec 64} (h : step c s = .stop (.returned .exit v)) :
    stepMem c s = .stop (.returned .exit v, s.mem) := by
  unfold step at h
  unfold stepMem
  cases hexec : execInst c (fetch c s) { s with pc := s.pc + 1 } with
  | stop o =>
      rw [hexec] at h
      cases h
      rfl
  | cont t =>
      rw [hexec] at h
      by_cases hiters : itersCheck t.tick = true <;> simp [hiters] at h

/-- A run that gets to an `EXIT` leaves the memory as it is there. -/
theorem ebpfVmExecMem_of_reaches {reg : BitVec 4 → BitVec 64} {mem : Mem} {v : BitVec 64}
    (h : Reaches (step c) (initState c reg mem) s) (hstop : step c s = .stop (.returned .exit v)) :
    ebpfVmExecMem c reg mem = .stop (.returned .exit v, s.mem) := by
  obtain ⟨r, hr⟩ := ebpfVmExecMem_stops c reg mem
  exact (reaches_stepMem.mpr h).run_eq_stop (stepMem_of_exit hstop) hr

/-! ### Where the checks make a difference -/

/-- The windows of `bounds_check` hold the address the instruction at `s`
hands to it, if it hands it one. -/
def AcceptedAt (c : Call) (s : State) : Prop :=
  match (fetch c s).op with
  | .ldx .w => True
  | .ldx size | .st size | .stx size =>
      InSomeWindow c (address (s.reg (fetch c s).src) (fetch c s)) size.bytes
  | _ => True

theorem boundsCheck_withChecks (a : BitVec 32) (size : ℕ) :
    boundsCheck (c.withChecks true) a size = true ↔ InSomeWindow c a size :=
  boundsCheck_iff_window (c := c.withChecks true) rfl

theorem boundsCheck_withoutChecks (a : BitVec 32) (size : ℕ) :
    boundsCheck (c.withChecks false) a size = true := rfl

/-- The check of the fetched instruction, with the checks on. -/
theorem checkPasses_iff_acceptedAt :
    checkPasses (c.withChecks true) (fetch c s) s = true ↔ AcceptedAt c s := by
  unfold checkPasses AcceptedAt
  cases (fetch c s).op with
  | ldx size => cases size <;> simp only [boundsCheck_withChecks]
  | st size => exact boundsCheck_withChecks _ _
  | stx size => exact boundsCheck_withChecks _ _
  | _ => exact ⟨fun _ => trivial, fun _ => rfl⟩

/-- The switch does not see the checks where they pass. -/
theorem execInst_withChecks (h : checkPasses (c.withChecks true) i s = true) :
    execInst (c.withChecks true) i s = execInst (c.withChecks false) i s := by
  unfold execInst
  cases hop : i.op
  case ldx size =>
    cases size <;> simp_all [checkPasses, execLdx, boundsCheck_withoutChecks]
  case st size => simp_all [checkPasses, execStore, boundsCheck_withoutChecks]
  case stx size => simp_all [checkPasses, execStore, boundsCheck_withoutChecks]
  all_goals rfl

theorem stepMem_withChecks (h : AcceptedAt c s) :
    stepMem (c.withChecks true) s = stepMem (c.withChecks false) s := by
  have hpass : checkPasses (c.withChecks true) (fetch c s) { s with pc := s.pc + 1 } = true :=
    checkPasses_iff_acceptedAt.mpr h
  have hexec := execInst_withChecks hpass
  unfold stepMem
  show (match execInst (c.withChecks true) (fetch c s) { s with pc := s.pc + 1 } with
    | .stop o => _
    | .cont t => _) = _
  rw [hexec]
  rfl

/-- Where the address is not accepted, the checked run returns `-1`. -/
theorem stepMem_not_accepted (hregs : (fetch c s).regsInFile = true) (h : ¬AcceptedAt c s) :
    stepMem (c.withChecks true) s = .stop (returnError, s.mem) := by
  have hfail : checkPasses (c.withChecks true) (fetch c s) { s with pc := s.pc + 1 } = false := by
    rw [← Bool.not_eq_true]
    intro hpass
    exact h (checkPasses_iff_acceptedAt.mp hpass)
  have hexec : execInst (c.withChecks true) (fetch (c.withChecks true) s)
      { s with pc := s.pc + 1 } = .stop returnError := execInst_of_check_fails hregs hfail
  unfold stepMem
  rw [hexec]

/-! ### Accesses inside a region -/

/-- Every byte of an access lies in one and the same region. -/
def AccessInside (c : Call) (a : BitVec 32) (size : ℕ) : Prop :=
  (∀ j < size, InRegion c.mem c.memLen.toNat (a + BitVec.ofNat 32 j)) ∨
    (∀ j < size, InRegion c.stack stackSize (a + BitVec.ofNat 32 j))

/-- The two regions end inside the address space even when their lengths
count words, and the argument memory is not at the null pointer. -/
def RegionsFit (c : Call) : Prop :=
  (c.memLen = 0 ∨ c.mem ≠ 0 ∧ c.mem.toNat + 4 * c.memLen.toNat < 2 ^ 32) ∧
    c.stack.toNat + 4 * stackSize < 2 ^ 32

/-- Up to the end of the region inclusive, the window counted in words holds
what the region counted in bytes holds. -/
theorem inWindow_of_inRegion {base len a : BitVec 32} {size : ℕ} (hsize : 0 < size)
    (hsize' : size ≤ 8) (hfit : base.toNat + 4 * len.toNat < 2 ^ 32)
    (h : ∀ j < size, InRegion base len.toNat (a + BitVec.ofNat 32 j)) :
    InWindow base len a size := by
  have hfirst := h 0 hsize
  have hlast := h (size - 1) (by omega)
  have ha := a.isLt
  have hbyte (j : ℕ) (hj : j < size) :
      (a + BitVec.ofNat 32 j).toNat = (a.toNat + j) % 2 ^ 32 := by
    rw [BitVec.toNat_add, BitVec.toNat_ofNat, Nat.mod_eq_of_lt (a := j) (by omega)]
  rw [InRegion, hbyte _ hsize, Nat.mod_eq_of_lt (by omega)] at hfirst
  rw [InRegion, hbyte _ (by omega)] at hlast
  -- the last byte would have to come back below the first one
  have hnowrap : a.toNat + size ≤ 2 ^ 32 := by omega
  rw [Nat.mod_eq_of_lt (by omega)] at hlast
  have hend : (a + 4 * BitVec.ofNat 32 size).toNat = a.toNat + 4 * size := by
    have hfour : (4 * BitVec.ofNat 32 size).toNat = 4 * size := by
      rw [BitVec.toNat_mul, BitVec.toNat_ofNat, Nat.mod_eq_of_lt (a := size) (by omega)]
      exact Nat.mod_eq_of_lt (by simp; omega)
    rw [BitVec.toNat_add, hfour, Nat.mod_eq_of_lt (by omega)]
  have hlen : (base + 4 * len).toNat = base.toNat + 4 * len.toNat := by
    have hfour : (4 * len).toNat = 4 * len.toNat := by
      rw [BitVec.toNat_mul]
      exact Nat.mod_eq_of_lt (by simp; omega)
    rw [BitVec.toNat_add, hfour, Nat.mod_eq_of_lt (by omega)]
  rw [InWindow, BitVec.le_def, BitVec.le_def, hend, hlen]
  omega

theorem Size.bytes_pos (size : Size) : 0 < size.bytes := by
  cases size <;> decide

theorem Size.bytes_le (size : Size) : size.bytes ≤ 8 := by
  cases size <;> decide

/-- A load inside a region is accepted when the regions fit. -/
theorem acceptedAt_of_ldx {size : Size} (hfit : RegionsFit c)
    (hop : (fetch c s).op = .ldx size)
    (hin : AccessInside c (address (s.reg (fetch c s).src) (fetch c s)) size.bytes) :
    AcceptedAt c s := by
  obtain ⟨hmem, hstack⟩ := hfit
  have hwindow : InSomeWindow c (address (s.reg (fetch c s).src) (fetch c s)) size.bytes := by
    rcases hin with hin | hin
    · rcases hmem with hzero | ⟨hnull, hend⟩
      · have hfirst := hin 0 size.bytes_pos
        rw [hzero] at hfirst
        exact absurd hfirst.2 (Nat.not_lt.mpr hfirst.1)
      · exact .inl ⟨hnull, inWindow_of_inRegion size.bytes_pos size.bytes_le hend hin⟩
    · exact .inr (inWindow_of_inRegion size.bytes_pos size.bytes_le hstack hin)
  unfold AcceptedAt
  rw [hop]
  cases size with
  | w => trivial
  | h => exact hwindow
  | b => exact hwindow
  | dw => exact hwindow

/-! ### Whole runs -/

/-- The states of the run without checks. -/
def Visits (c : Call) (reg : BitVec 4 → BitVec 64) (mem : Mem) (s : State) : Prop :=
  Reaches (step (c.withChecks false)) (initState c reg mem) s

/-- Every `LDX`, `ST` and `STX` of the run makes its access inside the
argument memory or inside the stack. -/
def WellBehaved (c : Call) (reg : BitVec 4 → BitVec 64) (mem : Mem) : Prop :=
  ∀ s, Visits c reg mem s →
    ∀ a size, memAccess (fetch c s) s = some (a, size) → AccessInside c a size.bytes

/-- An instruction that continues names registers of the file only. -/
theorem regsInFile_of_cont (h : execInst c i s = .cont t) : i.regsInFile = true := by
  by_contra hout
  rw [Bool.not_eq_true] at hout
  simp only [execInst, hout, Bool.not_false, if_true] at h
  cases h

/-- The checked run goes along with the unchecked one up to an address that
is not accepted, and returns `-1` there. -/
theorem checked_reaches_error {s₀ : State} (h : Reaches (step (c.withChecks false)) s₀ s)
    (hregs : (fetch c s).regsInFile = true) (hrej : ¬AcceptedAt c s) :
    ∃ u m, Reaches (stepMem (c.withChecks true)) s₀ u ∧
      stepMem (c.withChecks true) u = .stop (returnError, m) := by
  induction h using Relation.ReflTransGen.head_induction_on with
  | refl => exact ⟨s, s.mem, .refl s, stepMem_not_accepted hregs hrej⟩
  | @head v w hstep _ ih =>
      by_cases hacc : AcceptedAt c v
      · obtain ⟨u, m, hu, hstop⟩ := ih
        have hsame : stepMem (c.withChecks true) v = .cont w := by
          rw [stepMem_withChecks hacc]
          exact stepMem_cont_iff.mpr hstep
        exact ⟨u, m, .head hsame hu, hstop⟩
      · obtain ⟨u, hexec, _⟩ := step_cont hstep
        exact ⟨v, v.mem, .refl v, stepMem_not_accepted (regsInFile_of_cont hexec) hacc⟩

/-- A well-behaved program returns the same value and leaves the same memory
with its checks on as with its checks off, if `bounds_check` accepts the
address every visited instruction hands to it; at the first address that is
not accepted the checked run returns `-1` instead. When the regions fit, all
loads are accepted. -/
theorem checks_transparent (c : Call) (reg : BitVec 4 → BitVec 64) (mem : Mem)
    (hwell : WellBehaved c reg mem) :
    ((∀ s, Visits c reg mem s → AcceptedAt c s) →
      ebpfVmExecMem (c.withChecks true) reg mem = ebpfVmExecMem (c.withChecks false) reg mem) ∧
    (∀ s, Visits c reg mem s → (fetch c s).regsInFile = true → ¬AcceptedAt c s →
      ∃ m, ebpfVmExecMem (c.withChecks true) reg mem = .stop (returnError, m)) ∧
    (RegionsFit c → ∀ s, Visits c reg mem s → ∀ size, (fetch c s).op = .ldx size →
      AcceptedAt c s) := by
  refine ⟨?_, ?_, ?_⟩
  · intro hacc
    apply run_congr
    intro t ht
    exact stepMem_withChecks (hacc t (reaches_stepMem.mp ht))
  · intro s hs hregs hrej
    obtain ⟨u, m, hu, hstop⟩ := checked_reaches_error hs hregs hrej
    obtain ⟨r, hr⟩ := ebpfVmExecMem_stops (c.withChecks true) reg mem
    exact ⟨m, hu.run_eq_stop hstop hr⟩
  · intro hfit s hs size hop
    apply acceptedAt_of_ldx hfit hop
    apply hwell s hs
    simp only [memAccess, hop]

/-! ### A store to the stack -/

/-- `mov64 r2, 5`, `stxw [r10-4], r2`, `mov64 r0, 0` and `exit`: one word is
written to the top of the stack. -/
def storeToStack : Call where
  vm :=
    { insts := fun _ n => match n with
        | 0 =>
            { opcode := (Opcode.alu64 .mov .imm).byte, dst := 2, src := 0, offset := 0, imm := 5 }
        | 1 => { opcode := (Opcode.stx .w).byte, dst := 10, src := 2, offset := -4, imm := 0 }
        | 2 =>
            { opcode := (Opcode.alu64 .mov .imm).byte, dst := 0, src := 0, offset := 0, imm := 0 }
        | _ => { opcode := Opcode.exit.byte, dst := 0, src := 0, offset := 0, imm := 0 }
      boundsCheckEnabled := true
      extFuncs := fun _ => none }
  mem := 0x20001000
  memLen := 4
  stack := 0x20000000
  overshift := fun _ _ => 0
  oneShl32 := 0

theorem storeToStack_wellBehaved : WellBehaved storeToStack (fun _ => 0) (fun _ => 0) := by
  intro s hs a size hacc
  have hrun : run (step (storeToStack.withChecks false)) 4
      (initState storeToStack (fun _ => 0) (fun _ => 0)) = .stop (.returned .exit 0) := rfl
  obtain ⟨n, hn, hn'⟩ := hs.exists_run hrun
  have hcases : n = 0 ∨ n = 1 ∨ n = 2 ∨ n = 3 := by omega
  rcases hcases with rfl | rfl | rfl | rfl <;> cases hn' <;> cases hacc
  right
  intro j hj
  have hcases : j = 0 ∨ j = 1 ∨ j = 2 ∨ j = 3 := by
    have : j < 4 := hj
    omega
  unfold InRegion
  rcases hcases with rfl | rfl | rfl | rfl <;> decide

/-- The store is rejected because the value `5` it stores is taken for its
address. -/
theorem storeToStack_differs :
    WellBehaved storeToStack (fun _ => 0) (fun _ => 0) ∧
      (∃ m, ebpfVmExecMem (storeToStack.withChecks false) (fun _ => 0) (fun _ => 0) =
        .stop (.returned .exit 0, m)) ∧
      ∃ m, ebpfVmExecMem (storeToStack.withChecks true) (fun _ => 0) (fun _ => 0) =
        .stop (.returned .error (-1), m) :=
  ⟨storeToStack_wellBehaved, ⟨_, rfl⟩, ⟨_, rfl⟩⟩

theorem loadFirstByte_visits {s : State} (hs : Visits loadFirstByte (fun _ => 0) (fun _ => 0) s) :
    s = initState loadFirstByte (fun _ => 0) (fun _ => 0) ∨ s.pc = 1 := by
  have hrun : run (step (loadFirstByte.withChecks false)) 2
      (initState loadFirstByte (fun _ => 0) (fun _ => 0)) = .stop (.returned .exit 0) := rfl
  obtain ⟨n, hn, hn'⟩ := hs.exists_run hrun
  have hcases : n = 0 ∨ n = 1 := by omega
  rcases hcases with rfl | rfl
  · cases hn'
    exact .inl rfl
  · cases hn'
    exact .inr rfl

theorem loadFirstByte_wellBehaved : WellBehaved loadFirstByte (fun _ => 0) (fun _ => 0) := by
  intro s hs a size hacc
  rcases loadFirstByte_visits hs with rfl | hpc
  · cases hacc
    left
    intro j hj
    have hzero : j = 0 := Nat.lt_one_iff.mp hj
    subst hzero
    unfold InRegion
    decide
  · rw [fetch, hpc] at hacc
    cases hacc

theorem loadFirstByte_transparent :
    WellBehaved loadFirstByte (fun _ => 0) (fun _ => 0) ∧
      ebpfVmExecMem (loadFirstByte.withChecks true) (fun _ => 0) (fun _ => 0) =
        ebpfVmExecMem (loadFirstByte.withChecks false) (fun _ => 0) (fun _ => 0) := by
  refine ⟨loadFirstByte_wellBehaved,
    (checks_transparent loadFirstByte _ _ loadFirstByte_wellBehaved).1 ?_⟩
  intro s hs
  rcases loadFirstByte_visits hs with rfl | hpc
  · exact .inl ⟨by decide, by unfold InWindow; decide⟩
  · have hop : (fetch loadFirstByte s).op = .exit := by
      rw [fetch, hpc]
      show (loadFirstByte.vm.insts (fun _ => 0) 1).op = .exit
      decide
    unfold AcceptedAt
    rw [hop]
    trivial

end RapidPatch.Vm

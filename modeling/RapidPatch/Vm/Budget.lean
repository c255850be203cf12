import RapidPatch.Vm.Exec

/-!
The iteration budget of the interpreter.

The program is arbitrary, so nothing in it bounds a run: jumps go backwards,
the 16-bit program counter wraps, and opcodes without a case label do
nothing. The one measure is `tick`. No case of the switch touches it and
every way around the loop passes the check at the bottom, which advances it
once (`step_cont`); the distance of `tick` from `MAX_ITERS` is a variant.
-/

namespace RapidPatch.Vm

open RapidPatch.Support

variable {c : Call} {i : Inst} {s t : State}

/-! ### One iteration -/

theorem finishAlu_cont {r : AluResult} (h : finishAlu s i r = .cont t) :
    ∃ v, t = s.setReg i.dst v := by
  cases r with
  | value v =>
      cases h
      exact ⟨v, rfl⟩
  | divByZero => cases h
  | undefined => cases h

theorem execLdx_tick {size : Size} (h : execLdx c size i s = .cont t) : t.tick = s.tick := by
  cases size <;> simp only [execLdx] at h
  case w =>
    cases h
    rfl
  all_goals
    split at h
    · cases h
      rfl
    · cases h

theorem execStore_tick {size : Size} {v : BitVec 64} (h : execStore c size v i s = .cont t) :
    t.tick = s.tick := by
  simp only [execStore] at h
  split at h
  · cases h
    rfl
  · cases h

theorem execCall_tick (h : execCall c i s = .cont t) : t.tick = s.tick := by
  simp only [execCall] at h
  split at h
  · cases h
    rfl
  · cases h

/-- No case of the switch touches the tick counter. -/
theorem execInst_tick (h : execInst c i s = .cont t) : t.tick = s.tick := by
  unfold execInst at h
  split at h
  · cases h
  · cases hop : i.op <;> simp only [hop] at h
    case alu =>
      obtain ⟨v, rfl⟩ := finishAlu_cont h
      rfl
    case alu64 =>
      obtain ⟨v, rfl⟩ := finishAlu_cont h
      rfl
    case ldx => exact execLdx_tick h
    case st => exact execStore_tick h
    case stx => exact execStore_tick h
    case call => exact execCall_tick h
    case jmp =>
      split at h
      all_goals
        cases h
        rfl
    case exit => cases h
    all_goals
      cases h
      rfl

/-- An iteration that continues has executed one instruction within the
budget and advanced the counter by one. -/
theorem step_cont (h : step c s = .cont t) :
    ∃ u, execInst c (fetch c s) { s with pc := s.pc + 1 } = .cont u ∧
      s.tick ≤ maxIters ∧ t = { u with tick := s.tick + 1 } := by
  unfold step at h
  split at h
  · cases h
  · rename_i u hu
    have htick : u.tick = s.tick := (execInst_tick hu).trans rfl
    split at h
    · rename_i hcheck
      cases h
      refine ⟨u, hu, ?_, by rw [htick]⟩
      simpa [itersCheck, htick] using hcheck
    · cases h

/-- An iteration stops either inside the switch or at the budget. -/
theorem step_stop {o : Outcome} (h : step c s = .stop o) :
    execInst c (fetch c s) { s with pc := s.pc + 1 } = .stop o ∨
      (maxIters < s.tick ∧ o = .returned .budget (c.oneShl32.signExtend 64)) := by
  unfold step at h
  split at h
  · rename_i o' ho
    cases h
    exact .inl ho
  · rename_i u hu
    have htick : u.tick = s.tick := (execInst_tick hu).trans rfl
    split at h
    · cases h
    · rename_i hcheck
      cases h
      refine .inr ⟨?_, rfl⟩
      simpa [itersCheck, htick] using hcheck

/-- The switch returns `r0` at `EXIT`, and `-1` where a check fails. -/
theorem execInst_returned {site : ReturnSite} {v : BitVec 64}
    (h : execInst c i s = .stop (.returned site v)) :
    (site = .exit ∧ i.op = .exit ∧ v = s.reg 0) ∨ (site = .error ∧ v = -1) := by
  unfold execInst at h
  split at h
  · cases h
  · cases hop : i.op <;> simp only [hop] at h
    case exit =>
      cases h
      exact Or.inl ⟨rfl, rfl, rfl⟩
    case alu op src =>
      cases hr : alu32 c op src (s.reg i.dst) (s.reg i.src) i.imm <;> rw [hr] at h <;> cases h
      exact Or.inr ⟨rfl, rfl⟩
    case alu64 op src =>
      cases hr : alu64 c op src (s.reg i.dst) (s.reg i.src) i.imm <;> rw [hr] at h <;> cases h
      exact Or.inr ⟨rfl, rfl⟩
    case ldx size =>
      cases size <;> simp only [execLdx] at h
      case w => cases h
      all_goals
        split at h <;> cases h
        exact Or.inr ⟨rfl, rfl⟩
    case st =>
      simp only [execStore] at h
      split at h <;> cases h
      exact Or.inr ⟨rfl, rfl⟩
    case stx =>
      simp only [execStore] at h
      split at h <;> cases h
      exact Or.inr ⟨rfl, rfl⟩
    case call =>
      simp only [execCall] at h
      split at h <;> cases h
    case jmp => split at h <;> cases h
    all_goals cases h

/-- The budget is returned from the bottom of the loop only. -/
theorem execInst_ne_budget (c : Call) (i : Inst) (s : State) (v : BitVec 64) :
    execInst c i s ≠ .stop (.returned .budget v) := by
  intro h
  rcases execInst_returned h with ⟨hsite, _⟩ | ⟨hsite, _⟩ <;> cases hsite

/-! ### What C leaves open -/

/-- The number a division or remainder case divides by, at its own width. -/
def Inst.divisor (i : Inst) (s : State) : Option (BitVec 64) :=
  match i.op with
  | .alu .div .imm | .alu .mod .imm => some (i.imm.setWidth 64)
  | .alu .div .reg | .alu .mod .reg => some (((s.reg i.src).setWidth 32).setWidth 64)
  | .alu64 .div _ | .alu64 .mod .imm => some (i.imm.signExtend 64)
  | .alu64 .mod .reg => some (s.reg i.src)
  | _ => none

/-- The instruction performs an operation without a meaning in C: a register
outside the register file, a division by zero, or a call of no function. -/
def UndefinedIn (c : Call) (i : Inst) (s : State) : Prop :=
  i.regsInFile = false ∨ i.divisor s = some 0 ∨
    (i.op = .call ∧ (i.imm.toNat < maxExtFuncs → c.vm.extFuncs i.imm.toNat = none))

theorem divOrMod_undefined {w : ℕ} {f : BitVec w → BitVec w → BitVec w} {x y : BitVec w}
    (h : divOrMod f x y = .undefined) : y = 0 := by
  unfold divOrMod at h
  split at h
  · assumption
  · cases h

theorem alu32_undefined {op : AluOp} {src : Src} {d v : BitVec 64} {imm : BitVec 32}
    (h : alu32 c op src d v imm = .undefined) :
    (op = .div ∨ op = .mod) ∧
      (match src with | .imm => imm | .reg => v.setWidth 32) = 0 := by
  have wide_ne (n : BitVec 64) (x : BitVec 32) :
      (if n.toNat < 32 then AluResult.value (x.setWidth 64)
        else .value (((c.overshift d n).setWidth 32).setWidth 64)) ≠ .undefined := by
    split <;> simp
  cases op <;> cases src <;> simp only [alu32] at h
  case div.imm => exact ⟨.inl rfl, divOrMod_undefined h⟩
  case mod.imm => exact ⟨.inr rfl, divOrMod_undefined h⟩
  case div.reg =>
    split at h
    · cases h
    · exact ⟨.inl rfl, divOrMod_undefined h⟩
  case mod.reg =>
    split at h
    · cases h
    · exact ⟨.inr rfl, divOrMod_undefined h⟩
  all_goals first | exact absurd h (wide_ne _ _) | cases h

theorem alu64_undefined {op : AluOp} {src : Src} {d v : BitVec 64} {imm : BitVec 32}
    (h : alu64 c op src d v imm = .undefined) :
    (op = .div ∧ imm.signExtend 64 = 0) ∨
      (op = .mod ∧ (match src with | .imm => imm.signExtend 64 | .reg => v) = 0) := by
  have wide_ne (y x : BitVec 64) :
      (if y.toNat < 64 then AluResult.value x else .value (c.overshift d y)) ≠ .undefined := by
    split <;> simp
  cases op <;> cases src <;> simp only [alu64] at h
  case div.imm => exact .inl ⟨rfl, divOrMod_undefined h⟩
  case mod.imm => exact .inr ⟨rfl, divOrMod_undefined h⟩
  case div.reg =>
    split at h
    · cases h
    · exact .inl ⟨rfl, divOrMod_undefined h⟩
  case mod.reg =>
    split at h
    · cases h
    · exact .inr ⟨rfl, divOrMod_undefined h⟩
  all_goals first | exact absurd h (wide_ne _ _) | cases h

theorem finishAlu_undefined {r : AluResult} (h : finishAlu s i r = .stop .undefined) :
    r = .undefined := by
  cases r with
  | undefined => rfl
  | value v => cases h
  | divByZero => cases h

theorem execInst_undefined (h : execInst c i s = .stop .undefined) : UndefinedIn c i s := by
  unfold execInst at h
  split at h
  · rename_i hregs
    exact .inl (by simpa using hregs)
  · refine .inr ?_
    cases hop : i.op <;> simp only [hop] at h
    case alu op src =>
      obtain ⟨hd, hz⟩ := alu32_undefined (finishAlu_undefined h)
      left
      rcases hd with rfl | rfl <;> cases src <;> simp_all [Inst.divisor]
    case alu64 op src =>
      left
      rcases alu64_undefined (finishAlu_undefined h) with ⟨rfl, hz⟩ | ⟨rfl, hz⟩ <;>
        cases src <;> simp_all [Inst.divisor]
    case call =>
      right
      refine ⟨rfl, fun hlt => ?_⟩
      simp only [execCall, hlt, if_true] at h
      split at h
      · cases h
      · assumption
    case ldx size =>
      cases size <;> simp only [execLdx] at h
      case w => cases h
      all_goals split at h <;> cases h
    case st =>
      simp only [execStore] at h
      split at h <;> cases h
    case stx =>
      simp only [execStore] at h
      split at h <;> cases h
    case jmp =>
      split at h <;> cases h
    all_goals cases h

/-! ### Whole runs -/

/-- The counter never passes one more than the budget, so `tick++` stays far
inside a C `int`. -/
theorem reaches_tick_le {s₀ : State} (h : Reaches (step c) s₀ s) (h₀ : s₀.tick = 0) :
    s.tick ≤ maxIters + 1 := by
  refine h.invariant (P := fun u => u.tick ≤ maxIters + 1) ?_ (by omega)
  intro u v _ hstep
  obtain ⟨w, _, hle, rfl⟩ := step_cont hstep
  exact Nat.succ_le_succ hle

/-- From any state the loop ends within one iteration more than the budget
that is left. -/
theorem run_stops (c : Call) (s : State) :
    ∃ o, run (step c) (maxIters + 1 - s.tick + 1) s = .stop o := by
  refine run_stops_of_variant (P := fun _ => True) (fun u : State => maxIters + 1 - u.tick) ?_
    trivial
  intro u v _ hstep
  obtain ⟨w, _, hle, rfl⟩ := step_cont hstep
  exact ⟨trivial, by simp only; omega⟩

/-- Whatever the code memory, the registers, memory and the helpers, the
interpreter fetches at most `0x8002` instructions before it returns, unless
it meets an operation C gives no meaning to; and the tick counter does not
overflow. -/
theorem ebpfVmExec_stops (c : Call) (reg : BitVec 4 → BitVec 64) (mem : Mem) :
    (∃ n ≤ 0x8002, ∃ o, run (step c) n (initState c reg mem) = .stop o ∧
      ebpfVmExec c reg mem = .stop o ∧
      (o = .undefined → ∃ s, Reaches (step c) (initState c reg mem) s ∧
        UndefinedIn c (fetch c s) { s with pc := s.pc + 1 })) ∧
    ∀ s, Reaches (step c) (initState c reg mem) s → s.tick + 1 < 2 ^ 31 := by
  constructor
  · obtain ⟨o, ho⟩ := run_stops c (initState c reg mem)
    refine ⟨maxIters + 1 - 0 + 1, by decide, o, ho, ho, ?_⟩
    rintro rfl
    obtain ⟨s, hs, hstop⟩ := reaches_of_run_stop ho
    refine ⟨s, hs, ?_⟩
    rcases step_stop hstop with hexec | ⟨_, hbudget⟩
    · exact execInst_undefined hexec
    · cases hbudget
  · intro s hs
    have hle := reaches_tick_le hs rfl
    simp only [maxIters] at hle
    omega

end RapidPatch.Vm

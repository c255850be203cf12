import RapidPatch.Hotpatch.Dispatch
import RapidPatch.Hotpatch.Fpb
import RapidPatch.Support.Events

/-!
The debug monitor over a whole sequence of events.

A breakpoint that is passed has to be stepped over with the breakpoint unit
off, and the unit has to come on again behind it. `leave_debug_monitor` does
this with three registers: the enable bit of the unit, `MON_STEP` in `DEMCR`,
and the status bits of `DFSR`, which stay set until a one is written to them.
A filtered breakpoint returns without clearing its status bit, and the next
event finds it there.

The invariant `Armed ∨ Stepping` says why this does no harm: a step event can
come only after a pass, and the pass has cleared the bit that the handler
tests first.
-/

namespace RapidPatch.Hotpatch

open RapidPatch.Support

/-! ### The registers -/

def fpbEnable (f : Fpb) : Fpb := { f with ctrl := f.ctrl ||| 0x3 }

def fpbDisable (f : Fpb) : Fpb := { f with ctrl := (f.ctrl &&& ~~~0x3#32) ||| 0x2 }

def demcrSingleStepMask : BitVec 32 := (1 : BitVec 32) <<< 18

def dfsrBkptEvtBitmask : BitVec 32 := (1 : BitVec 32) <<< 1

def dfsrHaltEvtBitmask : BitVec 32 := (1 : BitVec 32) <<< 0

theorem and_mask_ne_zero {r : BitVec 32} {k : ℕ} (hk : k < 32) :
    r &&& (1 : BitVec 32) <<< k ≠ 0 ↔ r.getLsbD k = true := by
  have hmask : (1 : BitVec 32) <<< k = BitVec.twoPow 32 k := by
    rw [BitVec.twoPow_eq]
    rfl
  rw [hmask, BitVec.and_twoPow]
  cases r.getLsbD k with
  | false => simp
  | true =>
      have hbit : (BitVec.twoPow 32 k).getLsbD k = true := by simpa using hk
      simp only [if_true, ne_eq, iff_true]
      intro hzero
      rw [hzero] at hbit
      simp at hbit

structure DebugUnit where
  demcr : BitVec 32
  dfsr : BitVec 32
  fpb : Fpb

namespace DebugUnit

variable {u v : DebugUnit}

/-- A store to `DFSR` clears the bits it writes ones to. -/
def writeDfsr (u : DebugUnit) (value : BitVec 32) : DebugUnit :=
  { u with dfsr := u.dfsr &&& ~~~value }

def fpbEnabled (u : DebugUnit) : Prop := u.fpb.ctrl &&& 0x1 ≠ 0

def monStep (u : DebugUnit) : Prop := u.demcr &&& demcrSingleStepMask ≠ 0

def bkptEvt (u : DebugUnit) : Prop := u.dfsr &&& dfsrBkptEvtBitmask ≠ 0

def haltEvt (u : DebugUnit) : Prop := u.dfsr &&& dfsrHaltEvtBitmask ≠ 0

instance fpbEnabled.decidable (u : DebugUnit) : Decidable u.fpbEnabled :=
  inferInstanceAs (Decidable (_ ≠ _))

instance monStep.decidable (u : DebugUnit) : Decidable u.monStep :=
  inferInstanceAs (Decidable (_ ≠ _))

instance bkptEvt.decidable (u : DebugUnit) : Decidable u.bkptEvt :=
  inferInstanceAs (Decidable (_ ≠ _))

instance haltEvt.decidable (u : DebugUnit) : Decidable u.haltEvt :=
  inferInstanceAs (Decidable (_ ≠ _))

/-- `leave_debug_monitor`, given the result of the filter at the breakpoint if
a patch is active there. -/
def leaveDebugMonitor (u : DebugUnit) (ctx : StackContext) (filter : Option (BitVec 64)) :
    DebugUnit × StackContext :=
  if u.bkptEvt then
    let (skip, ctx) := ctx.runPatchHere filter
    if skip then (u, ctx)
    else
      let u := { u with demcr := u.demcr ||| demcrSingleStepMask }
      let u := u.writeDfsr dfsrBkptEvtBitmask
      ({ u with fpb := fpbDisable u.fpb }, ctx)
  else if u.haltEvt then
    let u := { u with demcr := u.demcr &&& ~~~demcrSingleStepMask }
    let u := u.writeDfsr dfsrHaltEvtBitmask
    ({ u with fpb := fpbEnable u.fpb }, ctx)
  else (u, ctx)

/-- At a breakpoint the exception returns to where `Dispatch` says. -/
theorem leaveDebugMonitor_resume (h : u.bkptEvt) (ctx : StackContext)
    (filter : Option (BitVec 64)) :
    ctx.leaveDebugMonitor filter =
      { pc := (u.leaveDebugMonitor ctx filter).2.pc
        args := (u.leaveDebugMonitor ctx filter).2.args } := by
  simp only [StackContext.leaveDebugMonitor, leaveDebugMonitor, if_pos h]
  split <;> rfl

/-! ### Events -/

/-- What makes the core enter the debug monitor, with the saved registers and
the filter's result there. -/
inductive Event
  | bkpt (ctx : StackContext) (filter : Option (BitVec 64))
  | step (ctx : StackContext) (filter : Option (BitVec 64))

/-- The hardware's part of an event: it needs its enable bit and sets its
status bit. -/
def enter (u : DebugUnit) : Event → Option DebugUnit
  | .bkpt _ _ =>
      if u.fpbEnabled then some { u with dfsr := u.dfsr ||| dfsrBkptEvtBitmask } else none
  | .step _ _ =>
      if u.monStep then some { u with dfsr := u.dfsr ||| dfsrHaltEvtBitmask } else none

def handle (u : DebugUnit) (e : Event) : Option DebugUnit :=
  (u.enter e).map fun u =>
    match e with
    | .bkpt ctx filter | .step ctx filter => (u.leaveDebugMonitor ctx filter).1

/-! ### The invariant -/

structure Armed (u : DebugUnit) : Prop where
  enabled : u.fpbEnabled
  noStep : ¬u.monStep

structure Stepping (u : DebugUnit) : Prop where
  disabled : ¬u.fpbEnabled
  step : u.monStep
  noBkpt : ¬u.bkptEvt

theorem fpbEnabled_iff : u.fpbEnabled ↔ u.fpb.ctrl.getLsbD 0 = true :=
  and_mask_ne_zero (k := 0) (by decide)

theorem monStep_iff : u.monStep ↔ u.demcr.getLsbD 18 = true :=
  and_mask_ne_zero (k := 18) (by decide)

theorem bkptEvt_iff : u.bkptEvt ↔ u.dfsr.getLsbD 1 = true :=
  and_mask_ne_zero (k := 1) (by decide)

theorem haltEvt_iff : u.haltEvt ↔ u.dfsr.getLsbD 0 = true :=
  and_mask_ne_zero (k := 0) (by decide)

theorem leaveDebugMonitor_filtered {ctx : StackContext} {filter : Option (BitVec 64)}
    (hbkpt : u.bkptEvt) (hskip : (ctx.runPatchHere filter).1 = true) :
    (u.leaveDebugMonitor ctx filter).1 = u := by
  simp only [leaveDebugMonitor, if_pos hbkpt, hskip, if_true]

/-- A passed breakpoint is stepped over with the breakpoints off. -/
theorem leaveDebugMonitor_pass {ctx : StackContext} {filter : Option (BitVec 64)}
    (hbkpt : u.bkptEvt) (hskip : (ctx.runPatchHere filter).1 = false) :
    (u.leaveDebugMonitor ctx filter).1.Stepping := by
  simp only [leaveDebugMonitor, if_pos hbkpt, hskip, Bool.false_eq_true, if_false]
  constructor
  · rw [fpbEnabled_iff]
    simp [fpbDisable]
  · rw [monStep_iff]
    simp [writeDfsr, demcrSingleStepMask]
  · rw [bkptEvt_iff]
    simp [writeDfsr, dfsrBkptEvtBitmask]

/-- A step with no breakpoint pending puts the breakpoints on again. -/
theorem leaveDebugMonitor_halt {ctx : StackContext} {filter : Option (BitVec 64)}
    (hbkpt : ¬u.bkptEvt) (hhalt : u.haltEvt) :
    (u.leaveDebugMonitor ctx filter).1.Armed := by
  simp only [leaveDebugMonitor, if_neg hbkpt, if_pos hhalt]
  constructor
  · rw [fpbEnabled_iff]
    simp [fpbEnable]
  · rw [monStep_iff]
    simp [writeDfsr, demcrSingleStepMask]

/-- A breakpoint event finds the unit armed; filtered, it leaves it so, and
passed, it begins to step. -/
theorem handle_bkpt {ctx : StackContext} {filter : Option (BitVec 64)}
    (hu : u.Armed ∨ u.Stepping) (h : u.handle (.bkpt ctx filter) = some v) :
    v.Armed ∨ v.Stepping := by
  simp only [handle, enter, Option.map_eq_some_iff, Option.ite_none_right_eq_some,
    Option.some.injEq] at h
  obtain ⟨w, ⟨hen, rfl⟩, rfl⟩ := h
  have harmed : u.Armed := hu.resolve_right fun hs => hs.disabled hen
  have hbkpt : bkptEvt { u with dfsr := u.dfsr ||| dfsrBkptEvtBitmask } := by
    rw [bkptEvt_iff]
    simp [dfsrBkptEvtBitmask]
  cases hskip : (ctx.runPatchHere filter).1 with
  | true =>
      left
      rw [leaveDebugMonitor_filtered hbkpt hskip]
      exact ⟨harmed.enabled, harmed.noStep⟩
  | false => exact .inr (leaveDebugMonitor_pass hbkpt hskip)

theorem handle_step {ctx : StackContext} {filter : Option (BitVec 64)}
    (hu : u.Armed ∨ u.Stepping) (h : u.handle (.step ctx filter) = some v) : v.Armed := by
  simp only [handle, enter, Option.map_eq_some_iff, Option.ite_none_right_eq_some,
    Option.some.injEq] at h
  obtain ⟨w, ⟨hstep, rfl⟩, rfl⟩ := h
  have hstepping : u.Stepping := hu.resolve_left fun ha => ha.noStep hstep
  apply leaveDebugMonitor_halt
  · -- the handler tests the breakpoint bit first; the pass has cleared it
    intro hbkpt
    apply hstepping.noBkpt
    rw [bkptEvt_iff] at hbkpt ⊢
    simpa [dfsrHaltEvtBitmask] using hbkpt
  · rw [haltEvt_iff]
    simp [dfsrHaltEvtBitmask]

theorem handle_invariant {e : Event} (hu : u.Armed ∨ u.Stepping) (h : u.handle e = some v) :
    v.Armed ∨ v.Stepping := by
  cases e with
  | bkpt ctx filter => exact handle_bkpt hu h
  | step ctx filter => exact .inl (handle_step hu h)

/-! ### Every sequence of events -/

/-- From breakpoints on and no step pending, whatever the events and the
filters' results: after each return of the handler either the breakpoints are
on or a step is pending, not both, and after a step event it is the
breakpoints. -/
theorem breakpoints_rearmed (u : DebugUnit) (hen : u.fpbEnabled) (hstep : ¬u.monStep)
    (es : List Event) (v : DebugUnit) (h : runEvents handle u es = some v) :
    (v.fpbEnabled ∧ ¬v.monStep ∨ ¬v.fpbEnabled ∧ v.monStep) ∧
      ∀ es' ctx filter, es = es' ++ [.step ctx filter] → v.fpbEnabled ∧ ¬v.monStep := by
  have hinv : ∀ {fs w}, runEvents handle u fs = some w → w.Armed ∨ w.Stepping :=
    runEvents_invariant (fun _ _ _ => handle_invariant) (.inl ⟨hen, hstep⟩)
  refine ⟨?_, ?_⟩
  · rcases hinv h with ha | hs
    · exact .inl ⟨ha.enabled, ha.noStep⟩
    · exact .inr ⟨hs.disabled, hs.step⟩
  · rintro es' ctx filter rfl
    obtain ⟨w, hw, hlast⟩ := runEvents_concat.mp h
    have harmed := handle_step (hinv hw) hlast
    exact ⟨harmed.enabled, harmed.noStep⟩

/-- The unit as `set_patch_mode` leaves it in debug-monitor mode. -/
def monitorOn : DebugUnit where
  demcr := 1 <<< 16
  dfsr := 0
  fpb := setPatchMode false
    { ctrl := 0x260, comp := fun _ => 0, curIdx := 0, bpktNum := 6, bpktIsInit := true,
      remapActive := false, remapInst := fun _ => 0 } .cortexDebMonPatch

/-- A breakpoint that is dropped, one that is passed, and the step behind
it. -/
def dropPassStep : List Event :=
  let ctx : StackContext :=
    { r0 := 0, r1 := 0, r2 := 0, r3 := 0, r12 := 0, lr := 0x8001001, pc := 0x8002000, xpsr := 0 }
  [.bkpt ctx (some 0x100000000), .bkpt ctx none] ++ [.step ctx none]

theorem dropPassStep_rearmed :
    ∃ v, runEvents handle monitorOn dropPassStep = some v ∧ v.fpbEnabled ∧ ¬v.monStep := by
  have hpossible : (runEvents handle monitorOn dropPassStep).isSome = true := by decide
  obtain ⟨v, hv⟩ := Option.isSome_iff_exists.mp hpossible
  exact ⟨v, hv,
    (breakpoints_rearmed monitorOn (by decide) (by decide) _ v hv).2 _ _ _ rfl⟩

end DebugUnit

end RapidPatch.Hotpatch

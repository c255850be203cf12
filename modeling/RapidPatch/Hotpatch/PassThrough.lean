import RapidPatch.Hotpatch.Trampolines
import RapidPatch.Support.Machine

/-!
How a breakpoint lets the program go on, in remap mode.

The instruction at a breakpoint cannot run while its comparator is enabled. So
when a filter has passed, `fpb_disable_cur_inst` disables the comparator and
sets the last one to an instruction behind it, the first that begins a word.
When that is reached, `fpb_enable_callback` enables every comparator in use and
disables the last one. One comparator serves all breakpoints: a second hit
before the callback of the first takes it over. That does no harm to the
breakpoints, because the callback does not ask whose it is
(`passThrough_rearms`).

A comparator is in use if it is not zero, and a disabled breakpoint at the
address zero is: the callback passes over it.
-/

namespace RapidPatch.Hotpatch

open RapidPatch.Support

def fpbCbReg : ℕ := 5

section

variable {F : Type} (env : Env F) (handler : ℕ → BitVec 32)

/-- The search of `fpb_disable_cur_inst` for an instruction that begins a
word. -/
def nextWordStep (nextInst : BitVec 32) : Next (BitVec 32) (BitVec 32) :=
  if nextInst &&& 0x3 ≠ 0 then .cont (calcBpktPc env nextInst) else .stop nextInst

/-- The branch from the next instruction to `FPB_Handler5`. -/
def callbackInst (nextInst : BitVec 32) : BitVec 32 :=
  let trampolineAddr := ((handler fpbCbReg &&& ~~~0x1#32) + 3) &&& ~~~0x3#32
  littleEndian16Bit (calcBranchInstr nextInst trampolineAddr)

/-- `fpb_disable_cur_inst`, if its search ends within a number of turns. -/
def fpbDisableCurInst (turns : ℕ) (f : Fpb) (bpktIdx : ℕ) : Option Fpb :=
  let curAddr := f.comp bpktIdx
  match run (nextWordStep env) turns (calcBpktPc env curAddr) with
  | .cont _ => none
  | .stop nextInst =>
      let comp := Function.update f.comp fpbCbReg (nextInst ||| 0x1)
      some { f with
        comp := Function.update comp bpktIdx (comp bpktIdx &&& ~~~0x1#32)
        remapInst := Function.update f.remapInst fpbCbReg (callbackInst handler nextInst) }

/-- `fpb_enable_callback`, with the address it returns. -/
def fpbEnableCallback (f : Fpb) : Fpb × BitVec 32 :=
  let curInst := f.comp fpbCbReg
  let comp := fun i => if i < fpbCbReg ∧ f.comp i ≠ 0 then f.comp i ||| 0x1 else f.comp i
  ({ f with comp := Function.update comp fpbCbReg (comp fpbCbReg &&& ~~~0x1#32) }, curInst)

/-- What happens at the breakpoints: the comparator of one of the handlers 0 to
4 is hit, and the filter passes; or the callback comparator is. -/
inductive PassEvent
  | hit (bpktIdx turns : ℕ)
  | callback
  deriving DecidableEq

def passStep (f : Fpb) : PassEvent → Option Fpb
  | .hit bpktIdx turns =>
      if bpktIdx < fpbCbReg ∧ f.comp bpktIdx ≠ 0 then fpbDisableCurInst env handler turns f bpktIdx
      else none
  | .callback => some (fpbEnableCallback f).1

/-- After its last hit there has been no callback. -/
def Passing (es : List PassEvent) (i : ℕ) : Prop :=
  ∃ before turns after, es = before ++ .hit i turns :: after ∧ .callback ∉ after

/-- Remap mode, with breakpoints at the addresses of words in some of the
comparators 0 to 4, all enabled. The address zero is the one of no
instruction: a stack pointer is there. -/
structure Fpb.WordBreakpoints (f : Fpb) : Prop where
  mode : f.remapActive = true
  comp : ∀ i < fpbCbReg, f.comp i = 0 ∨
    ∃ a : BitVec 32, a.toNat % 4 = 0 ∧ a ≠ 0 ∧ f.comp i = a ||| 0x1

variable {env handler} {f f₀ g : Fpb} {es : List PassEvent} {i : ℕ}

/-! ### One step -/

theorem and_not_one_idem (c : BitVec 32) : c &&& ~~~0x1#32 &&& ~~~0x1#32 = c &&& ~~~0x1#32 := by
  rw [BitVec.and_assoc, BitVec.and_self]

theorem and_not_one_of_aligned {a : BitVec 32} (h : a.toNat % 4 = 0) : a &&& ~~~0x1#32 = a :=
  and_not_one_of_even (by omega)

theorem or_one_and_of_aligned {a : BitVec 32} (h : a.toNat % 4 = 0) :
    (a ||| 0x1) &&& ~~~0x1#32 = a :=
  or_one_and_not_one_of_even (by omega)

theorem not_compEnabled_and_not_one (c : BitVec 32) : ¬compEnabled (c &&& ~~~0x1#32) := by
  rw [compEnabled, not_not, BitVec.and_assoc]
  simp

theorem nextWord_aligned {turns : ℕ} {a nextInst : BitVec 32}
    (h : run (nextWordStep env) turns a = .stop nextInst) : nextInst.toNat % 4 = 0 := by
  obtain ⟨b, -, hb⟩ := reaches_of_run_stop h
  rw [nextWordStep] at hb
  split at hb
  · cases hb
  · rename_i hand
    cases hb
    have hmod : (nextInst &&& 0x3).toNat = nextInst.toNat % 4 :=
      (BitVec.toNat_and ..).trans (Nat.and_two_pow_sub_one_eq_mod nextInst.toNat 2)
    rw [← hmod, not_not.mp hand]
    rfl

theorem passStep_hit {turns : ℕ} (h : passStep env handler f (.hit i turns) = some g) :
    i < fpbCbReg ∧ ∃ nextInst,
      run (nextWordStep env) turns (calcBpktPc env (f.comp i)) = .stop nextInst ∧
      g = { f with
        comp := Function.update (Function.update f.comp fpbCbReg (nextInst ||| 0x1)) i
          (f.comp i &&& ~~~0x1#32)
        remapInst := Function.update f.remapInst fpbCbReg (callbackInst handler nextInst) } := by
  rw [passStep] at h
  split at h
  · rename_i hguard
    rw [fpbDisableCurInst] at h
    refine ⟨hguard.1, ?_⟩
    cases hrun : run (nextWordStep env) turns (calcBpktPc env (f.comp i)) with
    | cont a =>
        simp only [hrun] at h
        cases h
    | stop nextInst =>
        simp only [hrun, Function.update_of_ne (Nat.ne_of_lt hguard.1), Option.some.injEq] at h
        exact ⟨nextInst, rfl, h.symm⟩
  · cases h

theorem hit_comp {turns j : ℕ} (h : passStep env handler f (.hit i turns) = some g)
    (hj : j < fpbCbReg) : g.comp j = if j = i then f.comp j &&& ~~~0x1#32 else f.comp j := by
  obtain ⟨hi, nextInst, -, rfl⟩ := passStep_hit h
  by_cases hji : j = i
  · subst hji
    rw [if_pos rfl]
    exact Function.update_self ..
  · rw [if_neg hji]
    exact (Function.update_of_ne hji ..).trans (Function.update_of_ne (Nat.ne_of_lt hj) ..)

theorem callback_comp (f : Fpb) (hi : i < fpbCbReg) :
    (fpbEnableCallback f).1.comp i = if f.comp i ≠ 0 then f.comp i ||| 0x1 else f.comp i := by
  simp only [fpbEnableCallback, Function.update_of_ne (Nat.ne_of_lt hi), hi, true_and]

theorem callback_comp_last (f : Fpb) :
    (fpbEnableCallback f).1.comp fpbCbReg = f.comp fpbCbReg &&& ~~~0x1#32 := by
  simp only [fpbEnableCallback, Function.update_self, Nat.lt_irrefl, false_and, if_false]

/-- No event changes the address of a breakpoint. -/
theorem passStep_addr {e : PassEvent} (h : passStep env handler f e = some g) (hi : i < fpbCbReg) :
    g.comp i &&& ~~~0x1#32 = f.comp i &&& ~~~0x1#32 := by
  cases e with
  | hit j turns =>
      rw [hit_comp h hi]
      split
      · exact and_not_one_idem (f.comp i)
      · rfl
  | callback =>
      cases h
      rw [callback_comp f hi]
      split
      · exact or_one_and_not_one (f.comp i)
      · rfl

/-! ### Runs -/

theorem passing_hit (es : List PassEvent) (i turns : ℕ) : Passing (es ++ [.hit i turns]) i :=
  ⟨es, turns, [], rfl, List.not_mem_nil⟩

theorem Passing.hit {j turns : ℕ} (h : Passing es i) : Passing (es ++ [.hit j turns]) i := by
  obtain ⟨before, turns', after, rfl, hafter⟩ := h
  refine ⟨before, turns', after ++ [.hit j turns], by simp, ?_⟩
  simpa using hafter

theorem not_passing_callback (es : List PassEvent) (i : ℕ) : ¬Passing (es ++ [.callback]) i := by
  rintro ⟨before, turns, after, heq, hafter⟩
  rcases List.eq_nil_or_concat after with rfl | ⟨init, last, rfl⟩
  · have hlast := (List.append_inj' heq rfl).2
    cases hlast
  · have hsplit : es ++ [.callback] = (before ++ .hit i turns :: init) ++ [last] := by
      rw [heq]
      simp
    have hlast := (List.append_inj' hsplit rfl).2
    cases hlast
    exact hafter (by simp)

theorem Fpb.WordBreakpoints.base_ne_zero (h : f₀.WordBreakpoints) (hi : i < fpbCbReg)
    (hcomp : f₀.comp i ≠ 0) : f₀.comp i &&& ~~~0x1#32 ≠ 0 := by
  rcases h.comp i hi with hzero | ⟨a, halign, hne, ha⟩
  · exact absurd hzero hcomp
  · have hbase : f₀.comp i &&& ~~~0x1#32 = a := by
      rw [ha]
      exact or_one_and_of_aligned halign
    rw [hbase]
    exact hne

/-- What holds of the comparators 0 to 4 after a sequence of events: they have
the addresses they started with, and one that is disabled is passing. -/
structure PassedFrom (f₀ : Fpb) (es : List PassEvent) (f : Fpb) : Prop where
  addr : ∀ i < fpbCbReg, f.comp i &&& ~~~0x1#32 = f₀.comp i &&& ~~~0x1#32
  passing : ∀ i < fpbCbReg, f₀.comp i ≠ 0 → ¬compEnabled (f.comp i) → Passing es i

theorem PassedFrom.ne_zero (h : PassedFrom f₀ es f) (h₀ : f₀.WordBreakpoints) (hi : i < fpbCbReg)
    (hcomp : f₀.comp i ≠ 0) : f.comp i ≠ 0 := by
  intro hzero
  apply h₀.base_ne_zero hi hcomp
  rw [← h.addr i hi, hzero]
  rfl

/-- A callback enables every comparator in use. -/
theorem PassedFrom.callback_enabled (h : PassedFrom f₀ es f) (h₀ : f₀.WordBreakpoints)
    (hi : i < fpbCbReg) (hcomp : f₀.comp i ≠ 0) :
    compEnabled ((fpbEnableCallback f).1.comp i) := by
  rw [callback_comp f hi, if_pos (h.ne_zero h₀ hi hcomp)]
  exact compEnabled_or_one (f.comp i)

theorem passedFrom_start (h₀ : f₀.WordBreakpoints) : PassedFrom f₀ [] f₀ := by
  refine ⟨fun _ _ => rfl, fun i hi hcomp hdisabled => ?_⟩
  rcases h₀.comp i hi with hzero | ⟨a, -, -, ha⟩
  · exact absurd hzero hcomp
  · rw [ha] at hdisabled
    exact absurd (compEnabled_or_one a) hdisabled

theorem PassedFrom.step {e : PassEvent} (h : PassedFrom f₀ es f) (h₀ : f₀.WordBreakpoints)
    (hstep : passStep env handler f e = some g) : PassedFrom f₀ (es ++ [e]) g := by
  refine ⟨fun i hi => (passStep_addr hstep hi).trans (h.addr i hi), ?_⟩
  intro i hi hcomp hdisabled
  cases e with
  | hit j turns =>
      by_cases hij : i = j
      · subst hij
        exact passing_hit es i turns
      · rw [hit_comp hstep hi, if_neg hij] at hdisabled
        exact (h.passing i hi hcomp hdisabled).hit
  | callback =>
      cases hstep
      exact absurd (h.callback_enabled h₀ hi hcomp) hdisabled

theorem PassedFrom.run (h₀ : f₀.WordBreakpoints)
    (hrun : runEvents (passStep env handler) f₀ es = some f) : PassedFrom f₀ es f := by
  induction es using List.reverseRecOn generalizing f with
  | nil =>
      cases hrun
      exact passedFrom_start h₀
  | append_singleton es e ih =>
      obtain ⟨g, hg, hstep⟩ := runEvents_concat.mp hrun
      exact (ih hg).step h₀ hstep

end

/-- Over any sequence of hits and callbacks the comparators of the breakpoints
keep their addresses, one is disabled between a hit and the next callback
only, and a callback leaves all of them enabled and its own comparator
disabled. -/
theorem passThrough_rearms {F : Type} (env : Env F) (handler : ℕ → BitVec 32) (f₀ f : Fpb)
    (h₀ : f₀.WordBreakpoints) (es : List PassEvent)
    (hrun : runEvents (passStep env handler) f₀ es = some f) :
    (∀ i < fpbCbReg, f.comp i &&& ~~~0x1#32 = f₀.comp i &&& ~~~0x1#32 ∧
      (f₀.comp i ≠ 0 → f.comp i ≠ 0)) ∧
    (∀ i < fpbCbReg, f₀.comp i ≠ 0 → ¬compEnabled (f.comp i) → Passing es i) ∧
    ∀ before, es = before ++ [.callback] →
      (∀ i < fpbCbReg, f.comp i ≠ 0 → compEnabled (f.comp i)) ∧
        ¬compEnabled (f.comp fpbCbReg) := by
  have h := PassedFrom.run h₀ hrun
  refine ⟨fun i hi => ⟨h.addr i hi, h.ne_zero h₀ hi⟩, h.passing, ?_⟩
  rintro before rfl
  obtain ⟨g, hg, hstep⟩ := runEvents_concat.mp hrun
  cases hstep
  refine ⟨fun i hi hcomp => ?_, ?_⟩
  · rw [callback_comp g hi] at hcomp ⊢
    by_cases hg0 : g.comp i ≠ 0
    · rw [if_pos hg0]
      exact compEnabled_or_one (g.comp i)
    · rw [if_neg hg0] at hcomp
      exact absurd hcomp hg0
  · rw [callback_comp_last]
    exact not_compEnabled_and_not_one (g.comp fpbCbReg)

/-- Breakpoints at `0x100` and `0x200`. -/
def twoBreakpoints : Fpb :=
  { clearRemap with comp := fun i => if i = 0 then 0x101 else if i = 1 then 0x201 else 0 }

theorem twoBreakpoints_word : twoBreakpoints.WordBreakpoints where
  mode := rfl
  comp := by
    intro i _
    by_cases h0 : i = 0
    · exact .inr ⟨0x100, by decide, by decide, by rw [h0]; decide⟩
    · by_cases h1 : i = 1
      · exact .inr ⟨0x200, by decide, by decide, by rw [h1]; decide⟩
      · exact .inl ((if_neg h0).trans (if_neg h1))

theorem twoBreakpoints_rearm :
    twoBreakpoints.WordBreakpoints ∧
      ∃ f, runEvents (passStep listEnv wordHandlers) twoBreakpoints
          [.hit 0 2, .hit 1 2, .callback] = some f ∧
        (∀ i < fpbCbReg, f.comp i ≠ 0 → compEnabled (f.comp i)) ∧
          ¬compEnabled (f.comp fpbCbReg) := by
  refine ⟨twoBreakpoints_word, _, rfl, ?_⟩
  exact (passThrough_rearms listEnv wordHandlers twoBreakpoints _ twoBreakpoints_word _ rfl).2.2
    [.hit 0 2, .hit 1 2] rfl

def zeroBreakpoint : Fpb := { clearRemap with comp := fun i => if i = 0 then 0x0 ||| 0x1 else 0 }

theorem zeroBreakpoint_not_rearmed :
    zeroBreakpoint.remapActive = true ∧ compEnabled (zeroBreakpoint.comp 0) ∧
      ∃ f, runEvents (passStep listEnv wordHandlers) zeroBreakpoint [.hit 0 2, .callback] =
          some f ∧
        ¬compEnabled (f.comp 0) ∧ ¬Passing [.hit 0 2, .callback] 0 := by
  refine ⟨rfl, by decide, _, rfl, by decide, ?_⟩
  exact not_passing_callback [.hit 0 2] 0

end RapidPatch.Hotpatch

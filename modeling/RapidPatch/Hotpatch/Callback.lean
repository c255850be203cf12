import RapidPatch.Hotpatch.PassThrough
import Mathlib.Data.Finset.Basic

/-!
The callback comparator and the comparators of the breakpoints.

`add_hw_bkpt` hands out all six comparators in turn, and the last of them is
also where `fpb_disable_cur_inst` puts its callback. So the sixth breakpoint is
lost with the first hit on another one: its address is overwritten, and its
remap word with it. An address that a comparator has already is not installed
again, and the callback leaves the address of an instruction behind in the last
comparator. What has to hold of each call so that no breakpoint is lost is
`Spares` (`kept_throughout_iff`).
-/

namespace RapidPatch.Hotpatch

open RapidPatch.Support

/-- The unit, and the addresses that are installed in it: they have been added,
and their comparators not been handed out again since. -/
structure UnitRun where
  fpb : Fpb
  installed : Finset (BitVec 32)

/-- What is installed after an address of a word has been added. It evicts the
address of the comparator it takes. -/
def installedAfter (f : Fpb) (installed : Finset (BitVec 32)) (a : BitVec 32) :
    Finset (BitVec 32) :=
  if a ≥ 0x20000000 then installed
  else
    match f.ready.wordIdx a with
    | some _ => insert a installed
    | none => insert a (installed.erase (f.comp f.nextComp &&& ~~~0x1#32))

inductive UnitEvent
  | add (instAddr : BitVec 32)
  | pass (e : PassEvent)

/-- A comparator has an address, enabled or not, and its remap word is the
branch from there to its trampoline. -/
structure Fpb.Owns (handler : ℕ → BitVec 32) (f : Fpb) (j : ℕ) (a : BitVec 32) : Prop where
  addr : f.comp j &&& ~~~0x1#32 = a
  remap : f.remapInst j = jumpInst handler j a

instance Fpb.Owns.decidable (handler : ℕ → BitVec 32) (f : Fpb) (j : ℕ) (a : BitVec 32) :
    Decidable (f.Owns handler j a) :=
  decidable_of_iff (f.comp j &&& ~~~0x1#32 = a ∧ f.remapInst j = jumpInst handler j a)
    ⟨fun h => ⟨h.1, h.2⟩, fun h => ⟨h.1, h.2⟩⟩

/-- Every installed address has a comparator of its own. -/
def Kept (handler : ℕ → BitVec 32) (r : UnitRun) : Prop :=
  ∀ a ∈ r.installed, ∃ j < maxBp, r.fpb.Owns handler j a

section

variable {F : Type} (env : Env F) (handler : ℕ → BitVec 32)

def unitStep (r : UnitRun) : UnitEvent → Option UnitRun
  | .add a =>
      if a.toNat % 4 = 0 then
        some { fpb := (addHwBkpt env.flash handler r.fpb a).1
               installed := installedAfter r.fpb r.installed a }
      else none
  | .pass e => (passStep env handler r.fpb e).map fun f => { r with fpb := f }

/-- The call takes no comparator from an installed address: an added address is
new to the comparators, or one that has it owns it; and at a hit no installed
address is owned by the last comparator alone, unless the callback happens to be
set to that address, with the same branch. -/
def Spares (r : UnitRun) : UnitEvent → Prop
  | .add a => a ≥ 0x20000000 ∨ r.fpb.ready.wordIdx a = none ∨ ∃ j < maxBp, r.fpb.Owns handler j a
  | .pass (.hit i turns) =>
      ∀ nextInst, run (nextWordStep env) turns (calcBpktPc env (r.fpb.comp i)) = .stop nextInst →
        ∀ a ∈ r.installed, (∃ j < fpbCbReg, r.fpb.Owns handler j a) ∨
          nextInst = a ∧ callbackInst handler a = jumpInst handler fpbCbReg a
  | .pass .callback => True

variable {env handler} {f g : Fpb} {r r' : UnitRun} {a b : BitVec 32} {i j k : ℕ}

/-! ### Added addresses -/

theorem isWord_of_aligned (h : a.toNat % 4 = 0) : IsWord a := by
  rw [IsWord, and_not_one_of_aligned h]
  exact h

theorem wordIdx_addr (h : a.toNat % 4 = 0) (hfind : f.ready.wordIdx a = some k) :
    f.comp k &&& ~~~0x1#32 = a := by
  have hfound := List.find?_some hfind
  simp only [Bool.or_eq_true, decide_eq_true_eq, and_not_one_of_aligned h] at hfound
  rcases hfound with hc | hc
  · exact (congrArg (· &&& ~~~0x1#32) hc).trans (or_one_and_of_aligned h)
  · exact (congrArg (· &&& ~~~0x1#32) hc).trans (and_not_one_of_aligned h)

theorem addHwBkpt_rejected (hf : f.Remapping) (ha : a ≥ 0x20000000) :
    (addHwBkpt env.flash handler f a).1.Remapping ∧
      (addHwBkpt env.flash handler f a).1.comp = f.comp ∧
      (addHwBkpt env.flash handler f a).1.remapInst = f.remapInst := by
  have hcounted := addHwBkpt_counted (a := a) env.flash handler hf.counted
  simp only [addHwBkpt, if_pos ha] at hcounted ⊢
  split <;> rename_i hinit
  · simp only [hinit, if_true] at hcounted
    exact ⟨⟨hf.mode, hcounted⟩, rfl, rfl⟩
  · exact ⟨hf, rfl, rfl⟩

theorem addHwBkpt_found (hf : f.Remapping) (ha : a.toNat < 0x20000000) (h : a.toNat % 4 = 0)
    (hfind : f.ready.wordIdx a = some k) :
    (addHwBkpt env.flash handler f a).1.comp = Function.update f.comp k (a ||| 0x1) ∧
      (addHwBkpt env.flash handler f a).1.remapInst = f.remapInst := by
  rw [(addHwBkpt_writes hf ha).2.1, (addHwBkpt_writes hf ha).2.2, hwWrites,
    if_neg (not_ge_of_lt ha), fpbWrites]
  simp only [if_pos (isWord_of_aligned h), hfind, and_not_one_of_aligned h]
  exact ⟨rfl, rfl⟩

theorem addHwBkpt_new (hf : f.Remapping) (ha : a.toNat < 0x20000000) (h : a.toNat % 4 = 0)
    (hfind : f.ready.wordIdx a = none) :
    (addHwBkpt env.flash handler f a).1.comp = Function.update f.comp f.nextComp (a ||| 0x1) ∧
      (addHwBkpt env.flash handler f a).1.remapInst =
        Function.update f.remapInst f.nextComp (jumpInst handler f.nextComp a) := by
  rw [(addHwBkpt_writes hf ha).2.1, (addHwBkpt_writes hf ha).2.2, hwWrites,
    if_neg (not_ge_of_lt ha), fpbWrites]
  simp only [if_pos (isWord_of_aligned h), hfind, and_not_one_of_aligned h]
  exact ⟨rfl, rfl⟩

theorem Fpb.Owns.congr (h : f.Owns handler j a)
    (hcomp : g.comp j &&& ~~~0x1#32 = f.comp j &&& ~~~0x1#32)
    (hremap : g.remapInst j = f.remapInst j) : g.Owns handler j a :=
  ⟨hcomp.trans h.addr, hremap.trans h.remap⟩

theorem owns_congr (hcomp : ∀ j < k, g.comp j &&& ~~~0x1#32 = f.comp j &&& ~~~0x1#32)
    (hremap : ∀ j < k, g.remapInst j = f.remapInst j) :
    (∃ j < k, g.Owns handler j a) ↔ ∃ j < k, f.Owns handler j a := by
  constructor
  · rintro ⟨j, hj, h⟩
    exact ⟨j, hj, h.congr (hcomp j hj).symm (hremap j hj).symm⟩
  · rintro ⟨j, hj, h⟩
    exact ⟨j, hj, h.congr (hcomp j hj) (hremap j hj)⟩

theorem kept_congr {installed : Finset (BitVec 32)}
    (hcomp : ∀ j < maxBp, g.comp j &&& ~~~0x1#32 = f.comp j &&& ~~~0x1#32)
    (hremap : ∀ j < maxBp, g.remapInst j = f.remapInst j) :
    Kept handler ⟨g, installed⟩ ↔ Kept handler ⟨f, installed⟩ :=
  forall₂_congr fun _ _ => owns_congr hcomp hremap

/-! ### One call -/

theorem add_kept_iff (hf : r.fpb.Remapping) (hkept : Kept handler r)
    (hstep : unitStep env handler r (.add a) = some r') :
    Kept handler r' ↔ Spares env handler r (.add a) := by
  rw [unitStep] at hstep
  split at hstep
  · rename_i halign
    cases hstep
    by_cases ha : a ≥ 0x20000000
    · rw [installedAfter, if_pos ha]
      refine iff_of_true ((kept_congr (fun j _ => ?_) fun j _ => ?_).mpr hkept) (.inl ha)
      · rw [(addHwBkpt_rejected hf ha).2.1]
      · rw [(addHwBkpt_rejected hf ha).2.2]
    · have hlt : a.toNat < 0x20000000 := Nat.lt_of_not_le ha
      rw [installedAfter, if_neg ha]
      cases hfind : r.fpb.ready.wordIdx a with
      | some k =>
          have haddr := wordIdx_addr halign hfind
          have hsame : Kept handler
              ⟨(addHwBkpt env.flash handler r.fpb a).1, insert a r.installed⟩ ↔
                Kept handler ⟨r.fpb, insert a r.installed⟩ := by
            refine kept_congr (fun j _ => ?_) fun j _ => ?_
            · rw [(addHwBkpt_found hf hlt halign hfind).1]
              by_cases hjk : j = k
              · rw [hjk, Function.update_self, haddr, or_one_and_of_aligned halign]
              · rw [Function.update_of_ne hjk]
            · rw [(addHwBkpt_found hf hlt halign hfind).2]
          refine hsame.trans ?_
          simp only [Spares, ha, hfind, reduceCtorEq, false_or]
          refine ⟨fun h => h a (Finset.mem_insert_self ..), fun hown b hb => ?_⟩
          rcases Finset.mem_insert.mp hb with rfl | hb
          · exact hown
          · exact hkept b hb
      | none =>
          have hcomp : (addHwBkpt env.flash handler r.fpb a).1.comp =
              Function.update r.fpb.comp r.fpb.nextComp (a ||| 0x1) :=
            (addHwBkpt_new hf hlt halign hfind).1
          have hremap : (addHwBkpt env.flash handler r.fpb a).1.remapInst =
              Function.update r.fpb.remapInst r.fpb.nextComp
                (jumpInst handler r.fpb.nextComp a) :=
            (addHwBkpt_new hf hlt halign hfind).2
          refine iff_of_true (fun b hb => ?_) (.inr (.inl hfind))
          rcases Finset.mem_insert.mp hb with rfl | hb
          · refine ⟨r.fpb.nextComp, r.fpb.nextComp_lt, ?_, ?_⟩
            · simp only [hcomp, Function.update_self]
              exact or_one_and_of_aligned halign
            · simp only [hremap, Function.update_self]
          · obtain ⟨hne, hb⟩ := Finset.mem_erase.mp hb
            obtain ⟨j, hj, hown⟩ := hkept b hb
            have hjk : j ≠ r.fpb.nextComp := by
              rintro rfl
              exact hne hown.addr.symm
            refine ⟨j, hj, hown.congr ?_ ?_⟩
            · simp only [hcomp, Function.update_of_ne hjk]
            · simp only [hremap, Function.update_of_ne hjk]
  · cases hstep

theorem hit_kept_iff {turns : ℕ} (hstep : unitStep env handler r (.pass (.hit i turns)) = some r') :
    Kept handler r' ↔ Spares env handler r (.pass (.hit i turns)) := by
  obtain ⟨g, hg, rfl⟩ := Option.map_eq_some_iff.mp hstep
  obtain ⟨hi, nextInst, hrun, hgeq⟩ := passStep_hit hg
  have hremap : g.remapInst =
      Function.update r.fpb.remapInst fpbCbReg (callbackInst handler nextInst) := by rw [hgeq]
  have hlast : g.comp fpbCbReg = nextInst ||| 0x1 := by
    rw [hgeq]
    simp only [Function.update_of_ne (Nat.ne_of_gt hi), Function.update_self]
  have hbase : g.comp fpbCbReg &&& ~~~0x1#32 = nextInst := by
    rw [hlast]
    exact or_one_and_of_aligned (nextWord_aligned hrun)
  have hown (a : BitVec 32) : g.Owns handler fpbCbReg a ↔
      nextInst = a ∧ callbackInst handler a = jumpInst handler fpbCbReg a := by
    constructor
    · rintro ⟨haddr, hword⟩
      rw [hbase] at haddr
      rw [hremap, Function.update_self, haddr] at hword
      exact ⟨haddr, hword⟩
    · rintro ⟨rfl, hinst⟩
      refine ⟨hbase, ?_⟩
      rw [hremap, Function.update_self, hinst]
  have hbelow (a : BitVec 32) : (∃ j < fpbCbReg, g.Owns handler j a) ↔
      ∃ j < fpbCbReg, r.fpb.Owns handler j a := by
    refine owns_congr (fun j hj => passStep_addr hg hj) fun j hj => ?_
    rw [hremap, Function.update_of_ne (Nat.ne_of_lt hj)]
  have hsplit (a : BitVec 32) : (∃ j < maxBp, g.Owns handler j a) ↔
      (∃ j < fpbCbReg, r.fpb.Owns handler j a) ∨
        nextInst = a ∧ callbackInst handler a = jumpInst handler fpbCbReg a := by
    rw [← hbelow, ← hown]
    exact Nat.exists_lt_succ_right
  simp only [Kept, Spares, hsplit, hrun, Next.stop.injEq, forall_eq']

theorem callback_kept (hkept : Kept handler r)
    (hstep : unitStep env handler r (.pass .callback) = some r') : Kept handler r' := by
  cases hstep
  show Kept handler ⟨(fpbEnableCallback r.fpb).1, r.installed⟩
  have hremap : ∀ j < maxBp, (fpbEnableCallback r.fpb).1.remapInst j = r.fpb.remapInst j :=
    fun _ _ => rfl
  refine (kept_congr (fun j hj => ?_) hremap).mpr hkept
  rcases Nat.lt_or_eq_of_le (Nat.le_of_lt_succ hj) with hlt | hlast
  · have hcb : passStep env handler r.fpb .callback = some (fpbEnableCallback r.fpb).1 := rfl
    exact passStep_addr hcb hlt
  · have hj : j = fpbCbReg := hlast
    rw [hj, callback_comp_last]
    exact and_not_one_idem (r.fpb.comp fpbCbReg)

theorem unitStep_kept_iff {e : UnitEvent} (hf : r.fpb.Remapping) (hkept : Kept handler r)
    (hstep : unitStep env handler r e = some r') : Kept handler r' ↔ Spares env handler r e := by
  cases e with
  | add a => exact add_kept_iff hf hkept hstep
  | pass e =>
      cases e with
      | hit i turns => exact hit_kept_iff hstep
      | callback => exact iff_of_true (callback_kept hkept hstep) trivial

theorem unitStep_remapping {e : UnitEvent} (hf : r.fpb.Remapping)
    (hstep : unitStep env handler r e = some r') : r'.fpb.Remapping := by
  cases e with
  | add a =>
      rw [unitStep] at hstep
      split at hstep
      · cases hstep
        by_cases ha : a ≥ 0x20000000
        · exact (addHwBkpt_rejected hf ha).1
        · exact (addHwBkpt_writes hf (Nat.lt_of_not_le ha)).1
      · cases hstep
  | pass e =>
      obtain ⟨g, hg, rfl⟩ := Option.map_eq_some_iff.mp hstep
      cases e with
      | hit i turns =>
          obtain ⟨-, nextInst, -, rfl⟩ := passStep_hit hg
          exact ⟨hf.mode, hf.counted⟩
      | callback =>
          cases hg
          exact ⟨hf.mode, hf.counted⟩

end

/-- From a clear unit on, every installed address keeps its comparator and its
trampoline exactly as long as every call spares it. -/
theorem kept_throughout_iff {F : Type} (env : Env F) (handler : ℕ → BitVec 32) (f : Fpb)
    (hf : f.FreshRemap) (es : List UnitEvent) :
    Throughout (unitStep env handler) (Kept handler) ⟨f, ∅⟩ es ↔
      EachStep (unitStep env handler) (Spares env handler) ⟨f, ∅⟩ es :=
  throughout_iff_eachStep_of_invariant (I := fun r => r.fpb.Remapping)
    (fun _ _ _ hI hstep => unitStep_remapping hI hstep)
    (fun _ _ _ hI hP hstep => unitStep_kept_iff hI hP hstep) hf.remapping
    (fun a ha => absurd ha (Finset.notMem_empty a)) es

theorem two_addrs_kept :
    clearRemap.FreshRemap ∧
      Throughout (unitStep listEnv wordHandlers) (Kept wordHandlers) ⟨clearRemap, ∅⟩
        [.add 0x100, .add 0x200, .pass (.hit 0 2), .pass .callback] := by
  have hadded : ∀ r, runEvents (unitStep listEnv wordHandlers) ⟨clearRemap, ∅⟩
      [.add 0x100, .add 0x200] = some r →
      r.installed = {0x200, 0x100} ∧ r.fpb.Owns wordHandlers 0 0x100 ∧
        r.fpb.Owns wordHandlers 1 0x200 := by
    rintro r ⟨⟩
    exact ⟨by decide, ⟨by decide, rfl⟩, ⟨by decide, rfl⟩⟩
  refine ⟨clearRemap_fresh, ?_⟩
  refine (kept_throughout_iff listEnv wordHandlers clearRemap clearRemap_fresh _).mpr ?_
  refine fun r₁ h₁ => ⟨.inr (.inl (by decide)), fun r₂ h₂ => ⟨?_, fun r₃ _ => ⟨?_, ?_⟩⟩⟩
  · cases h₁
    exact .inr (.inl (by decide))
  · obtain ⟨hset, h0, h1⟩ := hadded r₂ (by rw [runEvents_cons, h₁]; exact congrArg (·.bind some) h₂)
    intro nextInst _ a ha
    rw [hset] at ha
    rcases Finset.mem_insert.mp ha with rfl | ha
    · exact .inl ⟨1, by decide, h1⟩
    · obtain rfl := Finset.mem_singleton.mp ha
      exact .inl ⟨0, by decide, h0⟩
  · exact fun r₄ _ => ⟨trivial, trivial⟩

/-- Six addresses, and the first is hit: the last is gone. -/
theorem sixth_addr_stolen :
    clearRemap.FreshRemap ∧
      ¬Throughout (unitStep listEnv wordHandlers) (Kept wordHandlers) ⟨clearRemap, ∅⟩
        [.add 0x100, .add 0x200, .add 0x300, .add 0x400, .add 0x500, .add 0x600,
          .pass (.hit 0 2)] := by
  refine ⟨clearRemap_fresh, fun h => ?_⟩
  have hgone : ∀ r, runEvents (unitStep listEnv wordHandlers) ⟨clearRemap, ∅⟩
      [.add 0x100, .add 0x200, .add 0x300, .add 0x400, .add 0x500, .add 0x600,
        .pass (.hit 0 2)] = some r →
      0x600 ∈ r.installed ∧ ∀ j < maxBp, r.fpb.comp j &&& ~~~0x1#32 ≠ 0x600 := by
    rintro r ⟨⟩
    decide
  obtain ⟨r, hr⟩ : ∃ r, runEvents (unitStep listEnv wordHandlers) ⟨clearRemap, ∅⟩
      [.add 0x100, .add 0x200, .add 0x300, .add 0x400, .add 0x500, .add 0x600,
        .pass (.hit 0 2)] = some r := ⟨_, rfl⟩
  obtain ⟨hmem, hlost⟩ := hgone r hr
  obtain ⟨j, hj, hown⟩ := h.run hr 0x600 hmem
  exact hlost j hj hown.addr

end RapidPatch.Hotpatch

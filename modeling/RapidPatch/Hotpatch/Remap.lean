import RapidPatch.Hotpatch.Breakpoints
import RapidPatch.Support.Events

/-!
The comparators in remap mode, and the words they remap to.

An address of a word takes one comparator, an address of the second half of a
word takes two, and `cur_idx` is compared with `MAX_BP` before either. What a
call writes is `hwWrites`, in the order it is written, and a call does nothing
to the comparators and the remap words but these writes
(`addHwBkpt_writes`). They are all inside the tables exactly as long as no
address takes two comparators from the last one on
(`hwWrites_inRange_iff`).
-/

namespace RapidPatch.Hotpatch

open RapidPatch.Support

/-- A write to a comparator or to a word of the remap table. -/
inductive UnitWrite
  | comp (i : ℕ) (v : BitVec 32)
  | remap (i : ℕ) (v : BitVec 32)

namespace UnitWrite

def index : UnitWrite → ℕ
  | comp i _ => i
  | remap i _ => i

end UnitWrite

def Fpb.write (f : Fpb) : UnitWrite → Fpb
  | .comp i v => { f with comp := Function.update f.comp i v }
  | .remap i v => { f with remapInst := Function.update f.remapInst i v }

def IsWord (a : BitVec 32) : Prop := (a &&& ~~~0x1#32).toNat % 4 = 0

instance IsWord.decidable (a : BitVec 32) : Decidable (IsWord a) :=
  inferInstanceAs (Decidable (_ = _))

def Fpb.wordIdx (f : Fpb) (a : BitVec 32) : Option ℕ :=
  let instAddr := a &&& ~~~0x1#32
  (List.range f.bpktNum).find? fun i => f.comp i = instAddr ||| 0x1 || f.comp i = instAddr

/-- The first of the two comparators that have the words around an address. -/
def Fpb.pairIdx (f : Fpb) (a : BitVec 32) : Option ℕ :=
  let word := a &&& ~~~0x1#32 &&& 0xfffffffc
  (List.range (f.bpktNum - 1)).find? fun i => f.comp i = word && f.comp (i + 1) = word + 4

section

variable (flash : BitVec 32 → BitVec 16) (handler : ℕ → BitVec 32)

/-- The handler's word, as `add_fpb_bkpt` aligns it. -/
def trampolineAddr (idx : ℕ) : BitVec 32 := ((handler idx &&& ~~~0x3#32) + 3) &&& ~~~0x3#32

/-- The branch that goes into the remap table. -/
def jumpInst (idx : ℕ) (a : BitVec 32) : BitVec 32 :=
  littleEndian16Bit (calcBranchInstr a (trampolineAddr handler idx))

/-- What `add_fpb_bkpt` writes. -/
def fpbWrites (f : Fpb) (a : BitVec 32) : List UnitWrite :=
  let idx := f.curIdx
  let instAddr := a &&& ~~~0x1#32
  let jump := jumpInst handler idx a
  if IsWord a then
    match f.wordIdx a with
    | some i => [.comp i (instAddr ||| 0x1)]
    | none => [.remap idx jump, .comp idx (instAddr ||| 0x1)]
  else
    match f.pairIdx a with
    | some _ => []
    | none =>
        let comp1 := instAddr &&& 0xfffffffc
        let comp2 := comp1 + 4
        [ .remap idx (((jump &&& 0x0000ffff) <<< 16) ||| (flashWord flash comp1 &&& 0x0000ffff)),
          .remap (idx + 1)
            ((flashWord flash comp2 &&& 0xffff0000) ||| ((jump &&& 0xffff0000) >>> 16)),
          .comp idx comp1, .comp (idx + 1) comp2]

/-- Besides its writes, `add_fpb_bkpt` moves `cur_idx` at most. -/
theorem addFpbBkpt_writes (f : Fpb) (a : BitVec 32) :
    (addFpbBkpt flash handler f a).1 =
      { (fpbWrites flash handler f a).foldl Fpb.write f with
        curIdx := (addFpbBkpt flash handler f a).1.curIdx } := by
  by_cases hword : IsWord a
  · have hword' := hword
    rw [IsWord] at hword'
    simp only [addFpbBkpt, fpbWrites, if_pos hword, if_pos hword']
    cases hfind : f.wordIdx a with
    | some i =>
        rw [Fpb.wordIdx] at hfind
        simp only [hfind]
        rfl
    | none =>
        rw [Fpb.wordIdx] at hfind
        simp only [hfind]
        rfl
  · have hword' := hword
    rw [IsWord] at hword'
    simp only [addFpbBkpt, fpbWrites, if_neg hword, if_neg hword']
    cases hfind : f.pairIdx a with
    | some i =>
        rw [Fpb.pairIdx] at hfind
        simp only [hfind]
        rfl
    | none =>
        rw [Fpb.pairIdx] at hfind
        simp only [hfind]
        rfl

/-- The unit in remap mode. -/
structure Fpb.Remapping (f : Fpb) : Prop where
  mode : f.remapActive = true
  counted : f.Counted

/-- What `add_hw_bkpt` writes in remap mode. -/
def hwWrites (f : Fpb) (a : BitVec 32) : List UnitWrite :=
  if a ≥ 0x20000000 then [] else fpbWrites flash handler f.ready a

variable {flash handler} {f : Fpb} {a : BitVec 32}

theorem addHwBkpt_remap (h : f.Remapping) (ha : a.toNat < 0x20000000) :
    addHwBkpt flash handler f a = addFpbBkpt flash handler f.ready a := by
  rw [addHwBkpt_ready flash handler h.counted ha, if_pos h.mode]

theorem foldl_write_mode (ws : List UnitWrite) :
    (ws.foldl Fpb.write f).remapActive = f.remapActive ∧
      (ws.foldl Fpb.write f).bpktNum = f.bpktNum := by
  induction ws generalizing f with
  | nil => exact ⟨rfl, rfl⟩
  | cons w ws ih =>
      obtain ⟨hmode, hnum⟩ := @ih (f.write w)
      rw [List.foldl_cons, hmode, hnum]
      cases w with
      | comp i v => exact ⟨rfl, rfl⟩
      | remap i v => exact ⟨rfl, rfl⟩

/-- The unit stays in remap mode, and what a call does to the comparators and
the remap words is what it writes. -/
theorem addHwBkpt_writes (h : f.Remapping) (ha : a.toNat < 0x20000000) :
    (addHwBkpt flash handler f a).1.Remapping ∧
      (addHwBkpt flash handler f a).1.comp =
        ((hwWrites flash handler f a).foldl Fpb.write f.ready).comp ∧
      (addHwBkpt flash handler f a).1.remapInst =
        ((hwWrites flash handler f a).foldl Fpb.write f.ready).remapInst := by
  have hwrites := addFpbBkpt_writes flash handler f.ready a
  obtain ⟨hmode, hnum⟩ := foldl_write_mode (f := f.ready) (fpbWrites flash handler f.ready a)
  rw [addHwBkpt_remap h ha, hwWrites, if_neg (not_ge_of_lt ha), hwrites]
  exact ⟨⟨hmode.trans h.mode, fun _ => hnum⟩, rfl, rfl⟩

/-! ### Indices -/

/-- Two comparators in turn have the words around an address. -/
def Fpb.HoldsPair (f : Fpb) (a : BitVec 32) : Prop :=
  ∃ i < maxBp - 1, f.comp i = a &&& ~~~0x1#32 &&& 0xfffffffc ∧
    f.comp (i + 1) = (a &&& ~~~0x1#32 &&& 0xfffffffc) + 4

instance Fpb.HoldsPair.decidable (f : Fpb) (a : BitVec 32) : Decidable (f.HoldsPair a) :=
  inferInstanceAs (Decidable (∃ i < maxBp - 1, _))

theorem wordIdx_lt {i : ℕ} (h : f.ready.wordIdx a = some i) : i < maxBp := by
  rw [Fpb.wordIdx] at h
  exact List.mem_range.mp (List.mem_of_find?_eq_some h)

theorem pairIdx_eq_none_iff : f.ready.pairIdx a = none ↔ ¬f.HoldsPair a := by
  rw [Fpb.pairIdx, List.find?_eq_none]
  constructor
  · rintro h ⟨i, hi, h1, h2⟩
    have hnot := h i (List.mem_range.mpr hi)
    simp only [Bool.and_eq_true, decide_eq_true_eq, not_and] at hnot
    exact hnot h1 h2
  · intro h i hi hfound
    simp only [Bool.and_eq_true, decide_eq_true_eq] at hfound
    exact h ⟨i, List.mem_range.mp hi, hfound⟩

/-- The address takes the last comparator and one behind it. -/
structure Fpb.Overruns (f : Fpb) (a : BitVec 32) : Prop where
  halfword : ¬IsWord a
  last : f.nextComp + 1 = maxBp
  free : ¬f.HoldsPair a

theorem hwWrites_inRange_step (ha : a.toNat < 0x20000000) :
    (∀ w ∈ hwWrites flash handler f a, w.index < maxBp) ↔ ¬f.Overruns a := by
  have hlt := f.nextComp_lt
  rw [hwWrites, if_neg (not_ge_of_lt ha)]
  by_cases hword : IsWord a
  · refine iff_of_true ?_ fun h => h.halfword hword
    simp only [fpbWrites, if_pos hword]
    split
    · rename_i i hfind
      simpa [UnitWrite.index] using wordIdx_lt hfind
    · simpa [UnitWrite.index, Fpb.ready] using hlt
  · simp only [fpbWrites, if_neg hword]
    cases hfind : f.ready.pairIdx a with
    | some i =>
        refine iff_of_true (by simp) fun h => ?_
        rw [pairIdx_eq_none_iff.mpr h.free] at hfind
        cases hfind
    | none =>
        have hfree := pairIdx_eq_none_iff.mp hfind
        simp only [List.mem_cons, List.not_mem_nil, or_false, forall_eq_or_imp, forall_eq,
          UnitWrite.index, Fpb.ready]
        constructor
        · rintro ⟨_, hnext, _⟩ h
          exact absurd h.last (by omega)
        · intro h
          have hlast : f.nextComp + 1 ≠ maxBp := fun heq => h ⟨hword, heq, hfree⟩
          omega

/-! ### Runs -/

variable (flash handler)

/-- A call of `add_hw_bkpt`, which never fails. -/
def addHw (f : Fpb) (a : BitVec 32) : Option Fpb := some (addHwBkpt flash handler f a).1

def hwWritesAll (f : Fpb) : List (BitVec 32) → List UnitWrite
  | [] => []
  | a :: addrs =>
      hwWrites flash handler f a ++ hwWritesAll (addHwBkpt flash handler f a).1 addrs

/-- In remap mode, everything that is written is inside the tables exactly if
no address takes the last comparator as the first of two. -/
theorem hwWrites_inRange_iff (f : Fpb) (hf : f.Remapping) (addrs : List (BitVec 32))
    (haddrs : ∀ a ∈ addrs, a.toNat < 0x20000000) :
    (∀ w ∈ hwWritesAll flash handler f addrs, w.index < maxBp) ↔
      EachStep (addHw flash handler) (fun f a => ¬f.Overruns a) f addrs := by
  induction addrs generalizing f with
  | nil => exact iff_of_true (by simp [hwWritesAll]) trivial
  | cons a addrs ih =>
      have ha := haddrs a List.mem_cons_self
      have hstep : (∀ w ∈ hwWrites flash handler f a, w.index < maxBp) ↔ ¬f.Overruns a :=
        hwWrites_inRange_step ha
      have hrest := ih (addHwBkpt flash handler f a).1 (addHwBkpt_writes hf ha).1
        fun b hb => haddrs b (List.mem_cons_of_mem a hb)
      simp only [hwWritesAll, List.mem_append, or_imp, forall_and, hstep, hrest]
      constructor
      · rintro ⟨hC, hEach⟩ t ht
        cases ht
        exact ⟨hC, hEach⟩
      · intro h
        exact h _ rfl

end

/-! ### The boundary -/

def clearRemap : Fpb := { clearDevice.fpb with remapActive := true }

theorem clearRemap_remapping : clearRemap.Remapping := ⟨rfl, fun h => by cases h⟩

theorem two_addrs_inRange :
    clearRemap.Remapping ∧
      ∀ w ∈ hwWritesAll (fun _ => 0xbf00) (fun _ => 0) clearRemap [0x100, 0x202],
        w.index < maxBp := by
  refine ⟨clearRemap_remapping, ?_⟩
  refine (hwWrites_inRange_iff _ _ clearRemap clearRemap_remapping [0x100, 0x202] (by simp)).mpr ?_
  intro t ht
  cases ht
  refine ⟨fun h => h.halfword (by decide), ?_⟩
  intro t ht
  cases ht
  exact ⟨fun h => absurd h.last (by decide), trivial⟩

/-- A halfword address after five addresses of words writes to a seventh
comparator and a seventh remap word. -/
theorem halfword_after_five_overruns :
    clearRemap.Remapping ∧
      (hwWritesAll (fun _ => 0xbf00) (fun _ => 0) clearRemap
        [0x100, 0x200, 0x300, 0x400, 0x500, 0x602]).map (·.index) =
          [0, 0, 1, 1, 2, 2, 3, 3, 4, 4, 5, 6, 5, 6] ∧
      ¬∀ w ∈ hwWritesAll (fun _ => 0xbf00) (fun _ => 0) clearRemap
        [0x100, 0x200, 0x300, 0x400, 0x500, 0x602], w.index < maxBp := by
  have hwrites : (hwWritesAll (fun _ => 0xbf00) (fun _ => 0) clearRemap
      [0x100, 0x200, 0x300, 0x400, 0x500, 0x602]).map (·.index) =
        [0, 0, 1, 1, 2, 2, 3, 3, 4, 4, 5, 6, 5, 6] := by decide
  refine ⟨clearRemap_remapping, hwrites, ?_⟩
  intro h
  have hsix : 6 ∈ (hwWritesAll (fun _ => 0xbf00) (fun _ => 0) clearRemap
      [0x100, 0x200, 0x300, 0x400, 0x500, 0x602]).map (·.index) := by
    rw [hwrites]
    decide
  obtain ⟨w, hw, hidx⟩ := List.mem_map.mp hsix
  have hlt := h w hw
  rw [hidx] at hlt
  exact absurd hlt (by decide)

end RapidPatch.Hotpatch

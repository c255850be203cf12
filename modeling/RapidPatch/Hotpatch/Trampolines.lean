import RapidPatch.Hotpatch.Comparators
import RapidPatch.Hotpatch.Remap
import RapidPatch.Jit.Decode

/-!
What the processor fetches at an address that remap mode patches.

For the address of a word, the remap word is a branch to the word its handler
lies in (`decodeBranchT4_calcBranchInstr`), which is behind the handler's first
instruction only if that begins the word. For the address of the second half
of a word two remap words make up the branch, but the comparators that lead to
them are not enabled, and `leave_fpb_bpkt` takes the word's address from them.
So a call of `add_hw_bkpt` does what it is for exactly if the address and the
handler are those of words and no comparator that was made for something else
has that address (`addHwBkpt_handled_iff`).
-/

namespace RapidPatch.Hotpatch

open RapidPatch.Support RapidPatch.Thumb RapidPatch.Jit

/-! ### The branch -/

/-- Encoding T4 of `B`, its halves in reading order: the offset from the end of
the instruction. -/
def decodeBranchT4 (x : BitVec 32) : Option (BitVec 32) :=
  if bits x 27 5 = 0b11110 ∧ bits x 14 2 = 0b10 ∧ bits x 12 1 = 1 then
    let s := bits x 26 1
    let i1 := ~~~(bits x 13 1 ^^^ s)
    let i2 := ~~~(bits x 11 1 ^^^ s)
    some ((s ++ (i1 ++ (i2 ++ (bits x 16 10 ++ (bits x 0 11 ++ (0 : BitVec 1)))))).signExtend 32)
  else none

/-- The distance that `calc_branch_instr` encodes. -/
def branchOffset (instrAddr targetAddr : BitVec 32) : BitVec 32 :=
  (targetAddr &&& ~~~0x1#32) - (instrAddr &&& ~~~0x1#32) - 4

theorem calcBranchInstr_fields (a t : BitVec 32) :
    bits (calcBranchInstr a t) 27 5 = 0b11110 ∧ bits (calcBranchInstr a t) 14 2 = 0b10 ∧
      bits (calcBranchInstr a t) 12 1 = 1 := by
  refine ⟨?_, ?_, ?_⟩ <;> apply BitVec.eq_of_getLsbD_eq <;> intro i hi <;>
    simp only [bits, calcBranchInstr] <;> interval_cases i <;> simp

theorem decodeBranchT4_calcBranchInstr {a t : BitVec 32}
    (hlo : -0x1000000 ≤ (branchOffset a t).toInt) (hhi : (branchOffset a t).toInt < 0x1000000) :
    decodeBranchT4 (calcBranchInstr a t) = some (evenPart (branchOffset a t)) := by
  set x := calcBranchInstr a t with hx
  set d := branchOffset a t with hd
  have himm : bits x 26 1 ++ (~~~(bits x 13 1 ^^^ bits x 26 1) ++
    (~~~(bits x 11 1 ^^^ bits x 26 1) ++
      (bits x 16 10 ++ (bits x 0 11 ++ (0 : BitVec 1))))) = bits d 1 24 ++ (0 : BitVec 1) := by
    apply BitVec.eq_of_getLsbD_eq
    intro i hi
    simp only [hx, bits, calcBranchInstr, BitVec.getLsbD_append]
    interval_cases i <;> simp [hd, branchOffset]
  obtain ⟨htop, h14, h12⟩ := calcBranchInstr_fields a t
  have hoff := offset_eq_evenPart (d := d) (w := 24) (by omega) (by omega) (by omega) (by omega)
  rw [decodeBranchT4, if_pos ⟨htop, h14, h12⟩]
  simp only [himm, hoff]

theorem trampolineAddr_eq (handler : ℕ → BitVec 32) (i : ℕ) :
    trampolineAddr handler i = handler i &&& ~~~0x3#32 := by
  apply BitVec.eq_of_toNat_eq
  have hlt := (handler i).isLt
  rw [trampolineAddr, toNat_and_not_three, BitVec.toNat_add, toNat_and_not_three]
  simp only [BitVec.reduceToNat]
  omega

/-! ### Fetching -/

/-- An enabled comparator that remaps a word. -/
def remaps (comp w : BitVec 32) : Bool :=
  compEnabled comp && comp >>> 30 = 0 && comp &&& 0x1ffffffc = w

def Fpb.fetchWord (f : Fpb) (flash : BitVec 32 → BitVec 16) (w : BitVec 32) : BitVec 32 :=
  match (List.range maxBp).find? fun i => remaps (f.comp i) w with
  | some i => f.remapInst i
  | none => flashWord flash w

def Fpb.fetchHalf (f : Fpb) (flash : BitVec 32 → BitVec 16) (a : BitVec 32) : BitVec 16 :=
  let w := f.fetchWord flash (a &&& ~~~0x3#32)
  if a &&& 0x2 = 0 then bits w 0 16 else bits w 16 16

def Fpb.fetchInst (f : Fpb) (flash : BitVec 32 → BitVec 16) (a : BitVec 32) : BitVec 32 :=
  f.fetchHalf flash a ++ f.fetchHalf flash (a + 2)

theorem littleEndian16Bit_eq (x : BitVec 32) :
    littleEndian16Bit x = bits x 0 16 ++ bits x 16 16 := by
  apply BitVec.eq_of_getLsbD_eq
  intro i hi
  simp only [littleEndian16Bit, bits, BitVec.getLsbD_append]
  interval_cases i <;> simp

theorem littleEndian16Bit_twice (x : BitVec 32) : littleEndian16Bit (littleEndian16Bit x) = x := by
  apply BitVec.eq_of_getLsbD_eq
  intro i hi
  simp only [littleEndian16Bit]
  interval_cases i <;> simp

theorem and_two_eq_zero_iff {x : BitVec 32} : x &&& 0x2 = 0 ↔ x.toNat / 2 % 2 = 0 := by
  have hbit : x.getLsbD 1 = decide (x.toNat / 2 % 2 = 1) := by
    rw [BitVec.getLsbD, Nat.testBit_eq_decide_div_mod_eq]
  have htwo : (0x2 : BitVec 32) = BitVec.twoPow 32 1 := by decide
  rw [htwo, BitVec.and_twoPow, hbit]
  by_cases hone : x.toNat / 2 % 2 = 1
  · rw [if_pos (decide_eq_true hone)]
    exact iff_of_false (by decide) (by omega)
  · rw [if_neg (by simpa using hone)]
    exact iff_of_true rfl (by omega)

/-- At the address of a word, the instruction is the remap word. -/
theorem fetchInst_word {f : Fpb} {flash : BitVec 32 → BitVec 16} {a : BitVec 32}
    (ha : a.toNat % 4 = 0) :
    f.fetchInst flash a = littleEndian16Bit (f.fetchWord flash a) := by
  have hlow : a &&& ~~~0x3#32 = a := and_not_three_of_aligned ha
  have hhigh : (a + 2) &&& ~~~0x3#32 = a := by
    apply BitVec.eq_of_toNat_eq
    have hlt := a.isLt
    rw [toNat_and_not_three, BitVec.toNat_add]
    simp only [BitVec.reduceToNat]
    omega
  have hhalf : (a + 2) &&& 0x2 ≠ 0 := by
    rw [Ne, and_two_eq_zero_iff, BitVec.toNat_add]
    simp only [BitVec.reduceToNat]
    omega
  rw [Fpb.fetchInst, Fpb.fetchHalf, Fpb.fetchHalf, hlow, hhigh, if_pos (and_two_of_aligned ha),
    if_neg hhalf, littleEndian16Bit_eq]

/-! ### What is no branch -/

theorem firstWord_not_branch (a t old : BitVec 32) :
    decodeBranchT4 (littleEndian16Bit
      (((littleEndian16Bit (calcBranchInstr a t) &&& 0x0000ffff) <<< 16) |||
        (old &&& 0x0000ffff))) = none := by
  rw [decodeBranchT4, if_neg]
  rintro ⟨-, hfield, -⟩
  have hbit := congrArg (BitVec.getLsbD · 0) hfield
  simp [bits, littleEndian16Bit, calcBranchInstr] at hbit

theorem secondWord_not_branch (a t old : BitVec 32) :
    decodeBranchT4 (littleEndian16Bit
      ((old &&& 0xffff0000) |||
        ((littleEndian16Bit (calcBranchInstr a t) &&& 0xffff0000) >>> 16))) = none := by
  rw [decodeBranchT4, if_neg]
  rintro ⟨hfield, -, -⟩
  have hbit := congrArg (BitVec.getLsbD · 3) hfield
  simp [bits, littleEndian16Bit, calcBranchInstr] at hbit

/-! ### Comparators and remap words together -/

/-- What holds of the two tables when all they hold has been put there by
`add_hw_bkpt`: an enabled comparator has the address of a word, and a remap
word is the branch for its comparator or none at all. -/
structure Fpb.Paired (handler : ℕ → BitVec 32) (f : Fpb) : Prop where
  enabled : ∀ i < maxBp, compEnabled (f.comp i) → ∃ b, CodeWord b ∧ f.comp i = b ||| 0x1
  branch : ∀ i < maxBp, f.remapInst i = jumpInst handler i (f.comp i &&& ~~~0x1#32) ∨
    decodeBranchT4 (littleEndian16Bit (f.remapInst i)) = none

section

variable {flash : BitVec 32 → BitVec 16} {handler : ℕ → BitVec 32} {f : Fpb} {a : BitVec 32}

theorem jumpInst_and (i : ℕ) : jumpInst handler i (a &&& ~~~0x1#32) = jumpInst handler i a := by
  have hidem : a &&& ~~~0x1#32 &&& ~~~0x1#32 = a &&& ~~~0x1#32 := by
    rw [BitVec.and_assoc, BitVec.and_self]
  rw [jumpInst, jumpInst, calcBranchInstr, calcBranchInstr, hidem]

theorem or_one_and (a : BitVec 32) :
    (a &&& ~~~0x1#32 ||| 0x1) &&& ~~~0x1#32 = a &&& ~~~0x1#32 := by
  rw [BitVec.and_or_distrib_right, BitVec.and_assoc, BitVec.and_self]
  simp

theorem codeWord_of_isWord (hword : IsWord a) (ha : a.toNat < 0x20000000) :
    CodeWord (a &&& ~~~0x1#32) := by
  refine ⟨hword, ?_⟩
  rw [toNat_and_not_one]
  omega

theorem Fpb.Paired.ready (h : f.Paired handler) : f.ready.Paired handler :=
  ⟨h.enabled, h.branch⟩

theorem Fpb.Paired.write (h : f.Paired handler) {i : ℕ} {c r : BitVec 32}
    (henabled : compEnabled c → ∃ b, CodeWord b ∧ c = b ||| 0x1)
    (hbranch : r = jumpInst handler i (c &&& ~~~0x1#32) ∨
      decodeBranchT4 (littleEndian16Bit r) = none) :
    ({ f with
      comp := Function.update f.comp i c
      remapInst := Function.update f.remapInst i r } : Fpb).Paired handler := by
  refine ⟨?_, ?_⟩
  · intro j hj
    by_cases hij : j = i
    · subst hij
      simpa using henabled
    · simpa [hij] using h.enabled j hj
  · intro j hj
    by_cases hij : j = i
    · subst hij
      simpa using hbranch
    · simpa [hij] using h.branch j hj

theorem not_compEnabled {c : BitVec 32} (h : c &&& 0x3 = 0) : ¬compEnabled c := by
  have hone : c &&& 0x1 = c &&& 0x3 &&& 0x1 := by
    rw [BitVec.and_assoc]
    rfl
  rw [compEnabled, hone, h]
  decide

def wordBelow (a : BitVec 32) : BitVec 32 := a &&& ~~~0x1#32 &&& 0xfffffffc

theorem and_three_eq_zero {x : BitVec 32} (h : x.toNat % 4 = 0) : x &&& 0x3 = 0 := by
  rw [← and_not_three_of_aligned h, BitVec.and_assoc]
  simp

theorem wordBelow_aligned (a : BitVec 32) : (wordBelow a).toNat % 4 = 0 := by
  have hword : wordBelow a = a &&& ~~~0x1#32 &&& ~~~0x3#32 := rfl
  rw [hword, toNat_and_not_three]
  omega

theorem add_four_aligned {x : BitVec 32} (h : x.toNat % 4 = 0) : (x + 4).toNat % 4 = 0 := by
  rw [BitVec.toNat_add]
  simp only [BitVec.reduceToNat]
  omega

/-- Every call keeps comparators and remap words paired. -/
theorem addHwBkpt_paired (hf : f.Remapping) (h : f.Paired handler) (ha : a.toNat < 0x20000000) :
    (addHwBkpt flash handler f a).1.Paired handler := by
  have hready := h.ready
  rw [addHwBkpt_remap hf ha]
  by_cases hword : IsWord a
  · have hb := codeWord_of_isWord hword ha
    have hword' : (a &&& ~~~0x1#32).toNat % 4 = 0 := hword
    simp only [addFpbBkpt, if_pos hword']
    split
    · rename_i i hfind
      -- the remap word stays, and so does the address of the comparator
      have hcomp : f.ready.comp i &&& ~~~0x1#32 = a &&& ~~~0x1#32 := by
        have hfound := List.find?_some hfind
        simp only [Bool.or_eq_true, decide_eq_true_eq] at hfound
        rcases hfound with hc | hc
        · rw [hc, or_one_and]
        · rw [hc, BitVec.and_assoc, BitVec.and_self]
      have hi : i < f.ready.bpktNum := List.mem_range.mp (List.mem_of_find?_eq_some hfind)
      have hwrite := hready.write (i := i) (c := a &&& ~~~0x1#32 ||| 0x1) (r := f.ready.remapInst i)
        (fun _ => ⟨_, hb, rfl⟩) (by rw [or_one_and, ← hcomp]; exact hready.branch i hi)
      rw [Function.update_eq_self] at hwrite
      exact hwrite
    · have hwrite := hready.write (i := f.ready.curIdx) (c := a &&& ~~~0x1#32 ||| 0x1)
        (r := jumpInst handler f.ready.curIdx a) (fun _ => ⟨_, hb, rfl⟩)
        (.inl (by rw [or_one_and, jumpInst_and]))
      exact ⟨hwrite.enabled, hwrite.branch⟩
  · have hword' : ¬(a &&& ~~~0x1#32).toNat % 4 = 0 := hword
    simp only [addFpbBkpt, if_neg hword']
    split
    · exact hready
    · have hbelow := wordBelow_aligned a
      have hfirst := hready.write (i := f.ready.curIdx) (c := wordBelow a)
        (r := ((jumpInst handler f.ready.curIdx a &&& 0x0000ffff) <<< 16) |||
          (flashWord flash (wordBelow a) &&& 0x0000ffff))
        (fun he => absurd he (not_compEnabled (and_three_eq_zero hbelow)))
        (.inr (firstWord_not_branch _ _ _))
      have hsecond := hfirst.write (i := f.ready.curIdx + 1) (c := wordBelow a + 4)
        (r := (flashWord flash (wordBelow a + 4) &&& 0xffff0000) |||
          ((jumpInst handler f.ready.curIdx a &&& 0xffff0000) >>> 16))
        (fun he => absurd he (not_compEnabled (and_three_eq_zero (add_four_aligned hbelow))))
        (.inr (secondWord_not_branch _ _ _))
      exact ⟨hsecond.enabled, hsecond.branch⟩

/-- The comparator that an address has afterwards, the first of two for a
halfword address. -/
def Fpb.slotOf (f : Fpb) (a : BitVec 32) : ℕ :=
  (if IsWord a then f.ready.wordIdx a else f.ready.pairIdx a).getD f.nextComp

theorem compEnabled_or_one (b : BitVec 32) : compEnabled (b ||| 0x1) := by
  intro hzero
  have hbit := congrArg (BitVec.getLsbD · 0) hzero
  simp at hbit

/-- The comparator of a word remaps that word and no other. -/
theorem remaps_or_one {b w : BitVec 32} (hb : CodeWord b) :
    remaps (b ||| 0x1) w = decide (b = w) := by
  have hfield : (b ||| 0x1) &&& 0x1ffffffc = b := by
    rw [BitVec.and_or_distrib_right, and_addrField hb.aligned hb.lt]
    simp
  have hreplace : (b ||| 0x1) >>> 30 = 0 := by
    rw [BitVec.ushiftRight_or_distrib, ushiftRight_codeRegion hb.lt]
    rfl
  simp only [remaps, compEnabled_or_one, hreplace, hfield, decide_true, Bool.true_and]

/-- The first comparator of a word is the one it is fetched through. -/
theorem Fpb.Paired.fetchWord (h : f.Paired handler) {b : BitVec 32} (hb : CodeWord b) {i : ℕ}
    (hi : i < maxBp) (hcomp : f.comp i = b ||| 0x1) (hfirst : ∀ j < i, f.comp j ≠ b ||| 0x1) :
    f.fetchWord flash b = f.remapInst i := by
  have hfind : ((List.range maxBp).find? fun j => remaps (f.comp j) b) = some i := by
    rw [List.find?_range_eq_some]
    refine ⟨?_, List.mem_range.mpr hi, ?_⟩
    · rw [hcomp, remaps_or_one hb]
      exact decide_eq_true rfl
    · intro j hj
      rw [Bool.not_eq_true']
      by_contra hremaps
      rw [Bool.not_eq_false] at hremaps
      have henabled : compEnabled (f.comp j) := by
        simp only [remaps, Bool.and_eq_true, decide_eq_true_eq] at hremaps
        exact hremaps.1.1
      obtain ⟨c, hc, hcompj⟩ := h.enabled j (hj.trans hi) henabled
      rw [hcompj, remaps_or_one hc, decide_eq_true_eq] at hremaps
      exact hfirst j hj (by rw [hcompj, hremaps])
  rw [Fpb.fetchWord, hfind]

structure WordAdded (handler : ℕ → BitVec 32) (f : Fpb) (a : BitVec 32) (g : Fpb) : Prop where
  lt : f.slotOf a < maxBp
  comp : g.comp (f.slotOf a) = a &&& ~~~0x1#32 ||| 0x1
  first : ∀ j < f.slotOf a, g.comp j ≠ a &&& ~~~0x1#32 ||| 0x1
  remap : g.remapInst (f.slotOf a) =
    if (f.ready.wordIdx a).isSome then f.remapInst (f.slotOf a) else jumpInst handler (f.slotOf a) a

theorem addHwBkpt_word (hf : f.Remapping) (hword : IsWord a) (ha : a.toNat < 0x20000000) :
    WordAdded handler f a (addHwBkpt flash handler f a).1 := by
  have hword' : (a &&& ~~~0x1#32).toNat % 4 = 0 := hword
  have hslot : f.slotOf a = (f.ready.wordIdx a).getD f.nextComp := by
    rw [Fpb.slotOf, if_pos hword]
  rw [addHwBkpt_remap hf ha]
  cases hfind : f.ready.wordIdx a with
  | some i =>
      rw [hfind, Option.getD_some] at hslot
      have hi := wordIdx_lt hfind
      have hunfold := hfind
      rw [Fpb.wordIdx] at hunfold
      have hbefore := (List.find?_range_eq_some.mp hunfold).2.2
      simp only [addFpbBkpt, if_pos hword', hunfold]
      refine ⟨?_, ?_, ?_, ?_⟩ <;> rw [hslot]
      · exact hi
      · exact Function.update_self ..
      · intro j hj
        have hnot := hbefore j hj
        simp only [Bool.not_eq_true', Bool.or_eq_false_iff, decide_eq_false_iff_not] at hnot
        simp only [Function.update_of_ne (Nat.ne_of_lt hj)]
        exact hnot.1
      · rw [hfind]
        rfl
  | none =>
      rw [hfind, Option.getD_none] at hslot
      have hunfold := hfind
      rw [Fpb.wordIdx] at hunfold
      have hnone := List.find?_eq_none.mp hunfold
      simp only [addFpbBkpt, if_pos hword', hunfold]
      refine ⟨?_, ?_, ?_, ?_⟩ <;> rw [hslot]
      · exact f.nextComp_lt
      · exact Function.update_self ..
      · intro j hj
        have hnot := hnone j (List.mem_range.mpr (hj.trans f.nextComp_lt))
        simp only [Bool.or_eq_true, decide_eq_true_eq, not_or] at hnot
        have hne : j ≠ f.ready.curIdx := Nat.ne_of_lt hj
        simp only [Function.update_of_ne hne]
        exact hnot.1
      · rw [hfind]
        exact Function.update_self ..

/-- For a halfword address the comparator is set to a word, and not enabled. -/
theorem addHwBkpt_halfword (hf : f.Remapping) (hword : ¬IsWord a) (ha : a.toNat < 0x20000000) :
    (addHwBkpt flash handler f a).1.comp (f.slotOf a) = wordBelow a := by
  have hword' : ¬(a &&& ~~~0x1#32).toNat % 4 = 0 := hword
  have hslot : f.slotOf a = (f.ready.pairIdx a).getD f.nextComp := by
    rw [Fpb.slotOf, if_neg hword]
  rw [addHwBkpt_remap hf ha, hslot]
  cases hfind : f.ready.pairIdx a with
  | some i =>
      have hunfold := hfind
      rw [Fpb.pairIdx] at hunfold
      have hfound := List.find?_some hunfold
      simp only [Bool.and_eq_true, decide_eq_true_eq] at hfound
      simp only [addFpbBkpt, if_neg hword', hunfold]
      exact hfound.1
  | none =>
      have hunfold := hfind
      rw [Fpb.pairIdx] at hunfold
      simp only [addFpbBkpt, if_neg hword', hunfold]
      have hne : f.ready.curIdx ≠ f.ready.curIdx + 1 := Nat.ne_of_lt (Nat.lt_succ_self _)
      exact (Function.update_of_ne hne ..).trans (Function.update_self ..)

/-! ### Calls -/

variable {F : Type}

/-- The patch that `leave_fpb_bpkt` runs for a comparator. -/
def leaveFpbPatch (s : PatchSys F) (f : Fpb) (bpktIdx : ℕ) : Option ℕ :=
  getDynamicPatchByBpkt s (f.comp bpktIdx &&& ~~~0x1#32)

/-- The branch from an address to a handler's word is in the range of a
`B.W`. -/
def InReach (a h : BitVec 32) : Prop :=
  -0x1000000 ≤ ((h &&& ~~~0x3#32) - a - 4).toInt ∧ ((h &&& ~~~0x3#32) - a - 4).toInt < 0x1000000

instance InReach.decidable (a h : BitVec 32) : Decidable (InReach a h) :=
  inferInstanceAs (Decidable (_ ∧ _))

/-- Execution at an address gets to a handler, and the handler to the patch. -/
structure Handled (F : Type) (flash : BitVec 32 → BitVec 16) (handler : ℕ → BitVec 32) (g : Fpb)
    (i : ℕ) (a : BitVec 32) : Prop where
  enabled : compEnabled (g.comp i) ∧ (¬IsWord a → compEnabled (g.comp (i + 1)))
  branches : ∃ off, decodeBranchT4 (g.fetchInst flash a) = some off ∧
    (handler i &&& ~~~0x1#32).toNat ≤ (a + 4 + off).toNat
  lookup : ∀ s : PatchSys F, leaveFpbPatch s g i = getDynamicPatchByBpkt s a

/-- The address and the handler are those of words, and a comparator that has
the address already remaps it to the branch. -/
structure Remappable (handler : ℕ → BitVec 32) (f : Fpb) (a : BitVec 32) : Prop where
  word : IsWord a
  entry : handler (f.slotOf a) &&& 0x2 = 0
  made : (f.ready.wordIdx a).isSome → f.remapInst (f.slotOf a) = jumpInst handler (f.slotOf a) a

theorem branchOffset_trampoline {i : ℕ} (heven : a &&& ~~~0x1#32 = a) :
    branchOffset a (trampolineAddr handler i) = (handler i &&& ~~~0x3#32) - a - 4 := by
  have hword : handler i &&& ~~~0x3#32 &&& ~~~0x1#32 = handler i &&& ~~~0x3#32 := by
    rw [BitVec.and_assoc]
    rfl
  rw [branchOffset, trampolineAddr_eq, hword, heven]

theorem jumpInst_target {i : ℕ} (ha : a.toNat % 4 = 0) (heven : a &&& ~~~0x1#32 = a)
    (hreach : InReach a (handler i)) :
    decodeBranchT4 (littleEndian16Bit (jumpInst handler i a)) =
      some ((handler i &&& ~~~0x3#32) - a - 4) := by
  have hoff : branchOffset a (trampolineAddr handler i) = (handler i &&& ~~~0x3#32) - a - 4 :=
    branchOffset_trampoline heven
  obtain ⟨hlo, hhi⟩ := hreach
  rw [← hoff] at hlo hhi
  rw [jumpInst, littleEndian16Bit_twice, decodeBranchT4_calcBranchInstr hlo hhi, hoff]
  congr 1
  apply BitVec.eq_of_toNat_eq
  have hlt := a.isLt
  have hlt' := (handler i).isLt
  have hpart (d : BitVec 32) : (evenPart d).toNat = d.toNat / 2 * 2 := toNat_and_not_one d
  rw [hpart, BitVec.toNat_sub, BitVec.toNat_sub, toNat_and_not_three]
  simp only [BitVec.reduceToNat]
  omega

/-- The branch goes to the handler's word, and so to the handler or behind it
exactly if that is where the handler begins. -/
theorem target_iff {a h : BitVec 32} :
    (h &&& ~~~0x1#32).toNat ≤ (a + 4 + ((h &&& ~~~0x3#32) - a - 4)).toNat ↔ h &&& 0x2 = 0 := by
  have htarget : a + 4 + ((h &&& ~~~0x3#32) - a - 4) = h &&& ~~~0x3#32 := by bv_omega
  rw [htarget, toNat_and_not_one, toNat_and_not_three, and_two_eq_zero_iff]
  omega

/-- What is fetched at the address of a word that has been added. -/
theorem WordAdded.fetchInst {g : Fpb} (h : WordAdded handler f a g) (hg : g.Paired handler)
    (hb : CodeWord a) (heven : a &&& ~~~0x1#32 = a) :
    g.fetchInst flash a = littleEndian16Bit (g.remapInst (f.slotOf a)) := by
  have hcomp := h.comp
  have hfirst := h.first
  rw [heven] at hcomp hfirst
  rw [fetchInst_word hb.aligned, hg.fetchWord hb h.lt hcomp hfirst]

theorem WordAdded.jump {g : Fpb} (h : WordAdded handler f a g)
    (hmade : (f.ready.wordIdx a).isSome →
      f.remapInst (f.slotOf a) = jumpInst handler (f.slotOf a) a) :
    g.remapInst (f.slotOf a) = jumpInst handler (f.slotOf a) a := by
  rw [h.remap]
  split
  · exact hmade ‹_›
  · rfl

/-- The remap word of a comparator that has a word address is the branch for
that address, or no branch. -/
theorem Fpb.Paired.found (h : f.Paired handler) (hword : IsWord a)
    (hfound : (f.ready.wordIdx a).isSome) :
    f.remapInst (f.slotOf a) = jumpInst handler (f.slotOf a) a ∨
      decodeBranchT4 (littleEndian16Bit (f.remapInst (f.slotOf a))) = none := by
  obtain ⟨i, hfind⟩ := Option.isSome_iff_exists.mp hfound
  have hslot : f.slotOf a = i := by rw [Fpb.slotOf, if_pos hword, hfind, Option.getD_some]
  have hcomp := List.find?_some hfind
  simp only [Bool.or_eq_true, decide_eq_true_eq] at hcomp
  have haddr : f.comp i &&& ~~~0x1#32 = a &&& ~~~0x1#32 := by
    rcases hcomp with hc | hc
    · exact (congrArg (· &&& ~~~0x1#32) hc).trans (or_one_and a)
    · refine (congrArg (· &&& ~~~0x1#32) hc).trans ?_
      rw [BitVec.and_assoc, BitVec.and_self]
  rw [hslot, ← jumpInst_and i (a := a), ← haddr]
  exact h.branch i (wordIdx_lt hfind)

theorem handled_iff (hf : f.Remapping) (hp : f.Paired handler) (heven : a &&& ~~~0x1#32 = a)
    (ha : a.toNat < 0x20000000) (hreach : ∀ i < maxBp, InReach a (handler i)) :
    Handled F flash handler (addHwBkpt flash handler f a).1 (f.slotOf a) a ↔
      Remappable handler f a := by
  by_cases hword : IsWord a
  · have hb : CodeWord a := heven ▸ codeWord_of_isWord hword ha
    set g := (addHwBkpt flash handler f a).1
    have hadd : WordAdded handler f a g := addHwBkpt_word hf hword ha
    have hpaired : g.Paired handler := addHwBkpt_paired hf hp ha
    have hfetch : g.fetchInst flash a = littleEndian16Bit (g.remapInst (f.slotOf a)) :=
      hadd.fetchInst hpaired hb heven
    have htarget := jumpInst_target hb.aligned heven (hreach _ hadd.lt)
    have hremap := hadd.remap
    constructor
    · intro h
      obtain ⟨off, hdecode, hle⟩ := h.branches
      rw [hfetch] at hdecode
      have hmade : (f.ready.wordIdx a).isSome →
          f.remapInst (f.slotOf a) = jumpInst handler (f.slotOf a) a := by
        intro hfound
        rcases hp.found hword hfound with hjump | hnone
        · exact hjump
        · rw [hremap, if_pos hfound, hnone] at hdecode
          cases hdecode
      have hjump := hadd.jump hmade
      rw [hjump, htarget, Option.some.injEq] at hdecode
      rw [← hdecode] at hle
      exact ⟨hword, target_iff.mp hle, hmade⟩
    · intro h
      have hcomp := hadd.comp
      rw [heven] at hcomp
      refine ⟨⟨?_, fun hnot => absurd hword hnot⟩, ?_, ?_⟩
      · rw [hcomp]
        exact compEnabled_or_one a
      · exact ⟨_, by rw [hfetch, hadd.jump h.made, htarget], target_iff.mpr h.entry⟩
      · intro s
        have haddr := or_one_and a
        rw [heven] at haddr
        rw [leaveFpbPatch, hcomp, haddr]
  · refine iff_of_false ?_ fun h => hword h.word
    intro h
    have hcomp : (addHwBkpt flash handler f a).1.comp (f.slotOf a) = wordBelow a :=
      addHwBkpt_halfword hf hword ha
    have henabled := h.enabled.1
    rw [hcomp] at henabled
    exact not_compEnabled (and_three_eq_zero (wordBelow_aligned a)) henabled

/-- A unit that has just been put into remap mode, which clears both tables. -/
structure Fpb.FreshRemap (f : Fpb) : Prop where
  remapping : f.Remapping
  comp : ∀ i < maxBp, f.comp i = 0
  remap : ∀ i < maxBp, f.remapInst i = 0

theorem Fpb.FreshRemap.paired (h : f.FreshRemap) : f.Paired handler := by
  constructor
  · intro i hi henabled
    rw [h.comp i hi] at henabled
    exact absurd henabled (by decide)
  · intro i hi
    rw [h.remap i hi]
    exact .inr rfl

theorem addHwBkpts_paired (hf : f.Remapping) (hp : f.Paired handler) {addrs : List (BitVec 32)}
    (haddrs : ∀ a ∈ addrs, a.toNat < 0x20000000) :
    (addHwBkpts flash handler f addrs).Remapping ∧
      (addHwBkpts flash handler f addrs).Paired handler := by
  induction addrs generalizing f with
  | nil => exact ⟨hf, hp⟩
  | cons a addrs ih =>
      have ha := haddrs a List.mem_cons_self
      exact ih (addHwBkpt_writes hf ha).1 (addHwBkpt_paired hf hp ha)
        fun b hb => haddrs b (List.mem_cons_of_mem a hb)

/-- After any addresses from a fresh unit on, adding one has its effect exactly
if the address and the handler of its comparator are those of words, and a
comparator that had the address before was made for it. -/
theorem addHwBkpt_handled_iff (F : Type) (flash : BitVec 32 → BitVec 16) (handler : ℕ → BitVec 32)
    (f : Fpb) (hf : f.FreshRemap) (addrs : List (BitVec 32))
    (haddrs : ∀ a ∈ addrs, a.toNat < 0x20000000) (a : BitVec 32) (heven : a &&& ~~~0x1#32 = a)
    (ha : a.toNat < 0x20000000) (hreach : ∀ i < maxBp, InReach a (handler i)) :
    let g := addHwBkpts flash handler f addrs
    Handled F flash handler (addHwBkpt flash handler g a).1 (g.slotOf a) a ↔
      Remappable handler g a := by
  intro g
  obtain ⟨hremapping, hpaired⟩ := addHwBkpts_paired hf.remapping hf.paired haddrs
  exact handled_iff hremapping hpaired heven ha hreach

end

/-! ### Three addresses -/

/-- Handlers in words from `0x200` on. -/
def wordHandlers (i : ℕ) : BitVec 32 := 0x00000201 + 0x20 * BitVec.ofNat 32 i

theorem clearRemap_fresh : clearRemap.FreshRemap :=
  ⟨clearRemap_remapping, fun _ _ => rfl, fun _ _ => rfl⟩

theorem word_handled :
    Handled (List (BitVec 32 × ℕ)) (fun _ => 0xbf00) wordHandlers
      (addHwBkpt (fun _ => 0xbf00) wordHandlers
        (addHwBkpts (fun _ => 0xbf00) wordHandlers clearRemap [0x300]) 0x400).1 1 0x400 := by
  refine (addHwBkpt_handled_iff _ _ wordHandlers clearRemap clearRemap_fresh [0x300] (by simp)
    0x400 (by decide) (by decide) (by decide)).mpr ⟨by decide, by decide, ?_⟩
  intro h
  exact absurd h (by decide)

/-- The comparators of a halfword address are not enabled, and a handler in the
middle of a word is entered in front of its first instruction. -/
theorem halfword_not_handled :
    clearRemap.FreshRemap ∧
      ¬Handled (List (BitVec 32 × ℕ)) (fun _ => 0xbf00) wordHandlers
        (addHwBkpt (fun _ => 0xbf00) wordHandlers clearRemap 0x402).1 0 0x402 ∧
      ¬Handled (List (BitVec 32 × ℕ)) (fun _ => 0xbf00) (fun i => wordHandlers i + 2)
        (addHwBkpt (fun _ => 0xbf00) (fun i => wordHandlers i + 2) clearRemap 0x400).1 0 0x400 := by
  refine ⟨clearRemap_fresh, ?_, ?_⟩
  · intro h
    exact absurd h.enabled.1 (by decide)
  · intro h
    have hr := (handled_iff clearRemap_remapping clearRemap_fresh.paired (by decide) (by decide)
      (by decide)).mp h
    exact absurd hr.entry (by decide)

end RapidPatch.Hotpatch

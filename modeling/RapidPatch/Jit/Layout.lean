import RapidPatch.Jit.Passes

/-!
When the two passes agree on the layout.

The first pass lays the program out with every branch at displacement zero;
the second picks the encoding of a branch from the real displacement, and an
encoding of another size shifts everything behind it. `LayoutAgrees` is the
agreement the translator relies on: after each instruction the index is the
one the first pass recorded, and the epilogue starts where the first pass
put it. It holds exactly when every branch keeps its nominal size
(`layoutAgrees_iff`), a condition on the program's own sizes.

The code buffer and the table are static arrays of `2048` and `1024` bytes
and nothing bounds the writes; a translation that leaves them has no
meaning, and agreement asks that it does not.
-/

namespace RapidPatch.Jit

open RapidPatch.Vm

variable {p : Input} {offsets : ℤ → BitVec 32}

/-- `sizeof(jit_buffer)`. -/
def jitBufferSize : ℕ := 2048

/-- The number of words of `offset_mem`. -/
def offsetSlots : ℕ := 256

/-- The writes of a translation stay in the two static arrays. -/
structure InMemory (p : Input) (offsets : ℤ → BitVec 32) : Prop where
  slots : ∀ pc ∈ visited p, slotOf p pc < offsetSlots
  code : 2 * (jitCompile p offsets).code.length ≤ jitBufferSize

/-- In the second pass, the index behind every instruction is the offset the
first pass recorded for it, and the epilogue starts at `epilogue_offset`. -/
structure LayoutAgrees (p : Input) (offsets : ℤ → BitVec 32) : Prop where
  inMemory : InMemory p offsets
  ends : ∀ l pc r, visited p = l ++ pc :: r →
    BitVec.ofNat 32 (secondState p offsets (l ++ [pc])).idx =
      (jitCompile p offsets).first.offsets (slotOf p pc)
  epilogue : (jitCompile p offsets).second.idx = (jitCompile p offsets).first.idx

/-! ### Sizes of branches -/

/-- The displacement is in the range of the encoding that the first pass
reserved for the branch. -/
def BranchFits (p : Input) (pc : ℕ) (d : BitVec 32) : Prop :=
  match (p.insts pc).op with
  | .jmp op source =>
      (source = .imm ∧ (p.insts pc).offset = 0) ∨ jumpCond op = none ∨
        if useB4 p.instNum then -1048576 < d.toInt ∧ d.toInt < 1048574
        else -256 ≤ d.toInt ∧ d.toInt ≤ 254
  | .ja => (p.insts pc).offset = 0 ∨ (-2048 < d.toInt ∧ d.toInt < 2046)
  | .exit => (pc : ℤ) = p.instNum - 1 ∨ (-2048 < d.toInt ∧ d.toInt < 2046)
  | _ => True

@[simp] theorem emit2_length (x : BitVec 16) : (emit2 x).length = 1 := rfl

@[simp] theorem emit4_length (x : BitVec 32) : (emit4 x).length = 2 := rfl

theorem emitB_length (d : BitVec 32) :
    (emitB d).length = if -2048 < d.toInt ∧ d.toInt < 2046 then 1
      else if -16777216 < d.toInt ∧ d.toInt < 16777214 then 2 else 0 := by
  unfold emitB
  simp only [Bool.and_eq_true, decide_eq_true_eq, gt_iff_lt]
  split
  · rw [emit2_length]
  · split
    · rw [emit4_length]
    · rfl

theorem emitBCond_length (n : ℕ) (d cond : BitVec 32) :
    (emitBCond n d cond).length =
      if useB4 n = false ∧ -256 ≤ d.toInt ∧ d.toInt ≤ 254 then 1
      else if -1048576 < d.toInt ∧ d.toInt < 1048574 then 2 else 0 := by
  unfold emitBCond
  simp only [Bool.and_eq_true, decide_eq_true_eq, gt_iff_lt, ge_iff_le, Bool.not_eq_true']
  split
  · rw [emit2_length]
  · split
    · rw [emit4_length]
    · rfl

theorem emitB_length_iff (d : BitVec 32) :
    (emitB d).length = (emitB 0).length ↔ -2048 < d.toInt ∧ d.toInt < 2046 := by
  have hzero : (emitB 0).length = 1 := by
    rw [emitB_length]
    decide
  rw [hzero, emitB_length]
  split
  · simp [*]
  · rename_i h
    refine ⟨fun hlen => ?_, fun hd => absurd hd h⟩
    split at hlen <;> omega

theorem emitBCond_length_iff (n : ℕ) (d cond : BitVec 32) :
    (emitBCond n d cond).length = (emitBCond n 0 cond).length ↔
      if useB4 n then -1048576 < d.toInt ∧ d.toInt < 1048574
      else -256 ≤ d.toInt ∧ d.toInt ≤ 254 := by
  have hzero : (0 : BitVec 32).toInt = 0 := by decide
  rw [emitBCond_length, emitBCond_length, hzero]
  cases useB4 n with
  | true =>
      by_cases h : -1048576 < d.toInt ∧ d.toInt < 1048574
      · simp [h]
      · simp [h]
  | false =>
      by_cases h : -256 ≤ d.toInt ∧ d.toInt ≤ 254
      · simp [h]
      · simp only [h, true_and, if_false, Bool.false_eq_true, iff_false]
        split <;> simp

theorem branchCode_length_iff (pc : ℕ) (d : BitVec 32) :
    (branchCode p pc d).length = (branchCode p pc 0).length ↔ BranchFits p pc d := by
  unfold branchCode BranchFits
  cases hop : (p.insts pc).op with
  | jmp op source =>
      by_cases hskip : source = .imm ∧ (p.insts pc).offset = 0
      · simp only [hskip, true_or, and_self, if_true]
      · simp only [hskip, false_or, if_false, emitJump]
        cases hcond : jumpCond op with
        | none => simp
        | some cond => simpa using emitBCond_length_iff p.instNum d cond
  | ja =>
      by_cases hskip : (p.insts pc).offset = 0
      · simp only [hskip, true_or, if_true]
      · simpa only [hskip, false_or, if_false] using emitB_length_iff d
  | exit =>
      by_cases hskip : (pc : ℤ) = p.instNum - 1
      · simp only [hskip, true_or, if_true]
      · simpa only [hskip, false_or, if_false] using emitB_length_iff d
  | _ => simp

/-! ### The condition on the program -/

/-- The displacement of a branch in the nominal layout, behind the
instructions `l`. -/
def nominalDisplacement (p : Input) (offsets : ℤ → BitVec 32) (l : List ℕ) (pc : ℕ) : BitVec 32 :=
  displacement p (secondPass p offsets) (nominalIdx p l) pc

/-- The program fits the two arrays at its nominal size, and in the nominal
layout every branch is in the range of its nominal encoding. -/
structure BranchesFit (p : Input) (offsets : ℤ → BitVec 32) : Prop where
  slots : ∀ pc ∈ visited p, slotOf p pc < offsetSlots
  size : nominalIdx p (visited p) + 2 * buildEpilogue.length ≤ jitBufferSize
  branches : ∀ l pc r, visited p = l ++ pc :: r →
    BranchFits p pc (nominalDisplacement p offsets l pc)

theorem secondCode_length_iff {l : List ℕ} {pc : ℕ}
    (hidx : (secondState p offsets l).idx = nominalIdx p l) :
    (secondCode p offsets l pc).length = (nominal p pc).length ↔
      BranchFits p pc (nominalDisplacement p offsets l pc) := by
  unfold secondCode nominal nominalDisplacement
  rw [hidx, buildInst_code, List.length_append, List.length_append, Nat.add_left_cancel_iff]
  exact branchCode_length_iff pc _

/-- Branches that fit keep the second pass on the nominal layout. -/
theorem secondState_idx_of_fit (hfit : ∀ l pc r, visited p = l ++ pc :: r →
    BranchFits p pc (nominalDisplacement p offsets l pc)) (l r : List ℕ)
    (h : visited p = l ++ r) : (secondState p offsets l).idx = nominalIdx p l := by
  induction l using List.reverseRecOn generalizing r with
  | nil => rw [secondState_nil_idx, nominalIdx_nil]
  | append_singleton l pc ih =>
      have hsplit : visited p = l ++ pc :: r := by rw [h, List.append_assoc]; rfl
      have hidx := ih _ hsplit
      rw [secondState_concat_idx, nominalIdx_concat, hidx,
        (secondCode_length_iff hidx).mpr (hfit l pc r hsplit)]

theorem code_length (p : Input) (offsets : ℤ → BitVec 32) :
    2 * (jitCompile p offsets).code.length =
      (jitCompile p offsets).second.idx + 2 * buildEpilogue.length := by
  simp only [Compiled.code, PassState.idx, List.length_append]
  omega

theorem LayoutAgrees.of_fit (h : BranchesFit p offsets) : LayoutAgrees p offsets := by
  have hidx := secondState_idx_of_fit h.branches
  have hepi : (jitCompile p offsets).second.idx = nominalIdx p (visited p) := by
    rw [jitCompile_second]
    exact hidx (visited p) [] (by simp)
  constructor
  · refine ⟨h.slots, ?_⟩
    rw [code_length, hepi]
    exact h.size
  · intro l pc r hsplit
    rw [jitCompile_first, firstState_offsets, nominalTable_slot offsets hsplit,
      hidx (l ++ [pc]) r (by rw [hsplit]; simp)]
  · rw [hepi, jitCompile_first, firstState_idx]

theorem secondState_idx_append_le (offsets : ℤ → BitVec 32) (l r : List ℕ) :
    (secondState p offsets l).idx ≤ (secondState p offsets (l ++ r)).idx := by
  induction r using List.reverseRecOn with
  | nil => simp
  | append_singleton r q ih =>
      rw [← List.append_assoc, secondState_concat_idx]
      omega

/-- Agreement puts the second pass on the nominal layout. -/
theorem LayoutAgrees.idx_eq (h : LayoutAgrees p offsets) (l r : List ℕ)
    (hsplit : visited p = l ++ r) : (secondState p offsets l).idx = nominalIdx p l := by
  -- all indices are far below `2 ^ 32`, so the words determine them
  have htotal : nominalIdx p (visited p) ≤ jitBufferSize := by
    have hcode := h.inMemory.code
    rw [code_length, h.epilogue, jitCompile_first, firstState_idx] at hcode
    omega
  have hbound := secondState_idx_append_le (p := p) offsets l r
  rw [← hsplit, ← jitCompile_second, h.epilogue, jitCompile_first, firstState_idx] at hbound
  have hnominal : nominalIdx p l ≤ nominalIdx p (visited p) := by
    rw [hsplit]
    exact nominalIdx_append_le l r
  rcases List.eq_nil_or_concat' l with rfl | ⟨l', pc, rfl⟩
  · rw [secondState_nil_idx, nominalIdx_nil]
  · have hl' : visited p = l' ++ pc :: r := by
      rw [hsplit]
      simp
    have hword := h.ends l' pc r hl'
    rw [jitCompile_first, firstState_offsets, nominalTable_slot offsets hl'] at hword
    have hnat := congrArg BitVec.toNat hword
    simp only [BitVec.toNat_ofNat, jitBufferSize] at hnat htotal
    rw [Nat.mod_eq_of_lt (by omega), Nat.mod_eq_of_lt (by omega)] at hnat
    exact hnat

theorem LayoutAgrees.fit (h : LayoutAgrees p offsets) : BranchesFit p offsets := by
  constructor
  · exact h.inMemory.slots
  · have hcode := h.inMemory.code
    rwa [code_length, h.epilogue, jitCompile_first, firstState_idx] at hcode
  · intro l pc r hsplit
    have hidx := h.idx_eq l (pc :: r) hsplit
    have hnext := h.idx_eq (l ++ [pc]) r (by rw [hsplit]; simp)
    rw [secondState_concat_idx, nominalIdx_concat, hidx] at hnext
    exact (secondCode_length_iff hidx).mp (by omega)

/-- The passes agree on the layout exactly when the program fits the arrays
and every branch, at the displacement it has in the nominal layout, fits the
encoding the first pass reserved for it. -/
theorem layoutAgrees_iff (p : Input) (offsets : ℤ → BitVec 32) :
    LayoutAgrees p offsets ↔ BranchesFit p offsets :=
  ⟨LayoutAgrees.fit, LayoutAgrees.of_fit⟩

/-! ### A short program with a long jump -/

/-- `if r0 > r1 (signed) goto +9`, nine products of two stacked registers of
32 bytes each, and `exit`. -/
def longJump : Input where
  insts := fun n =>
    if n = 0 then
      { opcode := (Opcode.jmp .jsgt .reg).byte, dst := 0, src := 1, offset := 9, imm := 0 }
    else if n < 10 then
      { opcode := (Opcode.alu64 .mul .reg).byte, dst := 2, src := 3, offset := 0, imm := 0 }
    else { opcode := Opcode.exit.byte, dst := 0, src := 0, offset := 0, imm := 0 }
  instNum := 11
  callBase := fun _ => 0
  behind := (0, 0)

/-- Every instruction is accepted and the one jump goes to the last of the
eleven instructions; the branch takes four bytes where the first pass
reserved two, and the epilogue starts two bytes late. -/
theorem longJump_layout_differs :
    visited longJump = List.range 11 ∧
      (∀ pc ∈ visited longJump, 0 ≤ instRet (longJump.insts pc)) ∧
      (jitCompile longJump fun _ => 0).second.idx =
        (jitCompile longJump fun _ => 0).first.idx + 2 ∧
      ¬LayoutAgrees longJump fun _ => 0 := by
  have hlate : (jitCompile longJump fun _ => 0).second.idx =
      (jitCompile longJump fun _ => 0).first.idx + 2 := by decide +kernel
  refine ⟨by decide +kernel, by decide +kernel, hlate, fun h => ?_⟩
  have := h.epilogue
  omega

end RapidPatch.Jit

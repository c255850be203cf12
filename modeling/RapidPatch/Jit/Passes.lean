import Mathlib.Data.List.Chain
import RapidPatch.Jit.Build

/-!
What the two passes have in common.

Which instructions a pass translates depends on the program alone
(`visited`), and `build_body` is a fold over them (`buildBody_eq_foldl`). The
code of an instruction is a part that is the same in both passes followed by
at most one branch (`buildInst_code`), and only the branch sees the
displacement. With the displacement zero of the first pass it has its
`nominal` size, and the table the first pass leaves behind is the table of
the nominal ends (`firstState_offsets`).
-/

namespace RapidPatch.Jit

open RapidPatch.Vm

variable {p : Input}

/-! ### One instruction -/

/-- The result of `build_inst` depends on the instruction alone. -/
def instRet (inst : Inst) : ℤ :=
  match inst.op with
  | .alu .lsh .imm | .alu .rsh .imm | .alu .arsh .imm => if inst.imm.toInt > 31 then -1 else 0
  | .le | .be => -1
  | .lddw => 1
  | _ => 0

theorem buildShiftImm_ret (base : BitVec 32) (dst : Row) (imm : BitVec 32) :
    (buildShiftImm base dst imm).ret = if imm.toInt > 31 then -1 else 0 := by
  unfold buildShiftImm built
  split
  · rfl
  · split <;> rfl

theorem buildInst_ret (pass : Pass) (idx pc : ℕ) :
    (buildInst p pass idx pc).ret = instRet (p.insts pc) := by
  unfold instRet
  cases hop : (p.insts pc).op with
  | alu op src =>
      simp only [buildInst, hop]
      cases op <;> cases src <;> first | exact buildShiftImm_ret _ _ _ | rfl
  | alu64 op src =>
      simp only [buildInst, hop]
      cases op <;> cases src <;> rfl
  | jmp op src =>
      simp only [buildInst, hop]
      split <;> rfl
  | ja =>
      simp only [buildInst, hop]
      split <;> rfl
  | exit =>
      simp only [buildInst, hop]
      split <;> rfl
  | _ => simp [buildInst, hop, built]

def branchCode (p : Input) (pc : ℕ) (d : BitVec 32) : Code :=
  match (p.insts pc).op with
  | .jmp op source =>
      if source = .imm ∧ (p.insts pc).offset = 0 then [] else emitJump p.instNum d op
  | .ja => if (p.insts pc).offset = 0 then [] else emitB d
  | .exit => if (pc : ℤ) = p.instNum - 1 then [] else emitB d
  | _ => []

def displacement (p : Input) (pass : Pass) (idx pc : ℕ) : BitVec 32 :=
  match (p.insts pc).op with
  | .jmp _ _ =>
      bpf2a32Offset pass pc (pc + (p.insts pc).offset.toInt) (branchSize p.instNum)
  | .ja => bpf2a32Offset pass pc (pc + (p.insts pc).offset.toInt) 2
  | .exit => epilogueOffset pass idx
  | _ => 0

def fixedCode (p : Input) (pc : ℕ) : Code :=
  let inst := p.insts pc
  match inst.op with
  | .jmp op source =>
      if source = .imm ∧ inst.offset = 0 then []
      else
        let (code, rdHi, rdLo, rm, rn) := jmpOperands (bpf2a32 p.behind inst.dst)
          (bpf2a32 p.behind inst.src) source inst.imm
        code ++ emitCmpCond rdHi rdLo rm rn op
  | .ja | .exit => []
  | _ => (buildInst p ⟨false, fun _ => 0, 0⟩ 0 pc).code

theorem signExtend_eq_zero {x : BitVec 16} : x.signExtend 32 = 0 ↔ x = 0 := by
  constructor
  · intro h
    have := congrArg BitVec.toInt h
    rw [BitVec.toInt_signExtend_of_le (by decide)] at this
    exact BitVec.eq_of_toInt_eq (by simpa using this)
  · rintro rfl
    rfl

/-- An instruction is its fixed part and its branch. -/
theorem buildInst_code (pass : Pass) (idx pc : ℕ) :
    (buildInst p pass idx pc).code =
      fixedCode p pc ++ branchCode p pc (displacement p pass idx pc) := by
  unfold fixedCode branchCode displacement
  cases hop : (p.insts pc).op with
  | jmp op source =>
      have hzero : ((p.insts pc).offset.signExtend 32 = 0) ↔ (p.insts pc).offset = 0 :=
        signExtend_eq_zero
      simp only [buildInst, hop]
      by_cases hskip : source = .imm ∧ (p.insts pc).offset = 0
      · rw [if_pos ⟨hskip.1, hzero.mpr hskip.2⟩, if_pos hskip, if_pos hskip]
        rfl
      · rw [if_neg (by rw [hzero]; exact hskip), if_neg hskip, if_neg hskip]
        simp [built]
  | ja =>
      have hzero : ((p.insts pc).offset.signExtend 32 = 0) ↔ (p.insts pc).offset = 0 :=
        signExtend_eq_zero
      simp only [buildInst, hop]
      by_cases hskip : (p.insts pc).offset = 0
      · rw [if_pos (hzero.mpr hskip), if_pos hskip]
        rfl
      · rw [if_neg (by rw [hzero]; exact hskip), if_neg hskip]
        rfl
  | exit =>
      simp only [buildInst, hop]
      split <;> rfl
  | _ => simp [buildInst, hop]

def nominal (p : Input) (pc : ℕ) : Code := fixedCode p pc ++ branchCode p pc 0

theorem buildInst_first (offsets : ℤ → BitVec 32) (e : BitVec 32) (idx pc : ℕ) :
    (buildInst p ⟨false, offsets, e⟩ idx pc).code = nominal p pc := by
  have hd : displacement p ⟨false, offsets, e⟩ idx pc = 0 := by
    unfold displacement
    split <;> rfl
  rw [buildInst_code, hd]
  rfl

/-! ### The instructions a pass translates -/

/-- The slot at which the end of an instruction is recorded. -/
def slotOf (p : Input) (pc : ℕ) : ℕ := if instRet (p.insts pc) > 0 then pc + 1 else pc

/-- The instructions that `build_inst` is called for, with `n` slots left
from `i` on. -/
def visit (p : Input) : ℕ → ℕ → List ℕ
  | 0, _ => []
  | n + 1, i =>
      i :: if instRet (p.insts i) > 0 then
          match n with
          | 0 => []
          | n + 1 => visit p n (i + 2)
        else if instRet (p.insts i) < 0 then [] else visit p n (i + 1)

/-- The instructions both passes translate. -/
def visited (p : Input) : List ℕ := visit p p.instNum 0

/-- One turn of the loop of `build_body`. -/
def stepInst (p : Input) (needGen : Bool) (e : BitVec 32) (s : PassState) (pc : ℕ) : PassState :=
  (s.append (buildInst p ⟨needGen, s.offsets, e⟩ s.idx pc)).record needGen (slotOf p pc)

def stateAfter (p : Input) (needGen : Bool) (e : BitVec 32) (s : PassState) (l : List ℕ) :
    PassState := l.foldl (stepInst p needGen e) s

theorem visit_one (i : ℕ) : visit p 1 i = [i] := by
  simp only [visit]
  split
  · rfl
  · split <;> rfl

theorem buildBodyLoop_eq_foldl (needGen : Bool) (e : BitVec 32) (n i : ℕ) (s : PassState) :
    buildBodyLoop p needGen e n i s = stateAfter p needGen e s (visit p n i) := by
  induction n using Nat.strongRecOn generalizing i s with
  | ind n ih =>
      rcases n with _ | _ | n
      · rfl
      · rw [visit_one]
        simp only [buildBodyLoop, buildInst_ret, stateAfter, List.foldl_cons, List.foldl_nil,
          stepInst, slotOf]
        split
        · rfl
        · split <;> rfl
      · simp only [buildBodyLoop, visit, buildInst_ret]
        by_cases hpos : instRet (p.insts i) > 0
        · have hslot : slotOf p i = i + 1 := if_pos hpos
          rw [if_pos hpos, if_pos hpos, ih n (by omega)]
          simp only [stateAfter, List.foldl_cons, stepInst, hslot]
        · have hslot : slotOf p i = i := if_neg hpos
          rw [if_neg hpos, if_neg hpos]
          by_cases hneg : instRet (p.insts i) < 0
          · rw [if_pos hneg, if_pos hneg]
            simp only [stateAfter, List.foldl_cons, List.foldl_nil, stepInst, hslot]
          · rw [if_neg hneg, if_neg hneg, ih (n + 1) (by omega)]
            simp only [stateAfter, List.foldl_cons, stepInst, hslot]

theorem buildBody_eq_foldl (needGen : Bool) (e : BitVec 32) (s : PassState) :
    buildBody p needGen e s = stateAfter p needGen e s (visited p) :=
  buildBodyLoop_eq_foldl needGen e p.instNum 0 s

/-- Each instruction translated is the one behind the slot of the one
before it, which did not fail. -/
theorem visit_isChain (n i : ℕ) :
    List.IsChain (fun a b => b = slotOf p a + 1 ∧ 0 ≤ instRet (p.insts a)) (visit p n i) ∧
      ∀ a ∈ (visit p n i).head?, a = i := by
  induction n using Nat.strongRecOn generalizing i with
  | ind n ih =>
      rcases n with _ | _ | n
      · simp [visit]
      · simp [visit_one]
      · refine ⟨?_, by simp [visit]⟩
        simp only [visit]
        by_cases hpos : instRet (p.insts i) > 0
        · have hslot : slotOf p i = i + 1 := if_pos hpos
          obtain ⟨hchain, hhead⟩ := ih n (by omega) (i + 2)
          rw [if_pos hpos]
          refine List.IsChain.cons hchain ?_
          intro b hb
          rw [hhead b hb, hslot]
          exact ⟨rfl, by omega⟩
        · have hslot : slotOf p i = i := if_neg hpos
          rw [if_neg hpos]
          by_cases hneg : instRet (p.insts i) < 0
          · rw [if_pos hneg]
            exact List.IsChain.singleton i
          · obtain ⟨hchain, hhead⟩ := ih (n + 1) (by omega) (i + 1)
            rw [if_neg hneg]
            refine List.IsChain.cons hchain ?_
            intro b hb
            rw [hhead b hb, hslot]
            exact ⟨rfl, by omega⟩

theorem le_slotOf (p : Input) (pc : ℕ) : pc ≤ slotOf p pc := by
  unfold slotOf
  split <;> omega

/-- Later instructions lie behind the slots of earlier ones. -/
theorem visited_pairwise : (visited p).Pairwise fun a b => slotOf p a < b := by
  have htrans : IsTrans ℕ fun a b => slotOf p a < b :=
    ⟨fun a b c hab hbc => Nat.lt_trans hab (Nat.lt_of_le_of_lt (le_slotOf p b) hbc)⟩
  refine List.IsChain.pairwise ((visit_isChain p.instNum 0).1.imp ?_)
  rintro a b ⟨rfl, -⟩
  exact Nat.lt_succ_self _

theorem slot_lt_of_split {l r : List ℕ} {pc q : ℕ} (h : visited p = l ++ pc :: r) (hq : q ∈ r) :
    slotOf p pc < q := by
  have hpair := visited_pairwise (p := p)
  rw [h] at hpair
  exact (List.pairwise_cons.mp (List.pairwise_append.mp hpair).2.1).1 q hq

theorem next_of_split {l r : List ℕ} {pc q : ℕ} (h : visited p = l ++ pc :: q :: r) :
    q = slotOf p pc + 1 ∧ 0 ≤ instRet (p.insts pc) := by
  have hchain := (visit_isChain (p := p) p.instNum 0).1
  rw [show visit p p.instNum 0 = visited p from rfl, h] at hchain
  have hright := (List.isChain_append.mp hchain).2.1
  exact (List.isChain_cons_cons.mp hright).1

theorem visit_lt (n i : ℕ) : ∀ pc ∈ visit p n i, pc < i + n := by
  induction n using Nat.strongRecOn generalizing i with
  | ind n ih =>
      intro pc hpc
      rcases n with _ | _ | n
      · cases hpc
      · rw [visit_one, List.mem_singleton] at hpc
        omega
      · simp only [visit, List.mem_cons] at hpc
        rcases hpc with rfl | hpc
        · omega
        · split at hpc
          · have := ih n (by omega) (i + 2) pc hpc
            omega
          · split at hpc
            · cases hpc
            · have := ih (n + 1) (by omega) (i + 1) pc hpc
              omega

theorem visited_lt {pc : ℕ} (h : pc ∈ visited p) : pc < p.instNum := by
  simpa using visit_lt p.instNum 0 pc h

theorem visit_length_le (n i : ℕ) : (visit p n i).length ≤ n := by
  induction n using Nat.strongRecOn generalizing i with
  | ind n ih =>
      rcases n with _ | _ | n
      · simp [visit]
      · simp [visit_one]
      · simp only [visit, List.length_cons]
        split
        · have := ih n (by omega) (i + 2)
          omega
        · split
          · simp
          · have := ih (n + 1) (by omega) (i + 1)
            omega

/-- If nothing fails, every slot is an instruction or the second slot of
one. -/
theorem mem_visit_or (n i : ℕ) (hok : ∀ pc ∈ visit p n i, 0 ≤ instRet (p.insts pc)) {t : ℕ}
    (hlo : i ≤ t) (hhi : t < i + n) :
    t ∈ visit p n i ∨ ∃ pc ∈ visit p n i, 0 < instRet (p.insts pc) ∧ t = pc + 1 := by
  induction n using Nat.strongRecOn generalizing i with
  | ind n ih =>
      rcases n with _ | _ | n
      · omega
      · left
        rw [visit_one, List.mem_singleton]
        omega
      · by_cases hit : t = i
        · left
          simp [visit, hit]
        · simp only [visit, List.mem_cons, forall_eq_or_imp] at hok ⊢
          obtain ⟨hi, hok⟩ := hok
          by_cases hpos : instRet (p.insts i) > 0
          · rw [if_pos hpos] at hok ⊢
            by_cases hsecond : t = i + 1
            · exact Or.inr ⟨i, Or.inl rfl, hpos, hsecond⟩
            · rcases ih n (by omega) (i + 2) hok (by omega) (by omega) with h | ⟨pc, h, h'⟩
              · exact Or.inl (Or.inr h)
              · exact Or.inr ⟨pc, Or.inr h, h'⟩
          · rw [if_neg hpos, if_neg (show ¬instRet (p.insts i) < 0 by omega)] at hok ⊢
            rcases ih (n + 1) (by omega) (i + 1) hok (by omega) (by omega) with h | ⟨pc, h, h'⟩
            · exact Or.inl (Or.inr h)
            · exact Or.inr ⟨pc, Or.inr h, h'⟩

/-! ### The first pass -/

/-- The number of bytes behind the prologue and some instructions, each at
its nominal size. -/
def nominalIdx (p : Input) (l : List ℕ) : ℕ :=
  2 * (buildPrologue p).length + 2 * (l.flatMap (nominal p)).length

@[simp] theorem nominalIdx_nil : nominalIdx p [] = 2 * (buildPrologue p).length := rfl

theorem nominalIdx_concat (l : List ℕ) (pc : ℕ) :
    nominalIdx p (l ++ [pc]) = nominalIdx p l + 2 * (nominal p pc).length := by
  simp only [nominalIdx, List.flatMap_append, List.length_append, List.flatMap_singleton]
  omega

theorem nominalIdx_append_le (l r : List ℕ) : nominalIdx p l ≤ nominalIdx p (l ++ r) := by
  simp only [nominalIdx, List.flatMap_append, List.length_append]
  omega

/-- The table of the nominal ends of some instructions, entered behind `l`
over what memory held before. -/
def nominalTable (p : Input) (offsets : ℤ → BitVec 32) (l : List ℕ) : List ℕ → ℤ → BitVec 32
  | [] => offsets
  | pc :: r =>
      nominalTable p (fun j => if j = (slotOf p pc : ℤ) then
        BitVec.ofNat 32 (nominalIdx p (l ++ [pc])) else offsets j) (l ++ [pc]) r

def firstState (p : Input) (offsets : ℤ → BitVec 32) (l : List ℕ) : PassState :=
  stateAfter p false 0 ⟨buildPrologue p, offsets, 0⟩ l

theorem jitCompile_first (offsets : ℤ → BitVec 32) :
    (jitCompile p offsets).first = firstState p offsets (visited p) :=
  buildBody_eq_foldl false 0 _

theorem stateAfter_concat (needGen : Bool) (e : BitVec 32) (s : PassState) (l : List ℕ)
    (pc : ℕ) : stateAfter p needGen e s (l ++ [pc]) =
      stepInst p needGen e (stateAfter p needGen e s l) pc := by
  simp [stateAfter]

theorem stepInst_code (needGen : Bool) (e : BitVec 32) (s : PassState) (pc : ℕ) :
    (stepInst p needGen e s pc).code =
      s.code ++ (buildInst p ⟨needGen, s.offsets, e⟩ s.idx pc).code := by
  unfold stepInst PassState.record
  split <;> rfl

theorem firstState_code (offsets : ℤ → BitVec 32) (l : List ℕ) :
    (firstState p offsets l).code = buildPrologue p ++ l.flatMap (nominal p) := by
  induction l using List.reverseRecOn with
  | nil => simp [firstState, stateAfter]
  | append_singleton l pc ih =>
      unfold firstState at ih ⊢
      rw [stateAfter_concat, stepInst_code, buildInst_first, ih]
      simp

theorem firstState_idx (offsets : ℤ → BitVec 32) (l : List ℕ) :
    (firstState p offsets l).idx = nominalIdx p l := by
  simp only [PassState.idx, firstState_code, nominalIdx, List.length_append]
  omega

theorem stepInst_offsets (e : BitVec 32) (s : PassState) (pc : ℕ) :
    (stepInst p false e s pc).offsets = fun j => if j = (slotOf p pc : ℤ) then
      BitVec.ofNat 32 (stepInst p false e s pc).idx else s.offsets j := rfl

theorem nominalTable_concat (offsets : ℤ → BitVec 32) (l r : List ℕ) (pc : ℕ) (j : ℤ) :
    nominalTable p offsets l (r ++ [pc]) j = if j = (slotOf p pc : ℤ) then
      BitVec.ofNat 32 (nominalIdx p (l ++ r ++ [pc])) else nominalTable p offsets l r j := by
  induction r generalizing offsets l with
  | nil => simp [nominalTable]
  | cons q r ih =>
      simp only [List.cons_append, nominalTable]
      rw [ih]
      simp

/-- The first pass leaves the table of the nominal ends. -/
theorem firstState_offsets (offsets : ℤ → BitVec 32) (l : List ℕ) :
    (firstState p offsets l).offsets = nominalTable p offsets [] l := by
  induction l using List.reverseRecOn with
  | nil => rfl
  | append_singleton l pc ih =>
      funext j
      rw [nominalTable_concat, ← ih]
      have hstep : firstState p offsets (l ++ [pc]) =
          stepInst p false 0 (firstState p offsets l) pc := stateAfter_concat _ _ _ _ _
      rw [hstep, stepInst_offsets, ← hstep, firstState_idx]
      rfl

theorem nominalTable_of_slot_ne (offsets : ℤ → BitVec 32) (l r : List ℕ) (j : ℤ)
    (h : ∀ pc ∈ r, j ≠ (slotOf p pc : ℤ)) : nominalTable p offsets l r j = offsets j := by
  induction r using List.reverseRecOn with
  | nil => rfl
  | append_singleton r pc ih =>
      rw [nominalTable_concat, if_neg (h pc (by simp))]
      exact ih fun q hq => h q (by simp [hq])

/-- The end of an instruction, as the table has it. -/
theorem nominalTable_slot (offsets : ℤ → BitVec 32) {l r : List ℕ} {pc : ℕ}
    (h : visited p = l ++ pc :: r) :
    nominalTable p offsets [] (visited p) (slotOf p pc) =
      BitVec.ofNat 32 (nominalIdx p (l ++ [pc])) := by
  -- the entries made after this one are at later slots
  have hlater : ∀ r', (∀ q ∈ r', slotOf p pc < q) →
      nominalTable p offsets [] ((l ++ [pc]) ++ r') (slotOf p pc) =
        BitVec.ofNat 32 (nominalIdx p (l ++ [pc])) := by
    intro r' hr'
    induction r' using List.reverseRecOn with
    | nil =>
        rw [List.append_nil, nominalTable_concat, if_pos rfl]
        rfl
    | append_singleton r' q ih =>
        have hq : slotOf p pc < slotOf p q :=
          Nat.lt_of_lt_of_le (hr' q (by simp)) (le_slotOf p q)
        rw [← List.append_assoc, nominalTable_concat, if_neg (by omega)]
        exact ih fun x hx => hr' x (by simp [hx])
  rw [h, show l ++ pc :: r = (l ++ [pc]) ++ r by simp]
  exact hlater r fun q hq => slot_lt_of_split h hq

/-! ### The second pass -/

/-- The fields of the second pass that its branches read. -/
def secondPass (p : Input) (offsets : ℤ → BitVec 32) : Pass where
  needGen := true
  offsets := nominalTable p offsets [] (visited p)
  epilogueOffset := BitVec.ofNat 32 (nominalIdx p (visited p))

def secondState (p : Input) (offsets : ℤ → BitVec 32) (l : List ℕ) : PassState :=
  let first := (jitCompile p offsets).first
  stateAfter p true (BitVec.ofNat 32 first.idx) ⟨buildPrologue p, first.offsets, first.errLine⟩ l

theorem jitCompile_second (offsets : ℤ → BitVec 32) :
    (jitCompile p offsets).second = secondState p offsets (visited p) :=
  buildBody_eq_foldl true _ _

theorem secondState_offsets (offsets : ℤ → BitVec 32) (l : List ℕ) :
    (secondState p offsets l).offsets = nominalTable p offsets [] (visited p) := by
  induction l using List.reverseRecOn with
  | nil =>
      show (jitCompile p offsets).first.offsets = _
      rw [jitCompile_first, firstState_offsets]
  | append_singleton l pc ih =>
      unfold secondState at ih ⊢
      rw [stateAfter_concat]
      exact ih

/-- The code of an instruction in the second pass. -/
def secondCode (p : Input) (offsets : ℤ → BitVec 32) (l : List ℕ) (pc : ℕ) : Code :=
  (buildInst p (secondPass p offsets) (secondState p offsets l).idx pc).code

theorem secondState_concat_code (offsets : ℤ → BitVec 32) (l : List ℕ) (pc : ℕ) :
    (secondState p offsets (l ++ [pc])).code =
      (secondState p offsets l).code ++ secondCode p offsets l pc := by
  have hstep : secondState p offsets (l ++ [pc]) =
      stepInst p true (BitVec.ofNat 32 (jitCompile p offsets).first.idx)
        (secondState p offsets l) pc := stateAfter_concat _ _ _ _ _
  rw [hstep, stepInst_code, secondState_offsets, jitCompile_first, firstState_idx]
  rfl

theorem secondState_concat_idx (offsets : ℤ → BitVec 32) (l : List ℕ) (pc : ℕ) :
    (secondState p offsets (l ++ [pc])).idx =
      (secondState p offsets l).idx + 2 * (secondCode p offsets l pc).length := by
  simp only [PassState.idx, secondState_concat_code, List.length_append]
  omega

@[simp] theorem secondState_nil_idx (offsets : ℤ → BitVec 32) :
    (secondState p offsets []).idx = 2 * (buildPrologue p).length := rfl

end RapidPatch.Jit

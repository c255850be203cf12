import RapidPatch.Jit.Decode
import RapidPatch.Support.Align

/-!
Where the branches of the translation go.

The taken path of a jump leaves the instruction's code at its branch, if it
has one, and at its end otherwise (`Lands`). On an agreed layout a branch
goes to the offset the table has for the slot in front of its target
(`lands_table`), which is the start of the target unless that slot is `-1`;
and no branch is emitted for the relations whose operation byte is negative
as an `s8`. `branchesLand_iff` puts the cases together.
-/

namespace RapidPatch.Jit

open RapidPatch.Vm RapidPatch.Thumb RapidPatch.Support

variable {p : Input} {offsets : ℤ → BitVec 32}

/-! ### Displacements -/

theorem toNat_evenPart (d : BitVec 32) : (evenPart d).toNat = d.toNat / 2 * 2 :=
  toNat_and_not_one d

theorem evenPart_sub (d : BitVec 32) (k : ℕ) :
    evenPart (d - BitVec.ofNat 32 (2 * k)) = evenPart d - BitVec.ofNat 32 (2 * k) := by
  apply BitVec.eq_of_toNat_eq
  have hlt := d.isLt
  rw [BitVec.toNat_sub, toNat_evenPart, toNat_evenPart, BitVec.toNat_sub, BitVec.toNat_ofNat]
  omega

theorem evenPart_ofNat_even (k : ℕ) :
    evenPart (BitVec.ofNat 32 (2 * k)) = BitVec.ofNat 32 (2 * k) := by
  apply BitVec.eq_of_toNat_eq
  rw [toNat_evenPart, BitVec.toNat_ofNat]
  omega

theorem isBranch_emitB {d : BitVec 32} (hlo : -2048 < d.toInt) (hhi : d.toInt < 2046) :
    IsBranch (emitB d) condAl (evenPart d) := by
  rw [emitB, if_pos (by simp [hlo, hhi])]
  exact isBranch_thumb16BT2 (by omega) (by omega)

theorem isBranch_emitBCond {n : ℕ} {d : BitVec 32} {c : BitVec 4} (hc : bits c 1 3 ≠ 0b111)
    (hfit : if useB4 n then -1048576 < d.toInt ∧ d.toInt < 1048574
      else -256 ≤ d.toInt ∧ d.toInt ≤ 254) :
    IsBranch (emitBCond n d (c.setWidth 32)) c (evenPart d) := by
  cases hb4 : useB4 n with
  | true =>
      simp only [hb4, if_true] at hfit
      simp only [emitBCond, hb4, Bool.not_true, Bool.false_and, Bool.false_eq_true, if_false,
        gt_iff_lt, hfit, decide_true, Bool.and_self, if_true]
      exact isBranch_thumb32BwT3 hc (by omega) (by omega)
  | false =>
      simp only [hb4, Bool.false_eq_true, if_false] at hfit
      simp only [emitBCond, hb4, Bool.not_false, ge_iff_le, hfit, decide_true,
        Bool.and_self, if_true]
      exact isBranch_thumb16BT1 hc hfit.1 hfit.2

theorem jumpCond_cond {op : JmpOp} {cond : BitVec 32} (h : jumpCond op = some cond) :
    ∃ c : BitVec 4, cond = c.setWidth 32 ∧ bits c 1 3 ≠ 0b111 := by
  have hall : ∀ op cond, jumpCond op = some cond →
      cond = (cond.setWidth 4).setWidth 32 ∧ bits (cond.setWidth 4) 1 3 ≠ 0b111 := by
    intro op cond h
    cases op <;> revert h <;> simp only [jumpCond] <;> intro h <;> cases h <;> decide
  exact ⟨_, hall op cond h⟩

/-- A branch without a condition, where it is not left out. -/
theorem isBranch_ite_emitB {skip : Prop} [Decidable skip] {d : BitVec 32}
    (hfit : skip ∨ (-2048 < d.toInt ∧ d.toInt < 2046)) (hne : (if skip then [] else emitB d) ≠ []) :
    ∃ cond, IsBranch (if skip then [] else emitB d) cond (evenPart d) := by
  split at hne
  · exact absurd rfl hne
  · rename_i hskip
    obtain ⟨hlo, hhi⟩ := hfit.resolve_left hskip
    rw [if_neg hskip]
    exact ⟨condAl, isBranch_emitB hlo hhi⟩

/-- Every branch that is emitted within its range is one instruction, and
goes as far as the even part of its displacement says. -/
theorem isBranch_branchCode {pc : ℕ} {d : BitVec 32} (hfit : BranchFits p pc d)
    (hne : branchCode p pc d ≠ []) : ∃ cond, IsBranch (branchCode p pc d) cond (evenPart d) := by
  unfold branchCode BranchFits at *
  cases hop : (p.insts pc).op with
  | jmp op source =>
      simp only [hop] at hne hfit ⊢
      split at hne
      · exact absurd rfl hne
      · rename_i hskip
        rw [if_neg hskip]
        cases hcond : jumpCond op with
        | none => simp [emitJump, hcond] at hne
        | some cond =>
            simp only [hskip, hcond, false_or, reduceCtorEq] at hfit
            obtain ⟨c, rfl, hc⟩ := jumpCond_cond hcond
            simp only [emitJump, hcond]
            exact ⟨c, isBranch_emitBCond hc hfit⟩
  | ja =>
      simp only [hop] at hne hfit ⊢
      exact isBranch_ite_emitB hfit hne
  | exit =>
      simp only [hop] at hne hfit ⊢
      exact isBranch_ite_emitB hfit hne
  | _ => simp [hop] at hne

/-! ### Landing -/

/-- The branch of the instruction at `pc`, translated behind `l`. -/
def branchAt (p : Input) (offsets : ℤ → BitVec 32) (l : List ℕ) (pc : ℕ) : Code :=
  branchCode p pc (displacement p (secondPass p offsets) (secondState p offsets l).idx pc)

/-- The offset of that branch in the generated code. -/
def branchStart (p : Input) (offsets : ℤ → BitVec 32) (l : List ℕ) (pc : ℕ) : ℕ :=
  (secondState p offsets l).idx + 2 * (fixedCode p pc).length

/-- The taken path of the instruction at `pc` goes on at an offset: where its
branch goes, or behind its code if it has no branch. -/
def Lands (p : Input) (offsets : ℤ → BitVec 32) (l : List ℕ) (pc : ℕ) (target : BitVec 32) :
    Prop :=
  (branchAt p offsets l pc = [] ∧ target = BitVec.ofNat 32 (branchStart p offsets l pc)) ∨
    ∃ cond off, IsBranch (branchAt p offsets l pc) cond off ∧
      target = BitVec.ofNat 32 (branchStart p offsets l pc) + 4 + off

theorem Lands.unique {l : List ℕ} {pc : ℕ} {x y : BitVec 32} (hx : Lands p offsets l pc x)
    (hy : Lands p offsets l pc y) : x = y := by
  rcases hx with ⟨hnil, rfl⟩ | ⟨cond, off, hbr, rfl⟩
  · rcases hy with ⟨_, rfl⟩ | ⟨cond, off, hbr, _⟩
    · rfl
    · rw [hnil] at hbr
      cases hbr
  · rcases hy with ⟨hnil, _⟩ | ⟨cond', off', hbr', rfl⟩
    · rw [hnil] at hbr
      cases hbr
    · rw [(hbr.unique hbr').2]

def IsJump (p : Input) (pc : ℕ) : Prop :=
  match (p.insts pc).op with
  | .jmp _ _ | .ja => True
  | _ => False

def table (p : Input) (offsets : ℤ → BitVec 32) : ℤ → BitVec 32 :=
  nominalTable p offsets [] (visited p)

theorem branchSize_eq (n : ℕ) (cond : BitVec 32) :
    branchSize n = BitVec.ofNat 32 (2 * (emitBCond n 0 cond).length) := by
  have hzero : (0 : BitVec 32).toInt = 0 := by decide
  rw [emitBCond_length, hzero, branchSize]
  cases useB4 n <;> simp

/-- The displacement of a jump, with the size the first pass reserved. -/
theorem displacement_jump {pc : ℕ} {d : BitVec 32} (hjump : IsJump p pc)
    (hne : branchCode p pc d ≠ []) (idx : ℕ) :
    displacement p (secondPass p offsets) idx pc =
      table p offsets (pc + (p.insts pc).offset.toInt) -
        (table p offsets pc - BitVec.ofNat 32 (2 * (branchCode p pc 0).length)) - 4 := by
  unfold IsJump at hjump
  unfold displacement branchCode at *
  cases hop : (p.insts pc).op with
  | jmp op source =>
      simp only [hop] at hne ⊢
      split at hne
      · exact absurd rfl hne
      · rename_i hskip
        cases hcond : jumpCond op with
        | none => simp [emitJump, hcond] at hne
        | some cond =>
            simp only [if_neg hskip, emitJump, hcond]
            rw [← branchSize_eq]
            rfl
  | ja =>
      simp only [hop] at hne ⊢
      split at hne
      · exact absurd rfl hne
      · rename_i hskip
        simp only [if_neg hskip]
        rfl
  | _ => simp [hop] at hjump

theorem nominalIdx_even (l : List ℕ) : ∃ k, nominalIdx p l = 2 * k :=
  ⟨_, (Nat.mul_add 2 _ _).symm⟩

/-- Where a branch goes, from where it stands. -/
theorem branch_target (x : BitVec 32) (k : ℕ) :
    BitVec.ofNat 32 (2 * k) + 4 + evenPart (x - BitVec.ofNat 32 (2 * k) - 4) = evenPart x := by
  have hfour : x - BitVec.ofNat 32 (2 * k) - 4 = x - BitVec.ofNat 32 (2 * (k + 2)) := by
    rw [Nat.mul_add, BitVec.ofNat_add]
    bv_omega
  rw [hfour, evenPart_sub, Nat.mul_add, BitVec.ofNat_add]
  bv_omega

theorem slotOf_jump {pc : ℕ} (hjump : IsJump p pc) : slotOf p pc = pc := by
  unfold IsJump at hjump
  unfold slotOf instRet
  cases hop : (p.insts pc).op <;> simp [hop] at hjump ⊢

/-- Where the branch of a jump stands, as `bpf2a32_offset` computes it. -/
theorem table_from (offsets : ℤ → BitVec 32) {l r : List ℕ} {pc : ℕ}
    (hsplit : visited p = l ++ pc :: r) (hjump : IsJump p pc) :
    table p offsets pc - BitVec.ofNat 32 (2 * (branchCode p pc 0).length) =
      BitVec.ofNat 32 (nominalIdx p l + 2 * (fixedCode p pc).length) := by
  have hend := nominalTable_slot offsets hsplit
  rw [slotOf_jump hjump] at hend
  rw [table, hend, nominalIdx_concat, nominal, List.length_append, Nat.mul_add, ← Nat.add_assoc,
    BitVec.ofNat_add _ (2 * (branchCode p pc 0).length), BitVec.add_sub_cancel]

section Agreed

variable {l r : List ℕ} {pc : ℕ}

theorem branchStart_eq (h : LayoutAgrees p offsets) (hsplit : visited p = l ++ pc :: r) :
    branchStart p offsets l pc = nominalIdx p l + 2 * (fixedCode p pc).length := by
  rw [branchStart, h.idx_eq l (pc :: r) hsplit]

theorem lands_through (h : LayoutAgrees p offsets) (hsplit : visited p = l ++ pc :: r)
    (hnil : branchCode p pc 0 = []) {target : BitVec 32} :
    Lands p offsets l pc target ↔ target = BitVec.ofNat 32 (nominalIdx p (l ++ [pc])) := by
  have hfit := h.fit.branches l pc r hsplit
  have hlen := (branchCode_length_iff pc _).mpr hfit
  rw [hnil, List.length_nil, List.length_eq_zero_iff, nominalDisplacement,
    ← h.idx_eq l (pc :: r) hsplit] at hlen
  have hend : nominalIdx p (l ++ [pc]) = branchStart p offsets l pc := by
    rw [branchStart_eq h hsplit, nominalIdx_concat, nominal, hnil, List.append_nil]
  have hland : Lands p offsets l pc (BitVec.ofNat 32 (branchStart p offsets l pc)) :=
    Or.inl ⟨hlen, rfl⟩
  rw [hend]
  constructor
  · intro ht
    exact ht.unique hland
  · rintro rfl
    exact hland

/-- A branch lands at its displacement, whatever that was computed from. -/
theorem lands_branch (h : LayoutAgrees p offsets) (hsplit : visited p = l ++ pc :: r)
    (hne : branchCode p pc 0 ≠ []) {target : BitVec 32} :
    Lands p offsets l pc target ↔ target =
      BitVec.ofNat 32 (nominalIdx p l + 2 * (fixedCode p pc).length) + 4 +
        evenPart (nominalDisplacement p offsets l pc) := by
  have hfit := h.fit.branches l pc r hsplit
  have hlen := (branchCode_length_iff pc _).mpr hfit
  have hne' : branchCode p pc (nominalDisplacement p offsets l pc) ≠ [] := by
    rw [← List.length_pos_iff, hlen, List.length_pos_iff]
    exact hne
  obtain ⟨cond, hbr⟩ := isBranch_branchCode hfit hne'
  have hat : branchAt p offsets l pc = branchCode p pc (nominalDisplacement p offsets l pc) := by
    rw [branchAt, h.idx_eq l (pc :: r) hsplit]
    rfl
  rw [← hat] at hbr
  rw [← branchStart_eq h hsplit]
  constructor
  · intro ht
    exact ht.unique (Or.inr ⟨cond, _, hbr, rfl⟩)
  · intro ht
    exact Or.inr ⟨cond, _, hbr, ht⟩

/-- The branch of a jump lands at the offset recorded for the slot in front
of the target. -/
theorem lands_table (h : LayoutAgrees p offsets) (hsplit : visited p = l ++ pc :: r)
    (hjump : IsJump p pc) (hne : branchCode p pc 0 ≠ []) {target : BitVec 32} :
    Lands p offsets l pc target ↔
      target = evenPart (table p offsets (pc + (p.insts pc).offset.toInt)) := by
  rw [lands_branch h hsplit hne, nominalDisplacement, displacement_jump hjump hne,
    table_from offsets hsplit hjump]
  obtain ⟨k, hk⟩ := nominalIdx_even (p := p) l
  rw [hk, ← Nat.mul_add, branch_target]

/-- The branch of an `EXIT` lands at the epilogue. -/
theorem lands_epilogue (h : LayoutAgrees p offsets) (hsplit : visited p = l ++ pc :: r)
    (hexit : (p.insts pc).op = .exit) (hlast : (pc : ℤ) ≠ p.instNum - 1) :
    Lands p offsets l pc (BitVec.ofNat 32 (jitCompile p offsets).second.idx) := by
  have hne : branchCode p pc 0 ≠ [] := by
    simp only [branchCode, hexit, if_neg hlast]
    decide
  rw [lands_branch h hsplit hne, h.epilogue, jitCompile_first, firstState_idx]
  have hdisp : nominalDisplacement p offsets l pc =
      BitVec.ofNat 32 (nominalIdx p (visited p)) - BitVec.ofNat 32 (nominalIdx p l) - 4 := by
    simp only [nominalDisplacement, displacement, hexit]
    rfl
  have hfixed : fixedCode p pc = [] := by simp only [fixedCode, hexit]
  obtain ⟨k, hk⟩ := nominalIdx_even (p := p) l
  obtain ⟨e, he⟩ := nominalIdx_even (p := p) (visited p)
  rw [hdisp, hfixed, List.length_nil, hk, he, Nat.mul_zero, Nat.add_zero, branch_target,
    evenPart_ofNat_even]

theorem visited_head {t : ℕ} {rt : List ℕ} (hsplit : visited p = t :: rt) : t = 0 := by
  refine (visit_isChain (p := p) p.instNum 0).2 t ?_
  rw [show visit p p.instNum 0 = visited p from rfl, hsplit]
  exact rfl

/-- The slot in front of an instruction holds the offset of its first byte. -/
theorem table_before (offsets : ℤ → BitVec 32) {lt rt : List ℕ} {t : ℕ}
    (hsplit : visited p = lt ++ t :: rt) (ht : t ≠ 0) :
    table p offsets (t - 1 : ℤ) = BitVec.ofNat 32 (nominalIdx p lt) := by
  rcases List.eq_nil_or_concat' lt with rfl | ⟨lt', q, rfl⟩
  · exact absurd (visited_head hsplit) ht
  · have hq : visited p = lt' ++ q :: t :: rt := by rw [hsplit]; simp
    have hslot := (next_of_split hq).1
    rw [table, show (t - 1 : ℤ) = slotOf p q by omega, nominalTable_slot offsets hq]

theorem table_neg_one : table p offsets (-1) = offsets (-1) := by
  apply nominalTable_of_slot_ne
  intro q _
  omega

theorem split_zero {lt rt : List ℕ} (hsplit : visited p = lt ++ 0 :: rt) : lt = [] := by
  rcases List.eq_nil_or_concat' lt with rfl | ⟨lt', q, rfl⟩
  · rfl
  · have hq : visited p = lt' ++ q :: 0 :: rt := by rw [hsplit]; simp
    have := (next_of_split hq).1
    omega

theorem nominalIdx_le {lt rt : List ℕ} (h : LayoutAgrees p offsets)
    (hsplit : visited p = lt ++ rt) : nominalIdx p lt ≤ jitBufferSize := by
  have hle := nominalIdx_append_le (p := p) lt rt
  have hsize := h.fit.size
  rw [hsplit] at hsize
  omega

end Agreed

/-! ### All branches of a program -/

/-- The second slot of an `LDDW`. -/
def IsSecondSlot (p : Input) (t : ℕ) : Prop :=
  ∃ pc ∈ visited p, (p.insts pc).op = .lddw ∧ t = pc + 1

/-- Every jump to an instruction of the program goes on at the first byte
generated for it, and every `EXIT` but the last goes to the epilogue. -/
structure BranchesLand (p : Input) (offsets : ℤ → BitVec 32) : Prop where
  jumps : ∀ l pc r (t : ℕ), visited p = l ++ pc :: r → IsJump p pc →
    (t : ℤ) = pc + 1 + (p.insts pc).offset.toInt → t < p.instNum → ¬IsSecondSlot p t →
    ∃ lt rt, visited p = lt ++ t :: rt ∧
      Lands p offsets l pc (BitVec.ofNat 32 (secondState p offsets lt).idx)
  exits : ∀ l pc r, visited p = l ++ pc :: r → (p.insts pc).op = .exit →
    (pc : ℤ) ≠ p.instNum - 1 →
    Lands p offsets l pc (BitVec.ofNat 32 (jitCompile p offsets).second.idx)

/-- `_emit_jump` has a case for the operation as it receives it. -/
def HasBranch (p : Input) (pc : ℕ) : Prop :=
  match (p.insts pc).op with
  | .jmp op _ => jumpCond op ≠ none
  | .ja => True
  | _ => False

/-- What a jump at `pc`, behind `l`, to `t`, behind `lt`, needs: to go nowhere;
or to have a branch and not to go to the first instruction, unless the word
in front of the table happens to hold the offset behind the prologue; or to
have no branch and skip instructions that generate no code. -/
def JumpSupported (p : Input) (offsets : ℤ → BitVec 32) (l : List ℕ) (pc : ℕ) (lt : List ℕ)
    (t : ℕ) : Prop :=
  (p.insts pc).offset = 0 ∨
    (HasBranch p pc ∧
      (t ≠ 0 ∨ evenPart (offsets (-1)) = BitVec.ofNat 32 (2 * (buildPrologue p).length))) ∨
    (¬HasBranch p pc ∧ nominalIdx p lt = nominalIdx p (l ++ [pc]))

theorem branchCode_ne_nil_iff {pc : ℕ} (hjump : IsJump p pc) (hoff : (p.insts pc).offset ≠ 0) :
    branchCode p pc 0 ≠ [] ↔ HasBranch p pc := by
  unfold IsJump at hjump
  unfold branchCode HasBranch
  cases hop : (p.insts pc).op with
  | jmp op source =>
      simp only [hoff, and_false, if_false, emitJump]
      cases hcond : jumpCond op with
      | none => simp
      | some cond =>
          have hlen := emitBCond_length p.instNum 0 cond
          have hzero : (0 : BitVec 32).toInt = 0 := by decide
          rw [hzero] at hlen
          simp only [ne_eq, reduceCtorEq, not_false_eq_true, iff_true]
          intro hnil
          rw [hnil, List.length_nil] at hlen
          split at hlen <;> simp at hlen
  | ja =>
      simp only [hoff, if_false, iff_true]
      decide
  | _ => simp [hop] at hjump

/-- A jump lands at the start of its target exactly when it is supported. -/
theorem lands_iff_supported (h : LayoutAgrees p offsets) {l r lt rt : List ℕ} {pc t : ℕ}
    (hsplit : visited p = l ++ pc :: r) (hjump : IsJump p pc)
    (ht : (t : ℤ) = pc + 1 + (p.insts pc).offset.toInt) (htarget : visited p = lt ++ t :: rt) :
    Lands p offsets l pc (BitVec.ofNat 32 (secondState p offsets lt).idx) ↔
      JumpSupported p offsets l pc lt t := by
  rw [h.idx_eq lt (t :: rt) htarget]
  obtain ⟨k, hk⟩ := nominalIdx_even (p := p) lt
  have hslot : (pc + (p.insts pc).offset.toInt : ℤ) = t - 1 := by omega
  by_cases hoff : (p.insts pc).offset = 0
  · -- both the branch and the end of the code lead to the next instruction
    have hzero : (p.insts pc).offset.toInt = 0 := by rw [hoff]; decide
    have hpc : (pc : ℤ) = slotOf p pc := by rw [slotOf_jump hjump]
    have hbefore := table_before offsets htarget (by omega)
    have hend := nominalTable_slot offsets hsplit
    rw [← hpc, show (pc : ℤ) = t - 1 by omega] at hend
    refine iff_of_true ?_ (Or.inl hoff)
    by_cases hnil : branchCode p pc 0 = []
    · rw [lands_through h hsplit hnil, ← hend, ← hbefore]
      rfl
    · rw [lands_table h hsplit hjump hnil, hslot, hbefore, hk, evenPart_ofNat_even]
  · by_cases hbr : HasBranch p pc
    · have hne := (branchCode_ne_nil_iff hjump hoff).mpr hbr
      rw [lands_table h hsplit hjump hne, hslot]
      simp only [JumpSupported, hoff, hbr, true_and, false_or, not_true_eq_false, false_and,
        or_false]
      by_cases hzero : t = 0
      · -- what stands in front of the table is not written by the first pass
        subst hzero
        rw [split_zero htarget, nominalIdx_nil, show ((0 : ℕ) - 1 : ℤ) = -1 by rfl,
          table_neg_one]
        simp [eq_comm]
      · rw [table_before offsets htarget hzero, hk, evenPart_ofNat_even]
        simp [hzero]
    · -- a jump without a branch goes on to the next instruction
      have hnil : branchCode p pc 0 = [] := by
        by_contra hne
        exact hbr ((branchCode_ne_nil_iff hjump hoff).mp hne)
      rw [lands_through h hsplit hnil]
      simp only [JumpSupported, hoff, hbr, false_and, false_or, not_false_eq_true, true_and]
      have hlt := nominalIdx_le h htarget
      have hl := nominalIdx_le h (show visited p = (l ++ [pc]) ++ r by rw [hsplit]; simp)
      simp only [jitBufferSize] at hlt hl
      constructor
      · intro heq
        have hnat := congrArg BitVec.toNat heq
        simp only [BitVec.toNat_ofNat] at hnat
        rwa [Nat.mod_eq_of_lt (by omega), Nat.mod_eq_of_lt (by omega)] at hnat
      · intro heq
        rw [heq]

/-- On an agreed layout, the branches land where they should exactly when
every jump's target was translated and the jump is supported. -/
theorem branchesLand_iff (p : Input) (offsets : ℤ → BitVec 32) (h : LayoutAgrees p offsets) :
    BranchesLand p offsets ↔
      ∀ l pc r (t : ℕ), visited p = l ++ pc :: r → IsJump p pc →
        (t : ℤ) = pc + 1 + (p.insts pc).offset.toInt → t < p.instNum → ¬IsSecondSlot p t →
        ∃ lt rt, visited p = lt ++ t :: rt ∧ JumpSupported p offsets l pc lt t := by
  constructor
  · intro hland l pc r t hsplit hjump ht htn hslot
    obtain ⟨lt, rt, htarget, hl⟩ := hland.jumps l pc r t hsplit hjump ht htn hslot
    exact ⟨lt, rt, htarget, (lands_iff_supported h hsplit hjump ht htarget).mp hl⟩
  · intro hsupp
    refine ⟨?_, fun l pc r hsplit hexit hlast => lands_epilogue h hsplit hexit hlast⟩
    intro l pc r t hsplit hjump ht htn hslot
    obtain ⟨lt, rt, htarget, hs⟩ := hsupp l pc r t hsplit hjump ht htn hslot
    exact ⟨lt, rt, htarget, (lands_iff_supported h hsplit hjump ht htarget).mpr hs⟩

/-- `ja` over an `exit` to the last `exit`. -/
def jumpOverExit : Input where
  insts := fun n =>
    { opcode := if n = 0 then Opcode.ja.byte else Opcode.exit.byte, dst := 0, src := 0,
      offset := if n = 0 then 1 else 0, imm := 0 }
  instNum := 3
  callBase := fun _ => 0
  behind := (0, 0)

theorem jumpOverExit_agrees : LayoutAgrees jumpOverExit fun _ => 0 := by
  have hvisited : visited jumpOverExit = [0, 1, 2] := by decide
  apply LayoutAgrees.of_fit
  refine ⟨by decide, by decide, ?_⟩
  intro l pc r hsplit
  rw [hvisited] at hsplit
  rcases l with _ | ⟨a, _ | ⟨b, _ | ⟨c, l⟩⟩⟩ <;> simp at hsplit
  · obtain ⟨rfl, rfl⟩ := hsplit
    exact Or.inr (by decide)
  · obtain ⟨rfl, rfl, rfl⟩ := hsplit
    exact Or.inr (by decide)
  · obtain ⟨rfl, rfl, rfl, rfl⟩ := hsplit
    exact Or.inl (by decide)

theorem jumpOverExit_lands :
    LayoutAgrees jumpOverExit (fun _ => 0) ∧ BranchesLand jumpOverExit (fun _ => 0) := by
  refine ⟨jumpOverExit_agrees, (branchesLand_iff _ _ jumpOverExit_agrees).mpr ?_⟩
  have hvisited : visited jumpOverExit = [0, 1, 2] := by decide
  intro l pc r t hsplit hjump ht _ _
  rw [hvisited] at hsplit
  rcases l with _ | ⟨a, _ | ⟨b, _ | ⟨c, l⟩⟩⟩ <;> simp at hsplit
  · obtain ⟨rfl, rfl⟩ := hsplit
    have ht' : t = 2 := by
      have hoff : (jumpOverExit.insts 0).offset.toInt = 1 := by decide
      omega
    subst ht'
    exact ⟨[0, 1], [], hvisited, Or.inr (Or.inl ⟨trivial, Or.inl (by decide)⟩)⟩
  · obtain ⟨rfl, rfl, rfl⟩ := hsplit
    exact absurd hjump id
  · obtain ⟨rfl, rfl, rfl, rfl⟩ := hsplit
    exact absurd hjump id

/-- `ja` to itself, and `exit`. -/
def loopToFirst : Input where
  insts := fun n =>
    { opcode := if n = 0 then Opcode.ja.byte else Opcode.exit.byte, dst := 0, src := 0,
      offset := if n = 0 then -1 else 0, imm := 0 }
  instNum := 2
  callBase := fun _ => 0
  behind := (0, 0)

/-- `if r0 < r1 goto +1`, a move, and `exit`. -/
def skipIfLess : Input where
  insts := fun n =>
    { opcode := if n = 0 then (Opcode.jmp .jlt .reg).byte
        else if n = 1 then (Opcode.alu64 .mov .imm).byte else Opcode.exit.byte
      dst := 0, src := 1, offset := if n = 0 then 1 else 0, imm := 0 }
  instNum := 3
  callBase := fun _ => 0
  behind := (0, 0)

theorem loopToFirst_agrees : LayoutAgrees loopToFirst fun _ => 0 := by
  have hvisited : visited loopToFirst = [0, 1] := by decide
  apply LayoutAgrees.of_fit
  refine ⟨by decide, by decide, ?_⟩
  intro l pc r hsplit
  rw [hvisited] at hsplit
  rcases l with _ | ⟨a, _ | ⟨b, l⟩⟩ <;> simp at hsplit
  · obtain ⟨rfl, rfl⟩ := hsplit
    exact Or.inr (by decide)
  · obtain ⟨rfl, rfl, rfl⟩ := hsplit
    exact Or.inl (by decide)

theorem skipIfLess_agrees : LayoutAgrees skipIfLess fun _ => 0 := by
  have hvisited : visited skipIfLess = [0, 1, 2] := by decide
  apply LayoutAgrees.of_fit
  refine ⟨by decide, by decide, ?_⟩
  intro l pc r hsplit
  rw [hvisited] at hsplit
  rcases l with _ | ⟨a, _ | ⟨b, _ | ⟨c, l⟩⟩⟩ <;> simp at hsplit
  · obtain ⟨rfl, rfl⟩ := hsplit
    exact Or.inr (Or.inl (by decide))
  · obtain ⟨rfl, rfl, rfl⟩ := hsplit
    exact trivial
  · obtain ⟨rfl, rfl, rfl, rfl⟩ := hsplit
    exact Or.inl (by decide)

/-- The jump to the first instruction goes to whatever the word in front of
the table says, and the jump on `<` falls through to the move. -/
theorem branches_go_astray :
    (LayoutAgrees loopToFirst (fun _ => 0) ∧ ¬BranchesLand loopToFirst (fun _ => 0)) ∧
      LayoutAgrees skipIfLess (fun _ => 0) ∧ ¬BranchesLand skipIfLess (fun _ => 0) := by
  refine ⟨⟨loopToFirst_agrees, fun hland => ?_⟩, skipIfLess_agrees, fun hland => ?_⟩
  · have hno : ¬IsSecondSlot loopToFirst 0 := by
      rintro ⟨pc, _, _, h⟩
      omega
    have hsplit : visited loopToFirst = [] ++ 0 :: [1] := by decide
    obtain ⟨lt, rt, htarget, hl⟩ := hland.jumps [] 0 [1] 0 hsplit trivial
      (by decide) (by decide) hno
    have hl := (lands_iff_supported loopToFirst_agrees hsplit trivial (by decide)
      htarget).mp hl
    rcases hl with hoff | ⟨_, hzero | hword⟩ | ⟨hbr, _⟩
    · exact absurd hoff (by decide)
    · exact hzero rfl
    · exact absurd hword (by decide)
    · exact hbr trivial
  · have hsplit : visited skipIfLess = [] ++ 0 :: [1, 2] := by decide
    have hno : ¬IsSecondSlot skipIfLess 2 := by
      rintro ⟨pc, hpc, hop, h⟩
      obtain rfl : pc = 1 := by omega
      exact absurd hop (by decide)
    obtain ⟨lt, rt, htarget, hl⟩ := hland.jumps [] 0 [1, 2] 2 hsplit trivial
      (by decide) (by decide) hno
    have hl := (lands_iff_supported skipIfLess_agrees hsplit trivial (by decide)
      htarget).mp hl
    have hlt : lt = [0, 1] := by
      rw [hsplit] at htarget
      rcases lt with _ | ⟨a, _ | ⟨b, _ | ⟨c, lt⟩⟩⟩ <;> simp at htarget
      obtain ⟨rfl, rfl, _⟩ := htarget
      rfl
    subst hlt
    rcases hl with hoff | ⟨hbr, _⟩ | ⟨_, hidx⟩
    · exact absurd hoff (by decide)
    · exact hbr (by decide)
    · exact absurd hidx (by decide)

end RapidPatch.Jit

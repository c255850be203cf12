import RapidPatch.Thumb.Machine

/-!
Straight-line code.

`Runs code s t` says that the halfwords `code` decode to data instructions
that take the core from `s` to `t`. It knows no addresses, so blocks compose
by appending (`Runs.append`), and a compiler is verified piece by piece
without following the program counter. `Runs.reaches` puts a block at an
address: where the instruction memory holds it, the processor gets from its
first byte to the byte behind it. `reaches_branch` does the same for one
branch.
-/

namespace RapidPatch.Thumb

open RapidPatch.Support

inductive Decodes : List (BitVec 16) → List Data → Prop
  | nil : Decodes [] []
  | narrow {hw : BitVec 16} {d : Data} {code : List (BitVec 16)} {ds : List Data}
      (hsize : isWide hw = false) (hd : decode16 hw = some (.data d)) (h : Decodes code ds) :
      Decodes (hw :: code) (d :: ds)
  | wide {hw hw' : BitVec 16} {d : Data} {code : List (BitVec 16)} {ds : List Data}
      (hsize : isWide hw = true) (hd : decode32 (hw ++ hw') = some (.data d))
      (h : Decodes code ds) : Decodes (hw :: hw' :: code) (d :: ds)
  | it {hw hw₁ hw₂ : BitVec 16} {d : Data} {code : List (BitVec 16)} {ds : List Data}
      (hit : isIt hw = true) (hd : decodeIt hw (hw₁ ++ hw₂) = some (.data d))
      (h : Decodes code ds) : Decodes (hw :: hw₁ :: hw₂ :: code) (d :: ds)

theorem Decodes.append {code code' : List (BitVec 16)} {ds ds' : List Data}
    (h : Decodes code ds) (h' : Decodes code' ds') : Decodes (code ++ code') (ds ++ ds') := by
  induction h with
  | nil => exact h'
  | narrow hsize hd _ ih => exact .narrow hsize hd ih
  | wide hsize hd _ ih => exact .wide hsize hd ih
  | it hit hd _ ih => exact .it hit hd ih

/-! An `IT` instruction is narrow and is not decoded by itself. -/

theorem isIt_top {hw : BitVec 16} (h : isIt hw = true) : bits hw 11 5 = 0b10111 := by
  simp only [isIt, Bool.and_eq_true, decide_eq_true_eq] at h
  have hbits : bits hw 11 5 = bits (bits hw 8 8) 3 5 := by
    apply BitVec.eq_of_getLsbD_eq
    intro i hi
    simp only [bits, BitVec.getLsbD_extractLsb', hi, decide_true, Bool.true_and,
      show 3 + i < 8 by omega]
    congr 1
    omega
  rw [hbits, h.1]
  rfl

theorem isIt_of_isWide {hw : BitVec 16} (h : isWide hw = true) : isIt hw = false := by
  rw [Bool.eq_false_iff]
  intro hit
  rw [isWide, isIt_top hit] at h
  revert h
  decide

theorem decode16_of_isIt {hw : BitVec 16} (h : isIt hw = true) : decode16 hw = none := by
  simp only [decode16, isIt_top h]
  rfl

theorem isIt_of_decode16 {hw : BitVec 16} {i : Instr} (h : decode16 hw = some i) :
    isIt hw = false := by
  rw [Bool.eq_false_iff]
  intro hit
  rw [decode16_of_isIt hit] at h
  cases h

section Inversion

variable {hw hw₁ hw₂ : BitVec 16} {d : Data} {code : List (BitVec 16)} {es : List Data}

theorem Decodes.of_narrow (hd : decode16 hw = some (.data d)) (hsize : isWide hw = false)
    (h : Decodes (hw :: code) es) : ∃ ds, es = d :: ds ∧ Decodes code ds := by
  cases h with
  | narrow _ hd' h' =>
      rw [hd, Option.some.injEq, Instr.data.injEq] at hd'
      exact ⟨_, by rw [hd'], h'⟩
  | wide hsize' _ _ => cases hsize.symm.trans hsize'
  | it hit _ _ => cases (isIt_of_decode16 hd).symm.trans hit

theorem Decodes.of_wide (hd : decode32 (hw ++ hw₁) = some (.data d)) (hsize : isWide hw = true)
    (h : Decodes (hw :: hw₁ :: code) es) : ∃ ds, es = d :: ds ∧ Decodes code ds := by
  cases h with
  | narrow hsize' _ _ => cases hsize.symm.trans hsize'
  | wide _ hd' h' =>
      rw [hd, Option.some.injEq, Instr.data.injEq] at hd'
      exact ⟨_, by rw [hd'], h'⟩
  | it hit _ _ => cases (isIt_of_isWide hsize).symm.trans hit

theorem Decodes.of_it (hd : decodeIt hw (hw₁ ++ hw₂) = some (.data d)) (hit : isIt hw = true)
    (h : Decodes (hw :: hw₁ :: hw₂ :: code) es) : ∃ ds, es = d :: ds ∧ Decodes code ds := by
  cases h with
  | narrow _ hd' _ => cases (isIt_of_decode16 hd').symm.trans hit
  | wide hsize' _ _ => cases (isIt_of_isWide hsize').symm.trans hit
  | it _ hd' h' =>
      rw [hd, Option.some.injEq, Instr.data.injEq] at hd'
      exact ⟨_, by rw [hd'], h'⟩

end Inversion

/-- Behind a block the rest of the halfwords is decoded by itself. -/
theorem Decodes.of_append {code code' : List (BitVec 16)} {ds es : List Data}
    (h : Decodes code ds) (h' : Decodes (code ++ code') es) :
    ∃ ds', es = ds ++ ds' ∧ Decodes code' ds' := by
  induction h generalizing es with
  | nil => exact ⟨es, rfl, h'⟩
  | narrow hsize hd _ ih =>
      obtain ⟨fs, rfl, hfs⟩ := Decodes.of_narrow hd hsize h'
      obtain ⟨ds', rfl, hrest⟩ := ih hfs
      exact ⟨ds', rfl, hrest⟩
  | wide hsize hd _ ih =>
      obtain ⟨fs, rfl, hfs⟩ := Decodes.of_wide hd hsize h'
      obtain ⟨ds', rfl, hrest⟩ := ih hfs
      exact ⟨ds', rfl, hrest⟩
  | it hit hd _ ih =>
      obtain ⟨fs, rfl, hfs⟩ := Decodes.of_it hd hit h'
      obtain ⟨ds', rfl, hrest⟩ := ih hfs
      exact ⟨ds', rfl, hrest⟩

/-- The halfwords say which instructions they are. -/
theorem Decodes.unique {code : List (BitVec 16)} {ds ds' : List Data} (h : Decodes code ds)
    (h' : Decodes code ds') : ds = ds' := by
  obtain ⟨rest, rfl, hrest⟩ := h.of_append (show Decodes (code ++ []) ds' by rwa [List.append_nil])
  cases hrest
  rw [List.append_nil]

def execAll (s : Core) : List Data → Option Core
  | [] => some s
  | d :: ds => (execData s d).bind fun t => execAll t ds

theorem execAll_append {s t : Core} {ds ds' : List Data} (h : execAll s ds = some t) :
    execAll s (ds ++ ds') = execAll t ds' := by
  induction ds generalizing s with
  | nil =>
      cases h
      rfl
  | cons d ds ih =>
      simp only [execAll, List.cons_append] at h ⊢
      cases hd : execData s d with
      | none =>
          rw [hd] at h
          cases h
      | some u =>
          rw [hd] at h
          exact ih h

/-- The code takes the core from one state to another. -/
def Runs (code : List (BitVec 16)) (s t : Core) : Prop :=
  ∃ ds, Decodes code ds ∧ execAll s ds = some t

namespace Runs

variable {code code' : List (BitVec 16)} {s t u : Core}

theorem nil (s : Core) : Runs [] s s := ⟨[], .nil, rfl⟩

theorem append (h : Runs code s t) (h' : Runs code' t u) : Runs (code ++ code') s u := by
  obtain ⟨ds, hds, hs⟩ := h
  obtain ⟨ds', hds', ht⟩ := h'
  exact ⟨ds ++ ds', hds.append hds', by rw [execAll_append hs, ht]⟩

/-- Code behind one of two alternatives. -/
theorem append_ite {c : Prop} [Decidable c] {other : List (BitVec 16)}
    (h : Runs (if c then code else other) s t) (h' : Runs code' t u) :
    Runs (if c then code ++ code' else other ++ code') s u := by
  split
  · rename_i hc
    rw [if_pos hc] at h
    exact h.append h'
  · rename_i hc
    rw [if_neg hc] at h
    exact h.append h'

theorem narrow {hw : BitVec 16} {d : Data} (hsize : isWide hw = false)
    (hd : decode16 hw = some (.data d)) (he : execData s d = some t) : Runs [hw] s t :=
  ⟨[d], .narrow hsize hd .nil, by simp [execAll, he]⟩

theorem wide {hw hw' : BitVec 16} {d : Data} (hsize : isWide hw = true)
    (hd : decode32 (hw ++ hw') = some (.data d)) (he : execData s d = some t) :
    Runs [hw, hw'] s t :=
  ⟨[d], .wide hsize hd .nil, by simp [execAll, he]⟩

theorem it {hw hw₁ hw₂ : BitVec 16} {d : Data} (hit : isIt hw = true)
    (hd : decodeIt hw (hw₁ ++ hw₂) = some (.data d)) (he : execData s d = some t) :
    Runs [hw, hw₁, hw₂] s t :=
  ⟨[d], .it hit hd .nil, by simp [execAll, he]⟩

/-- Code has one effect. -/
theorem unique (h : Runs code s t) (h' : Runs code s u) : t = u := by
  obtain ⟨ds, hds, hs⟩ := h
  obtain ⟨ds', hds', hs'⟩ := h'
  rw [hds.unique hds', hs', Option.some.injEq] at hs
  exact hs.symm

/-- Behind a block the rest of the code runs by itself. -/
theorem of_append (h : Runs code s t) (h' : Runs (code ++ code') s u) : Runs code' t u := by
  obtain ⟨ds, hds, hs⟩ := h
  obtain ⟨es, hes, hu⟩ := h'
  obtain ⟨ds', rfl, hds'⟩ := hds.of_append hes
  rw [execAll_append hs] at hu
  exact ⟨ds', hds', hu⟩

end Runs

/-! ### Code that does not run -/

/-- A wide encoding that is no data instruction. -/
theorem not_runs_wide {hw hw' : BitVec 16} {code : List (BitVec 16)} {s t : Core}
    (hsize : isWide hw = true) (hd : ∀ d, decode32 (hw ++ hw') ≠ some (.data d)) :
    ¬Runs (hw :: hw' :: code) s t := by
  rintro ⟨ds, hds, -⟩
  cases hds with
  | narrow hsize' _ _ => cases hsize.symm.trans hsize'
  | wide _ hd' _ => exact hd _ hd'
  | it hit _ _ => cases (isIt_of_isWide hsize).symm.trans hit

theorem not_runs_half {hw : BitVec 16} {s t : Core} (hsize : isWide hw = true) :
    ¬Runs [hw] s t := by
  rintro ⟨ds, hds, -⟩
  cases hds with
  | narrow hsize' _ _ => cases hsize.symm.trans hsize'

/-- The instruction memory holds the halfwords from an address on. -/
def CodeAt (mem : Word → BitVec 16) (a : Word) : List (BitVec 16) → Prop
  | [] => True
  | hw :: code => mem a = hw ∧ CodeAt mem (a + 2) code

/-- The address `n` halfwords on. -/
def after (a : Word) (n : ℕ) : Word := a + BitVec.ofNat 32 (2 * n)

@[simp] theorem after_zero (a : Word) : after a 0 = a := by simp [after]

theorem after_add (a : Word) (n m : ℕ) : after a (n + m) = after (after a n) m := by
  unfold after
  rw [Nat.mul_add, BitVec.ofNat_add, BitVec.add_assoc]

theorem codeAt_append {mem : Word → BitVec 16} {a : Word} {code code' : List (BitVec 16)} :
    CodeAt mem a (code ++ code') ↔
      CodeAt mem a code ∧ CodeAt mem (after a code.length) code' := by
  induction code generalizing a with
  | nil => simp [CodeAt]
  | cons hw code ih =>
      have hnext : after (a + 2) code.length = after a (code.length + 1) := by
        rw [Nat.add_comm, after_add]
        rfl
      simp only [List.cons_append, CodeAt, ih, List.length_cons, hnext, and_assoc]

variable {mem : Word → BitVec 16} {a : Word} {s t : Core}

theorem step_narrow {hw : BitVec 16} {d : Data} (hm : mem a = hw) (hsize : isWide hw = false)
    (hd : decode16 hw = some (.data d)) (he : execData s d = some t) :
    step mem ⟨a, s⟩ = .cont ⟨a + 2, t⟩ := by
  simp [step, fetch, hm, isIt_of_decode16 hd, hsize, hd, he]

theorem step_wide {hw hw' : BitVec 16} {d : Data} (hm : mem a = hw) (hm' : mem (a + 2) = hw')
    (hsize : isWide hw = true) (hd : decode32 (hw ++ hw') = some (.data d))
    (he : execData s d = some t) : step mem ⟨a, s⟩ = .cont ⟨a + 4, t⟩ := by
  have hm'' : mem (a + 2#32) = hw' := hm'
  simp [step, fetch, hm, hm'', isIt_of_isWide hsize, hsize, hd, he]

theorem step_it {hw hw₁ hw₂ : BitVec 16} {d : Data} (hm : mem a = hw)
    (hm₁ : mem (a + 2) = hw₁) (hm₂ : mem (a + 4) = hw₂) (hit : isIt hw = true)
    (hd : decodeIt hw (hw₁ ++ hw₂) = some (.data d)) (he : execData s d = some t) :
    step mem ⟨a, s⟩ = .cont ⟨a + 6, t⟩ := by
  have hm₁' : mem (a + 2#32) = hw₁ := hm₁
  have hm₂' : mem (a + 4#32) = hw₂ := hm₂
  simp [step, fetch, hm, hm₁', hm₂', hit, hd, he]

theorem reaches_of_decodes {code : List (BitVec 16)} {ds : List Data} (hcode : CodeAt mem a code)
    (hds : Decodes code ds) (he : execAll s ds = some t) :
    Reaches (step mem) ⟨a, s⟩ ⟨after a code.length, t⟩ := by
  induction hds generalizing a s with
  | nil =>
      cases he
      rw [List.length_nil, after_zero]
      exact .refl _
  | @narrow hw d code ds hsize hd _ ih =>
      obtain ⟨hm, hrest⟩ := hcode
      obtain ⟨u, hu, hrun⟩ := Option.bind_eq_some_iff.mp he
      have hnext : after a (code.length + 1) = after (a + 2) code.length := by
        rw [Nat.add_comm, after_add]
        rfl
      rw [List.length_cons, hnext]
      exact .head (step_narrow hm hsize hd hu) (ih hrest hrun)
  | @wide hw hw' d code ds hsize hd _ ih =>
      obtain ⟨hm, hm', hrest⟩ := hcode
      obtain ⟨u, hu, hrun⟩ := Option.bind_eq_some_iff.mp he
      have haddr : a + 2 + 2 = a + 4 := by
        rw [BitVec.add_assoc]
        rfl
      have hnext : after a (code.length + 1 + 1) = after (a + 4) code.length := by
        rw [Nat.add_assoc, Nat.add_comm, after_add]
        rfl
      rw [haddr] at hrest
      rw [List.length_cons, List.length_cons, hnext]
      exact .head (step_wide hm hm' hsize hd hu) (ih hrest hrun)
  | @it hw hw₁ hw₂ d code ds hit hd _ ih =>
      obtain ⟨hm, hm₁, hm₂, hrest⟩ := hcode
      obtain ⟨u, hu, hrun⟩ := Option.bind_eq_some_iff.mp he
      have haddr : a + 2 + 2 = a + 4 := by
        rw [BitVec.add_assoc]
        rfl
      have hlast : a + 4 + 2 = a + 6 := by
        rw [BitVec.add_assoc]
        rfl
      have hnext : after a (code.length + 1 + 1 + 1) = after (a + 6) code.length := by
        rw [Nat.add_assoc, Nat.add_assoc, Nat.add_comm, after_add]
        rfl
      rw [haddr] at hm₂ hrest
      rw [hlast] at hrest
      rw [List.length_cons, List.length_cons, List.length_cons, hnext]
      exact .head (step_it hm hm₁ hm₂ hit hd hu) (ih hrest hrun)

/-- A block at an address takes the processor to the byte behind it. -/
theorem Runs.reaches {code : List (BitVec 16)} (h : Runs code s t) (hcode : CodeAt mem a code) :
    Reaches (step mem) ⟨a, s⟩ ⟨after a code.length, t⟩ := by
  obtain ⟨ds, hds, he⟩ := h
  exact reaches_of_decodes hcode hds he

/-- The halfwords are one branch. -/
inductive IsBranch : List (BitVec 16) → BitVec 4 → Word → Prop
  | narrow {hw : BitVec 16} {cond : BitVec 4} {offset : Word} (hsize : isWide hw = false)
      (hd : decode16 hw = some (.b cond offset)) : IsBranch [hw] cond offset
  | wide {hw hw' : BitVec 16} {cond : BitVec 4} {offset : Word} (hsize : isWide hw = true)
      (hd : decode32 (hw ++ hw') = some (.b cond offset)) : IsBranch [hw, hw'] cond offset

/-- A branch has one condition and one offset. -/
theorem IsBranch.unique {code : List (BitVec 16)} {cond cond' : BitVec 4} {off off' : Word}
    (h : IsBranch code cond off) (h' : IsBranch code cond' off') : cond = cond' ∧ off = off' := by
  cases h with
  | narrow _ hd =>
      cases h' with
      | narrow _ hd' =>
          rw [hd] at hd'
          simpa only [Option.some.injEq, Instr.b.injEq] using hd'
  | wide _ hd =>
      cases h' with
      | wide _ hd' =>
          rw [hd] at hd'
          simpa only [Option.some.injEq, Instr.b.injEq] using hd'

theorem IsBranch.not_runs {code : List (BitVec 16)} {cond : BitVec 4} {off : Word}
    (h : IsBranch code cond off) : ¬Runs code s t := by
  rintro ⟨ds, hds, -⟩
  cases h with
  | narrow hsize hd =>
      cases hds with
      | narrow _ hd' _ =>
          rw [hd] at hd'
          cases hd'
  | wide hsize hd =>
      cases hds with
      | narrow hsize' _ _ => cases hsize.symm.trans hsize'
      | wide _ hd' _ =>
          rw [hd] at hd'
          cases hd'

/-- No block ends inside a branch. -/
theorem IsBranch.eq_nil_of_append {x y : List (BitVec 16)} {cond : BitVec 4} {off : Word}
    (h : IsBranch (x ++ y) cond off) (hy : y ≠ []) (hx : Runs x s t) : x = [] := by
  generalize hcode : x ++ y = code at h
  cases h with
  | narrow _ _ =>
      rcases x with _ | ⟨_, x⟩
      · rfl
      · have hlen := congrArg List.length hcode
        have hpos := List.length_pos_iff.mpr hy
        simp only [List.cons_append, List.length_cons, List.length_append, List.length_nil] at hlen
        omega
  | wide hsize _ =>
      rcases x with _ | ⟨_, _ | ⟨_, x⟩⟩
      · rfl
      · cases hcode
        exact absurd hx (not_runs_half hsize)
      · have hlen := congrArg List.length hcode
        have hpos := List.length_pos_iff.mpr hy
        simp only [List.cons_append, List.length_cons, List.length_append, List.length_nil] at hlen
        omega

theorem IsBranch.ne_nil {code : List (BitVec 16)} {cond : BitVec 4} {off : Word}
    (h : IsBranch code cond off) : code ≠ [] := by
  rintro rfl
  cases h

theorem Runs.branch_unique_of_append {block x br : List (BitVec 16)} {t' : Core}
    {cond cond' : BitVec 4} {off off' : Word} (h : Runs block s t)
    (hbr : IsBranch (x ++ br) cond off) (h' : Runs (block ++ x) s t')
    (hbr' : IsBranch br cond' off') : t = t' ∧ cond = cond' := by
  obtain rfl : x = [] := hbr.eq_nil_of_append hbr'.ne_nil (h.of_append h')
  rw [List.append_nil] at h'
  exact ⟨h.unique h', (hbr.unique hbr').1⟩

/-- Code is a block and a branch behind it in one way only. -/
theorem Runs.branch_unique {block block' br br' : List (BitVec 16)} {t' : Core}
    {cond cond' : BitVec 4} {off off' : Word} (h : Runs block s t) (hbr : IsBranch br cond off)
    (h' : Runs block' s t') (hbr' : IsBranch br' cond' off') (heq : block ++ br = block' ++ br') :
    t = t' ∧ cond = cond' := by
  rcases List.append_eq_append_iff.mp heq with ⟨x, rfl, rfl⟩ | ⟨x, rfl, rfl⟩
  · exact h.branch_unique_of_append hbr h' hbr'
  · obtain ⟨ht, hc⟩ := h'.branch_unique_of_append hbr' h hbr
    exact ⟨ht.symm, hc.symm⟩

/-- A branch goes to its target when its condition holds, and behind itself
when it does not. -/
theorem reaches_branch {code : List (BitVec 16)} {cond : BitVec 4} {offset : Word}
    (h : IsBranch code cond offset) (hcode : CodeAt mem a code) :
    Reaches (step mem) ⟨a, s⟩
      ⟨if condHolds s cond then a + 4 + offset else after a code.length, s⟩ := by
  cases h with
  | @narrow hw _ _ hsize hd =>
      obtain ⟨hm, _⟩ := hcode
      apply Reaches.single
      simp [step, fetch, hm, isIt_of_decode16 hd, hsize, hd, after]
  | @wide hw hw' _ _ hsize hd =>
      obtain ⟨hm, hm', _⟩ := hcode
      have hm'' : mem (a + 2#32) = hw' := hm'
      apply Reaches.single
      simp [step, fetch, hm, hm'', isIt_of_isWide hsize, hsize, hd, after]

end RapidPatch.Thumb

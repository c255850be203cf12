import RapidPatch.Jit.Frame
import RapidPatch.Jit.Rightness
import RapidPatch.Vm.Checker

/-!
What a compiled function does.

A program whose branches land, that ends with `EXIT` and jumps to
instructions only, is followed instruction by instruction: the processor
stands where the interpreter is, its frame holds the registers, and outside
the frame the two have the same memory (`Follows`). One iteration of the
interpreter that fetches the instruction that was compiled, finds it right and
accesses nothing in the frame is matched by the code of that instruction
(`follows_step`). With the prologue before and the epilogue behind, a call of
the compiled function returns what the interpreter returns
(`jitCompile_preserves`). A program that reads no register it has not written
returns the same although the two start with different contents in the
registers (`jitCompile_interprets`).
-/

namespace RapidPatch.Jit

open RapidPatch.Vm RapidPatch.Thumb RapidPatch.Support

variable {p : Input} {offsets : ℤ → BitVec 32} {code : Word → BitVec 16} {base fp : Word}
  {c : Call} {saved m : Mem} {s s' : State} {t u : Core} {l r : List ℕ} {pc : ℕ}

/-! ### The frame -/

/-- What a call of a compiled function writes below its caller's stack pointer:
the cells and the saved registers. -/
def InActivation (fp a : Word) : Prop :=
  InSpan (fp - offWord scratchSize) (scratchSize.toNat + savedSize) a

theorem inActivation_of_inFrame {a : Word} (h : InFrame fp a) : InActivation fp a := by
  have hoff : offWord scratchSize = 80#32 := rfl
  have hsize : scratchSize.toNat + savedSize = 112 := rfl
  unfold InFrame at h
  unfold InActivation InSpan
  rw [hoff, hsize]
  bv_omega

theorem inActivation_of_saved {a : Word} (h : InSpan fp savedSize a) :
    InActivation fp a ∧ ¬InFrame fp a := by
  have hoff : offWord scratchSize = 80#32 := rfl
  have hsize : scratchSize.toNat + savedSize = 112 := rfl
  unfold InSpan savedSize at h
  unfold InActivation InSpan InFrame
  rw [hoff, hsize]
  constructor
  · bv_omega
  · bv_omega

/-- The core holds the registers and, outside the frame, the memory of a state;
the saved registers are still in the frame. -/
structure Carries (fp : Word) (saved : Mem) (s : State) (t : Core) : Prop where
  pointer : t.r 11 = fp
  holds : HoldsRegs s.reg t
  mem : ∀ a, ¬InActivation fp a → t.mem a = s.mem a
  saved : ∀ a, InSpan fp savedSize a → t.mem a = saved a

theorem Carries.arrives (h : Carries fp saved s t) (harr : Arrives s'.reg m t u)
    (hout : ∀ a, ¬InActivation fp a → m a = s'.mem a)
    (hin : ∀ a, InActivation fp a → m a = t.mem a) : Carries fp saved s' u := by
  have harrived : ∀ a, ¬InFrame fp a → u.mem a = m a := by
    intro a ha
    exact harr.mem a (by rwa [h.pointer])
  refine ⟨harr.fp.trans h.pointer, ⟨?_, harr.regs⟩, ?_, ?_⟩
  · rw [harr.fp]
    exact h.holds.aligned
  · intro a ha
    rw [harrived a fun hframe => ha (inActivation_of_inFrame hframe), hout a ha]
  · intro a ha
    obtain ⟨hact, hframe⟩ := inActivation_of_saved ha
    rw [harrived a hframe, hin a hact, h.saved a ha]

/-! ### One instruction -/

/-- The program ends with `EXIT` and jumps to instructions only. -/
structure Closed (p : Input) : Prop where
  last : p.instNum - 1 ∈ visited p ∧ (p.insts (p.instNum - 1)).op = .exit
  targets : ∀ pc ∈ visited p, IsJump p pc →
    ∃ t : ℕ, (t : ℤ) = pc + 1 + (p.insts pc).offset.toInt ∧ t < p.instNum ∧ ¬IsSecondSlot p t

theorem Closed.next (h : Closed p) (hsplit : visited p = l ++ pc :: r) :
    (r = [] ∧ pc = p.instNum - 1) ∨ ∃ r', r = (slotOf p pc + 1) :: r' := by
  rcases r with _ | ⟨q, r'⟩
  · have hmem := h.last.1
    rw [hsplit, List.mem_append, List.mem_singleton] at hmem
    refine Or.inl ⟨rfl, (hmem.resolve_left fun hl => ?_).symm⟩
    -- an instruction in front of `pc` lies below it
    obtain ⟨l₁, l₂, rfl⟩ := List.append_of_mem hl
    have hfirst : visited p = l₁ ++ (p.instNum - 1) :: (l₂ ++ [pc]) := by rw [hsplit]; simp
    have hslot := slot_lt_of_split hfirst (q := pc) (by simp)
    have hle := le_slotOf p (p.instNum - 1)
    have hlt : pc < p.instNum := visited_lt (by rw [hsplit]; simp)
    omega
  · exact Or.inr ⟨r', by rw [(next_of_split hsplit).1]⟩

/-- The processor is about to execute what the interpreter is about to fetch, on
the same registers and memory. -/
structure Follows (p : Input) (base fp : Word) (saved : Mem) (s : State) (t : Cpu) : Prop where
  place : ∃ l r, visited p = l ++ s.pc.toNat :: r ∧
    t.pc = base + BitVec.ofNat 32 (nominalIdx p l)
  carries : Carries fp saved s t.core

theorem nominalIdx_next (hagree : LayoutAgrees p offsets) (hsplit : visited p = l ++ pc :: r) :
    nominalIdx p (l ++ [pc]) = nominalIdx p l + 2 * (secondCode p offsets l pc).length := by
  rw [← hagree.idx_eq l (pc :: r) hsplit, ← hagree.idx_eq (l ++ [pc]) r (by rw [hsplit]; simp),
    secondState_concat_idx]

/-- A jump goes on where it lands if it is taken, and else behind its code. -/
theorem reaches_lands (hagree : LayoutAgrees p offsets)
    (hcode : CodeAt code base (jitCompile p offsets).code) (hsplit : visited p = l ++ pc :: r)
    (hrun : Runs (fixedCode p pc) t u) {taken : Bool}
    (hcond : ∀ cond off, IsBranch (branchAt p offsets l pc) cond off → condHolds u cond = taken)
    {target : Word} (hland : Lands p offsets l pc target) :
    Reaches (Thumb.step code) ⟨base + BitVec.ofNat 32 (nominalIdx p l), t⟩
      ⟨base + if taken then target else BitVec.ofNat 32 (nominalIdx p (l ++ [pc])), u⟩ := by
  rcases id hland with ⟨hnil, htarget⟩ | ⟨cond, off, hbr, -⟩
  · -- without a branch both are the end of the code
    have hsecond : secondCode p offsets l pc = fixedCode p pc := by
      rw [secondCode, buildInst_code]
      exact (congrArg _ hnil).trans (List.append_nil _)
    have hend : target = BitVec.ofNat 32 (nominalIdx p (l ++ [pc])) := by
      rw [htarget, branchStart_eq hagree hsplit, nominalIdx_next hagree hsplit, hsecond]
    rw [hend, ite_self]
    exact reaches_block hagree hcode hsplit (hsecond ▸ hrun)
  · have hreach := reaches_jump hagree hcode hsplit hrun hbr fun x hx => hx.unique hland
    rwa [hcond cond off hbr] at hreach

/-- `JA` and `EXIT` branch without a condition. -/
theorem condHolds_of_emitB {d off : Word} {cond : BitVec 4}
    (hfit : -2048 < d.toInt ∧ d.toInt < 2046) (h : IsBranch (emitB d) cond off) (t : Core) :
    condHolds t cond = true := by
  rw [(h.unique (isBranch_emitB hfit.1 hfit.2)).1]
  rfl

/-- Behind an instruction that is not `EXIT` stands another one. -/
theorem Closed.follows_next (hclosed : Closed p) (hsplit : visited p = l ++ pc :: r)
    (hexit : (p.insts pc).op ≠ .exit) (hpc : s'.pc.toNat = slotOf p pc + 1)
    (hcarries : Carries fp saved s' u) :
    Follows p base fp saved s' ⟨base + BitVec.ofNat 32 (nominalIdx p (l ++ [pc])), u⟩ := by
  rcases hclosed.next hsplit with ⟨-, hlast⟩ | ⟨r', rfl⟩
  · exact absurd (hlast ▸ hclosed.last.2) hexit
  · exact ⟨⟨l ++ [pc], r', by rw [hpc, hsplit]; simp, rfl⟩, hcarries⟩

/-- All registers, those included that the machine does not have. -/
def everyReg : List (BitVec 4) := (List.range 16).map (BitVec.ofNat 4)

theorem mem_everyReg (r : BitVec 4) : r ∈ everyReg := by
  revert r
  decide

/-- The state of the interpreter with the memory of the core, in the frame as
well. -/
theorem Carries.sameOn (h : Carries fp saved s t) :
    SameOn everyReg (fun a => ¬InActivation fp a) t.mem { s with pc := s.pc + 1 }
      { s with
        pc := s.pc + 1
        mem := t.mem } :=
  ⟨rfl, rfl, fun _ _ => rfl, h.mem, fun _ _ => rfl⟩

theorem misses_of_outside {a : Word} {n : ℕ}
    (h : ∀ j < n, ¬InActivation fp (a + BitVec.ofNat 32 j)) : Misses fp a n :=
  fun k hk hframe => h k hk (inActivation_of_inFrame hframe)

section Step

variable (hagree : LayoutAgrees p offsets) (hclosed : Closed p) (hc : ∀ m, c.vm.insts m = p.insts)
  (hcode : CodeAt code base (jitCompile p offsets).code)
  (hsplit : visited p = l ++ s.pc.toNat :: r) (hcarries : Carries fp saved s t)
  (hright : InstRight c (p.insts s.pc.toNat) s.reg) (hstep : Vm.step c s = .cont s')

include hagree hsplit

theorem slot_lt_slots : slotOf p s.pc.toNat < 256 :=
  hagree.inMemory.slots _ (by rw [hsplit]; simp)

theorem toNat_pc_succ : (s.pc + 1).toNat = s.pc.toNat + 1 := by
  have hslot := slot_lt_slots hagree hsplit
  have hle := le_slotOf p s.pc.toNat
  exact toNat_pc_add (k := 1) (by omega)

theorem toNat_nextIndex_block (hblock : isBlock (p.insts s.pc.toNat).op = true) :
    (nextIndex (p.insts s.pc.toNat) s).toNat = slotOf p s.pc.toNat + 1 := by
  have hslot := slot_lt_slots hagree hsplit
  have hsucc := toNat_pc_succ hagree hsplit
  unfold nextIndex
  cases hop : (p.insts s.pc.toNat).op with
  | lddw =>
      have hwide : slotOf p s.pc.toNat = s.pc.toNat + 1 := by simp [slotOf, instRet, hop]
      rw [hwide] at hslot ⊢
      show (s.pc + 1 + 1).toNat = _
      rw [BitVec.add_assoc]
      exact toNat_pc_add (k := 2) (by omega)
  | alu op source =>
      have hnarrow : slotOf p s.pc.toNat = s.pc.toNat := by
        unfold slotOf instRet
        rw [hop, if_neg]
        cases op <;> cases source <;> simp only <;> omega
      rw [hnarrow]
      exact hsucc
  | jmp | ja =>
      rw [hop] at hblock
      cases hblock
  | _ =>
      have hnarrow : slotOf p s.pc.toNat = s.pc.toNat := by simp [slotOf, instRet, hop]
      rw [hnarrow]
      exact hsucc

include hc hcarries hright hstep in
theorem runs_jump (hjump : IsJump p s.pc.toNat) :
    ∃ taken : Bool, s'.reg = s.reg ∧ s'.mem = s.mem ∧
      s'.pc = (if taken then s.pc + 1 + (p.insts s.pc.toNat).offset else s.pc + 1) ∧
      ∃ u, Runs (fixedCode p s.pc.toNat) t u ∧ Arrives s.reg t.mem t u ∧
        ∀ cond off, IsBranch (branchAt p offsets l s.pc.toNat) cond off →
          condHolds u cond = taken := by
  have hfetch : fetch c s = p.insts s.pc.toNat := congrFun (hc _) _
  have hfile := hright.file
  obtain ⟨u, hexec, -, rfl⟩ := step_cont hstep
  rw [hfetch] at hexec
  rw [branchAt_eq hagree hsplit]
  cases hop : (p.insts s.pc.toNat).op with
  | ja =>
      simp only [execInst, hfile, hop, Bool.not_true, Bool.false_eq_true, if_false,
        Next.cont.injEq] at hexec
      subst hexec
      refine ⟨true, rfl, rfl, rfl, t, ?_, ⟨rfl, hcarries.holds.regs, fun _ _ => rfl⟩, ?_⟩
      · simp only [fixedCode, hop]
        exact .nil t
      · intro cond off hbr
        have hfit := hagree.fit.branches l s.pc.toNat r hsplit
        simp only [branchCode, BranchFits, hop] at hbr hfit
        split at hbr
        · cases hbr
        · rename_i hoff
          exact condHolds_of_emitB (hfit.resolve_left hoff) hbr t
  | jmp op source =>
      rw [execInst_jmp hop hfile, Next.cont.injEq] at hexec
      subst hexec
      obtain ⟨u, hrun, harr, hcond⟩ := runs_comparison hop hright hcarries.holds
      refine ⟨takesJump (p.insts s.pc.toNat) s, rfl, rfl, rfl, u, hrun, harr, ?_⟩
      intro cond off hbr
      rw [hcond _ cond off hbr, takesJump, hop]
  | _ => simp [IsJump, hop] at hjump

include hclosed hc hcode hcarries hright hstep

theorem follows_block (hblock : isBlock (p.insts s.pc.toNat).op = true)
    (haccess : AccessesWithin (fun a => ¬InActivation fp a) c s) :
    ∃ t', Reaches (Thumb.step code) ⟨base + BitVec.ofNat 32 (nominalIdx p l), t⟩ t' ∧
      Follows p base fp saved s' t' := by
  have hfetch : fetch c s = p.insts s.pc.toNat := congrFun (hc _) _
  have hpc := step_pc hstep
  obtain ⟨u, hexec, -, rfl⟩ := step_cont hstep
  rw [hfetch] at hexec hpc
  simp only [AccessesWithin, hfetch] at haccess
  have hmiss : ∀ a size, memAccess (p.insts s.pc.toNat)
      { s with
        pc := s.pc + 1
        mem := t.mem } = some (a, size) → Misses (t.r 11) a size.bytes := by
    intro a size hsize
    rw [hcarries.pointer]
    exact misses_of_outside (haccess a size hsize)
  obtain ⟨v', hv', w, hrun, harr⟩ := runs_right (v := { s with
      pc := s.pc + 1
      mem := t.mem }) hc hblock hright
    (toNat_pc_succ hagree hsplit) hcarries.holds rfl hmiss (secondPass p offsets)
    (secondState p offsets l).idx
  -- the interpreter on the memory of the core does the same
  have halike := execInst_alike (c := c) hcarries.sameOn (fun r _ => mem_everyReg r) haccess
    (fun hcall => by
      rw [hcall] at hblock
      cases hblock)
    fun _ => by rw [hc, hc]
  rw [hexec, hv'] at halike
  cases halike with
  | cont hsame =>
      have hreg : v'.reg = u.reg := by
        ext1 r
        exact hsame.regs r (List.mem_append_right _ (mem_everyReg r))
      rw [hreg] at harr
      refine ⟨_, reaches_block hagree hcode hsplit hrun,
        hclosed.follows_next hsplit ?_ ?_ (hcarries.arrives harr hsame.mem ?_)⟩
      · intro hexit
        rw [hexit] at hblock
        cases hblock
      · exact (congrArg BitVec.toNat hpc).trans (toNat_nextIndex_block hagree hsplit hblock)
      · intro a ha
        exact hsame.rest a (not_not.mpr ha)

theorem follows_jump (hland : BranchesLand p offsets) (hjump : IsJump p s.pc.toNat) :
    ∃ t', Reaches (Thumb.step code) ⟨base + BitVec.ofNat 32 (nominalIdx p l), t⟩ t' ∧
      Follows p base fp saved s' t' := by
  obtain ⟨taken, hreg, hmem, hpc, u, hrun, harr, hcond⟩ :=
    runs_jump hagree hc hsplit hcarries hright hstep hjump
  obtain ⟨k, hk, hlt, hslot⟩ := hclosed.targets s.pc.toNat (by rw [hsplit]; simp) hjump
  obtain ⟨lt, rt, htarget, hlands⟩ := hland.jumps l s.pc.toNat r k hsplit hjump hk hlt hslot
  have hcarries' : Carries fp saved s' u := by
    rw [← hreg] at harr
    refine hcarries.arrives harr ?_ fun a _ => rfl
    intro a ha
    rw [hmem, hcarries.mem a ha]
  have hreach := reaches_lands hagree hcode hsplit hrun hcond hlands
  rw [hagree.idx_eq lt (k :: rt) htarget] at hreach
  refine ⟨_, hreach, ?_⟩
  cases taken with
  | true =>
      have hk256 : k < 256 :=
        (le_slotOf p k).trans_lt (hagree.inMemory.slots k (by rw [htarget]; simp))
      refine ⟨⟨lt, rt, ?_, rfl⟩, hcarries'⟩
      rw [hpc, if_pos rfl, toNat_pc_target hk hk256]
      exact htarget
  | false =>
      refine hclosed.follows_next hsplit (op_ne_exit_of_isJump hjump) ?_ hcarries'
      rw [hpc, if_neg Bool.false_ne_true, toNat_pc_succ hagree hsplit, slotOf_jump hjump]

end Step

/-- The interpreter is about to fetch what was compiled, the code of it is right,
and what it accesses is outside the frame. -/
structure Followed (p : Input) (fp : Word) (c : Call) (s : State) : Prop where
  fetches : Fetches p.insts c s
  right : InstRight c (fetch c s) s.reg
  access : AccessesWithin (fun a => ¬InActivation fp a) c s

section Runs

variable (hagree : LayoutAgrees p offsets) (hland : BranchesLand p offsets) (hclosed : Closed p)
  (hcode : CodeAt code base (jitCompile p offsets).code)

include hagree hclosed

include hland hcode in
/-- One iteration of the interpreter is matched by the code of one
instruction. -/
theorem follows_step {t : Cpu} (h : Follows p base fp saved s t) (hf : Followed p fp c s)
    (hstep : Vm.step c s = .cont s') :
    ∃ t', Reaches (Thumb.step code) t t' ∧ Follows p base fp saved s' t' := by
  obtain ⟨⟨l, r, hsplit, hpc⟩, hcarries⟩ := h
  obtain ⟨pc, core⟩ := t
  simp only at hpc hcarries
  subst hpc
  -- the iteration is the one on the instructions that were compiled
  have hright : InstRight (c.withInsts p.insts) (p.insts s.pc.toNat) s.reg :=
    hf.fetches.first ▸ hf.right
  have haccess : AccessesWithin (fun a => ¬InActivation fp a) (c.withInsts p.insts) s := by
    intro a size hsize
    exact hf.access a size (hf.fetches.first ▸ hsize)
  rw [← hf.fetches.step_eq] at hstep
  have hblock := follows_block hagree hclosed (fun _ => rfl) hcode hsplit hcarries hright hstep
  have hjump := follows_jump hagree hclosed (fun _ => rfl) hcode hsplit hcarries hright hstep hland
  cases hop : (p.insts s.pc.toNat).op with
  | jmp | ja => exact hjump (by simp only [IsJump, hop])
  | exit =>
      obtain ⟨u, hexec, -⟩ := step_cont hstep
      have hfetch : fetch (c.withInsts p.insts) s = p.insts s.pc.toNat := rfl
      rw [hfetch] at hexec
      simp only [execInst, hright.file, hop] at hexec
      cases hexec
  | le | be | call =>
      obtain ⟨-, -, hnone⟩ := hright
      simp only [hop] at hnone
  | _ => exact hblock (by rw [hop]; rfl) haccess

/-- Every `EXIT` lands at the epilogue, the last one without a branch. -/
theorem lands_exit (hsplit : visited p = l ++ pc :: r) (hexit : (p.insts pc).op = .exit) :
    Lands p offsets l pc (BitVec.ofNat 32 (jitCompile p offsets).second.idx) := by
  by_cases hlast : (pc : ℤ) = p.instNum - 1
  · have hr : r = [] := by
      rcases hclosed.next hsplit with ⟨hr, -⟩ | ⟨r', rfl⟩
      · exact hr
      · have hlt : slotOf p pc + 1 < p.instNum := visited_lt (by rw [hsplit]; simp)
        have hle := le_slotOf p pc
        omega
    have hnil : branchCode p pc 0 = [] := by simp only [branchCode, hexit, if_pos hlast]
    rw [lands_through hagree hsplit hnil, jitCompile_second,
      hagree.idx_eq (visited p) [] (by simp), hsplit, hr]
  · exact lands_epilogue hagree hsplit hexit hlast

include hcode in
/-- `EXIT` leads to the epilogue, with r0 in R1:R0. -/
theorem follows_exit {t : Cpu} (h : Follows p base fp saved s t) (hf : Fetches p.insts c s)
    {v : BitVec 64}
    (hstep : Vm.step c s = .stop (.returned .exit v)) :
    ∃ u : Core, Reaches (Thumb.step code) t
        ⟨base + BitVec.ofNat 32 (jitCompile p offsets).second.idx, u⟩ ∧
      u.r 1 ++ u.r 0 = v ∧ Carries fp saved s u := by
  obtain ⟨⟨l, r, hsplit, hpc⟩, hcarries⟩ := h
  obtain ⟨pc, core⟩ := t
  simp only at hpc hcarries
  subst hpc
  have hfetch := hf.first
  obtain ⟨hop, rfl⟩ : (p.insts s.pc.toNat).op = .exit ∧ v = s.reg 0 := by
    rcases step_stop hstep with hexec | ⟨-, hbudget⟩
    · rw [hfetch] at hexec
      rcases execInst_returned hexec with ⟨-, hop, hv⟩ | ⟨hsite, -⟩
      · exact ⟨hop, hv⟩
      · cases hsite
    · cases hbudget
  refine ⟨core, ?_, hcarries.holds.regs 0 (by decide), hcarries⟩
  have hfixed : Runs (fixedCode p s.pc.toNat) core core := by
    simpa only [fixedCode, hop] using Runs.nil core
  have htaken : ∀ cond off, IsBranch (branchAt p offsets l s.pc.toNat) cond off →
      condHolds core cond = true := by
    intro cond off hbr
    have hfit := hagree.fit.branches l s.pc.toNat r hsplit
    rw [branchAt_eq hagree hsplit] at hbr
    simp only [branchCode, BranchFits, hop] at hbr hfit
    split at hbr
    · cases hbr
    · rename_i hlast
      exact condHolds_of_emitB (hfit.resolve_left hlast) hbr core
  exact reaches_lands hagree hcode hsplit hfixed htaken (lands_exit hagree hclosed hsplit hop)

include hland hcode in
/-- From the end of the prologue the code follows a whole run to the epilogue. -/
theorem follows_run {s₀ : State} {t : Cpu} (hreach : Reaches (Vm.step c) s₀ s)
    (hf : ∀ w, Reaches (Vm.step c) s₀ w → Followed p fp c w) (h : Follows p base fp saved s₀ t)
    {v : BitVec 64} (hstop : Vm.step c s = .stop (.returned .exit v)) :
    ∃ u : Core, Reaches (Thumb.step code) t
        ⟨base + BitVec.ofNat 32 (jitCompile p offsets).second.idx, u⟩ ∧
      u.r 1 ++ u.r 0 = v ∧ Carries fp saved s u := by
  have hsim : ∀ s s' t, (Reaches (Vm.step c) s₀ s ∧ Follows p base fp saved s t) →
      Vm.step c s = .cont s' → ∃ t', Reaches (Thumb.step code) t t' ∧
        Reaches (Vm.step c) s₀ s' ∧ Follows p base fp saved s' t' := by
    rintro s s' t ⟨hs, hfol⟩ hstep
    obtain ⟨t', ht', hfol'⟩ := follows_step hagree hland hclosed hcode hfol (hf s hs) hstep
    exact ⟨t', ht', hs.trans (.single hstep), hfol'⟩
  obtain ⟨t', ht', -, hfol⟩ := Reaches.simulate hsim hreach ⟨.refl s₀, h⟩
  obtain ⟨u, hu, hval, hcarries⟩ :=
    follows_exit hagree hclosed hcode hfol (hf s hreach).fetches hstop
  exact ⟨u, ht'.trans hu, hval, hcarries⟩

end Runs

/-! ### Calls of the compiled function -/

/-- The core behind the prologue carries the state the interpreter starts in. -/
theorem Enters.carries {s t : Core} (h : Enters p s t) (hsp : (s.r 13).toNat % 8 = 0)
    (hmem : c.mem = s.r 0) {reg : Regs} (hreg : ∀ r < 10, r ≠ 1 → reg r = val t (locOf r)) :
    Carries (t.r 11) t.mem (initState c reg s.mem) t := by
  refine ⟨rfl, ⟨?_, ?_⟩, h.mem, fun _ _ => rfl⟩
  · rw [h.fp, aligned_iff]
    unfold savedSize
    bv_omega
  · intro r hr
    have h10 : r ≠ 10 := by
      rintro rfl
      exact absurd hr (by decide)
    simp only [initState, setReg_reg, if_neg h10]
    split
    · rename_i h1
      rw [h1, h.r1, hmem]
    · rename_i h1
      exact (hreg r hr h1).symm

/-- Behind the epilogue the caller has its registers back. -/
theorem Enters.returns {s t u : Core} (h : Enters p s t) {s' : State}
    (hcarries : Carries (t.r 11) t.mem s' u) {b : Word}
    (hcode : CodeAt code b buildEpilogue) :
    ∃ w, ReturnsTo code b u (s.r 14) w ∧ Restores s u w := by
  have hlen : 4 * (savedRegs.map s.r).length ≤ 2 ^ 32 := (by decide : 32 ≤ 2 ^ 32)
  have hback : u.r 11 + BitVec.ofNat 32 savedSize = s.r 13 := by
    rw [hcarries.pointer, h.fp, BitVec.sub_add_cancel]
  have hsaved : WordsAt u.mem (u.r 11) (savedRegs.map s.r) := by
    rw [hcarries.pointer]
    exact h.saved.congr hlen hcarries.saved
  exact returns_epilogue hcode hcarries.holds.aligned hback hsaved

/-- The code of a compiled function: the prologue first and the epilogue last. -/
theorem codeAt_frame (hcode : CodeAt code base (jitCompile p offsets).code) :
    CodeAt code base (buildPrologue p) ∧
      CodeAt code (base + BitVec.ofNat 32 (jitCompile p offsets).second.idx) buildEpilogue := by
  obtain ⟨hsecond, hepilogue⟩ := codeAt_append.mp hcode
  obtain ⟨rest, hrest⟩ := secondState_code_append (p := p) offsets [] (visited p)
  refine ⟨?_, hepilogue⟩
  rw [jitCompile_second] at hsecond
  rw [List.nil_append] at hrest
  rw [hrest] at hsecond
  exact (codeAt_append.mp hsecond).1

/-- From the entry to the return: the prologue, the body that follows the
interpreter, and the epilogue. -/
theorem function_preserves (hagree : LayoutAgrees p offsets) (hland : BranchesLand p offsets)
    (hclosed : Closed p) (hcode : CodeAt code base (jitCompile p offsets).code) {s : Core}
    (hsp : (s.r 13).toNat % 8 = 0) (hmem : c.mem = s.r 0) :
    ∃ t, Reaches (stackStep code) ⟨base, s⟩ ⟨after base (buildPrologue p).length, t⟩ ∧
      Enters p s t ∧ ∀ reg : Regs, (∀ r < 10, r ≠ 1 → reg r = val t (locOf r)) →
        ∀ u v, Reaches (Vm.step c) (initState c reg s.mem) u →
          Vm.step c u = .stop (.returned .exit v) →
          (∀ w, Reaches (Vm.step c) (initState c reg s.mem) w → Followed p (t.r 11) c w) →
          ∃ w, ReturnsTo code base s (s.r 14) w ∧ w.r 1 ++ w.r 0 = v ∧
            (∀ i ∈ keptRegs, w.r i = s.r i) ∧
            ∀ a, ¬InActivation (t.r 11) a → w.mem a = u.mem a := by
  obtain ⟨hprologue, hepilogue⟩ := codeAt_frame hcode
  obtain ⟨t, hrun, ht⟩ := runs_prologue p hsp
  have hentry := hrun.reaches hprologue
  refine ⟨t, hentry, ht, ?_⟩
  intro reg hreg u v hreach hstop hf
  have hstart : Follows p base (t.r 11) t.mem (initState c reg s.mem)
      ⟨base + BitVec.ofNat 32 (nominalIdx p []), t⟩ := by
    obtain ⟨q, r, hsplit⟩ := List.exists_cons_of_ne_nil (List.ne_nil_of_mem hclosed.last.1)
    refine ⟨⟨[], r, ?_, rfl⟩, ht.carries hsp hmem hreg⟩
    rw [hsplit, visited_head hsplit]
    rfl
  obtain ⟨x, hx, hval, hcarries⟩ :=
    follows_run hagree hland hclosed hcode hreach hf hstart hstop
  obtain ⟨w, ⟨pc, y, hy, hreturn⟩, hrestores⟩ := ht.returns hcarries hepilogue
  have hkept : (1 : Reg) ∉ keptRegs ∧ (0 : Reg) ∉ keptRegs := by decide
  refine ⟨w, ⟨pc, y, (hentry.trans (reaches_stackStep hx)).trans hy, hreturn⟩, ?_,
    hrestores.kept, ?_⟩
  · rw [hrestores.other 1 hkept.1, hrestores.other 0 hkept.2, hval]
  · intro a ha
    rw [hrestores.mem, hcarries.mem a ha]

/-! ### A program that loads and jumps -/

/-- `ldxdw r0, [r1]`, `jsgt r0, 41, +1`, `mov r0, 0` and `exit`. -/
def loadAbove : List (BitVec 8) :=
  [0x79, 0x10, 0, 0, 0, 0, 0, 0, 0x65, 0x00, 1, 0, 41, 0, 0, 0,
   0xb7, 0x00, 0, 0, 0, 0, 0, 0, 0x95, 0, 0, 0, 0, 0, 0, 0]

def loadAboveListing : List Inst :=
  [load .dw 0 1 0, branchImm .jsgt 0 41 1, aluImm .mov 0 0, exitInst]

theorem loadAbove_lists : Lists loadAbove loadAboveListing := ⟨by decide, rfl⟩

theorem loadAbove_checked : checked loadAboveListing = true := by decide

def loadAboveInput : Input where
  insts := codeInst loadAbove
  instNum := 4
  callBase := fun _ => 0
  behind := (0, 0)

/-- A caller that hands over the address 0, where a 42 is. -/
def callerOfLoad : Core :=
  { caller with
    r := fun i => if i = 0 then 0 else caller.r i
    mem := memcpy (fun a => if a = 0 then 42 else 0) codeBase loadAbove }

theorem loadAbove_visited : visited loadAboveInput = [0, 1, 2, 3] := by decide

theorem loadAbove_cases {l r : List ℕ} {pc : ℕ} (h : visited loadAboveInput = l ++ pc :: r) :
    (l = [] ∧ pc = 0) ∨ (l = [0] ∧ pc = 1) ∨ (l = [0, 1] ∧ pc = 2) ∨ (l = [0, 1, 2] ∧ pc = 3) := by
  rw [loadAbove_visited] at h
  rcases l with _ | ⟨a, _ | ⟨b, _ | ⟨c, _ | ⟨d, l⟩⟩⟩⟩ <;> simp at h ⊢ <;> omega

theorem loadAbove_agrees : LayoutAgrees loadAboveInput fun _ => 0 := by
  refine .of_fit ⟨by decide, by decide, ?_⟩
  intro l pc r hsplit
  rcases loadAbove_cases hsplit with ⟨rfl, rfl⟩ | ⟨rfl, rfl⟩ | ⟨rfl, rfl⟩ | ⟨rfl, rfl⟩
  · trivial
  · exact .inr (by decide)
  · trivial
  · exact .inl (by decide)

theorem loadAbove_closed : Closed loadAboveInput where
  last := by
    rw [loadAbove_visited]
    exact ⟨by decide, rfl⟩
  targets pc hpc hjump := by
    obtain ⟨l, r, hsplit⟩ := List.append_of_mem hpc
    rcases loadAbove_cases hsplit with ⟨rfl, rfl⟩ | ⟨rfl, rfl⟩ | ⟨rfl, rfl⟩ | ⟨rfl, rfl⟩
    case inr.inl =>
      refine ⟨3, by decide, by decide, ?_⟩
      rintro ⟨q, hq, hop, hthree⟩
      obtain rfl : q = 2 := by omega
      cases hop
    all_goals exact hjump.elim

theorem loadAbove_lands : BranchesLand loadAboveInput fun _ => 0 := by
  refine (branchesLand_iff _ _ loadAbove_agrees).mpr ?_
  intro l pc r t hsplit hjump ht _ _
  rcases loadAbove_cases hsplit with ⟨rfl, rfl⟩ | ⟨rfl, rfl⟩ | ⟨rfl, rfl⟩ | ⟨rfl, rfl⟩
  case inr.inl =>
    have hoff : (loadAboveInput.insts 1).offset.toInt = 1 := by decide
    obtain rfl : t = 3 := by omega
    refine ⟨[0, 1, 2], [], loadAbove_visited, .inr (.inl ⟨?_, .inl (by decide)⟩)⟩
    show jumpCond .jsgt ≠ none
    decide
  all_goals exact hjump.elim

theorem loadAbove_right : ∀ pc < 4, alwaysRight (codeInst loadAbove pc) = true := by decide

abbrev loadAboveState (reg : Regs) : State :=
  initState (callOf loadAbove) reg callerOfLoad.mem

def afterLoad (reg : Regs) : State :=
  { (loadAboveState reg).setReg 0 42 with
    pc := 1
    tick := 1 }

def afterJump (reg : Regs) : State :=
  { afterLoad reg with
    pc := 3
    tick := 2 }

theorem fetch_loadAbove {s : State} (hmem : s.mem = callerOfLoad.mem) {n : ℕ}
    (hpc : s.pc.toNat = n) {i : Inst} (hi : loadAboveListing[n]? = some i) :
    Vm.fetch (callOf loadAbove) s = i := by
  obtain ⟨hn, rfl⟩ := List.getElem?_eq_some_iff.mp hi
  subst hpc
  have hstands : Stands loadAbove (callOf loadAbove).vm s.mem :=
    hmem ▸ (callOf_loaded loadAbove _).stands
  rw [hstands.fetch hn, loadAbove_lists.codeInst hn]

theorem fetch_load (reg : Regs) :
    Vm.fetch (callOf loadAbove) (loadAboveState reg) = load .dw 0 1 0 :=
  fetch_loadAbove rfl rfl rfl

theorem fetch_jump (reg : Regs) :
    Vm.fetch (callOf loadAbove) (afterLoad reg) = branchImm .jsgt 0 41 1 :=
  fetch_loadAbove rfl rfl rfl

theorem fetch_exit (reg : Regs) : Vm.fetch (callOf loadAbove) (afterJump reg) = exitInst :=
  fetch_loadAbove rfl rfl rfl

theorem step_load (reg : Regs) :
    Vm.step (callOf loadAbove) (loadAboveState reg) = .cont (afterLoad reg) := by
  have haddr : address ((loadAboveState reg).reg 1) (load .dw 0 1 0) = 0 := rfl
  have hval : BitVec.ofNat 64 (loadLE callerOfLoad.mem 0 8) = 42 := by decide +kernel
  have hexec : execInst (callOf loadAbove) (load .dw 0 1 0) { loadAboveState reg with pc := 1 } =
      .cont { (loadAboveState reg).setReg 0 (BitVec.ofNat 64 (loadLE callerOfLoad.mem
        (address ((loadAboveState reg).reg 1) (load .dw 0 1 0)) 8)) with pc := 1 } := by
    have hregs : (load .dw 0 1 0).regsInFile = true := rfl
    rw [execInst, hregs]
    simp only [load, asm_op]
    rfl
  rw [haddr, hval] at hexec
  have hpc : (loadAboveState reg).pc + 1 = 1 := rfl
  rw [Vm.step, fetch_load, hpc, hexec]
  rfl

theorem step_jump (reg : Regs) :
    Vm.step (callOf loadAbove) (afterLoad reg) = .cont (afterJump reg) := by
  have hturn := turn_jmp (fetch_jump reg) (asm_regsInFile rfl) (asm_op (.jmp .jsgt .imm) 0 0 1 41)
  have htaken : jmpTaken .jsgt .imm ((afterLoad reg).reg (branchImm .jsgt 0 41 1).dst)
      ((afterLoad reg).reg (branchImm .jsgt 0 41 1).src) (branchImm .jsgt 0 41 1).imm = true := rfl
  rw [if_pos htaken] at hturn
  show Vm.step (callOf loadAbove) { afterLoad reg with tick := 1 } = _
  exact step_of_turn hturn (by decide)

theorem step_return (reg : Regs) :
    Vm.step (callOf loadAbove) (afterJump reg) = .stop (.returned .exit 42) := by
  have hturn := turn_exit (fetch_exit reg) (asm_regsInFile rfl) (asm_op .exit 0 0 0 0)
  have hret : (afterJump reg).reg 0 = 42 := rfl
  rw [hret] at hturn
  show Vm.step (callOf loadAbove) { afterJump reg with tick := 2 } = _
  exact step_of_turn_stop hturn

theorem reaches_afterJump (reg : Regs) :
    Reaches (Vm.step (callOf loadAbove)) (loadAboveState reg) (afterJump reg) :=
  .head (step_load reg) (.single (step_jump reg))

theorem loadAbove_keeps (reg : Regs) :
    KeepsCode [] loadAboveListing (fun _ => False) [] codeBase loadAbove (callOf loadAbove) reg :=
  keepsCode_of_readOnly loadAbove_lists (by decide +kernel) reg

theorem loadAbove_stands (reg : Regs) (s : State)
    (h : Reaches (Vm.step (callOf loadAbove)) (loadAboveState reg) s) :
    Stands loadAbove (callOf loadAbove).vm s.mem := by
  have hload : Loaded (loadAbove ++ []) codeBase (callOf loadAbove).vm callerOfLoad.mem := by
    rw [List.append_nil]
    exact callOf_loaded loadAbove _
  exact ((loadAbove_keeps reg).reaches hload h).2

theorem loadAbove_access (reg : Regs) (s : State)
    (h : Reaches (Vm.step (callOf loadAbove)) (loadAboveState reg) s) :
    AccessesWithin (fun a => ¬InActivation 0x20001fe0 a) (callOf loadAbove) s := by
  revert s
  refine (Reaches.forall_cont_iff (step_load reg)).mpr
    ⟨?_, (Reaches.forall_cont_iff (step_jump reg)).mpr
      ⟨?_, (Reaches.forall_stop_iff (step_return reg)).mpr ?_⟩⟩
  · intro a size hsize j hj
    rw [fetch_load, memAccess, load, asm_op] at hsize
    cases hsize
    have haddr : address ((loadAboveState reg).reg (load .dw 0 1 0).src) (load .dw 0 1 0) = 0 := rfl
    have hoff : offWord scratchSize = 80#32 := rfl
    have hsize : scratchSize.toNat + savedSize = 112 := rfl
    have hbytes : Size.dw.bytes = 8 := rfl
    unfold InActivation InSpan
    rw [← load, haddr, hoff, hsize]
    rw [hbytes] at hj
    bv_omega
  · intro a size hsize
    rw [fetch_jump, memAccess, branchImm, asm_op] at hsize
    cases hsize
  · intro a size hsize
    rw [fetch_exit, memAccess, exitInst, asm_op] at hsize
    cases hsize

theorem loadAbove_followed (reg : Regs) (s : State)
    (h : Reaches (Vm.step (callOf loadAbove)) (loadAboveState reg) s) :
    Followed loadAboveInput 0x20001fe0 (callOf loadAbove) s := by
  have hconfined := (loadAbove_keeps reg).verified.confinedRun _ _ (loadAbove_stands reg) s h
  have hfetches := (loadAbove_stands reg s h).fetches hconfined
  refine ⟨hfetches, ?_, loadAbove_access reg s h⟩
  rw [hfetches.first]
  exact instRight_of_alwaysRight rfl (loadAbove_right _ hconfined.index) _

def loadAboveCode (a : Word) : BitVec 16 :=
  (jitCompile loadAboveInput fun _ => 0).code.getD (a.toNat / 2) 0

theorem loadAbove_codeAt : CodeAt loadAboveCode 0 (jitCompile loadAboveInput fun _ => 0).code :=
  codeAt_getD [] _ (by decide +kernel)

/-- A compiled function does what the interpreter does, if its branches land. Behind
the prologue, which leaves the caller's stack pointer and memory to `Enters`, the
registers have some contents; and if the interpreter, started with these, fetches
what was compiled, finds every instruction right, accesses nothing in the frame and
returns at `EXIT`, the function returns the same to its caller, with the caller's
registers and, outside the frame, with the memory the interpreter leaves. -/
theorem jitCompile_preserves (p : Input) (offsets : ℤ → BitVec 32)
    (hagree : LayoutAgrees p offsets) (hland : BranchesLand p offsets) (hclosed : Closed p)
    (c : Call) (code : Word → BitVec 16) (base : Word)
    (hcode : CodeAt code base (jitCompile p offsets).code) (s : Core)
    (hsp : (s.r 13).toNat % 8 = 0) (hmem : c.mem = s.r 0) :
    ∃ t, Reaches (stackStep code) ⟨base, s⟩ ⟨after base (buildPrologue p).length, t⟩ ∧
      Enters p s t ∧ ∀ reg : Regs, (∀ r < 10, r ≠ 1 → reg r = val t (locOf r)) →
        ∀ u v, Reaches (Vm.step c) (initState c reg s.mem) u →
          Vm.step c u = .stop (.returned .exit v) →
          (∀ w, Reaches (Vm.step c) (initState c reg s.mem) w → Followed p (t.r 11) c w) →
          ∃ w, ReturnsTo code base s (s.r 14) w ∧ w.r 1 ++ w.r 0 = v ∧
            (∀ i ∈ keptRegs, w.r i = s.r i) ∧
            ∀ a, ¬InActivation (t.r 11) a → w.mem a = u.mem a :=
  function_preserves hagree hland hclosed hcode hsp hmem

theorem loadAbove_preserved :
    ∃ t, Reaches (stackStep loadAboveCode) ⟨0, callerOfLoad⟩
        ⟨after 0 (buildPrologue loadAboveInput).length, t⟩ ∧
      ∃ w, ReturnsTo loadAboveCode 0 callerOfLoad 0x101 w ∧ w.r 1 ++ w.r 0 = (42 : BitVec 64) ∧
        (∀ i ∈ keptRegs, w.r i = callerOfLoad.r i) ∧
        ∀ a, ¬InActivation (t.r 11) a → w.mem a = callerOfLoad.mem a := by
  obtain ⟨t, ht, henters, hall⟩ := jitCompile_preserves loadAboveInput (fun _ => 0)
    loadAbove_agrees loadAbove_lands loadAbove_closed (callOf loadAbove) loadAboveCode 0
    loadAbove_codeAt callerOfLoad rfl rfl
  have hfp : t.r 11 = 0x20001fe0 := henters.fp
  exact ⟨t, ht, hall (fun r => val t (locOf r)) (fun _ _ _ => rfl) _ 42 (reaches_afterJump _)
    (step_return _) fun w hw => hfp ▸ loadAbove_followed _ w hw⟩

/-- A program whose branches land, whose code is right for all contents, and that
reads no register it has not written, is compiled to a function that returns what
the interpreter returns from any contents of the registers, if it returns at `EXIT`
and its run leaves the program as it was compiled and accesses nothing in the frame.
The memory outside the frame is what the interpreter leaves, and the caller has its
registers back. -/
theorem jitCompile_interprets (p : Input) (offsets : ℤ → BitVec 32)
    (hagree : LayoutAgrees p offsets) (hland : BranchesLand p offsets) (hclosed : Closed p)
    (bytes : List (BitVec 8)) (hcompiled : ∀ n < instCount bytes, p.insts n = codeInst bytes n)
    (c : Call) (hcheck : c.vm.boundsCheckEnabled = false) (hver : Verified bytes c.vm)
    (known : ℕ → List (BitVec 4)) (hinit : Initialised bytes known)
    (hright : ∀ pc < instCount bytes, alwaysRight (codeInst bytes pc) = true)
    (code : Word → BitVec 16) (base : Word)
    (hcode : CodeAt code base (jitCompile p offsets).code) (s : Core)
    (hsp : (s.r 13).toNat % 8 = 0) (hmem : c.mem = s.r 0) (reg : Regs)
    (hkept : ∀ u, Reaches (Vm.step c) (initState c reg s.mem) u → Stands bytes c.vm u.mem)
    (haccess : ∀ u, Reaches (Vm.step c) (initState c reg s.mem) u →
      AccessesWithin (fun a => ¬InActivation (s.r 13 - BitVec.ofNat 32 savedSize) a) c u)
    (v : BitVec 64) (hexit : ebpfVmExec c reg s.mem = .stop (.returned .exit v)) :
    ∃ u w, Reaches (Vm.step c) (initState c reg s.mem) u ∧
      Vm.step c u = .stop (.returned .exit v) ∧ ReturnsTo code base s (s.r 14) w ∧
      w.r 1 ++ w.r 0 = v ∧ (∀ i ∈ keptRegs, w.r i = s.r i) ∧
      ∀ a, ¬InActivation (s.r 13 - BitVec.ofNat 32 savedSize) a → w.mem a = u.mem a := by
  obtain ⟨t, ht, henters, hall⟩ := function_preserves hagree hland hclosed hcode hsp hmem
  -- the run from the contents of the core behind the prologue
  let entry : Regs := fun r => val t (locOf r)
  have hentry : ebpfVmExec c entry s.mem = .stop (.returned .exit v) := by
    rw [← hexit]
    exact ebpfVmExec_congr hver hinit hkept (seesWithin_all bytes c.vm)
      (fun pc _ => callsWithin_all c.vm _) (fun _ _ _ _ _ _ _ => trivial) fun _ _ => rfl
  obtain ⟨u', hu', hstop⟩ := reaches_of_run_stop hentry
  obtain ⟨u, hu, humem, -, hustop⟩ :=
    exists_partner reg (A := fun _ => True) hver hinit hkept hu'
  have hkept' : ∀ x, Reaches (Vm.step c) (initState c entry s.mem) x → Stands bytes c.vm x.mem := by
    intro x hx
    obtain ⟨y, hy, hxmem, -⟩ := exists_partner reg (A := fun _ => True) hver hinit hkept hx
    rw [hxmem]
    exact hkept y hy
  have hfollowed : ∀ x, Reaches (Vm.step c) (initState c entry s.mem) x →
      Followed p (t.r 11) c x := by
    intro x hx
    obtain ⟨y, hy, -, hxaccess, -⟩ :=
      exists_partner reg (A := fun a => ¬InActivation (t.r 11) a) hver hinit hkept hx
    have hconfined := hver.confinedRun _ _ hkept' x hx
    have hfetches := (hkept' x hx).fetches hconfined
    refine ⟨⟨?_, fun hop => ?_⟩, ?_, hxaccess ?_⟩
    · rw [hfetches.first, hcompiled _ hconfined.index]
    · rw [hcompiled _ hconfined.index] at hop
      have hsecond := hconfined.second (hfetches.first ▸ hop)
      rw [hfetches.second hop, hcompiled _ hsecond]
    · rw [hfetches.first]
      exact instRight_of_alwaysRight hcheck (hright _ hconfined.index) x.reg
    · rw [henters.fp]
      exact haccess y hy
  obtain ⟨w, hreturns, hval, hkept, hwmem⟩ :=
    hall entry (fun _ _ _ => rfl) u' v hu' hstop hfollowed
  refine ⟨u, w, hu, hustop _ hstop, hreturns, hval, hkept, ?_⟩
  intro a ha
  rw [hwmem a (by rwa [henters.fp]), humem]

theorem loadAbove_interpreted :
    ∃ w, ReturnsTo loadAboveCode 0 callerOfLoad 0x101 w ∧ w.r 1 ++ w.r 0 = (42 : BitVec 64) := by
  have hexit : ebpfVmExec (callOf loadAbove) (fun _ => 0) callerOfLoad.mem =
      .stop (.returned .exit 42) := by
    rw [ebpfVmExec, run_succ_cont (step_load _), run_succ_cont (step_jump _)]
    exact run_succ_stop (step_return _)
  obtain ⟨-, w, -, -, hreturns, hval, -⟩ := jitCompile_interprets loadAboveInput (fun _ => 0)
    loadAbove_agrees loadAbove_lands loadAbove_closed loadAbove (fun _ _ => rfl)
    (callOf loadAbove) rfl (loadAbove_keeps fun _ => 0).verified _
    (initialised_of_checked loadAbove_lists loadAbove_checked)
    (fun pc hpc => loadAbove_right pc hpc) loadAboveCode 0 loadAbove_codeAt callerOfLoad rfl rfl
    (fun _ => 0) (loadAbove_stands _) (loadAbove_access _) 42 hexit
  exact ⟨w, hreturns, hval⟩

end RapidPatch.Jit

import RapidPatch.Jit.Frame
import RapidPatch.Jit.RegFile

/-!
Calls of helper functions.

The translation of `CALL` moves r1 and r2 into the argument registers, pushes
r5, r4 and r3, calls the function and drops the arguments. The moves
overwrite r0, then r1, each after it was read; and the pushes go below the
frame, so that no cell is hit. `SeesArgs` is what the callee finds,
`ObeysAapcs` what it may do, and `Returned` what then holds behind the call:
the registers are those of `execCall`, as far as a call keeps registers.
-/

namespace RapidPatch.Jit

open RapidPatch.Vm RapidPatch.Thumb RapidPatch.Support

/-- The core of a body: the contents of r0 to r10 are in place, and so is the
stack pointer, at a multiple of eight. -/
structure HoldsFrame (p : Input) (ρ : Regs) (s : Core) : Prop where
  regs : HoldsRegs ρ s
  r10 : doubleword s.mem (cellAddr p (s.r 11) 10) = ρ 10
  sp : s.r 13 = s.r 11 - offWord ebpfStackSize
  aligned : (s.r 13).toNat % 8 = 0

/-- A function finds its five arguments: two in registers, the others on a stack
that is aligned to doublewords. -/
structure SeesArgs (ρ : Regs) (t : Core) : Prop where
  r1 : t.r 1 ++ t.r 0 = ρ 1
  r2 : t.r 3 ++ t.r 2 = ρ 2
  r3 : doubleword t.mem (t.r 13) = ρ 3
  r4 : doubleword t.mem (t.r 13 + 8) = ρ 4
  r5 : doubleword t.mem (t.r 13 + 16) = ρ 5
  aligned : (t.r 13).toNat % 8 = 0

/-- The function entered with `t` returns with `u` and obeys the AAPCS: it keeps
the callee-saved registers, and of the memory the part of its caller's frame
that it was given no address of. -/
structure ObeysAapcs (t u : Cpu) : Prop where
  pc : u.pc = t.core.r 14 &&& ~~~1#32
  kept : ∀ i ∈ ([4, 5, 6, 7, 8, 10, 11, 13] : List Reg), u.core.r i = t.core.r i
  mem : ∀ x, InSpan (t.core.r 11 - offWord scratchSize) scratchSize.toNat x →
    u.core.mem x = t.core.mem x

/-- Behind a call: the stack and frame pointers are as they were with `s`, and
r0 and r6 to r10 have the contents `ρ`. -/
structure Returned (p : Input) (ρ : Regs) (s w : Core) : Prop where
  sp : w.r 13 = s.r 13
  fp : w.r 11 = s.r 11
  r0 : val w (locOf 0) = ρ 0
  kept : ∀ r, 6 ≤ r → r < 10 → val w (locOf r) = ρ r
  r10 : doubleword w.mem (cellAddr p (w.r 11) 10) = ρ 10

/-! ### Doublewords of the frame -/

theorem doubleword_congr {m m' : Mem} {a : Word} (h : ∀ x, InSpan a 8 x → m x = m' x) :
    doubleword m a = doubleword m' a := by
  have hlo : load32 m a = load32 m' a := load32_congr fun x hx => h x (hx.mono (by bv_omega))
  have hhi : load32 m (a + 4) = load32 m' (a + 4) :=
    load32_congr fun x hx => h x (hx.mono (by bv_omega))
  rw [doubleword, doubleword, hlo, hhi]

def frameWord (fp : Word) (m : Mem) (k : ℕ) : BitVec 64 := doubleword m (fp - BitVec.ofNat 32 k)

theorem val_slot (s : Core) (j : Fin 7) : val s (.slot j) = frameWord (s.r 11) s.mem (depth j) :=
  rfl

theorem r10_eq (p : Input) (fp : Word) (m : Mem) :
    doubleword m (cellAddr p fp 10) = frameWord fp m 64 := by
  rw [Stacked.cellAddr_eq ⟨by decide, rfl⟩]
  rfl

theorem frameWord_congr {fp : Word} {m m' : Mem} {k : ℕ} (hlo : 8 ≤ k) (hhi : k ≤ 80)
    (h : ∀ x, InSpan (fp - offWord scratchSize) scratchSize.toNat x → m' x = m x) :
    frameWord fp m' k = frameWord fp m k := by
  refine doubleword_congr fun x hx => h x (hx.mono ?_)
  have hscratch : offWord scratchSize = 80#32 := rfl
  show _ ≤ 80
  rw [hscratch]
  bv_omega

/-! ### Pushes -/

/-- From `s` to `t` a cell is pushed, to the doubleword `k` bytes below the frame
pointer; what lies above is as before. -/
structure Pushes (j : Fin 7) (k : ℕ) (s t : Core) : Prop where
  sp : t.r 13 = t.r 11 - BitVec.ofNat 32 k
  reg : ∀ i ∉ ([8, 9, 13] : List Reg), t.r i = s.r i
  top : frameWord (s.r 11) t.mem k = frameWord (s.r 11) s.mem (depth j)
  above : ∀ k', 8 ≤ k' → k' + 8 ≤ k →
    frameWord (s.r 11) t.mem k' = frameWord (s.r 11) s.mem k'

theorem emitPushR64_slot : ∀ j : Fin 7, emitPushR64 (Loc.slot j).row =
    emitLdrdI (Loc.pair 4).row armFp (offWord (-(depth j : ℤ))) ++ emit4 0xe92d0300 := by
  decide

theorem runs_pushR64 (j : Fin 7) (k : ℕ) {s : Core} (hfp : aligned (s.r 11) = true)
    (hsp : s.r 13 = s.r 11 - BitVec.ofNat 32 k) (hk : k % 4 = 0) (hle : k ≤ 2 ^ 20) :
    ∃ t, StackRuns (emitPushR64 (Loc.slot j).row) s t ∧ Pushes j (k + 8) s t := by
  let u := (s.set 8 (load32 s.mem (slotAddr (s.r 11) j))).set 9
    (load32 s.mem (slotAddr (s.r 11) j + 4))
  have hu : execData s (.ldrd (loReg 4) (hiReg 4) 11 (depth j)) = some u :=
    if_pos (aligned_slotAddr hfp j)
  have hal : aligned (s.r 13) = true := by
    rw [aligned_iff] at hfp ⊢
    rw [hsp]
    bv_omega
  have ht : execStackData u (.push 0x300) = some (u.push [8, 9]) := if_pos hal
  have hsp' : s.r 13 - 8 = s.r 11 - BitVec.ofNat 32 (k + 8) := by
    rw [hsp]
    bv_omega
  have hmem : (u.push [8, 9]).mem = storeWords s.mem (s.r 11 - BitVec.ofNat 32 (k + 8))
      [load32 s.mem (slotAddr (s.r 11) j), load32 s.mem (slotAddr (s.r 11) j + 4)] := by
    rw [← hsp']
    rfl
  refine ⟨u.push [8, 9], ?_, hsp', ?_, ?_, ?_⟩
  · rw [emitPushR64_slot]
    exact (StackRuns.of_runs (runs_emit4 (decode_ldrd 4 j) hu)).append
      (stackRuns_emit4 (by decide) (by decide) (by decide) ht)
  · intro i hi
    simp only [List.mem_cons, List.not_mem_nil, or_false, not_or] at hi
    obtain ⟨h8, h9, h13⟩ := hi
    simp only [push_r, if_neg h13, u, set_r, if_neg h9, if_neg h8]
  · rw [frameWord, hmem, doubleword_storeWords]
    rfl
  · intro k' hlo hhi
    refine doubleword_congr fun x hx => ?_
    rw [hmem]
    refine storeWords_outside (by decide : 8 ≤ 2 ^ 32) (hx.not_of_far ?_ ?_)
    · bv_omega
    · show _ + 8 ≤ _
      bv_omega

theorem runs_pushes {s : Core} (hfp : aligned (s.r 11) = true) (hsp : s.r 13 = s.r 11 - 256) :
    ∃ t, StackRuns (emitPushR64 (locOf 5).row ++ (emitPushR64 (locOf 4).row ++
        emitPushR64 (locOf 3).row)) s t ∧ t.r 13 = s.r 11 - 280 ∧
      (∀ i ∉ ([8, 9, 13] : List Reg), t.r i = s.r i) ∧
      (frameWord (s.r 11) t.mem 280 = val s (locOf 3) ∧
        frameWord (s.r 11) t.mem 272 = val s (locOf 4) ∧
        frameWord (s.r 11) t.mem 264 = val s (locOf 5)) ∧
      ∀ k, 8 ≤ k → k ≤ 256 → frameWord (s.r 11) t.mem k = frameWord (s.r 11) s.mem k := by
  obtain ⟨s₁, h₁, hp₁⟩ := runs_pushR64 3 256 hfp hsp (by decide) (by decide)
  have hfp₁ : s₁.r 11 = s.r 11 := hp₁.reg 11 (by decide)
  obtain ⟨s₂, h₂, hp₂⟩ := runs_pushR64 2 264 (s := s₁) (by rwa [hfp₁]) hp₁.sp (by decide)
    (by decide)
  have hfp₂ : s₂.r 11 = s.r 11 := (hp₂.reg 11 (by decide)).trans hfp₁
  obtain ⟨t, h₃, hp₃⟩ := runs_pushR64 1 272 (s := s₂) (by rwa [hfp₂]) hp₂.sp (by decide)
    (by decide)
  have hfp₃ : t.r 11 = s.r 11 := (hp₃.reg 11 (by decide)).trans hfp₂
  obtain ⟨hsp₃, hr₃, htop₃, hab₃⟩ := hp₃
  obtain ⟨-, hr₂, htop₂, hab₂⟩ := hp₂
  obtain ⟨-, hr₁, htop₁, hab₁⟩ := hp₁
  rw [hfp₃] at hsp₃
  rw [hfp₂] at htop₃ hab₃
  rw [hfp₁] at htop₂ hab₂
  refine ⟨t, h₁.append (h₂.append h₃), hsp₃, ?_, ⟨?_, ?_, ?_⟩, ?_⟩
  · intro i hi
    rw [hr₃ i hi, hr₂ i hi, hr₁ i hi]
  · rw [htop₃, hab₂ _ (by decide) (by decide), hab₁ _ (by decide) (by decide)]
    rfl
  · rw [hab₃ _ (by decide) (by decide), htop₂, hab₁ _ (by decide) (by decide)]
    rfl
  · rw [hab₃ _ (by decide) (by decide), hab₂ _ (by decide) (by decide), htop₁]
    rfl
  · intro k hlo hhi
    rw [hab₃ k hlo (by omega), hab₂ k hlo (by omega), hab₁ k hlo (by omega)]

/-! ### Up to the function -/

def callArgs : Code :=
  emit2 0x4610 ++ (emit2 0x4619 ++ (emitLdrdI (locOf 1).row armFp (offWord (locOf 2).row.lo) ++
    (emitPushR64 (locOf 5).row ++ (emitPushR64 (locOf 4).row ++ emitPushR64 (locOf 3).row))))

theorem emitCall_eq (p : Input) (imm : BitVec 32) :
    emitCall p imm = callArgs ++ (emitMovImm 6 (p.callBase imm) ++
      (emit2 0x47b0 ++ emit4 0xf20d0d18)) := by
  have hargs : emitMovReg64 true (1, 0) (3, 2) ++
      emitMovReg64 true (3, 2) (stackOffset 0, stackOffset 1) ++
      emitPushR64 (stackOffset 6, stackOffset 7) ++ emitPushR64 (stackOffset 4, stackOffset 5) ++
      emitPushR64 (stackOffset 2, stackOffset 3) = callArgs := by decide
  have hrest : emit2 (thumb16BlxRegT1 tmpReg1.lo) ++ emitAddImm armSp armSp 24 =
      emit2 0x47b0 ++ emit4 0xf20d0d18 := by decide
  have h0 : bpf2a32 p.behind 0 = (1, 0) := rfl
  have h1 : bpf2a32 p.behind 1 = (3, 2) := rfl
  have h2 : bpf2a32 p.behind 2 = (stackOffset 0, stackOffset 1) := rfl
  have h3 : bpf2a32 p.behind 3 = (stackOffset 2, stackOffset 3) := rfl
  have h4 : bpf2a32 p.behind 4 = (stackOffset 4, stackOffset 5) := rfl
  have h5 : bpf2a32 p.behind 5 = (stackOffset 6, stackOffset 7) := rfl
  have htmp : (tmpReg1.lo : ℤ) = 6 := rfl
  rw [← hargs, ← hrest]
  simp only [emitCall, h0, h1, h2, h3, h4, h5, htmp, List.append_assoc]

/-- The arguments are where the function looks for them, and what the frame
holds is still there. -/
theorem runs_callArgs {p : Input} {ρ : Regs} {s : Core} (hs : HoldsFrame p ρ s) :
    ∃ t, StackRuns callArgs s t ∧ SeesArgs ρ t ∧ t.r 13 = s.r 13 - 24 ∧
      (∀ i ∈ ([4, 5, 11] : List Reg), t.r i = s.r i) ∧
      ∀ k, 8 ≤ k → k ≤ 256 → frameWord (s.r 11) t.mem k = frameWord (s.r 11) s.mem k := by
  have hfp : aligned (s.r 11) = true := hs.regs.aligned
  have hal := hs.aligned
  have hval : ∀ r < 10, val s (locOf r) = ρ r := hs.regs.regs
  have hsp : s.r 13 = s.r 11 - 256 := hs.sp
  -- r1 goes to R1:R0, and then r2 to R3:R2
  let s₁ := s.set 0 (s.r 2)
  let s₂ := s₁.set 1 (s.r 3)
  let s₃ := (s₂.set 2 (load32 s.mem (slotAddr (s.r 11) 0))).set 3
    (load32 s.mem (slotAddr (s.r 11) 0 + 4))
  have h₁ : execData s (.movReg 0 2) = some s₁ := rfl
  have h₂ : execData s₁ (.movReg 1 3) = some s₂ := rfl
  have h₃ : execData s₂ (.ldrd (loReg 1) (hiReg 1) 11 (depth 0)) = some s₃ :=
    if_pos (aligned_slotAddr hfp 0)
  obtain ⟨t, ht, hspt, hr, ⟨hr3, hr4, hr5⟩, hframe⟩ := runs_pushes (s := s₃) hfp hsp
  have hspt' : t.r 13 = s.r 11 - 280 := hspt
  refine ⟨t, ?_, ⟨?_, ?_, ?_, ?_, ?_, ?_⟩, ?_, ?_, hframe⟩
  · refine .block (runs_emit2 (by decide) h₁) (.block (runs_emit2 (by decide) h₂) ?_)
    exact .block (runs_emit4 (decode_ldrd 1 0) h₃) ht
  · rw [hr 1 (by decide), hr 0 (by decide)]
    exact hval 1 (by decide)
  · rw [hr 3 (by decide), hr 2 (by decide)]
    exact hval 2 (by decide)
  · rw [hspt']
    exact hr3.trans (hval 3 (by decide))
  · have haddr : s.r 11 - 280 + 8 = s.r 11 - 272 := by bv_omega
    rw [hspt', haddr]
    exact hr4.trans (hval 4 (by decide))
  · have haddr : s.r 11 - 280 + 16 = s.r 11 - 264 := by bv_omega
    rw [hspt', haddr]
    exact hr5.trans (hval 5 (by decide))
  · rw [hspt']
    bv_omega
  · rw [hspt', hsp]
    bv_omega
  · intro i hi
    simp only [List.mem_cons, List.not_mem_nil, or_false] at hi
    rcases hi with rfl | rfl | rfl
    · exact hr 4 (by decide)
    · exact hr 5 (by decide)
    · exact hr 11 (by decide)

/-! ### The call -/

theorem toNat_after_even {a : Word} (ha : a.toNat % 2 = 0) (n : ℕ) :
    (after a n + 2).toNat % 2 = 0 := by
  unfold after
  bv_omega

theorem call_at {p : Input} {imm : BitVec 32} {code : Word → BitVec 16} {a : Word}
    (hcode : CodeAt code a (emitCall p imm)) :
    let pc := after a (callArgs ++ emitMovImm 6 (p.callBase imm)).length
    CodeAt code a (callArgs ++ emitMovImm 6 (p.callBase imm)) ∧ code pc = 0x47b0 ∧
      CodeAt code (pc + 2) (emit4 0xf20d0d18) ∧
      after (pc + 2) 2 = after a (emitCall p imm).length := by
  rw [emitCall_eq, ← List.append_assoc] at hcode ⊢
  obtain ⟨hargs, hcall, hdrop⟩ := codeAt_append.mp hcode
  refine ⟨hargs, hcall, hdrop, ?_⟩
  have hlen : (callArgs ++ emitMovImm 6 (p.callBase imm) ++
      (emit2 0x47b0 ++ emit4 0xf20d0d18)).length =
        (callArgs ++ emitMovImm 6 (p.callBase imm)).length + (1 + 2) := List.length_append
  rw [hlen, after_add, after_add]
  rfl

theorem reaches_function {p : Input} {imm : BitVec 32} (hfunc : p.callBase imm &&& 1 = 1)
    {code : Word → BitVec 16} {a : Word} (hcode : CodeAt code a (emitCall p imm)) {ρ : Regs}
    {s : Core} (hs : HoldsFrame p ρ s) :
    ∃ t : Core, Reaches (stackStep code) ⟨a, s⟩ ⟨p.callBase imm &&& ~~~1#32, t⟩ ∧ SeesArgs ρ t ∧
      t.r 14 = (after a (callArgs ++ emitMovImm 6 (p.callBase imm)).length + 2) ||| 1 ∧
      t.r 13 = s.r 13 - 24 ∧ (∀ i ∈ ([4, 5, 11] : List Reg), t.r i = s.r i) ∧
      ∀ k, 8 ≤ k → k ≤ 256 → frameWord (s.r 11) t.mem k = frameWord (s.r 11) s.mem k := by
  obtain ⟨hargs, hcall, -, -⟩ := call_at hcode
  obtain ⟨u, hu, hsees, hsp, hr, hframe⟩ := runs_callArgs hs
  obtain ⟨v, hv, hv6, hmem, -, hother⟩ := runs_emitMovImm (r := 6) (by decide) (p.callBase imm) u
  have hrun := (hu.append (.of_runs hv)).reaches hargs
  have hstep : stackStep code ⟨_, v⟩ = blxWritePC _ (v.r 6) _ :=
    step_blx hcall (by decide) (by decide) (by decide) (by decide)
  rw [blxWritePC, hv6, if_pos hfunc] at hstep
  -- neither the address of the function nor that of the return is in an argument register
  have hset : ∀ i : Reg, i ≠ 6 → i ≠ 14 → (v.set 14 ((after a
      (callArgs ++ emitMovImm 6 (p.callBase imm)).length + 2) ||| 1)).r i = u.r i := by
    intro i h6 h14
    rw [set_r, if_neg h14, hother i h6]
  refine ⟨_, hrun.trans (.single hstep), ⟨?_, ?_, ?_, ?_, ?_, ?_⟩, ?_, ?_, ?_, ?_⟩
  · rw [hset 1 (by decide) (by decide), hset 0 (by decide) (by decide), hsees.r1]
  · rw [hset 3 (by decide) (by decide), hset 2 (by decide) (by decide), hsees.r2]
  · rw [hset 13 (by decide) (by decide), set_mem, hmem, hsees.r3]
  · rw [hset 13 (by decide) (by decide), set_mem, hmem, hsees.r4]
  · rw [hset 13 (by decide) (by decide), set_mem, hmem, hsees.r5]
  · rw [hset 13 (by decide) (by decide)]
    exact hsees.aligned
  · rw [set_r, if_pos rfl]
  · rw [hset 13 (by decide) (by decide), hsp]
  · intro i hi
    have hne : ∀ i ∈ ([4, 5, 11] : List Reg), i ≠ 6 ∧ i ≠ 14 := by decide
    rw [hset i (hne i hi).1 (hne i hi).2, hr i hi]
  · intro k hlo hhi
    rw [set_mem, hmem, hframe k hlo hhi]

/-- What the interpreter does at a `CALL` of a function. -/
theorem execInst_call {c : Call} {i : Inst} {v : State} {f : ExtFunc} (hop : i.op = .call)
    (himm : i.imm.toNat < maxExtFuncs) (hf : c.vm.extFuncs i.imm.toNat = some f) :
    ∃ v', execInst c i v = .cont v' ∧ v'.reg = Function.update v.reg 0
      (f (v.reg 1) (v.reg 2) (v.reg 3) (v.reg 4) (v.reg 5) v.mem).1 := by
  have hfile : i.regsInFile = true := by
    simp [Inst.regsInFile, hop, Opcode.usesDst, Opcode.usesSrc]
  have hexec : execInst c i v = .cont
      (({ v with mem := (f (v.reg 1) (v.reg 2) (v.reg 3) (v.reg 4) (v.reg 5) v.mem).2 }).setReg 0
        (f (v.reg 1) (v.reg 2) (v.reg 3) (v.reg 4) (v.reg 5) v.mem).1) := by
    simp only [execInst, hfile, hop, execCall, if_pos himm, hf]
    rfl
  exact ⟨_, hexec, congrArg State.reg (setReg_eq_update _ 0 _)⟩

/-- A core that has the callee-saved registers and the cells of a frame holds r6
to r10 as the frame does. -/
theorem HoldsFrame.returned {p : Input} {ρ : Regs} {s w : Core} (hs : HoldsFrame p ρ s)
    (hsp : w.r 13 = s.r 13) (hfp : w.r 11 = s.r 11) (h4 : w.r 4 = s.r 4) (h5 : w.r 5 = s.r 5)
    (hframe : ∀ k, 8 ≤ k → k ≤ 80 → frameWord (s.r 11) w.mem k = frameWord (s.r 11) s.mem k) :
    Returned p (Function.update ρ 0 (w.r 1 ++ w.r 0)) s w := by
  have hslot : ∀ j : Fin 7, val w (.slot j) = val s (.slot j) := by
    intro j
    have hj := j.isLt
    rw [val_slot, val_slot, hfp]
    exact hframe _ (Nat.le_add_right ..) (by unfold depth; omega)
  have hpair : val w (.pair 2) = val s (.pair 2) := congrArg₂ (· ++ ·) h5 h4
  refine ⟨hsp, hfp, ?_, ?_, ?_⟩
  · rw [Function.update_self]
    rfl
  · intro r h6 h10
    have hr : locOf r = .pair 2 ∨ ∃ j, locOf r = .slot j := by
      revert r
      decide
    have hne : r ≠ 0 := by
      rintro rfl
      exact absurd h6 (by decide)
    rw [Function.update_of_ne hne, ← hs.regs.regs r h10]
    rcases hr with hr | ⟨j, hr⟩
    · rw [hr, hpair]
    · rw [hr, hslot j]
  · rw [Function.update_of_ne (by decide), hfp, ← hs.r10, r10_eq, r10_eq]
    exact hframe 64 (by decide) (by decide)

theorem buildInst_call {p : Input} {pass : Pass} {idx pc : ℕ} (hop : (p.insts pc).op = .call) :
    (buildInst p pass idx pc).code = emitCall p (p.insts pc).imm := by
  simp only [buildInst, hop, built]

/-- The translation of a `CALL` of a function calls it with the contents of r1
to r5, and once the function returns the registers are those of the
interpreter, where a call keeps them. -/
theorem call_correct (p : Input) (pass : Pass) (idx pc : ℕ) (hop : (p.insts pc).op = .call)
    (hfunc : p.callBase (p.insts pc).imm &&& 1 = 1) (code : Word → BitVec 16) (a : Word)
    (ha : a.toNat % 2 = 0) (hcode : CodeAt code a (buildInst p pass idx pc).code) (ρ : Regs)
    (s : Core) (hs : HoldsFrame p ρ s) :
    ∃ t : Cpu, Reaches (stackStep code) ⟨a, s⟩ t ∧
      t.pc = p.callBase (p.insts pc).imm &&& ~~~1#32 ∧ SeesArgs ρ t.core ∧
      ∀ u, ObeysAapcs t u →
        ∃ w, Reaches (stackStep code) u ⟨after a (buildInst p pass idx pc).code.length, w⟩ ∧
          Returned p (Function.update ρ 0 (u.core.r 1 ++ u.core.r 0)) s w ∧
          ∀ (c : Call) (v : State) (f : ExtFunc), (p.insts pc).imm.toNat < maxExtFuncs →
            c.vm.extFuncs (p.insts pc).imm.toNat = some f → v.reg = ρ →
            (f (ρ 1) (ρ 2) (ρ 3) (ρ 4) (ρ 5) v.mem).1 = u.core.r 1 ++ u.core.r 0 →
            ∃ v', execInst c (p.insts pc) v = .cont v' ∧ Returned p v'.reg s w := by
  rw [buildInst_call hop] at hcode ⊢
  obtain ⟨-, -, hdrop, hend⟩ := call_at hcode
  obtain ⟨t, hreach, hsees, hlr, hsp, hr, hframe⟩ := reaches_function hfunc hcode hs
  refine ⟨⟨_, t⟩, hreach, rfl, hsees, fun u hu => ?_⟩
  obtain ⟨upc, u⟩ := u
  obtain ⟨hpc, hkept, hmem⟩ := hu
  simp only at hpc hkept hmem
  rw [hlr] at hpc
  obtain rfl := hpc.trans (or_one_and_not_one_of_even (toNat_after_even ha _))
  have hfp : u.r 11 = s.r 11 := (hkept 11 (by decide)).trans (hr 11 (by decide))
  have hsp' : u.r 13 + 24 = s.r 13 := by
    rw [hkept 13 (by decide), hsp, BitVec.sub_add_cancel]
  let w := u.set 13 (u.r 13 + 24)
  have hw : execStackData u (.addSp 13 24) = some w := by
    have hal : aligned (u.r 13 + 24) = true := by
      have hal8 := hs.aligned
      rw [hsp', aligned_iff]
      omega
    rw [execStackData, Core.setAligned, hal]
    rfl
  have hrun : StackRuns (emit4 0xf20d0d18) u w :=
    stackRuns_emit4 (by decide) (by decide) (by decide) hw
  have hback : Returned p (Function.update ρ 0 (u.r 1 ++ u.r 0)) s w := by
    refine hs.returned (w := w) hsp' hfp ((hkept 4 (by decide)).trans (hr 4 (by decide)))
      ((hkept 5 (by decide)).trans (hr 5 (by decide))) fun k hlo hhi => ?_
    rw [hr 11 (by decide)] at hmem
    exact (frameWord_congr hlo hhi hmem).trans (hframe k hlo (by omega))
  refine ⟨w, ?_, hback, ?_⟩
  · rw [← hend]
    exact hrun.reaches hdrop
  · rintro c v f himm hf rfl hresult
    obtain ⟨v', hv', hreg⟩ := execInst_call (v := v) hop himm hf
    refine ⟨v', hv', ?_⟩
    rw [hreg, hresult]
    exact hback

/-- A call of the third function and `exit`, with one function for all
indices. -/
def callThird : Input where
  insts := fun n =>
    { opcode := if n = 0 then Opcode.call.byte else Opcode.exit.byte
      dst := 0, src := 0, offset := 0, imm := 3 }
  instNum := 2
  callBase := fun _ => 0x08001235
  behind := (0, 0)

def zeroBody : Core where
  r := fun i => if i = 11 then 0x20001fe0 else if i = 13 then 0x20001ee0 else 0
  n := false
  z := false
  c := false
  v := false
  mem := fun _ => 0

theorem zeroBody_frame : HoldsFrame callThird (fun _ => 0) zeroBody :=
  ⟨⟨by decide, by decide⟩, by decide, by decide, by decide⟩

theorem callThird_called :
    let code : Word → BitVec 16 :=
      fun a => (buildInst callThird genPass 0 0).code.getD (a.toNat / 2) 0
    ∃ t u : Cpu, Reaches (stackStep code) ⟨0, zeroBody⟩ t ∧ t.pc = 0x08001234 ∧
      ObeysAapcs t u ∧ ∃ w, Reaches (stackStep code) u ⟨46, w⟩ ∧ val w (locOf 0) = 7 := by
  intro code
  have hcode := codeAt_getD [] (buildInst callThird genPass 0 0).code (by decide)
  obtain ⟨t, hreach, hpc, -, hcall⟩ := call_correct callThird genPass 0 0 (by decide) (by decide)
    code 0 (by decide) hcode (fun _ => 0) zeroBody zeroBody_frame
  let u : Cpu := ⟨t.core.r 14 &&& ~~~1#32, (t.core.set 0 7).set 1 0⟩
  have hu : ObeysAapcs t u := by
    refine ⟨rfl, fun i hi => ?_, fun _ _ => rfl⟩
    have hne : ∀ i ∈ ([4, 5, 6, 7, 8, 10, 11, 13] : List Reg), i ≠ 0 ∧ i ≠ 1 := by decide
    simp only [u, set_r, if_neg (hne i hi).1, if_neg (hne i hi).2]
  obtain ⟨w, hw, hback, -⟩ := hcall u hu
  have hseven : val w (locOf 0) = u.core.r 1 ++ u.core.r 0 :=
    hback.r0.trans (Function.update_self ..)
  have hlo : u.core.r 0 = 7 := rfl
  have hhi : u.core.r 1 = 0 := rfl
  rw [hlo, hhi] at hseven
  exact ⟨t, u, hreach, hpc, hu, w, hw, hseven⟩

end RapidPatch.Jit

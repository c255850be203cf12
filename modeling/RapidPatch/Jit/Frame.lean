import Mathlib.Tactic.IntervalCases
import RapidPatch.Jit.Simulation
import RapidPatch.Thumb.Stack

/-!
The frame of translated code.

From the stack pointer at the entry down, a frame holds the saved registers,
the cells of the eBPF registers that have no core register, the stack of the
eBPF program and what the translator leaves free. `Layout` says that these
parts are apart, `Enters` what `build_prologue` puts into them, and
`KeepsFrame` what a body must leave alone so that `build_epilogue` can undo
it.
-/

namespace RapidPatch.Jit

open RapidPatch.Vm RapidPatch.Thumb RapidPatch.Support

def doubleword (m : Mem) (a : Word) : BitVec 64 := load32 m (a + 4) ++ load32 m a

/-- The registers `build_prologue` saves, lowest address first. -/
def savedRegs : List Reg := [4, 5, 6, 7, 8, 9, 11, 14]

def savedSize : ℕ := 32

/-! ### Layout -/

/-- An eBPF register, or one of the translator's own, that lives in the frame. -/
def Stacked (p : Input) (reg : BitVec 4) : Prop :=
  reg < 15 ∧ isStacked (bpf2a32 p.behind reg).lo = true

/-- The address of the cell of a register, where the frame pointer is `fp`. -/
def cellAddr (p : Input) (fp : Word) (reg : BitVec 4) : Word :=
  fp + offWord (bpf2a32 p.behind reg).lo

/-- The parts of a frame are apart. `sp` is the stack pointer of the body and
`r10` the eBPF frame pointer. -/
structure Layout (p : Input) (fp sp r10 : Word) : Prop where
  /-- The two words of a register make up its cell. -/
  words : ∀ reg, Stacked p reg → (bpf2a32 p.behind reg).hi = (bpf2a32 p.behind reg).lo + 4
  cells : ∀ reg reg', Stacked p reg → Stacked p reg' → reg ≠ reg' → ∀ x,
    InSpan (cellAddr p fp reg) 8 x → ¬InSpan (cellAddr p fp reg') 8 x
  scratch : ∀ reg, Stacked p reg → ∀ x, InSpan (cellAddr p fp reg) 8 x →
    InSpan (fp - offWord scratchSize) scratchSize.toNat x
  /-- The stack of the eBPF program meets no cell, no saved register and nothing
  below the stack pointer. -/
  stack : ∀ x, InSpan (r10 - BitVec.ofNat 32 stackSize) stackSize x →
    (∀ reg, Stacked p reg → ¬InSpan (cellAddr p fp reg) 8 x) ∧ ¬InSpan fp savedSize x ∧
      ∀ n, n + (savedSize + ebpfStackSize.toNat) ≤ 2 ^ 32 → ¬InSpan (sp - BitVec.ofNat 32 n) n x

def cellIndex (reg : BitVec 4) : ℕ :=
  match reg.toNat with
  | 2 => 0
  | 3 => 1
  | 4 => 2
  | 5 => 3
  | 7 => 4
  | 8 => 5
  | 9 => 6
  | 10 => 7
  | 14 => 8
  | _ => 9

section

variable {p : Input} {fp : Word} {reg reg' : BitVec 4}

theorem Stacked.row (h : Stacked p reg) :
    bpf2a32 p.behind reg =
      (4 - ((8 * (cellIndex reg + 1) : ℕ) : ℤ), -((8 * (cellIndex reg + 1) : ℕ) : ℤ)) := by
  obtain ⟨hreg, hstacked⟩ := h
  have hnat : reg.toNat < 15 := hreg
  revert hstacked
  unfold bpf2a32 cellIndex
  interval_cases reg.toNat <;> first | exact fun _ => rfl | exact fun h => by cases h

theorem cellIndex_lt (reg : BitVec 4) : cellIndex reg < 10 := by
  revert reg
  decide

theorem Stacked.cellIndex_inj (h : Stacked p reg) (h' : Stacked p reg')
    (heq : cellIndex reg = cellIndex reg') : reg = reg' := by
  obtain ⟨hreg, hstacked⟩ := h
  obtain ⟨hreg', hstacked'⟩ := h'
  have hcore : ∀ reg reg' : BitVec 4, reg < 15 → reg' < 15 → reg ∉ [0, 1, 6, 12, 13] →
      reg' ∉ [0, 1, 6, 12, 13] → cellIndex reg = cellIndex reg' → reg = reg' := by decide
  have hnot : ∀ q : BitVec 4, isStacked (bpf2a32 p.behind q).lo = true →
      q ∉ [0, 1, 6, 12, 13] := by
    intro q hq hmem
    simp only [List.mem_cons, List.not_mem_nil, or_false] at hmem
    rcases hmem with rfl | rfl | rfl | rfl | rfl <;> cases hq
  exact hcore reg reg' hreg hreg' (hnot reg hstacked) (hnot reg' hstacked') heq

theorem Stacked.cellAddr_eq (h : Stacked p reg) :
    cellAddr p fp reg = fp - BitVec.ofNat 32 (8 * (cellIndex reg + 1)) := by
  rw [cellAddr, h.row]
  show fp + BitVec.ofInt 32 (-((8 * (cellIndex reg + 1) : ℕ) : ℤ)) = _
  rw [BitVec.ofInt_neg, BitVec.ofInt_natCast, BitVec.sub_eq_add_neg]

end

theorem layout (p : Input) (fp : Word) :
    Layout p fp (fp - offWord ebpfStackSize) (fp - offWord scratchSize) where
  words reg h := by
    rw [h.row]
    show (4 : ℤ) - _ = -_ + 4
    omega
  cells reg reg' h h' hne x hx := by
    have hidx : cellIndex reg ≠ cellIndex reg' := fun heq => hne (h.cellIndex_inj h' heq)
    have hlt := cellIndex_lt reg
    have hlt' := cellIndex_lt reg'
    rw [h.cellAddr_eq] at hx
    rw [h'.cellAddr_eq]
    have hfar : (fp - BitVec.ofNat 32 (8 * (cellIndex reg' + 1)) -
        (fp - BitVec.ofNat 32 (8 * (cellIndex reg + 1)))).toNat =
          (8 * (cellIndex reg + 1) + (2 ^ 32 - 8 * (cellIndex reg' + 1))) % 2 ^ 32 := by
      bv_omega
    refine hx.not_of_far ?_ ?_ <;> rw [hfar] <;> omega
  scratch reg h x hx := by
    have hlt := cellIndex_lt reg
    rw [h.cellAddr_eq] at hx
    refine hx.mono ?_
    show _ ≤ 80
    have hoff : offWord scratchSize = 80#32 := rfl
    rw [hoff]
    bv_omega
  stack x hx := by
    have hscratch : offWord scratchSize = 80#32 := rfl
    have hframe : offWord ebpfStackSize = 256#32 := rfl
    have hsize : BitVec.ofNat 32 stackSize = 128#32 := rfl
    rw [hscratch, hsize] at hx
    refine ⟨fun reg h => ?_, hx.not_of_far ?_ ?_, fun n hn => ?_⟩
    · have hlt := cellIndex_lt reg
      rw [h.cellAddr_eq]
      refine hx.not_of_far ?_ ?_ <;> unfold stackSize at * <;> bv_omega
    · unfold stackSize
      bv_omega
    · unfold savedSize
      bv_omega
    · rw [hframe]
      have hn' : n + 288 ≤ 2 ^ 32 := hn
      refine hx.not_of_far ?_ ?_ <;> unfold stackSize at * <;> bv_omega

/-! ### The prologue -/

/-- What `build_prologue` leaves in the core `t`, entered with `s`. -/
structure Enters (p : Input) (s t : Core) : Prop where
  fp : t.r 11 = s.r 13 - BitVec.ofNat 32 savedSize
  sp : t.r 13 = t.r 11 - offWord ebpfStackSize
  r1 : val t (locOf 1) = (s.r 0).setWidth 64
  r10 : doubleword t.mem (cellAddr p (t.r 11) 10) = (t.r 11 - offWord scratchSize).setWidth 64
  saved : WordsAt t.mem (t.r 11) (savedRegs.map s.r)
  /-- Memory outside the cells and the saved registers is as before. -/
  mem : ∀ x, ¬InSpan (t.r 11 - offWord scratchSize) (scratchSize.toNat + savedSize) x →
    t.mem x = s.mem x

theorem stackRuns_emit4 {x : BitVec 32} {d : StackData} {s t : Core}
    (htop : bits x 27 5 ≥ 0b11101) (hnot : decode32 x = none)
    (hd : decodeStack32 x = some (.data d)) (he : execStackData s d = some t) :
    StackRuns (emit4 x) s t := by
  have hwide : isWide ((x >>> 16).setWidth 16) = true := by
    rw [isWide_halfword]
    simpa using htop
  exact .stack hwide (by rwa [halfwords]) (by rwa [halfwords]) he (.nil t)

theorem buildPrologue_eq (p : Input) :
    buildPrologue p = emit4 0xe92d4bf0 ++ (emit4 0xea4f0b0d ++ (emitMovImm 3 0 ++
      (emit4 0xf2ad0250 ++ (emit4 0xf2ad1d00 ++ (emit4 0xe94b2310 ++ (emit2 0x4602 ++
        emitMovImm 3 0)))))) := by
  rw [show buildPrologue p = buildPrologue longJump from rfl]
  decide

theorem doubleword_storeWords (m : Mem) (a x y : Word) :
    doubleword (storeWords m a [x, y]) a = y ++ x := by
  have hlen : 4 * [x, y].length ≤ 2 ^ 32 := (by decide : 8 ≤ 2 ^ 32)
  obtain ⟨hlo, hhi, -⟩ := wordsAt_storeWords m a hlen
  rw [doubleword, hlo, hhi]

theorem runs_prologue (p : Input) {s : Core} (hsp : (s.r 13).toNat % 8 = 0) :
    ∃ t, StackRuns (buildPrologue p) s t ∧ Enters p s t := by
  have hal : ∀ n, n % 4 = 0 → n ≤ 2 ^ 31 → aligned (s.r 13 - BitVec.ofNat 32 n) = true := by
    intro n hn hle
    rw [aligned_iff]
    bv_omega
  have hal0 : aligned (s.r 13) = true := by
    rw [aligned_iff]
    omega
  set fp := s.r 13 - 32 with hfp
  -- push {r4-r9, r11, lr}, and the frame pointer
  let s₁ := s.push savedRegs
  let s₂ := s₁.set 11 fp
  have h₁ : execStackData s (.push 0x4bf0) = some s₁ := if_pos hal0
  have h₂ : execStackData s₁ (.movSp 11 13) = some s₂ := rfl
  obtain ⟨s₃, h₃, hr3, hm3, -, hk3⟩ := runs_emitMovImm (r := 3) (by decide) 0 s₂
  -- r2 points below the cells, and the stack pointer below the rest of the frame
  have hsp3 : s₃.r 13 = fp := by
    rw [hk3 13 (by decide)]
    rfl
  let s₄ := s₃.set 2 (fp - 80)
  let s₅ := s₄.set 13 (fp - 256)
  have h₄ : execStackData s₃ (.subSp 2 80) = some s₄ := by
    rw [execStackData, hsp3]
    rfl
  have h₅ : execStackData s₄ (.subSp 13 256) = some s₅ := by
    have hsp4 : s₄.r 13 = fp := hsp3
    have hal5 : aligned (fp - 256) = true := by
      rw [hfp, BitVec.sub_sub]
      exact hal 288 (by decide) (by decide)
    rw [execStackData, hsp4, Core.setAligned, hal5]
    rfl
  -- r10 from R3:R2
  have hfp5 : s₅.r 11 = fp := by
    show s₃.r 11 = fp
    rw [hk3 11 (by decide)]
    rfl
  let s₆ : Core := { s₅ with mem := storeWords s₅.mem (fp - 64) [fp - 80, 0] }
  have h₆ : execData s₅ (.strd 2 3 11 64) = some s₆ := by
    have hal6 : aligned (fp - 64) = true := by
      rw [hfp, BitVec.sub_sub]
      exact hal 96 (by decide) (by decide)
    have hr3' : s₅.r 3 = 0 := hr3
    simp only [execData, hfp5, hr3']
    exact if_pos hal6
  let s₇ := s₆.set 2 (s₆.r 0)
  have h₇ : execData s₆ (.movReg 2 0) = some s₇ := rfl
  obtain ⟨t, h₈, hr8, hm8, -, hk8⟩ := runs_emitMovImm (r := 3) (by decide) 0 s₇
  have htfp : t.r 11 = fp := (hk8 11 (by decide)).trans hfp5
  have hmem : t.mem = storeWords (storeWords s.mem fp (savedRegs.map s.r)) (fp - 64)
      [fp - 80, 0] := by
    rw [hm8]
    show storeWords s₃.mem (fp - 64) _ = _
    rw [hm3]
    rfl
  have hlen8 : 4 * [fp - 80, 0].length ≤ 2 ^ 32 := (by decide : 8 ≤ 2 ^ 32)
  have hlen32 : 4 * (savedRegs.map s.r).length ≤ 2 ^ 32 := (by decide : 32 ≤ 2 ^ 32)
  refine ⟨t, ?_, htfp, ?_, ?_, ?_, ?_, ?_⟩
  · rw [buildPrologue_eq]
    refine (stackRuns_emit4 (by decide) (by decide) (by decide) h₁).append ?_
    refine (stackRuns_emit4 (by decide) (by decide) (by decide) h₂).append (.block h₃ ?_)
    refine (stackRuns_emit4 (by decide) (by decide) (by decide) h₄).append ?_
    refine (stackRuns_emit4 (by decide) (by decide) (by decide) h₅).append ?_
    refine .block (runs_emit4 (by decide) h₆) (.block (runs_emit2 (by decide) h₇) ?_)
    exact .of_runs h₈
  · rw [htfp]
    exact hk8 13 (by decide)
  · have hr2 : t.r 2 = s.r 0 := by
      rw [hk8 2 (by decide)]
      show s₃.r 0 = s.r 0
      rw [hk3 0 (by decide)]
      rfl
    rw [setWidth_eq_pair, ← hr2, ← hr8]
    rfl
  · have hcell : cellAddr p (t.r 11) 10 = fp - 64 := by
      rw [htfp, Stacked.cellAddr_eq ⟨by decide, rfl⟩]
      rfl
    rw [hcell, hmem, doubleword_storeWords, htfp, setWidth_eq_pair]
    rfl
  · rw [htfp, hmem]
    refine (wordsAt_storeWords s.mem fp hlen32).congr hlen32 fun x hx => ?_
    refine storeWords_outside hlen8 (hx.not_of_far ?_ ?_)
    · show 32 ≤ _
      bv_omega
    · show _ + 8 ≤ _
      bv_omega
  · intro x hx
    have hx' : ¬InSpan (fp - 80) 112 x := by
      rw [htfp] at hx
      exact hx
    have hcell : ¬InSpan (fp - 64) 8 x := fun h => hx' (h.mono (by bv_omega))
    have hsaved : ¬InSpan fp 32 x := fun h => hx' (h.mono (by bv_omega))
    rw [hmem, storeWords_outside hlen8 hcell, storeWords_outside hlen32 hsaved]

/-! ### The epilogue -/

/-- A body that started in `t` and ended in `u` kept the frame pointer and the
saved registers. -/
structure KeepsFrame (t u : Core) : Prop where
  fp : u.r 11 = t.r 11
  saved : ∀ x, InSpan (t.r 11) savedSize x → u.mem x = t.mem x

/-- The registers a call of translated code keeps. -/
def keptRegs : List Reg := [4, 5, 6, 7, 8, 9, 11, 13]

/-- The core `w` has those registers from `s`, and the others and the memory
from `u`. -/
structure Restores (s u w : Core) : Prop where
  kept : ∀ i ∈ keptRegs, w.r i = s.r i
  other : ∀ i ∉ keptRegs, w.r i = u.r i
  mem : w.mem = u.mem

theorem buildEpilogue_eq : buildEpilogue = emit4 0xea4f0d0b ++ emit4 0xe8bd8bf0 := by decide

theorem decode_epilogue :
    decodeStack32 0xe8bd8bf0 = some (.popPc 0x8bf0) ∧ decode32 0xe8bd8bf0 = none ∧
      regsOf 0x8bf0 = [4, 5, 6, 7, 8, 9, 11] := by
  decide

/-- `build_epilogue` returns to the saved link register. -/
theorem returns_epilogue {code : Word → BitVec 16} {b : Word}
    (hcode : CodeAt code b buildEpilogue) {s u : Core} (hfp : aligned (u.r 11) = true)
    (hsp : u.r 11 + BitVec.ofNat 32 savedSize = s.r 13)
    (hsaved : WordsAt u.mem (u.r 11) (savedRegs.map s.r)) :
    ∃ w, ReturnsTo code b u (s.r 14) w ∧ Restores s u w := by
  rw [buildEpilogue_eq] at hcode
  obtain ⟨hmov, hpop, hpop', -⟩ := codeAt_append.mp hcode
  let v := u.set 13 (u.r 11)
  have hv : execStackData u (.movSp 13 11) = some v := by
    rw [execStackData, Core.setAligned, hfp]
    rfl
  have hrun : StackRuns (emit4 0xea4f0d0b) u v :=
    stackRuns_emit4 (by decide) (by decide) (by decide) hv
  obtain ⟨hdec, hnot, hregs⟩ := decode_epilogue
  -- the words of the push are those of the pop, the link register's being the last
  have hwords : WordsAt v.mem (v.r 13) ((regsOf 0x8bf0).map s.r ++ [s.r 14]) := by
    rw [hregs]
    exact hsaved
  obtain ⟨w, hstep, hr, hmem⟩ := step_popPc hpop hpop' (by decide) hnot hdec hfp hwords
  rw [hregs] at hr
  have hlist : ∀ i : Reg, i ≠ 13 → (i ∈ ([4, 5, 6, 7, 8, 9, 11] : List Reg) ↔ i ∈ keptRegs) := by
    decide
  refine ⟨w, ⟨_, v, hrun.reaches hmov, hstep⟩, ?_, ?_, hmem⟩
  · intro i hi
    rw [hr i]
    by_cases hsp' : i = 13
    · rw [if_pos hsp', hsp', ← hsp]
      rfl
    · rw [if_neg hsp', if_pos ((hlist i hsp').mpr hi)]
  · intro i hi
    have hsp' : i ≠ 13 := by
      rintro rfl
      exact hi (by decide)
    rw [hr i, if_neg hsp', if_neg fun hmem' => hi ((hlist i hsp').mp hmem')]
    exact if_neg hsp'

/-! ### Both -/

/-- The frame around a body. From a stack pointer that is a multiple of eight,
the prologue builds the frame; and if the body keeps the frame pointer and
the saved registers, the epilogue returns to the caller with the registers
as they were. -/
theorem frame_correct (p : Input) (code : Word → BitVec 16) (a b : Word) (s : Core)
    (hprologue : CodeAt code a (buildPrologue p)) (hepilogue : CodeAt code b buildEpilogue)
    (hsp : (s.r 13).toNat % 8 = 0) :
    ∃ t, Reaches (stackStep code) ⟨a, s⟩ ⟨after a (buildPrologue p).length, t⟩ ∧ Enters p s t ∧
      Layout p (t.r 11) (t.r 13) (loWord (doubleword t.mem (cellAddr p (t.r 11) 10))) ∧
      ∀ u, KeepsFrame t u → ∃ w, ReturnsTo code b u (s.r 14) w ∧ Restores s u w := by
  obtain ⟨t, hrun, ht⟩ := runs_prologue p hsp
  refine ⟨t, hrun.reaches hprologue, ht, ?_, ?_⟩
  · rw [ht.r10, setWidth_eq_pair, loWord_pair, ht.sp]
    exact layout p _
  · intro u hu
    have hlen : 4 * (savedRegs.map s.r).length ≤ 2 ^ 32 := (by decide : 32 ≤ 2 ^ 32)
    have hback : u.r 11 + BitVec.ofNat 32 savedSize = s.r 13 := by
      rw [hu.fp, ht.fp, BitVec.sub_add_cancel]
    have hsaved : WordsAt u.mem (u.r 11) (savedRegs.map s.r) := by
      rw [hu.fp]
      exact ht.saved.congr hlen hu.saved
    have hal : aligned (u.r 11) = true := by
      rw [hu.fp, ht.fp, aligned_iff]
      unfold savedSize
      bv_omega
    exact returns_epilogue hepilogue hal hback hsaved

/-- A caller at `0x100` with something in every register. -/
def caller : Core where
  r := fun i => if i = 13 then 0x20002000 else if i = 14 then 0x101 else 0x5a00 + i.setWidth 32
  n := true
  z := false
  c := true
  v := false
  mem := fun a => a.setWidth 8

/-- A body that moves `2 ^ 35 + 7` to r2, which has its place in the frame. -/
def moveBody : List (BitVec 16) := emitMovI64 (locOf 2).row 0x800000007

theorem moveBody_framed :
    let code : Word → BitVec 16 := fun a =>
      (buildPrologue sumDownInput ++ (moveBody ++ buildEpilogue)).getD (a.toNat / 2) 0
    ∃ t u w, Reaches (stackStep code) ⟨0, caller⟩ ⟨26, t⟩ ∧ t.r 11 = 0x20001fe0 ∧
      Reaches (stackStep code) ⟨26, t⟩ ⟨after 26 moveBody.length, u⟩ ∧
      val u (locOf 2) = 0x800000007 ∧
      ReturnsTo code (after 26 moveBody.length) u 0x101 w ∧
      ∀ i ∈ keptRegs, w.r i = caller.r i := by
  intro code
  obtain ⟨hprologue, hrest⟩ := codeAt_append.mp
    (codeAt_getD [] (buildPrologue sumDownInput ++ (moveBody ++ buildEpilogue)) (by decide +kernel))
  obtain ⟨hbody, hepilogue⟩ := codeAt_append.mp hrest
  obtain ⟨t, hreach, ht, -, hreturn⟩ := frame_correct sumDownInput code 0
    (after 26 moveBody.length) caller hprologue hepilogue (by decide)
  have hfp : t.r 11 = 0x20001fe0 := ht.fp
  obtain ⟨u, hrun, hw⟩ := writes_movI64 (locOf 2) 0x800000007 (s := t) (by rw [hfp]; decide)
  have hkeeps : KeepsFrame t u := by
    refine ⟨hw.fp, fun x hx => hw.mem x fun hframe => ?_⟩
    unfold InSpan savedSize at hx
    unfold InFrame at hframe
    bv_omega
  obtain ⟨w, hback, hrestored⟩ := hreturn u hkeeps
  exact ⟨t, u, w, hreach, hfp, (StackRuns.of_runs hrun).reaches hbody, hw.written, hback,
    hrestored.kept⟩

end RapidPatch.Jit

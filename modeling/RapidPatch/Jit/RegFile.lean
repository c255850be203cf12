import Mathlib.Data.Finset.Card
import Mathlib.Logic.Function.Basic
import RapidPatch.Jit.Fragment
import RapidPatch.Vm.Isa

/-!
The eBPF registers in the processor.

`HoldsRegs ρ` says that the registers r0 to r9 have the contents `ρ` where
the translator keeps them; nothing is said about the temporaries, the flags
and the rest of memory. The code of one instruction is right for contents `ρ`
if from every such core it ends in one that holds the contents the
interpreter leaves (`Refines`). Code has one effect, so that whoever knows
what code does from every core knows for which contents it is right
(`Achieves.lands`). `exists_holdsRegs` finds a core for given contents and a
given choice of everything else.
-/

namespace RapidPatch.Jit

open RapidPatch.Vm RapidPatch.Thumb RapidPatch.Support

abbrev Regs := BitVec 4 → BitVec 64

/-- The core holds the registers r0 to r9 where the translator keeps them. -/
structure HoldsRegs (ρ : Regs) (s : Core) : Prop where
  aligned : aligned (s.r 11)
  regs : ∀ r < 10, val s (locOf r) = ρ r

/-- The core ends with the contents `ρ` in the registers, the same frame and
the memory `m` outside the frame. -/
structure Arrives (ρ : Regs) (m : Mem) (s t : Core) : Prop where
  fp : t.r 11 = s.r 11
  regs : ∀ r < 10, val t (locOf r) = ρ r
  mem : ∀ a, ¬InFrame (s.r 11) a → t.mem a = m a

/-- The code turns the contents `ρ` of the registers into `ρ'` and leaves the
memory outside the frame alone. -/
def Achieves (code : Code) (ρ ρ' : Regs) : Prop :=
  ∀ s, HoldsRegs ρ s → ∃ t, Runs code s t ∧ Arrives ρ' s.mem s t

/-- The code does to the registers what the interpreter does to them. -/
def Refines (c : Call) (i : Inst) (code : Code) (ρ : Regs) : Prop :=
  ∀ v : State, v.reg = ρ → ∃ v', execInst c i v = .cont v' ∧ Achieves code ρ v'.reg

/-- The code does to the registers and the memory what the interpreter does to
them, from the cores that meet a condition. -/
def RefinesMem (c : Call) (i : Inst) (code : Code) (ρ : Regs) (pre : Core → Prop) : Prop :=
  ∀ s, HoldsRegs ρ s → pre s → ∀ v : State, v.reg = ρ → v.mem = s.mem →
    ∃ v', execInst c i v = .cont v' ∧ ∃ t, Runs code s t ∧ Arrives v'.reg v'.mem s t

/-! ### From what code does to what it is right for -/

section

variable {code : Code} {ρ ρ' : Regs} {d : BitVec 4} {v w : BitVec 64} {s t : Core}

theorem HoldsRegs.lands (h : HoldsRegs ρ s) (hd : d < 10) (hw : Writes (locOf d) w s t) :
    Arrives (Function.update ρ d w) s.mem s t := by
  refine ⟨hw.fp, ?_, hw.mem⟩
  intro r hr
  by_cases hrd : r = d
  · rw [hrd, Function.update_self, hw.written]
  · rw [Function.update_of_ne hrd, hw.other _ (locOf_not_temp r)
      fun heq => hrd (locOf_injective hr hd heq), h.regs r hr]

theorem Arrives.reg_eq {m m' : Mem} (h : Arrives ρ m s t) (h' : Arrives ρ' m' s t) {r : BitVec 4}
    (hr : r < 10) : ρ r = ρ' r := (h.regs r hr).symm.trans (h'.regs r hr)

/-- Code that is right ends where it is known to end. -/
theorem Achieves.lands (h : Achieves code ρ ρ') (hs : HoldsRegs ρ s) (hrun : Runs code s t) :
    Arrives ρ' s.mem s t := by
  obtain ⟨u, hu, hland⟩ := h s hs
  rwa [hrun.unique hu]

theorem refines_iff_achieves {c : Call} {i : Inst}
    (hexec : ∀ u : State, u.reg = ρ → execInst c i u = .cont (u.setReg i.dst v)) :
    Refines c i code ρ ↔ Achieves code ρ (Function.update ρ i.dst v) := by
  have hreg : ∀ u : State, u.reg = ρ → (u.setReg i.dst v).reg = Function.update ρ i.dst v := by
    intro u hu
    rw [setReg_eq_update, ← hu]
  constructor
  · intro h
    obtain ⟨u, hu, hach⟩ := h ⟨0, ρ, fun _ => 0, 0⟩ rfl
    rw [hexec _ rfl, Next.cont.injEq] at hu
    rwa [← hu, hreg _ rfl] at hach
  · intro h u hu
    exact ⟨_, hexec u hu, by rwa [hreg u hu]⟩

end

/-! ### What the interpreter does -/

theorem regsInFile_of_lt {i : Inst} (hdst : i.dst < 10) (hsrc : i.op.usesSrc = true → i.src < 10) :
    i.regsInFile = true := by
  have hlt : ∀ r : BitVec 4, r < 10 → r.toNat < maxBpfExtReg := by decide
  simp only [Inst.regsInFile, Bool.and_eq_true, Bool.or_eq_true, Bool.not_eq_eq_eq_not,
    Bool.not_true, decide_eq_true_eq]
  refine ⟨Or.inr (hlt _ hdst), ?_⟩
  by_cases h : i.op.usesSrc = true
  · exact Or.inr (hlt _ (hsrc h))
  · exact Or.inl (by simpa using h)

/-- An instruction of an ALU class reads its source register in its register
form only. -/
theorem regsInFile_of_alu {i : Inst} {op : AluOp} {source : Src}
    (hop : i.op = .alu op source ∨ i.op = .alu64 op source) (hdst : i.dst < 10)
    (hsrc : source = .reg → i.src < 10) : i.regsInFile = true := by
  refine regsInFile_of_lt hdst fun h => hsrc ?_
  cases source with
  | imm =>
      rcases hop with hop | hop
      · rw [hop] at h
        cases h
      · rw [hop] at h
        cases h
  | reg => rfl

theorem refines_alu32_iff {c : Call} {i : Inst} {code : Code} {ρ : Regs} {op : AluOp}
    {source : Src} (hop : i.op = .alu op source) (hdiv : op.isDivision = false)
    (hdst : i.dst < 10) (hsrc : source = .reg → i.src < 10) (hshift : i.ShiftInRange ρ) :
    Refines c i code ρ ↔ Achieves code ρ (Function.update ρ i.dst
      ((isaAlu op (loWord (ρ i.dst)) (operand32 source (ρ i.src) i.imm)).setWidth 64)) := by
  apply refines_iff_achieves
  rintro u rfl
  have hfile := regsInFile_of_alu (.inl hop) hdst hsrc
  simp only [execInst, hfile, hop, alu32_isa hop hdiv hshift]
  rfl

theorem refines_alu64_iff {c : Call} {i : Inst} {code : Code} {ρ : Regs} {op : AluOp}
    {source : Src} (hop : i.op = .alu64 op source) (hdiv : op.isDivision = false)
    (hdst : i.dst < 10) (hsrc : source = .reg → i.src < 10) (hshift : i.ShiftInRange ρ) :
    Refines c i code ρ ↔ Achieves code ρ (Function.update ρ i.dst
      (isaAlu op (ρ i.dst) (operand64 source (ρ i.src) i.imm))) := by
  apply refines_iff_achieves
  rintro u rfl
  have hfile := regsInFile_of_alu (.inr hop) hdst hsrc
  simp only [execInst, hfile, hop, alu64_isa hop hdiv hshift]
  rfl

/-! ### A core for given contents -/

/-- What the contents of the registers leave open, and the translator's
temporaries. -/
structure SameEnv (s t : Core) : Prop where
  high : ∀ i, 6 ≤ i.toNat → t.r i = s.r i
  flags : t.n = s.n ∧ t.z = s.z ∧ t.c = s.c ∧ t.v = s.v
  mem : ∀ a, ¬InFrame (s.r 11) a → t.mem a = s.mem a

/-- The core with 64 bits put at a location. -/
def putLoc (l : Loc) (v : BitVec 64) (s : Core) : Core :=
  match l with
  | .pair p => (s.set (loReg p) (v.setWidth 32)).set (hiReg p) ((v >>> 32).setWidth 32)
  | .slot j =>
      { s with
        mem := store32 (store32 s.mem (slotAddr (s.r 11) j) (v.setWidth 32))
          (slotAddr (s.r 11) j + 4) ((v >>> 32).setWidth 32) }

theorem keeps_putLoc (l : Loc) (v : BitVec 64) (s : Core) :
    val (putLoc l v s) l = v ∧ Keeps [l] s (putLoc l v s) := by
  cases l with
  | pair p =>
      refine ⟨by simp [putLoc, val, pair_halves], keeps_pair rfl ?_⟩
      intro i hlo hhi _ _
      simp [putLoc, hlo, hhi]
  | slot j =>
      obtain ⟨hval, hk⟩ := keeps_store_slot (s := s) (t := putLoc (.slot j) v s) rfl rfl
      exact ⟨by rw [hval, pair_halves], hk⟩

theorem sameEnv_putLoc {r : BitVec 4} (v : BitVec 64) (s : Core) :
    SameEnv s (putLoc (locOf r) v s) := by
  refine ⟨?_, ?_, (keeps_putLoc (locOf r) v s).2.mem⟩
  · intro i hi
    have hcore : ∀ (r : BitVec 4) (p : Fin 5) (i : Reg), locOf r = .pair p → 6 ≤ i.toNat →
        i ≠ loReg p ∧ i ≠ hiReg p := by decide
    cases hl : locOf r with
    | pair p =>
        obtain ⟨hlo, hhi⟩ := hcore r p i hl hi
        simp [putLoc, hlo, hhi]
    | slot j => rfl
  · cases hl : locOf r <;> exact ⟨rfl, rfl, rfl, rfl⟩

theorem SameEnv.trans {s t u : Core} (h : SameEnv s t) (h' : SameEnv t u) : SameEnv s u := by
  refine ⟨fun i hi => (h'.high i hi).trans (h.high i hi), ?_, ?_⟩
  · obtain ⟨hn, hz, hc, hv⟩ := h.flags
    obtain ⟨hn', hz', hc', hv'⟩ := h'.flags
    exact ⟨hn'.trans hn, hz'.trans hz, hc'.trans hc, hv'.trans hv⟩
  · intro a ha
    rw [h'.mem a (by rwa [h.high 11 (by decide)]), h.mem a ha]

/-- The core with some registers put in place, the first of them last. -/
def place (ρ : Regs) (s : Core) : List (BitVec 4) → Core
  | [] => s
  | r :: rs => putLoc (locOf r) (ρ r) (place ρ s rs)

theorem place_spec (ρ : Regs) (s : Core) {rs : List (BitVec 4)} (h10 : ∀ r ∈ rs, r < 10) :
    (∀ r ∈ rs, val (place ρ s rs) (locOf r) = ρ r) ∧ SameEnv s (place ρ s rs) := by
  induction rs with
  | nil =>
      refine ⟨?_, fun _ _ => rfl, ⟨rfl, rfl, rfl, rfl⟩, fun _ _ => rfl⟩
      intro r hr
      cases hr
  | cons r rs ih =>
      obtain ⟨hvals, henv⟩ := ih fun q hq => h10 q (List.mem_cons_of_mem r hq)
      obtain ⟨hval, hk⟩ := keeps_putLoc (locOf r) (ρ r) (place ρ s rs)
      refine ⟨?_, henv.trans (sameEnv_putLoc _ _)⟩
      intro q hq
      by_cases hqr : q = r
      · rw [hqr]
        exact hval
      · have hmem : q ∈ rs := (List.mem_cons.mp hq).resolve_left hqr
        have hne : locOf q ≠ locOf r := fun heq =>
          hqr (locOf_injective (h10 q hq) (h10 r List.mem_cons_self) heq)
        rw [place, hk.same _ (by simpa using hne), hvals q hmem]

/-- Contents can be held with any frame pointer, temporaries, flags and memory
outside the frame. -/
theorem exists_holdsRegs (ρ : Regs) {s : Core} (hfp : aligned (s.r 11)) :
    ∃ t, HoldsRegs ρ t ∧ SameEnv s t := by
  have h10 : ∀ r ∈ [(0 : BitVec 4), 1, 2, 3, 4, 5, 6, 7, 8, 9], r < 10 := by decide
  have hall : ∀ r : BitVec 4, r < 10 → r ∈ [(0 : BitVec 4), 1, 2, 3, 4, 5, 6, 7, 8, 9] := by
    decide
  obtain ⟨hvals, henv⟩ := place_spec ρ s h10
  refine ⟨_, ⟨?_, fun r hr => hvals r (hall r hr)⟩, henv⟩
  rw [henv.high 11 (by decide)]
  exact hfp

def blank (c : Bool) : Core := ⟨fun _ => 0, false, false, c, false, fun _ => 0⟩

theorem exists_holdsRegs_carry (ρ : Regs) (c : Bool) : ∃ t, HoldsRegs ρ t ∧ t.c = c := by
  have hfp : aligned ((blank c).r 11) := (by decide : aligned 0 = true)
  obtain ⟨t, ht, henv⟩ := exists_holdsRegs ρ hfp
  exact ⟨t, ht, henv.flags.2.2.1⟩

/-- Some frame misses any few addresses. -/
theorem exists_frame {l : List Word} (hl : l.length < 1000) :
    ∃ fp : Word, aligned fp = true ∧ ∀ a ∈ l, ¬InFrame fp a := by
  -- the frames below the multiples of 64 are disjoint, and there are more of them than addresses
  have hcard : (l.map fun a => a.toNat / 64).toFinset.card <
      (Finset.range (l.length + 1)).card := by
    rw [Finset.card_range]
    exact (List.toFinset_card_le _).trans_lt (by simp)
  obtain ⟨i, hi, hnot⟩ := Finset.exists_mem_notMem_of_card_lt_card hcard
  have hi : i < l.length + 1 := Finset.mem_range.mp hi
  have hnot : ∀ a ∈ l, a.toNat / 64 ≠ i := by
    intro a ha h
    exact hnot (List.mem_toFinset.mpr (List.mem_map.mpr ⟨a, ha, h⟩))
  refine ⟨BitVec.ofNat 32 (64 * (i + 1)), ?_, ?_⟩
  · rw [aligned_iff, BitVec.toNat_ofNat]
    omega
  · intro a ha hin
    apply hnot a ha
    have hal := a.isLt
    have h56 : (56 : Word).toNat = 56 := rfl
    unfold InFrame at hin
    simp only [BitVec.toNat_sub, BitVec.toNat_ofNat, h56] at hin
    omega

/-- Contents can be held with given bytes at a few addresses outside the frame,
and with given temporaries. -/
theorem exists_core (ρ : Regs) (m : Mem) {l : List Word} (hl : l.length < 1000) :
    ∃ s, HoldsRegs ρ s ∧ s.r 6 = s.r 11 ∧ s.r 7 = 1 ∧
      ∀ a ∈ l, ¬InFrame (s.r 11) a ∧ s.mem a = m a := by
  obtain ⟨fp, hfp, hout⟩ := exists_frame hl
  let s₀ : Core := ⟨fun i => if i = 7 then 1 else fp, false, false, false, false, m⟩
  obtain ⟨s, hs, henv⟩ := exists_holdsRegs ρ (s := s₀) hfp
  have h11 : s.r 11 = fp := henv.high 11 (by decide)
  have h6 : s.r 6 = fp := henv.high 6 (by decide)
  refine ⟨s, hs, h6.trans h11.symm, henv.high 7 (by decide), fun a ha => ?_⟩
  rw [h11]
  exact ⟨hout a ha, henv.mem a (hout a ha)⟩

/-! ### Accesses outside the frame -/

/-- None of the `n` bytes at `a` is in the frame. -/
def Misses (fp a : Word) (n : ℕ) : Prop := ∀ k < n, ¬InFrame fp (a + BitVec.ofNat 32 k)

theorem Misses.mono {fp a : Word} {n k : ℕ} (h : Misses fp a n) (hk : k ≤ n) : Misses fp a k :=
  fun i hi => h i (hi.trans_le hk)

theorem Misses.storeLE {fp a : Word} {n : ℕ} (h : Misses fp a n) (m : Mem) (v : ℕ) {x : Word}
    (hx : InFrame fp x) : storeLE m a n v x = m x := by
  refine if_neg fun hlt => h _ hlt ?_
  rwa [BitVec.ofNat_toNat, BitVec.setWidth_eq, BitVec.add_comm, BitVec.sub_add_cancel]

/-- A slot is as before if the frame is. -/
theorem val_slot_congr {s t : Core} (hfp : t.r 11 = s.r 11)
    (hmem : ∀ a, InFrame (s.r 11) a → t.mem a = s.mem a) (j : Fin 7) :
    val t (.slot j) = val s (.slot j) := by
  have hword : ∀ e : Word, e = 0 ∨ e = 4 →
      load32 t.mem (slotAddr (s.r 11) j + e) = load32 s.mem (slotAddr (s.r 11) j + e) := by
    intro e he
    refine congrArg (BitVec.ofNat 32) (loadLE_congr fun k hk => hmem _ (slot_inFrame j he ?_))
    rw [BitVec.add_comm, BitVec.add_sub_cancel, BitVec.toNat_ofNat]
    omega
  have hlow := hword 0 (Or.inl rfl)
  rw [show slotAddr (s.r 11) j + 0 = slotAddr (s.r 11) j from BitVec.add_zero _] at hlow
  simp only [val, hfp, hlow, hword 4 (Or.inr rfl)]

/-- Contents can be held with given memory at a few addresses that the frame
misses. -/
theorem exists_core_misses (ρ : Regs) (m : Mem) {l : List Word} (hl : l.length < 100) :
    ∃ s, HoldsRegs ρ s ∧ s.r 6 = s.r 11 ∧ s.r 7 = 1 ∧ ∀ a ∈ l, Misses (s.r 11) a 8 ∧
      ∀ k < 8, s.mem (a + BitVec.ofNat 32 k) = m (a + BitVec.ofNat 32 k) := by
  have hlen : (l.flatMap fun a => (List.range 8).map fun k => a + BitVec.ofNat 32 k).length <
      1000 := by
    simp only [List.length_flatMap, List.length_map, List.length_range, List.map_const',
      List.sum_replicate_nat]
    omega
  obtain ⟨s, hs, h6, h7, hmem⟩ := exists_core ρ m hlen
  refine ⟨s, hs, h6, h7, fun a ha => ?_⟩
  have hin : ∀ k < 8, a + BitVec.ofNat 32 k ∈
      l.flatMap fun a => (List.range 8).map fun k => a + BitVec.ofNat 32 k := fun k hk =>
    List.mem_flatMap.mpr ⟨a, ha, List.mem_map.mpr ⟨k, List.mem_range.mpr hk, rfl⟩⟩
  exact ⟨fun k hk => (hmem _ (hin k hk)).1, fun k hk => (hmem _ (hin k hk)).2⟩

/-! ### Code that writes one register -/

/-- Code that writes one register is right exactly if it writes the right
value. -/
theorem achieves_update_iff {code : Code} {ρ : Regs} {d : BitVec 4} {v w : BitVec 64}
    (hd : d < 10)
    (hcode : ∀ s, HoldsRegs ρ s → ∃ t, Runs code s t ∧ Writes (locOf d) w s t) :
    Achieves code ρ (Function.update ρ d v) ↔ v = w := by
  constructor
  · intro h
    obtain ⟨s, hs, -⟩ := exists_holdsRegs_carry ρ false
    obtain ⟨t, ht, hw⟩ := hcode s hs
    have heq := (h.lands hs ht).reg_eq (hs.lands hd hw) hd
    rwa [Function.update_self, Function.update_self] at heq
  · rintro rfl s hs
    obtain ⟨t, ht, hw⟩ := hcode s hs
    exact ⟨t, ht, hs.lands hd hw⟩

/-- Code that runs from no core is right for no contents. -/
theorem not_achieves_of_not_runs {code : Code} {ρ ρ' : Regs} (h : ∀ s t, ¬Runs code s t) :
    ¬Achieves code ρ ρ' := by
  intro hach
  obtain ⟨s, hs, -⟩ := exists_holdsRegs_carry ρ false
  obtain ⟨t, ht, -⟩ := hach s hs
  exact h s t ht

def single (i : Inst) : Input where
  insts := fun _ => i
  instNum := 1
  callBase := fun _ => 0
  behind := (0, 0)

def singleCall (i : Inst) : Call where
  vm := { insts := fun _ _ => i, boundsCheckEnabled := false, extFuncs := fun _ => none }
  mem := 0
  memLen := 0
  stack := 0
  overshift := fun _ _ => 0
  oneShl32 := 0

def genPass : Pass where
  needGen := true
  offsets := fun _ => 0
  epilogueOffset := 0

end RapidPatch.Jit

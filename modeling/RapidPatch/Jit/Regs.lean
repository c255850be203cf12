import Mathlib.Tactic.IntervalCases
import RapidPatch.Jit.Decode
import RapidPatch.Thumb.WordPair

/-!
Where the eBPF registers live.

A row of `bpf2a32` is a register pair or a doubleword below the frame
pointer; both are a `Loc`, and `Core.val` reads the 64 bits that are there.
Blocks of code are specified by the values of the locations they write and
by `Keeps`, which says that every other location is as before, and so is the
memory outside the frame that holds the doublewords. The lemmas
about getting and putting registers are the only ones that look at loads
and stores; the arithmetic works on pairs.
-/

namespace RapidPatch.Jit

open RapidPatch.Vm RapidPatch.Thumb RapidPatch.Support

/-! ### Locations -/

/-- There are pairs: what the numerals of `Fin 5` rest on. -/
instance neZero_pairs : NeZero 5 := ⟨by decide⟩

def lo (p : Fin 5) : ℤ := 2 * (p : ℤ)

def hi (p : Fin 5) : ℤ := 2 * (p : ℤ) + 1

/-- The pair of `TMP_REG_2`. -/
abbrev tmpPair : Fin 5 := 4

def loReg (p : Fin 5) : Reg := BitVec.ofNat 4 (2 * p)

def hiReg (p : Fin 5) : Reg := BitVec.ofNat 4 (2 * p + 1)

/-- The distance of a doubleword below the frame pointer. -/
def depth (j : Fin 7) : ℕ := 8 + 8 * j

/-- One of the pairs R1:R0 to R9:R8, or one of the doublewords below the
frame pointer that hold eBPF registers. -/
inductive Loc
  | pair (p : Fin 5)
  | slot (j : Fin 7)
  deriving DecidableEq

def Loc.row : Loc → Row
  | .pair p => (hi p, lo p)
  | .slot j => (4 - (depth j : ℤ), -(depth j : ℤ))

def locOf (reg : BitVec 4) : Loc :=
  match reg.toNat with
  | 0 => .pair 0
  | 1 => .pair 1
  | 2 => .slot 0
  | 3 => .slot 1
  | 4 => .slot 2
  | 5 => .slot 3
  | 6 => .pair 2
  | 7 => .slot 4
  | 8 => .slot 5
  | _ => .slot 6

theorem bpf2a32_eq_row (behind : Row) {reg : BitVec 4} (h : reg < 10) :
    bpf2a32 behind reg = (locOf reg).row := by
  have hnat : reg.toNat < 10 := h
  unfold bpf2a32 locOf
  interval_cases reg.toNat <;> rfl

/-- `TMP_REG_1` and `TMP_REG_2` hold no eBPF register. -/
def Loc.IsTemp (l : Loc) : Prop := l = .pair 3 ∨ l = .pair 4

theorem locOf_not_temp (reg : BitVec 4) : ¬(locOf reg).IsTemp := by
  unfold Loc.IsTemp
  revert reg
  decide

theorem locOf_injective : ∀ {a b : BitVec 4}, a < 10 → b < 10 → locOf a = locOf b → a = b := by
  decide

theorem tmpReg1_eq : tmpReg1 = (Loc.pair 3).row := rfl

theorem tmpReg2_eq : tmpReg2 = (Loc.pair 4).row := rfl

@[simp] theorem isStacked_lo (p : Fin 5) : isStacked (lo p) = false := by
  revert p
  decide

@[simp] theorem isStacked_hi (p : Fin 5) : isStacked (hi p) = false := by
  revert p
  decide

@[simp] theorem isStacked_slot (j : Fin 7) : isStacked (-(depth j : ℤ)) = true := by
  revert j
  decide

@[simp] theorem isStacked_slot_hi (j : Fin 7) : isStacked (4 - (depth j : ℤ)) = true := by
  revert j
  decide

@[simp] theorem row_pair_lo (p : Fin 5) : (Loc.pair p).row.lo = lo p := rfl

@[simp] theorem row_pair_hi (p : Fin 5) : (Loc.pair p).row.hi = hi p := rfl

@[simp] theorem row_slot_lo (j : Fin 7) : (Loc.slot j).row.lo = -(depth j : ℤ) := rfl

@[simp] theorem row_slot_hi (j : Fin 7) : (Loc.slot j).row.hi = 4 - (depth j : ℤ) := rfl

/-! ### Registers of the processor -/

@[simp] theorem loReg_inj {p q : Fin 5} : loReg p = loReg q ↔ p = q := by
  revert p q
  decide

@[simp] theorem hiReg_inj {p q : Fin 5} : hiReg p = hiReg q ↔ p = q := by
  revert p q
  decide

@[simp] theorem loReg_ne_hiReg (p q : Fin 5) : loReg p ≠ hiReg q := by
  revert p q
  decide

@[simp] theorem hiReg_ne_loReg (p q : Fin 5) : hiReg p ≠ loReg q := (loReg_ne_hiReg q p).symm

/-! The frame pointer, `IP` and `LR` are in no pair. -/

@[simp] theorem loReg_ne (p : Fin 5) : loReg p ≠ 11#4 ∧ loReg p ≠ 12#4 ∧ loReg p ≠ 14#4 := by
  revert p
  decide

@[simp] theorem hiReg_ne (p : Fin 5) : hiReg p ≠ 11#4 ∧ hiReg p ≠ 12#4 ∧ hiReg p ≠ 14#4 := by
  revert p
  decide

@[simp] theorem ne_loReg (p : Fin 5) : 11#4 ≠ loReg p ∧ 12#4 ≠ loReg p ∧ 14#4 ≠ loReg p := by
  revert p
  decide

@[simp] theorem ne_hiReg (p : Fin 5) : 11#4 ≠ hiReg p ∧ 12#4 ≠ hiReg p ∧ 14#4 ≠ hiReg p := by
  revert p
  decide

@[simp] theorem set_r (s : Core) (rd i : Reg) (x : Word) :
    (s.set rd x).r i = if i = rd then x else s.r i := rfl

@[simp] theorem set_mem (s : Core) (rd : Reg) (x : Word) : (s.set rd x).mem = s.mem := rfl

@[simp] theorem set_c (s : Core) (rd : Reg) (x : Word) : (s.set rd x).c = s.c := rfl

@[simp] theorem setNZ_r (s : Core) (x : Word) : (s.setNZ x).r = s.r := rfl

@[simp] theorem setNZ_mem (s : Core) (x : Word) : (s.setNZ x).mem = s.mem := rfl

@[simp] theorem setNZ_c (s : Core) (x : Word) : (s.setNZ x).c = s.c := rfl

@[simp] theorem setFlags_r (s : Core) (res : Word × Bool × Bool) :
    (s.setFlags res).r = s.r := rfl

@[simp] theorem setFlags_mem (s : Core) (res : Word × Bool × Bool) :
    (s.setFlags res).mem = s.mem := rfl

@[simp] theorem setFlags_c (s : Core) (res : Word × Bool × Bool) :
    (s.setFlags res).c = res.2.1 := rfl

@[simp] theorem dp_r (s : Core) (op : DpOp) (f : Bool) (rd rn rm i : Reg) (t : SRType) (k : ℕ) :
    (s.dp op f rd rn rm t k).r i =
      if i = rd then (dpResult op s (s.r rn) (shiftC t (s.r rm) k s.c).1
        (shiftC t (s.r rm) k s.c).2).1 else s.r i := by
  cases f <;> rfl

@[simp] theorem dp_mem (s : Core) (op : DpOp) (f : Bool) (rd rn rm : Reg) (t : SRType) (k : ℕ) :
    (s.dp op f rd rn rm t k).mem = s.mem := by
  cases f <;> rfl

/-! ### Values -/

def slotAddr (fp : Word) (j : Fin 7) : Word := fp - BitVec.ofNat 32 (depth j)

def val (s : Core) : Loc → BitVec 64
  | .pair p => s.r (hiReg p) ++ s.r (loReg p)
  | .slot j => load32 s.mem (slotAddr (s.r 11) j + 4) ++ load32 s.mem (slotAddr (s.r 11) j)

/-- The bytes of the doublewords below the frame pointer. -/
def InFrame (fp a : Word) : Prop := (a - (fp - 56)).toNat < 56

/-- Every location but those listed is as before, and so are the frame pointer
and the memory outside the frame. -/
structure Keeps (ls : List Loc) (s t : Core) : Prop where
  fp : t.r 11 = s.r 11
  same : ∀ l ∉ ls, val t l = val s l
  mem : ∀ a, ¬InFrame (s.r 11) a → t.mem a = s.mem a

theorem Keeps.refl (ls : List Loc) (s : Core) : Keeps ls s s :=
  ⟨rfl, fun _ _ => rfl, fun _ _ => rfl⟩

theorem Keeps.mono {ls ls' : List Loc} {s t : Core} (h : Keeps ls s t) (hsub : ls ⊆ ls') :
    Keeps ls' s t :=
  ⟨h.fp, fun l hl => h.same l fun hmem => hl (hsub hmem), h.mem⟩

theorem Keeps.trans {ls ls' : List Loc} {s t u : Core} (h : Keeps ls s t) (h' : Keeps ls' t u) :
    Keeps (ls ++ ls') s u := by
  refine ⟨h'.fp.trans h.fp, ?_, ?_⟩
  · intro l hl
    rw [List.mem_append, not_or] at hl
    rw [h'.same l hl.2, h.same l hl.1]
  · intro a ha
    rw [h'.mem a (by rwa [h.fp]), h.mem a ha]

theorem keeps_pairs {p q : Fin 5} {s t : Core} (hmem : t.mem = s.mem)
    (hreg : ∀ i, i ≠ loReg p → i ≠ hiReg p → i ≠ loReg q → i ≠ hiReg q → i ≠ 12 → i ≠ 14 →
      t.r i = s.r i) : Keeps [.pair p, .pair q] s t := by
  have hfp : t.r 11 = s.r 11 :=
    hreg 11 (by simp) (by simp) (by simp) (by simp) (by decide) (by decide)
  refine ⟨hfp, ?_, fun a _ => by rw [hmem]⟩
  intro l hl
  cases l with
  | pair r =>
      simp only [List.mem_cons, Loc.pair.injEq, List.not_mem_nil, or_false, not_or] at hl
      simp only [val]
      rw [hreg (hiReg r) (by simp) (by simpa using hl.1) (by simp) (by simpa using hl.2) (by simp)
          (by simp),
        hreg (loReg r) (by simpa using hl.1) (by simp) (by simpa using hl.2) (by simp) (by simp)
          (by simp)]
  | slot j => simp only [val, hmem, hfp]

theorem keeps_pair {p : Fin 5} {s t : Core} (hmem : t.mem = s.mem)
    (hreg : ∀ i, i ≠ loReg p → i ≠ hiReg p → i ≠ 12 → i ≠ 14 → t.r i = s.r i) :
    Keeps [.pair p] s t := by
  have hkeep : Keeps [.pair p, .pair p] s t :=
    keeps_pairs hmem fun i hlo hhi _ _ h12 h14 => hreg i hlo hhi h12 h14
  exact hkeep.mono (by simp)

/-! ### One instruction at a time -/

section Runs

variable {s t : Core} {d : Data}

theorem isWide_of_decode32 {x : BitVec 32} {i : Instr} (hd : decode32 x = some i) :
    isWide ((x >>> 16).setWidth 16) = true := by
  have htop : bits x 27 5 ≥ 0b11101 := by
    have hcases : ∀ y : BitVec 5, y ≥ 0b11101 ∨
        (y.toNat ≠ 0b11101 ∧ y.toNat ≠ 0b11110 ∧ y.toNat ≠ 0b11111) := by decide
    rcases hcases (bits x 27 5) with h | ⟨h1, h2, h3⟩
    · exact h
    · unfold decode32 at hd
      split at hd <;> contradiction
  rw [isWide_halfword]
  simpa using htop

theorem isWide_of_decode16 {x : BitVec 16} {i : Instr} (hd : decode16 x = some i) :
    isWide x = false := by
  have hcases : ∀ y : BitVec 5, (decide (y ≥ 0b11101)) = false ∨
      (y.toNat = 0b11101 ∨ y.toNat = 0b11110 ∨ y.toNat = 0b11111) := by decide
  rcases hcases (bits x 11 5) with h | h | h | h
  · exact h
  all_goals simp [decode16, h] at hd

theorem runs_emit4 {x : BitVec 32} (hd : decode32 x = some (.data d))
    (he : execData s d = some t) : Runs (emit4 x) s t :=
  Runs.wide (isWide_of_decode32 hd) (by rw [halfwords]; exact hd) he

theorem runs_emit2 {x : BitVec 16} (hd : decode16 x = some (.data d))
    (he : execData s d = some t) : Runs (emit2 x) s t :=
  Runs.narrow (isWide_of_decode16 hd) hd he

end Runs

/-! ### Loads and stores of a slot -/

theorem decode_ldrd : ∀ (p : Fin 5) (j : Fin 7),
    decode32 (thumb32LdrdImmT1 (hi p, lo p) armFp (offWord (-(depth j : ℤ)))) =
      some (.data (.ldrd (loReg p) (hiReg p) 11 (depth j))) := by
  decide

theorem decode_strd : ∀ (p : Fin 5) (j : Fin 7),
    decode32 (thumb32StrdImmT1 (hi p, lo p) armFp (offWord (-(depth j : ℤ)))) =
      some (.data (.strd (loReg p) (hiReg p) 11 (depth j))) := by
  decide

theorem decode_ldr_lo : ∀ (p : Fin 5) (j : Fin 7),
    decode32 (thumb32LdrImmT4 (lo p) armFp (offWord (-(depth j : ℤ)))) =
      some (.data (.ldr (loReg p) 11 (depth j))) := by
  decide

theorem decode_ldr_hi : ∀ (p : Fin 5) (j : Fin 7),
    decode32 (thumb32LdrImmT4 (hi p) armFp (offWord (4 - (depth j : ℤ)))) =
      some (.data (.ldr (hiReg p) 11 (depth j - 4))) := by
  decide

theorem offWord_slot_ne_zero : ∀ j : Fin 7, offWord (-(depth j : ℤ)) ≠ 0 ∧
    offWord (4 - (depth j : ℤ)) ≠ 0 := by
  decide

theorem emitLdrI_lo (p : Fin 5) (j : Fin 7) :
    emitLdrI (lo p) armFp (offWord (-(depth j : ℤ))) =
      emit4 (thumb32LdrImmT4 (lo p) armFp (offWord (-(depth j : ℤ)))) :=
  if_neg (offWord_slot_ne_zero j).1

theorem emitLdrI_hi (p : Fin 5) (j : Fin 7) :
    emitLdrI (hi p) armFp (offWord (4 - (depth j : ℤ))) =
      emit4 (thumb32LdrImmT4 (hi p) armFp (offWord (4 - (depth j : ℤ)))) :=
  if_neg (offWord_slot_ne_zero j).2

theorem aligned_slotAddr {fp : Word} (h : aligned fp) (j : Fin 7) : aligned (slotAddr fp j) := by
  rw [aligned_iff] at h ⊢
  have hj := j.isLt
  have hfp := fp.isLt
  simp only [slotAddr, depth, BitVec.toNat_sub, BitVec.toNat_ofNat]
  omega

/-- Words of different slots, and the two words of a slot, do not overlap. -/
theorem slot_disjoint (fp : Word) (j j' : Fin 7) {e e' : Word} (he : e = 0 ∨ e = 4)
    (he' : e' = 0 ∨ e' = 4) (hne : j ≠ j' ∨ e ≠ e') :
    4 ≤ (slotAddr fp j + e - (slotAddr fp j' + e')).toNat := by
  have hdist : slotAddr fp j + e - (slotAddr fp j' + e') =
      BitVec.ofNat 32 (depth j') - BitVec.ofNat 32 (depth j) + e - e' := by
    unfold slotAddr
    grind
  have hj := j.isLt
  have hj' := j'.isLt
  have hne : (j : ℕ) ≠ j' ∨ e ≠ e' := hne.imp_left fun h hv => h (Fin.ext hv)
  have h4 : (4 : Word).toNat = 4 := rfl
  have h0 : (0 : Word).toNat = 0 := rfl
  rw [hdist]
  simp only [depth]
  rcases he with rfl | rfl <;> rcases he' with rfl | rfl <;>
    simp only [ne_eq, not_true_eq_false, or_false, BitVec.toNat_sub, BitVec.toNat_add,
      BitVec.toNat_ofNat, h4, h0] at hne ⊢ <;> omega

theorem runs_ldrd (p : Fin 5) (j : Fin 7) {s : Core} (hfp : aligned (s.r 11)) :
    ∃ t, Runs (emitLdrdI (Loc.pair p).row armFp (offWord (-(depth j : ℤ)))) s t ∧
      val t (.pair p) = val s (.slot j) ∧ Keeps [.pair p] s t := by
  have hex : execData s (.ldrd (loReg p) (hiReg p) 11 (depth j)) =
      some ((s.set (loReg p) (load32 s.mem (slotAddr (s.r 11) j))).set (hiReg p)
        (load32 s.mem (slotAddr (s.r 11) j + 4))) := if_pos (aligned_slotAddr hfp j)
  refine ⟨_, runs_emit4 (decode_ldrd p j) hex, ?_, ?_⟩
  · simp [val]
  · refine keeps_pair rfl ?_
    intro i hlo hhi _ _
    simp [hlo, hhi]

theorem store_slot {fp : Word} {j : Fin 7} {m m' : Mem} {x y : Word}
    (hm : m' = store32 (store32 m (slotAddr fp j) x) (slotAddr fp j + 4) y) :
    load32 m' (slotAddr fp j) = x ∧ load32 m' (slotAddr fp j + 4) = y ∧
      ∀ j' ≠ j, ∀ e, e = 0 ∨ e = 4 →
        load32 m' (slotAddr fp j' + e) = load32 m (slotAddr fp j' + e) := by
  subst hm
  have hzero : ∀ a : Word, a + 0 = a := BitVec.add_zero
  have h04 := slot_disjoint fp j j (Or.inl rfl) (Or.inr rfl) (Or.inr (by decide))
  have h40 := slot_disjoint fp j j (Or.inr rfl) (Or.inl rfl) (Or.inr (by decide))
  rw [hzero] at h04 h40
  refine ⟨?_, load32_store32 _ _ _, ?_⟩
  · rw [load32_store32_of_disjoint _ _ _ _ h04 h40, load32_store32]
  · intro j' hj e he
    have hfar := slot_disjoint fp j' j he (Or.inr rfl) (Or.inl hj)
    have hfar' := slot_disjoint fp j j' (Or.inr rfl) he (Or.inl hj.symm)
    have hfar0 := slot_disjoint fp j' j he (Or.inl rfl) (Or.inl hj)
    have hfar0' := slot_disjoint fp j j' (Or.inl rfl) he (Or.inl hj.symm)
    rw [hzero] at hfar0 hfar0'
    rw [load32_store32_of_disjoint _ _ _ _ hfar hfar',
      load32_store32_of_disjoint _ _ _ _ hfar0 hfar0']

theorem slot_inFrame {fp : Word} (j : Fin 7) {e a : Word} (he : e = 0 ∨ e = 4)
    (ha : (a - (slotAddr fp j + e)).toNat < 4) : InFrame fp a := by
  have hj := j.isLt
  have h4 : (4 : Word).toNat = 4 := rfl
  have h0 : (0 : Word).toNat = 0 := rfl
  have h56 : (56 : Word).toNat = 56 := rfl
  have hfp := fp.isLt
  have hal := a.isLt
  unfold InFrame
  simp only [slotAddr, depth] at ha
  rcases he with rfl | rfl <;>
    simp only [BitVec.toNat_sub, BitVec.toNat_add, BitVec.toNat_ofNat, h0, h4, h56] at ha ⊢ <;>
    omega

theorem store_slot_outside {fp : Word} {j : Fin 7} {m : Mem} {x y a : Word}
    (ha : ¬InFrame fp a) :
    store32 (store32 m (slotAddr fp j) x) (slotAddr fp j + 4) y a = m a := by
  have hlo : ¬(a - slotAddr fp j).toNat < 4 := by
    intro h
    rw [← BitVec.add_zero (slotAddr fp j)] at h
    exact ha (slot_inFrame j (Or.inl rfl) h)
  have hhi : ¬(a - (slotAddr fp j + 4)).toNat < 4 :=
    fun h => ha (slot_inFrame j (Or.inr rfl) h)
  simp only [store32, storeLE, hlo, hhi, if_false]

theorem keeps_store_slot {j : Fin 7} {s t : Core} {x y : Word} (hr : t.r = s.r)
    (hm : t.mem = store32 (store32 s.mem (slotAddr (s.r 11) j) x) (slotAddr (s.r 11) j + 4) y) :
    val t (.slot j) = y ++ x ∧ Keeps [.slot j] s t := by
  obtain ⟨hlo, hhi, hother⟩ := store_slot hm
  refine ⟨by simp only [val, hr, hlo, hhi], by rw [hr], ?_,
    fun a ha => by rw [hm, store_slot_outside ha]⟩
  intro l hl
  cases l with
  | pair q => simp only [val, hr]
  | slot j' =>
      have hj : j' ≠ j := by
        rintro rfl
        exact hl (List.mem_singleton.mpr rfl)
      have hlo' := hother j' hj 0 (Or.inl rfl)
      rw [show slotAddr (s.r 11) j' + 0 = slotAddr (s.r 11) j' from BitVec.add_zero _] at hlo'
      simp only [val, hr, hlo', hother j' hj 4 (Or.inr rfl)]

theorem runs_strd (p : Fin 5) (j : Fin 7) {s : Core} (hfp : aligned (s.r 11)) :
    ∃ t, Runs (emitStrdI (Loc.pair p).row armFp (offWord (-(depth j : ℤ)))) s t ∧
      val t (.slot j) = val s (.pair p) ∧ Keeps [.slot j] s t := by
  have hex : execData s (.strd (loReg p) (hiReg p) 11 (depth j)) =
      some { s with
        mem := store32 (store32 s.mem (slotAddr (s.r 11) j) (s.r (loReg p)))
          (slotAddr (s.r 11) j + 4) (s.r (hiReg p)) } := if_pos (aligned_slotAddr hfp j)
  exact ⟨_, runs_emit4 (decode_strd p j) hex, keeps_store_slot rfl rfl⟩

/-! ### Getting and putting a register -/

/-- The pair that holds a register once it is loaded. -/
def Loc.core (l : Loc) (tmp : Fin 5) : Fin 5 :=
  match l with
  | .pair p => p
  | .slot _ => tmp

theorem getReg64_row (l : Loc) (tmp : Fin 5) :
    (armBpfGetReg64 l.row (Loc.pair tmp).row).2 = (Loc.pair (l.core tmp)).row := by
  cases l <;> simp [armBpfGetReg64, Loc.core]

theorem runs_getReg64 (l : Loc) (tmp : Fin 5) {s : Core} (hfp : aligned (s.r 11)) :
    ∃ t, Runs (armBpfGetReg64 l.row (Loc.pair tmp).row).1 s t ∧
      val t (.pair (l.core tmp)) = val s l ∧ Keeps [.pair tmp] s t := by
  cases l with
  | pair p => exact ⟨s, by simpa [armBpfGetReg64] using Runs.nil s, rfl, .refl _ s⟩
  | slot j =>
      obtain ⟨t, hrun, hval, hkeep⟩ := runs_ldrd tmp j hfp
      exact ⟨t, by simpa [armBpfGetReg64] using hrun, hval, hkeep⟩

theorem runs_putReg64 (l : Loc) (tmp : Fin 5) {s : Core} (hfp : aligned (s.r 11)) :
    ∃ t, Runs (armBpfPutReg64 l.row (Loc.pair (l.core tmp)).row) s t ∧
      val t l = val s (.pair (l.core tmp)) ∧ Keeps [l] s t := by
  cases l with
  | pair p => exact ⟨s, by simpa [armBpfPutReg64, Loc.core] using Runs.nil s, rfl, .refl _ s⟩
  | slot j =>
      obtain ⟨t, hrun, hval, hkeep⟩ := runs_strd tmp j hfp
      exact ⟨t, by simpa [armBpfPutReg64, Loc.core] using hrun, hval, hkeep⟩

theorem slotAddr_hi (fp : Word) (j : Fin 7) :
    fp - BitVec.ofNat 32 (depth j - 4) = slotAddr fp j + 4 := by
  have hsplit : BitVec.ofNat 32 (depth j) = BitVec.ofNat 32 (depth j - 4) + 4 := by
    have hfour : depth j = depth j - 4 + 4 := by
      unfold depth
      omega
    rw [hfour, BitVec.ofNat_add, ← hfour]
    rfl
  unfold slotAddr
  rw [hsplit]
  grind

theorem getReg32_reg (l : Loc) (tmp : Fin 5) :
    (armBpfGetReg32 l.row.hi (hi tmp)).2 = hi (l.core tmp) ∧
      (armBpfGetReg32 l.row.lo (lo tmp)).2 = lo (l.core tmp) := by
  cases l <;> simp [armBpfGetReg32, Loc.core]

theorem runs_getReg32_pair (l : Loc) (tmp : Fin 5) (s : Core) :
    ∃ t, Runs ((armBpfGetReg32 l.row.hi (hi tmp)).1 ++ (armBpfGetReg32 l.row.lo (lo tmp)).1) s t ∧
      val t (.pair (l.core tmp)) = val s l ∧ Keeps [.pair tmp] s t := by
  cases l with
  | pair p => exact ⟨s, by simpa [armBpfGetReg32] using Runs.nil s, rfl, .refl _ s⟩
  | slot j =>
      let u := s.set (hiReg tmp) (load32 s.mem (slotAddr (s.r 11) j + 4))
      let v := u.set (loReg tmp) (load32 s.mem (slotAddr (s.r 11) j))
      have hfp : u.r 11 = s.r 11 := by simp [u]
      have h1 : execData s (.ldr (hiReg tmp) 11 (depth j - 4)) = some u := by
        simp only [execData, slotAddr_hi, u]
      have h2 : execData u (.ldr (loReg tmp) 11 (depth j)) = some v := by
        simp only [execData, hfp]
        rfl
      refine ⟨v, ?_, ?_, ?_⟩
      · simp only [armBpfGetReg32, row_slot_hi, row_slot_lo, isStacked_slot, isStacked_slot_hi,
          if_true, emitLdrI_hi, emitLdrI_lo]
        exact (runs_emit4 (decode_ldr_hi tmp j) h1).append (runs_emit4 (decode_ldr_lo tmp j) h2)
      · simp [val, u, v, Loc.core]
      · refine keeps_pair rfl ?_
        intro i hlo hhi _ _
        simp [u, v, hlo, hhi]

theorem decode_mov_ip : ∀ p : Fin 5,
    decode16 (thumb16MovRegT1 (lo p) armIp) = some (.data (.movReg (loReg p) 12)) := by
  decide

/-- The low word from `IP` and the high word from the pair, put one at a
time. -/
theorem runs_putReg32_pair (l : Loc) (tmp : Fin 5) (s : Core) :
    ∃ t, Runs (armBpfPutReg32 l.row.lo armIp ++ armBpfPutReg32 l.row.hi (hi (l.core tmp))) s t ∧
      val t l = s.r (hiReg (l.core tmp)) ++ s.r 12 ∧ Keeps [l] s t := by
  cases l with
  | pair p =>
      have hex : execData s (.movReg (loReg p) 12) = some (s.set (loReg p) (s.r 12)) := rfl
      have hcode : ∀ p : Fin 5, armBpfPutReg32 (lo p) armIp ++ armBpfPutReg32 (hi p) (hi p) =
          emit2 (thumb16MovRegT1 (lo p) armIp) := by decide
      refine ⟨_, (hcode p).symm ▸ runs_emit2 (decode_mov_ip p) hex, ?_, ?_⟩
      · simp [val, Loc.core]
      · refine keeps_pair rfl ?_
        intro i hlo _ _ _
        simp [hlo]
  | slot j =>
      have hlo : ∀ j : Fin 7, ∃ x, emitStrI armFp armIp (offWord (-(depth j : ℤ))) = emit4 x ∧
          decode32 x = some (.data (.str 12 11 (depth j))) :=
        fun j => ⟨_, rfl, by revert j; decide⟩
      have hhi : ∀ (p : Fin 5) (j : Fin 7), ∃ x,
          emitStrI armFp (hi p) (offWord (4 - (depth j : ℤ))) = emit4 x ∧
            decode32 x = some (.data (.str (hiReg p) 11 (depth j - 4))) :=
        fun p j => ⟨_, rfl, by revert p j; decide⟩
      obtain ⟨x, hx, hdx⟩ := hlo j
      obtain ⟨y, hy, hdy⟩ := hhi tmp j
      let u : Core := { s with mem := store32 s.mem (slotAddr (s.r 11) j) (s.r 12) }
      let v : Core :=
        { u with mem := store32 u.mem (slotAddr (s.r 11) j + 4) (s.r (hiReg tmp)) }
      have h1 : execData s (.str 12 11 (depth j)) = some u := rfl
      have h2 : execData u (.str (hiReg tmp) 11 (depth j - 4)) = some v := by
        simp only [execData, slotAddr_hi, u, v]
      refine ⟨v, ?_, keeps_store_slot rfl rfl⟩
      simp only [armBpfPutReg32, row_slot_hi, row_slot_lo, isStacked_slot, isStacked_slot_hi,
        if_true, Loc.core, hx, hy]
      exact (runs_emit4 hdx h1).append (runs_emit4 hdy h2)

end RapidPatch.Jit

import RapidPatch.Jit.RegFile

/-!
Single words of the eBPF registers.

The emitters that work on one word at a time load and store halves of a
location through any core register. The lemmas here give the exact core
after a load or a move, flags included, and what a store makes of its
location. `Sets` is the specification of one instruction in between: it
changes one register and neither memory nor anything else but the flags.
-/

namespace RapidPatch.Jit

open RapidPatch.Vm RapidPatch.Thumb RapidPatch.Support

/-! ### Halves of a location -/

/-- The entry of a row for one word. -/
def Loc.half (l : Loc) (h : Bool) : ℤ := if h then l.row.hi else l.row.lo

def wordOf (h : Bool) (x : BitVec 64) : Word := if h then hiWord x else loWord x

def setWord (h : Bool) (x : BitVec 64) (w : Word) : BitVec 64 :=
  if h then w ++ loWord x else hiWord x ++ w

def wordOff (h : Bool) : Word := if h then 4 else 0

theorem wordOff_ne : ∀ h' h : Bool, h' ≠ h → wordOff h' ≠ wordOff h := by decide

def wordDepth (h : Bool) (j : Fin 7) : ℕ := if h then depth j - 4 else depth j

theorem wordDepth_addr (h : Bool) (fp : Word) (j : Fin 7) :
    fp - BitVec.ofNat 32 (wordDepth h j) = slotAddr fp j + wordOff h := by
  cases h with
  | false => exact (BitVec.add_zero _).symm
  | true => exact slotAddr_hi fp j

@[simp] theorem half_pair (h : Bool) (p : Fin 5) :
    (Loc.pair p).half h = ((halfReg h p).toNat : ℤ) := by
  cases h with
  | false => exact lo_eq p
  | true => exact hi_eq p

theorem isStacked_slot_half : ∀ (h : Bool) (j : Fin 7), isStacked ((Loc.slot j).half h) = true := by
  decide

theorem isStacked_reg (r : Reg) : isStacked (r.toNat : ℤ) = false := by
  simp [isStacked]

@[simp] theorem badReg_half : ∀ (h : Bool) (p : Fin 5), badReg (halfReg h p) = false := by
  decide

@[simp] theorem halfReg_inj {h : Bool} {p q : Fin 5} : halfReg h p = halfReg h q ↔ p = q := by
  revert h p q
  decide

theorem halfReg_apart : ∀ (h : Bool) (p q : Fin 5), p ≠ q →
    halfReg h p ≠ loReg q ∧ halfReg h p ≠ hiReg q := by
  decide

theorem wordOf_val_pair (h : Bool) (p : Fin 5) (s : Core) :
    wordOf h (val s (.pair p)) = s.r (halfReg h p) := by
  cases h <;> simp [wordOf, val, halfReg]

theorem wordOf_val_slot (h : Bool) (j : Fin 7) (s : Core) :
    wordOf h (val s (.slot j)) = load32 s.mem (slotAddr (s.r 11) j + wordOff h) := by
  cases h with
  | false =>
      simp only [wordOf, val, wordOff, Bool.false_eq_true, if_false, loWord_pair]
      rw [show slotAddr (s.r 11) j + 0 = slotAddr (s.r 11) j from BitVec.add_zero _]
  | true => simp [wordOf, val, wordOff]

/-! ### Moves and loads -/

theorem decode_movReg : ∀ rd rs : Reg, badReg rd = false → badReg rs = false →
    emitMovReg (rs.toNat : ℤ) (rd.toNat : ℤ) = emit2 (thumb16MovRegT1 rd.toNat rs.toNat) ∧
      decode16 (thumb16MovRegT1 rd.toNat rs.toNat) = some (.data (.movReg rd rs)) := by
  decide

theorem runs_emitMovReg {rd rs : Reg} (hd : badReg rd = false) (hs : badReg rs = false)
    (s : Core) : Runs (emitMovReg (rs.toNat : ℤ) (rd.toNat : ℤ)) s (s.set rd (s.r rs)) := by
  obtain ⟨hcode, hdec⟩ := decode_movReg rd rs hd hs
  rw [hcode]
  exact runs_emit2 hdec rfl

theorem decode_ldr_word : ∀ (h : Bool) (r : Reg) (j : Fin 7), badReg r = false →
    emitLdrI (r.toNat : ℤ) armFp (offWord ((Loc.slot j).half h)) =
        emit4 (thumb32LdrImmT4 r.toNat armFp (offWord ((Loc.slot j).half h))) ∧
      decode32 (thumb32LdrImmT4 r.toNat armFp (offWord ((Loc.slot j).half h))) =
        some (.data (.ldr r 11 (wordDepth h j))) := by
  decide

/-- The register that holds a word once it is loaded. -/
def Loc.word (l : Loc) (h : Bool) (tmp : Reg) : Reg :=
  match l with
  | .pair p => halfReg h p
  | .slot _ => tmp

theorem word_eq_core (d : Loc) : d.word false 8 = loReg (d.core 4) := by
  cases d <;> rfl

theorem getReg32_word (l : Loc) (h : Bool) (tmp : Reg) :
    (armBpfGetReg32 (l.half h) (tmp.toNat : ℤ)).2 = ((l.word h tmp).toNat : ℤ) := by
  cases l with
  | pair p => simp [armBpfGetReg32, isStacked_reg, Loc.word]
  | slot j => simp [armBpfGetReg32, isStacked_slot_half, Loc.word]

def loadWord (l : Loc) (h : Bool) (tmp : Reg) (s : Core) : Core :=
  match l with
  | .pair _ => s
  | .slot _ => s.set tmp (wordOf h (val s l))

theorem runs_getReg32 (l : Loc) (h : Bool) {tmp : Reg} (ht : badReg tmp = false) (s : Core) :
    Runs (armBpfGetReg32 (l.half h) (tmp.toNat : ℤ)).1 s (loadWord l h tmp s) := by
  cases l with
  | pair p => simpa [armBpfGetReg32, isStacked_reg, loadWord] using Runs.nil s
  | slot j =>
      obtain ⟨hcode, hdec⟩ := decode_ldr_word h tmp j ht
      simp only [armBpfGetReg32, isStacked_slot_half, if_true, hcode, loadWord, wordOf_val_slot]
      refine runs_emit4 hdec ?_
      simp only [execData, wordDepth_addr]

theorem loadWord_word (l : Loc) (h : Bool) (tmp : Reg) (s : Core) :
    (loadWord l h tmp s).r (l.word h tmp) = wordOf h (val s l) := by
  cases l with
  | pair p => exact (wordOf_val_pair h p s).symm
  | slot j => simp [loadWord, Loc.word]

theorem loadWord_other (l : Loc) (h : Bool) {tmp i : Reg} (s : Core) (hi : i ≠ tmp) :
    (loadWord l h tmp s).r i = s.r i := by
  cases l with
  | pair p => rfl
  | slot j => simp [loadWord, hi]

@[simp] theorem loadWord_mem (l : Loc) (h : Bool) (tmp : Reg) (s : Core) :
    (loadWord l h tmp s).mem = s.mem := by
  cases l <;> rfl

@[simp] theorem loadWord_c (l : Loc) (h : Bool) (tmp : Reg) (s : Core) :
    (loadWord l h tmp s).c = s.c := by
  cases l <;> rfl

def loadPair (l : Loc) (tmp : Fin 5) (s : Core) : Core :=
  match l with
  | .pair _ => s
  | .slot _ => (s.set (loReg tmp) (loWord (val s l))).set (hiReg tmp) (hiWord (val s l))

theorem runs_loadPair (l : Loc) (tmp : Fin 5) {s : Core} (hfp : aligned (s.r 11)) :
    Runs (armBpfGetReg64 l.row (Loc.pair tmp).row).1 s (loadPair l tmp s) := by
  cases l with
  | pair p => simpa [armBpfGetReg64, loadPair] using Runs.nil s
  | slot j =>
      have hex : execData s (.ldrd (loReg tmp) (hiReg tmp) 11 (depth j)) =
          some (loadPair (.slot j) tmp s) := by
        simp only [loadPair, val, loWord_pair, hiWord_pair]
        exact if_pos (aligned_slotAddr hfp j)
      simp only [armBpfGetReg64, row_slot_lo, isStacked_slot, if_true]
      exact runs_emit4 (decode_ldrd tmp j) hex

theorem loadPair_word (l : Loc) (tmp : Fin 5) (h : Bool) (s : Core) :
    (loadPair l tmp s).r (halfReg h (l.core tmp)) = wordOf h (val s l) := by
  cases l with
  | pair p => exact (wordOf_val_pair h p s).symm
  | slot j => cases h <;> simp [loadPair, Loc.core, halfReg, wordOf]

theorem loadPair_other (l : Loc) {tmp : Fin 5} {i : Reg} (s : Core) (hlo : i ≠ loReg tmp)
    (hhi : i ≠ hiReg tmp) : (loadPair l tmp s).r i = s.r i := by
  cases l with
  | pair p => rfl
  | slot j => simp [loadPair, hlo, hhi]

@[simp] theorem loadPair_mem (l : Loc) (tmp : Fin 5) (s : Core) :
    (loadPair l tmp s).mem = s.mem := by
  cases l <;> rfl

@[simp] theorem loadPair_c (l : Loc) (tmp : Fin 5) (s : Core) : (loadPair l tmp s).c = s.c := by
  cases l <;> rfl

/-! ### Stores -/

theorem decode_str_word : ∀ (h : Bool) (r : Reg) (j : Fin 7), badReg r = false →
    ∃ x, emitStrI armFp (r.toNat : ℤ) (offWord ((Loc.slot j).half h)) = emit4 x ∧
      decode32 x = some (.data (.str r 11 (wordDepth h j))) := by
  have hdec : ∀ (h : Bool) (r : Reg) (j : Fin 7), badReg r = false →
      decode32 (0xf8400000 ||| regField armFp 16 ||| regField (r.toNat : ℤ) 12 |||
        (0b1000 ||| bit (offWord ((Loc.slot j).half h) ≠ 0) 2 |||
          bit ((offWord ((Loc.slot j).half h)).toInt > 0) 1) <<< 8 |||
        (magnitude (offWord ((Loc.slot j).half h)) &&& 0xff)) =
          some (.data (.str r 11 (wordDepth h j))) := by
    decide
  exact fun h r j hr => ⟨_, rfl, hdec h r j hr⟩

theorem keeps_store_word {h : Bool} {j : Fin 7} {s t : Core} {w : Word} (hr : t.r = s.r)
    (hm : t.mem = store32 s.mem (slotAddr (s.r 11) j + wordOff h) w) :
    val t (.slot j) = setWord h (val s (.slot j)) w ∧ Keeps [.slot j] s t := by
  have hoff : ∀ h : Bool, wordOff h = 0 ∨ wordOff h = 4 := by decide
  have hsame : load32 t.mem (slotAddr (s.r 11) j + wordOff h) = w := by
    rw [hm, load32_store32]
  have hother : ∀ (j' : Fin 7) (h' : Bool), j' ≠ j ∨ h' ≠ h →
      load32 t.mem (slotAddr (s.r 11) j' + wordOff h') =
        load32 s.mem (slotAddr (s.r 11) j' + wordOff h') := by
    intro j' h' hne
    have hne' : j' ≠ j ∨ wordOff h' ≠ wordOff h := hne.imp_right (wordOff_ne h' h)
    rw [hm, load32_store32_of_disjoint]
    · exact slot_disjoint _ j' j (hoff h') (hoff h) hne'
    · exact slot_disjoint _ j j' (hoff h) (hoff h') (hne'.imp Ne.symm Ne.symm)
  have hval : ∀ (u : Core) (j' : Fin 7), val u (.slot j') =
      wordOf true (val u (.slot j')) ++ wordOf false (val u (.slot j')) := fun u j' =>
    (pair_words _).symm
  refine ⟨?_, by rw [hr], ?_, ?_⟩
  · rw [hval t j, wordOf_val_slot, wordOf_val_slot, hr]
    cases h with
    | false =>
        rw [hsame, hother j true (Or.inr (by decide)), ← wordOf_val_slot]
        rfl
    | true =>
        rw [hsame, hother j false (Or.inr (by decide)), ← wordOf_val_slot]
        rfl
  · intro l hl
    cases l with
    | pair q => simp only [val, hr]
    | slot j' =>
        have hj : j' ≠ j := by
          rintro rfl
          exact hl (List.mem_singleton.mpr rfl)
        rw [hval t j', hval s j', wordOf_val_slot, wordOf_val_slot, wordOf_val_slot,
          wordOf_val_slot, hr, hother j' true (Or.inl hj), hother j' false (Or.inl hj)]
  · intro a ha
    have hfar : ¬(a - (slotAddr (s.r 11) j + wordOff h)).toNat < 4 :=
      fun hlt => ha (slot_inFrame j (hoff h) hlt)
    rw [hm]
    simp only [store32, storeLE, hfar, if_false]

def putWord (l : Loc) (h : Bool) (r : Reg) (s : Core) : Core :=
  match l with
  | .pair p => s.set (halfReg h p) (s.r r)
  | .slot j => { s with mem := store32 s.mem (slotAddr (s.r 11) j + wordOff h) (s.r r) }

theorem runs_putReg32 (l : Loc) (h : Bool) {r : Reg} (hr : badReg r = false) (s : Core) :
    ∃ t, Runs (armBpfPutReg32 (l.half h) (r.toNat : ℤ)) s t ∧ t.r = (putWord l h r s).r ∧
      t.mem = (putWord l h r s).mem := by
  cases l with
  | pair p =>
      by_cases heq : halfReg h p = r
      · refine ⟨s, ?_, ?_, rfl⟩
        · simpa [armBpfPutReg32, isStacked_reg, heq] using Runs.nil s
        · funext i
          simp only [putWord, set_r, heq]
          split
          · rename_i hi
            rw [hi]
          · rfl
      · have hne : ((halfReg h p).toNat : ℤ) ≠ (r.toNat : ℤ) := by
          rw [ne_eq, Nat.cast_inj, BitVec.toNat_inj]
          exact heq
        refine ⟨s.set (halfReg h p) (s.r r), ?_, rfl, rfl⟩
        simpa [armBpfPutReg32, isStacked_reg, hne] using
          runs_emitMovReg (badReg_half h p) hr s
  | slot j =>
      obtain ⟨x, hcode, hdec⟩ := decode_str_word h r j hr
      refine ⟨putWord (.slot j) h r s, ?_, rfl, rfl⟩
      simp only [armBpfPutReg32, isStacked_slot_half, if_true, hcode]
      refine runs_emit4 hdec ?_
      simp only [execData, wordDepth_addr, putWord]

theorem keeps_putWord (l : Loc) (h : Bool) (r : Reg) {s t : Core} (hr : t.r = (putWord l h r s).r)
    (hm : t.mem = (putWord l h r s).mem) :
    val t l = setWord h (val s l) (s.r r) ∧ Keeps [l] s t := by
  cases l with
  | pair p =>
      refine ⟨?_, ?_⟩
      · cases h <;> simp [val, hr, putWord, setWord, halfReg]
      · refine keeps_pair hm ?_
        intro i hlo hhi _ _
        cases h <;> simp [hr, putWord, halfReg, hlo, hhi]
  | slot j => exact keeps_store_word hr hm

/-! ### One instruction -/

/-- A wide encoding that is no data instruction does not run. -/
theorem not_runs_emit4 {x : BitVec 32} {code : Code} {s t : Core}
    (htop : bits x 27 5 ≥ 0b11101) (hd : ∀ d, decode32 x ≠ some (.data d)) :
    ¬Runs (emit4 x ++ code) s t := by
  refine not_runs_wide ?_ (by rwa [halfwords])
  rw [isWide_halfword]
  simpa using htop

/-- The code changes one register to a function of the core, and nothing else
but the flags. -/
def Sets (code : Code) (rd : Reg) (f : Core → Word) : Prop :=
  ∀ s, ∃ t, Runs code s t ∧ t.mem = s.mem ∧ t.r rd = f s ∧ ∀ i ≠ rd, t.r i = s.r i

theorem sets_emit4 {x : BitVec 32} {d : Data} {rd : Reg} {f : Core → Word}
    (hd : decode32 x = some (.data d))
    (he : ∀ s, ∃ t, execData s d = some t ∧ t.mem = s.mem ∧ t.r = (s.set rd (f s)).r) :
    Sets (emit4 x) rd f := by
  intro s
  obtain ⟨t, hex, hm, hr⟩ := he s
  refine ⟨t, runs_emit4 hd hex, hm, by simp [hr], ?_⟩
  intro i hi
  simp [hr, hi]

theorem sets_emit2 {x : BitVec 16} {d : Data} {rd : Reg} {f : Core → Word}
    (hd : decode16 x = some (.data d))
    (he : ∀ s, ∃ t, execData s d = some t ∧ t.mem = s.mem ∧ t.r = (s.set rd (f s)).r) :
    Sets (emit2 x) rd f := by
  intro s
  obtain ⟨t, hex, hm, hr⟩ := he s
  refine ⟨t, runs_emit2 hd hex, hm, by simp [hr], ?_⟩
  intro i hi
  simp [hr, hi]

end RapidPatch.Jit

import RapidPatch.Jit.Alu64
import RapidPatch.Jit.LoadForms

/-!
The code of loads and their base register.

The address is the low word of the source and the offset; from the range of
the encodings on, their sum is computed first. Where the destination is loaded
into the register the address is in, the address is moved away. Either way
the base register holds what the access expects (`runs_base`), and what else
changes is temporary.
-/

namespace RapidPatch.Jit

open RapidPatch.Vm RapidPatch.Thumb RapidPatch.Support

/-! ### Numbers in memory -/

section Numbers

variable (m : Mem) (a : Word)

theorem loadLE_narrow {n : ℕ} (hn : n ≤ 4) :
    BitVec.ofNat 64 (loadLE m a n) = (0 : Word) ++ BitVec.ofNat 32 (loadLE m a n) := by
  have hlt : loadLE m a n < 2 ^ 32 :=
    (loadLE_lt m a n).trans_le (Nat.pow_le_pow_right (n := 256) (by decide) hn)
  rw [← setWidth_eq_pair]
  apply BitVec.eq_of_toNat_eq
  rw [BitVec.toNat_setWidth, BitVec.toNat_ofNat, BitVec.toNat_ofNat]
  omega

theorem loadLE_dword : BitVec.ofNat 64 (loadLE m a 8) = load32 m (a + 4) ++ load32 m a := by
  have hlo := loadLE_lt m a 4
  have hhi := loadLE_lt m (a + 4) 4
  apply BitVec.eq_of_toNat_eq
  rw [toNat_pair, load32, load32, BitVec.toNat_ofNat, BitVec.toNat_ofNat, BitVec.toNat_ofNat,
    loadLE_add m a 4 4, show a + BitVec.ofNat 32 4 = a + 4 from rfl]
  omega

end Numbers

/-! ### The code -/

def aliased (d e : Loc) : Bool := loReg (d.core 3) = e.word false 8

def baseReg (d e : Loc) (far : Bool) : Reg := if far || aliased d e then 7 else e.word false 8

def baseCode (d e : Loc) (far : Bool) (off : Word) : Code :=
  if far then
    emitMovImm tmpReg1.hi off ++
      emitAddReg tmpReg1.hi ((e.word false 8).toNat : ℤ) false false
  else if aliased d e then emitA32MovReg ((e.word false 8).toNat : ℤ) tmpReg1.hi
  else []

/-- The access of `emit_ldx_reg`. -/
def loadCode (q : Fin 5) (rm : Reg) (off : Word) : Size → Code
  | .b => emitLdrbI (loReg q).toNat rm.toNat off
  | .h => emitLdrhI (loReg q).toNat rm.toNat off
  | .w => emitLdrI (loReg q).toNat rm.toNat off
  | .dw => emitLdrI (loReg q).toNat rm.toNat off ++ emitLdrI (hiReg q).toNat rm.toNat (nextWord off)

def ldxCode (d e : Loc) (off : Word) (sz : Size) : Code :=
  let far := !isLdstImm off sz
  (armBpfGetReg32 e.row.lo tmpReg2.lo).1 ++ baseCode d e far off ++
    loadCode (d.core 3) (baseReg d e far) (if far then 0 else off) sz ++
    armBpfPutReg64 d.row (Loc.pair (d.core 3)).row

theorem emitLdxReg_code (d e : Loc) (off : Word) (sz : Size) :
    (armBpfGetReg32 e.row.lo tmpReg2.lo).1 ++
        emitLdxReg d.row (armBpfGetReg32 e.row.lo tmpReg2.lo).2 off sz = ldxCode d e off sz := by
  have hsrc : (armBpfGetReg32 e.row.lo tmpReg2.lo).2 = ((e.word false 8).toNat : ℤ) :=
    getReg32_word e false 8
  have hrow : (if isStacked d.row.lo then tmpReg1 else d.row) = (Loc.pair (d.core 3)).row := by
    cases d <;> simp [Loc.core, tmpReg1_eq]
  have halias : ((Loc.pair (d.core 3)).row.lo = ((e.word false 8).toNat : ℤ)) ↔
      aliased d e = true := by
    rw [aliased, row_pair_lo, lo_eq, Nat.cast_inj, BitVec.toNat_inj, decide_eq_true_iff]
  have hrt : (Loc.pair (d.core 3)).row.lo = ((loReg (d.core 3)).toNat : ℤ) := lo_eq _
  have hrt' : (Loc.pair (d.core 3)).row.hi = ((hiReg (d.core 3)).toNat : ℤ) := hi_eq _
  have h7 : tmpReg1.hi = ((7 : Reg).toNat : ℤ) := rfl
  simp only [emitLdxReg, ldxCode, hsrc, hrow, halias, baseReg, baseCode]
  generalize (!isLdstImm off sz) = far
  generalize aliased d e = al
  cases far <;> cases al <;> cases sz <;>
    simp [loadCode, hrt, hrt', h7]

/-! ### The address -/

theorem loWord_signExtend {w : ℕ} (x : BitVec w) : loWord (x.signExtend 64) = x.signExtend 32 := by
  apply BitVec.eq_of_getLsbD_eq
  intro k hk
  simp only [loWord, BitVec.getLsbD_setWidth, BitVec.getLsbD_signExtend, hk,
    show k < 64 by omega, decide_true, Bool.true_and]

theorem address_eq (i : Inst) (x : BitVec 64) :
    address x i = loWord x + i.offset.signExtend 32 := by
  rw [address, BitVec.setWidth_add _ _ (by decide), ← loWord_signExtend]
  rfl

/-! ### The base register -/

theorem decode_addReg7 : ∀ r : Reg, r ≤ 8 →
    decode16 (thumb16AddRegT2 tmpReg1.hi r.toNat) = some (.data (.addReg 7 r)) := by
  decide

theorem emitA32MovReg_seven : ∀ r : Reg, r ≤ 8 → r ≠ 7 →
    emitA32MovReg (r.toNat : ℤ) tmpReg1.hi = emitMovReg r.toNat (7 : Reg).toNat := by
  decide

theorem word_le_eight {e : Loc} (he : ¬e.IsTemp) :
    e.word false 8 ≤ 8 ∧ e.word false 8 ≠ 7 := by
  have hlo : ∀ p : Fin 5, loReg p ≤ 8 ∧ loReg p ≠ 7 := by decide
  cases e with
  | pair p => exact hlo p
  | slot j => exact (by decide : (8 : Reg) ≤ 8 ∧ (8 : Reg) ≠ 7)

theorem runs_farBase {r : Reg} (hle : r ≤ 8) (h7 : r ≠ 7) (off : Word) (s : Core) :
    ∃ t, Runs (emitMovImm tmpReg1.hi off ++ emitAddReg tmpReg1.hi (r.toNat : ℤ) false false) s t ∧
      t.mem = s.mem ∧ t.r 7 = s.r r + off ∧ ∀ i ≠ 7, t.r i = s.r i := by
  obtain ⟨u, hu, h7u, hmu, -, hku⟩ := runs_emitMovImm (show (7 : Reg) < 10 by decide) off s
  have hadd := runs_emit2 (s := u) (decode_addReg7 _ hle) rfl
  refine ⟨_, hu.append hadd, hmu, ?_, ?_⟩
  · rw [set_r, if_pos rfl, h7u, hku r h7]
    exact BitVec.add_comm _ _
  · intro i hi
    rw [set_r, if_neg hi, hku i hi]

/-- The base register holds the address without the offset of the access. -/
structure Based (d e : Loc) (far : Bool) (off : Word) (s u : Core) : Prop where
  mem : u.mem = s.mem
  base : u.r (baseReg d e far) = loWord (val s e) + (if far then off else 0)
  other : ∀ i, i ≠ 7 → i ≠ 8 → u.r i = s.r i
  seven : far = false → aliased d e = false → u.r 7 = s.r 7

theorem runs_base (d : Loc) {e : Loc} (he : ¬e.IsTemp) (far : Bool) (off : Word) (s : Core) :
    ∃ u, Runs ((armBpfGetReg32 e.row.lo tmpReg2.lo).1 ++ baseCode d e far off) s u ∧
      Based d e far off s u := by
  obtain ⟨hle, h7⟩ := word_le_eight he
  have hload := runs_getReg32 e false (show badReg 8 = false by decide) s
  have hword := loadWord_word e false 8 s
  have hother : ∀ i, i ≠ 8 → (loadWord e false 8 s).r i = s.r i :=
    fun i hi => loadWord_other e false s hi
  have hmem := loadWord_mem e false 8 s
  generalize loadWord e false 8 s = u at hload hword hother hmem
  have hgood : ∀ r : Reg, r ≤ 8 → badReg r = false := by decide
  cases far with
  | true =>
      obtain ⟨v, hv, hmv, hsum, hkv⟩ := runs_farBase hle h7 off u
      refine ⟨v, hload.append hv, hmv.trans hmem, ?_, ?_, fun h => by cases h⟩
      · rw [baseReg, Bool.true_or, if_pos rfl, if_pos rfl, hsum, hword]
        rfl
      · intro i hi7 hi8
        rw [hkv i hi7, hother i hi8]
  | false =>
      cases halias : aliased d e with
      | true =>
          have hmove := runs_emitMovReg (show badReg 7 = false by decide) (hgood _ hle) u
          refine ⟨u.set 7 (u.r (e.word false 8)), ?_, hmem, ?_, ?_, ?_⟩
          · rw [baseCode, if_neg (by decide), if_pos halias, emitA32MovReg_seven _ hle h7]
            exact hload.append hmove
          · simp only [baseReg, halias, Bool.or_true, if_true, set_r, hword]
            exact (BitVec.add_zero _).symm
          · intro i hi7 hi8
            rw [set_r, if_neg hi7, hother i hi8]
          · intro _ hno
            rw [halias] at hno
            cases hno
      | false =>
          refine ⟨u, ?_, hmem, ?_, fun i _ hi8 => hother i hi8, fun _ _ => hother 7 (by decide)⟩
          · rw [baseCode, if_neg (by decide), if_neg (by simp [halias]), List.append_nil]
            exact hload
          · simp only [baseReg, halias, Bool.or_self, Bool.false_eq_true, if_false, hword]
            exact (BitVec.add_zero _).symm

theorem baseReg_le_eight (d : Loc) {e : Loc} (he : ¬e.IsTemp) (far : Bool) :
    baseReg d e far ≤ 8 ∧ baseReg d e far ≠ loReg (d.core 3) := by
  have h7 : ∀ p : Fin 5, (7 : Reg) ≠ loReg p := by decide
  unfold baseReg
  split
  · exact ⟨by decide, h7 _⟩
  · rename_i hno
    refine ⟨(word_le_eight he).1, fun h => hno ?_⟩
    rw [aliased, h]
    simp

theorem aliased_slot (j : Fin 7) {e : Loc} (he : ¬e.IsTemp) : aliased (.slot j) e = false := by
  have hlo : ∀ p : Fin 5, p ≠ 3 → loReg 3 ≠ loReg p := by decide
  cases e with
  | pair p =>
      have hp : p ≠ 3 := by
        rintro rfl
        exact he (Or.inl rfl)
      exact decide_eq_false (hlo p hp)
  | slot k => rfl

theorem Based.keeps {d e : Loc} {far : Bool} {off : Word} {s u : Core}
    (h : Based d e far off s u) : Keeps [.pair 3, .pair 4] s u :=
  keeps_pairs h.mem fun i _ h7 h8 _ _ _ => h.other i h7 h8

end RapidPatch.Jit

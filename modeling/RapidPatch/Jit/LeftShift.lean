import RapidPatch.Jit.Alu64

/-!
The translation of `LSH64` with an immediate.

From 32 on the translation is right. Below, the high word is shifted by an
encoding whose lower two bits of the amount lie in the field of the shift
type. Where they are not zero the high word is shifted the wrong way, by the
next smaller multiple of four, and the result is right where the low word
covers the bits that are wrong. An amount of three is the encoding of a
rotation through the carry.
-/

namespace RapidPatch.Jit

open RapidPatch.Vm RapidPatch.Thumb RapidPatch.Support

/-! ### The shift of the high word -/

/-- The shift `_emit_lsh64_imm` encodes for an amount below 32. -/
def misType (v : ℕ) : SRType × ℕ :=
  match v % 4 with
  | 0 => (.lsl, v)
  | 1 => (.lsr, if v = 1 then 32 else v - 1)
  | 2 => (.asr, if v = 2 then 32 else v - 2)
  | _ => if v = 3 then (.rrx, 1) else (.ror, v - 3)

/-- What becomes of the high word. -/
def misShift (v : ℕ) (x : Word) (c : Bool) : Word :=
  (shiftC (misType v).1 x (misType v).2 c).1

/-- The code between loading and storing the pair, for amounts below 32. -/
def lshLowCode (p : Fin 5) (v : BitVec 32) : Code :=
  emit4 (0xea5f0000 ||| ((v &&& 0b11100) >>> 2) <<< 12 ||| regField tmpReg2.hi 8 |||
    (v &&& 0b11) <<< 4 ||| regField (hi p) 0) ++
  emit4 (0xea500010 ||| regField tmpReg2.hi 16 ||| (((32 - v) &&& 0b11100) >>> 2) <<< 12 |||
    regField (hi p) 8 ||| ((32 - v) &&& 0b11) <<< 6 ||| regField (lo p) 0) ++
  emit2 ((v <<< 6 ||| regField (lo p) 3 ||| regField (lo p) 0).setWidth 16)

/-- The same for amounts from 32 on. -/
def lshHighCode (p : Fin 5) (v : BitVec 32) : Code :=
  (if v = 32 then emitMovReg (lo p) (hi p)
    else emit2 (((v - 32) <<< 6 ||| regField (lo p) 3 ||| regField (hi p) 0).setWidth 16)) ++
  emit2 (twoLow 0x4040 (lo p) (lo p))

theorem decode_lshLow : ∀ (p : Fin 5) (k : Fin 32), p < 4 →
    let v := BitVec.ofNat 32 k
    decode32 (0xea5f0000 ||| ((v &&& 0b11100) >>> 2) <<< 12 ||| regField tmpReg2.hi 8 |||
        (v &&& 0b11) <<< 4 ||| regField (hi p) 0) =
      some (.data (.movShift true (misType k).1 9 (hiReg p) (misType k).2)) ∧
    decode32 (0xea500010 ||| regField tmpReg2.hi 16 ||| (((32 - v) &&& 0b11100) >>> 2) <<< 12 |||
        regField (hi p) 8 ||| ((32 - v) &&& 0b11) <<< 6 ||| regField (lo p) 0) =
      some (.data (.dp .orr true (hiReg p) 9 (loReg p) .lsr (32 - k))) ∧
    decode16 ((v <<< 6 ||| regField (lo p) 3 ||| regField (lo p) 0).setWidth 16) =
      some (.data (.movShift true .lsl (loReg p) (loReg p) k)) := by
  decide +kernel

theorem decode_lshHigh : ∀ (p : Fin 5) (k : Fin 32), p < 4 →
    decode16 ((BitVec.ofNat 32 k <<< 6 ||| regField (lo p) 3 ||| regField (hi p) 0).setWidth 16) =
      some (.data (.movShift true .lsl (hiReg p) (loReg p) k)) := by
  decide

theorem decode_eors : ∀ p : Fin 5, p < 4 →
    decode16 (twoLow 0x4040 (lo p) (lo p)) =
      some (.data (.dp .eor true (loReg p) (loReg p) (loReg p) .lsl 0)) := by
  decide

theorem emitLsh64Imm_code (d : Loc) (amount : BitVec 16) :
    emitLsh64Imm d.row amount = (armBpfGetReg64 d.row tmpReg1).1 ++
      (if amount.setWidth 32 < (32 : BitVec 32) then lshLowCode (d.core 3) (amount.setWidth 32)
        else lshHighCode (d.core 3) (amount.setWidth 32)) ++
      armBpfPutReg64 d.row (Loc.pair (d.core 3)).row := by
  simp [emitLsh64Imm, tmpReg1_eq, getReg64_row, lshLowCode, lshHighCode]

/-! ### What the code does -/

def lshResult (v : ℕ) (x : BitVec 64) (c : Bool) : BitVec 64 :=
  if v < 32 then
    (misShift v (hiWord x) c ||| loWord x >>> (32 - v)) ++ (loWord x <<< v)
  else x <<< v

theorem runs_lshLow {p : Fin 5} (hp : p < 4) {v : ℕ} (hv : v < 32) (s : Core) :
    ∃ t, Runs (lshLowCode p (BitVec.ofNat 32 v)) s t ∧
      val t (.pair p) = lshResult v (val s (.pair p)) s.c ∧ Keeps [.pair 4, .pair p] s t := by
  obtain ⟨hmis, horr, hlsl⟩ := decode_lshLow p ⟨v, hv⟩ hp
  obtain ⟨s₁, r₁, hm₁, hv₁, hk₁⟩ := sets_movShift hmis s
  obtain ⟨s₂, r₂, hm₂, hv₂, hk₂⟩ := sets_dp horr s₁
  obtain ⟨t, r₃, hm₃, hv₃, hk₃⟩ := sets_movShift16 hlsl s₂
  simp only [dpResult, shiftC_lsl, shiftC_lsr] at hv₂ hv₃
  have hlo : loReg p ≠ 9 := loReg_ne_hiReg p 4
  refine ⟨t, (r₁.append r₂).append r₃, ?_, ?_⟩
  · simp only [val, lshResult, hv, if_true, loWord_pair, hiWord_pair]
    rw [hv₃, hk₃ _ (hiReg_ne_loReg p p), hv₂, hk₂ _ (loReg_ne_hiReg p p), hv₁, hk₁ _ hlo]
    rfl
  · have hk4 : Keeps [.pair 4] s s₁ := keeps_pair hm₁ fun i _ hhi _ _ => hk₁ i hhi
    refine hk4.trans (keeps_pair (hm₃.trans hm₂) ?_)
    intro i hlo hhi _ _
    rw [hk₃ i hlo, hk₂ i hhi]

theorem emitMovReg_lo_hi : ∀ p : Fin 5,
    emitMovReg (lo p) (hi p) = emitMovReg ((loReg p).toNat : ℤ) ((hiReg p).toNat : ℤ) := by
  decide

theorem runs_lo_to_hi {p : Fin 5} (hp : p < 4) {v : ℕ} (hv : 32 ≤ v) (hv' : v < 64) (s : Core) :
    ∃ t, Runs (if BitVec.ofNat 32 v = 32 then emitMovReg (lo p) (hi p)
        else emit2 (((BitVec.ofNat 32 v - 32) <<< 6 ||| regField (lo p) 3 |||
          regField (hi p) 0).setWidth 16)) s t ∧
      t.mem = s.mem ∧ t.r (hiReg p) = s.r (loReg p) <<< (v - 32) ∧
      ∀ i ≠ hiReg p, t.r i = s.r i := by
  rcases Nat.eq_or_lt_of_le hv with rfl | hlt
  · have hbad : badReg (hiReg p) = false ∧ badReg (loReg p) = false :=
      ⟨badReg_half true p, badReg_half false p⟩
    refine ⟨s.set (hiReg p) (s.r (loReg p)), ?_, rfl, by simp, fun i hi => by simp [hi]⟩
    rw [if_pos ((amount_tests hv').2.2.mpr rfl), emitMovReg_lo_hi]
    exact runs_emitMovReg hbad.1 hbad.2 s
  · rw [if_neg ((amount_tests hv').2.2.not.mpr (by omega)), ofNat_sub_32 hlt]
    have hdec := decode_lshHigh p ⟨v - 32, by omega⟩ hp
    simpa only [shiftC_lsl] using sets_movShift16 hdec s

theorem runs_lshHigh {p : Fin 5} (hp : p < 4) {v : ℕ} (hv : 32 ≤ v) (hv' : v < 64) (s : Core) :
    ∃ t, Runs (lshHighCode p (BitVec.ofNat 32 v)) s t ∧
      val t (.pair p) = val s (.pair p) <<< v ∧ Keeps [.pair 4, .pair p] s t := by
  obtain ⟨u, hu, hmu, hvu, hku⟩ := runs_lo_to_hi hp hv hv' s
  have heor : Sets (emit2 (twoLow 0x4040 (lo p) (lo p))) (loReg p) fun _ => 0 :=
    sets_emit2 (decode_eors p hp) fun s => by
      simpa [dpResult] using exec_dp .eor true (loReg p) (loReg p) (loReg p) .lsl 0 s
  obtain ⟨t, ht, hmt, hvt, hkt⟩ := heor u
  refine ⟨t, hu.append ht, ?_, ?_⟩
  · simp only [val]
    rw [hvt, hkt _ (hiReg_ne_loReg p p), hvu, pair_shl_wide _ _ hv]
  · refine keeps_pair_scratch (hmt.trans hmu) ?_
    intro i hlo hhi _
    rw [hkt i hlo, hku i hhi]

theorem writes_lsh64Imm {d : Loc} (hd : ¬d.IsTemp) {imm : BitVec 32} (hv : imm.toNat < 64)
    {s : Core} (hfp : aligned (s.r 11)) :
    ∃ t, Runs (emitLsh64Imm d.row (imm.setWidth 16)) s t ∧
      Writes d (lshResult imm.toNat (val s d) s.c) s t := by
  have hp := core_lt_four hd
  have hcut : (imm.setWidth 16).setWidth 32 = BitVec.ofNat 32 imm.toNat := by
    apply BitVec.eq_of_toNat_eq
    simp only [BitVec.toNat_setWidth, BitVec.toNat_ofNat]
    omega
  have hval : val (loadPair d 3 s) (.pair (d.core 3)) = val s d := by
    have hlo := loadPair_word d 3 false s
    have hhi := loadPair_word d 3 true s
    simp only [halfReg, wordOf, if_true, Bool.false_eq_true, if_false] at hlo hhi
    rw [val, hlo, hhi, pair_words]
  obtain ⟨u, hu, hvu, hku⟩ : ∃ u,
      Runs (if BitVec.ofNat 32 imm.toNat < 32 then lshLowCode (d.core 3) (BitVec.ofNat 32 imm.toNat)
        else lshHighCode (d.core 3) (BitVec.ofNat 32 imm.toNat)) (loadPair d 3 s) u ∧
      val u (.pair (d.core 3)) = lshResult imm.toNat (val s d) s.c ∧
      Keeps [.pair 4, .pair (d.core 3)] (loadPair d 3 s) u := by
    by_cases hlt : imm.toNat < 32
    · rw [if_pos ((amount_tests hv).2.1.mpr hlt)]
      have hrun := runs_lshLow hp hlt (loadPair d 3 s)
      rwa [hval, loadPair_c] at hrun
    · rw [if_neg ((amount_tests hv).2.1.not.mpr hlt), lshResult, if_neg hlt]
      have hrun := runs_lshHigh hp (Nat.not_lt.mp hlt) hv (loadPair d 3 s)
      rwa [hval] at hrun
  have hk := (keeps_loadPair d 3 s).trans hku
  obtain ⟨t, ht, hput, hkt⟩ := runs_putReg64 d 3 (hk.aligned hfp)
  refine ⟨t, ?_, (hk.trans hkt).writes (fun l' hl' => isTemp_or_of_mem hl') (by rw [hput, hvu])⟩
  rw [emitLsh64Imm_code, hcut]
  exact ((runs_loadPair d 3 hfp).append hu).append ht

/-! ### Where it is right -/

/-- Where the translation is right: the bits of the high word that are wrong
are covered by the bits that come up from the low word. -/
def LshImmRight (v : ℕ) (x : BitVec 64) : Prop :=
  32 ≤ v ∨ v ≠ 3 ∧
    (misShift v (hiWord x) false ^^^ hiWord x <<< v) &&& ~~~(loWord x >>> (32 - v)) = 0

instance (v : ℕ) (x : BitVec 64) : Decidable (LshImmRight v x) := by
  unfold LshImmRight
  infer_instance

theorem or_right_cancel_iff (a b c : Word) : a ||| c = b ||| c ↔ (b ^^^ a) &&& ~~~c = 0 := by
  constructor
  · intro h
    apply BitVec.eq_of_getLsbD_eq
    intro i hi
    have hbit := congrArg (·.getLsbD i) h
    simp only [BitVec.getLsbD_or] at hbit
    simp only [BitVec.getLsbD_and, BitVec.getLsbD_xor, BitVec.getLsbD_not, hi]
    cases ha : a.getLsbD i <;> cases hb : b.getLsbD i <;> cases hc : c.getLsbD i <;>
      simp [ha, hb, hc] at hbit ⊢
  · intro h
    apply BitVec.eq_of_getLsbD_eq
    intro i hi
    have hbit := congrArg (·.getLsbD i) h
    simp only [BitVec.getLsbD_and, BitVec.getLsbD_xor, BitVec.getLsbD_not, hi] at hbit
    simp only [BitVec.getLsbD_or]
    cases ha : a.getLsbD i <;> cases hb : b.getLsbD i <;> cases hc : c.getLsbD i <;>
      simp [ha, hb, hc] at hbit ⊢

/-- Only the rotation takes notice of the carry. -/
theorem misShift_carry {v : ℕ} (h3 : v ≠ 3) (x : Word) (c : Bool) :
    misShift v x c = misShift v x false := by
  have htype : (misType v).1 ≠ .rrx := by
    unfold misType
    split <;> simp [h3]
  revert htype
  unfold misShift shiftC
  cases (misType v).1 <;> intro h <;> first | split <;> rfl | contradiction

theorem lshResult_iff {v : ℕ} (h3 : v ≠ 3) (x : BitVec 64) (c : Bool) :
    x <<< v = lshResult v x c ↔ LshImmRight v x := by
  unfold lshResult LshImmRight
  by_cases hv : v < 32
  · rw [if_pos hv, misShift_carry h3, ← or_right_cancel_iff]
    conv_lhs => rw [← pair_words x]
    rw [pair_shl _ _ hv.le, hiWord_pair, loWord_pair, pair_eq_iff]
    simp [h3, hv]
  · simp [hv, Nat.not_lt.mp hv]

theorem achieves_lsh64Imm_iff {ρ : Regs} {d : BitVec 4} (hd : d < 10) {imm : BitVec 32}
    (hv : imm.toNat < 64) :
    Achieves (emitLsh64Imm (locOf d).row (imm.setWidth 16)) ρ
        (Function.update ρ d (ρ d <<< imm.toNat)) ↔ LshImmRight imm.toNat (ρ d) := by
  have hcode : ∀ s, HoldsRegs ρ s → ∃ t,
      Runs (emitLsh64Imm (locOf d).row (imm.setWidth 16)) s t ∧
        Writes (locOf d) (lshResult imm.toNat (ρ d) s.c) s t := by
    intro s hs
    obtain ⟨t, ht, hw⟩ := writes_lsh64Imm (locOf_not_temp d) hv hs.aligned
    rw [hs.regs d hd] at hw
    exact ⟨t, ht, hw⟩
  by_cases h3 : imm.toNat = 3
  · have hcarry : ∀ x y : Word, rotateIn x true ||| y >>> 29 ≠ rotateIn x false ||| y >>> 29 := by
      intro x y h
      have hbit := congrArg (·.getLsbD 31) h
      simp [rotateIn] at hbit
    refine iff_of_false (not_achieves_of_carry hd (g := hiWord)
      (f := fun c => rotateIn (hiWord (ρ d)) c ||| loWord (ρ d) >>> 29) (hcarry _ _) ?_) ?_
    · intro s hs
      obtain ⟨t, ht, hw⟩ := hcode s hs
      refine ⟨t, ht, ?_⟩
      rw [hw.written, h3, lshResult, if_pos (by decide), hiWord_pair]
      rfl
    · simp [LshImmRight, h3]
  · rw [← lshResult_iff h3 (ρ d) false]
    apply achieves_update_iff hd
    intro s hs
    obtain ⟨t, ht, hw⟩ := hcode s hs
    have hsame : lshResult imm.toNat (ρ d) s.c = lshResult imm.toNat (ρ d) false := by
      unfold lshResult
      rw [misShift_carry h3]
    rw [hsame] at hw
    exact ⟨t, ht, hw⟩

/-- The translation of `LSH64_IMM` is right exactly where `LshImmRight` says. -/
theorem lsh64Imm_right_iff (p : Input) (pass : Pass) (idx pc : ℕ) (ρ : Regs)
    (hop : (p.insts pc).op = .alu64 .lsh .imm) (hdst : (p.insts pc).dst < 10)
    (hv : (p.insts pc).imm.toNat < 64) :
    Achieves (buildInst p pass idx pc).code ρ (Function.update ρ (p.insts pc).dst
        (BitVec.ofNat 64 ((ρ (p.insts pc).dst).toNat * 2 ^ (p.insts pc).imm.toNat))) ↔
      LshImmRight (p.insts pc).imm.toNat (ρ (p.insts pc).dst) := by
  have hcode : (buildInst p pass idx pc).code =
      emitLsh64Imm (locOf (p.insts pc).dst).row ((p.insts pc).imm.setWidth 16) := by
    simp only [buildInst, hop, bpf2a32_eq_row p.behind hdst]
    rfl
  have hvalue : ∀ (x : BitVec 64) (v : ℕ), BitVec.ofNat 64 (x.toNat * 2 ^ v) = x <<< v := by
    intro x v
    apply BitVec.eq_of_toNat_eq
    rw [BitVec.toNat_ofNat, BitVec.toNat_shiftLeft, Nat.shiftLeft_eq]
  rw [hcode, hvalue]
  exact achieves_lsh64Imm_iff hdst hv

/-- `LSH64_IMM r0, v`. -/
def lsh64R0 (v : BitVec 32) : Inst :=
  { opcode := (Opcode.alu64 .lsh .imm).byte, dst := 0, src := 0, offset := 0, imm := v }

theorem lsh64Imm_by_four :
    Achieves (buildInst (single (lsh64R0 4)) genPass 0 0).code (fun _ => 0x123456789abcdef0)
      (Function.update (fun _ => 0x123456789abcdef0) 0
        (BitVec.ofNat 64 (0x123456789abcdef0 * 2 ^ 4))) :=
  (lsh64Imm_right_iff (single (lsh64R0 4)) genPass 0 0 (fun _ => 0x123456789abcdef0)
    (opcodeOf_byte (.alu64 .lsh .imm)) (by decide) (by decide)).mpr (by decide)

theorem lsh64_one_wrong :
    ¬Achieves (buildInst (single (lsh64R0 1)) genPass 0 0).code (fun _ => 0x100000000)
      (Function.update (fun _ => 0x100000000) 0 (BitVec.ofNat 64 (2 ^ 32 * 2 ^ 1))) := by
  have hiff := achieves_lsh64Imm_iff (ρ := fun _ => 0x100000000) (d := 0) (by decide)
    (show (1 : BitVec 32).toNat < 64 by decide)
  exact hiff.not.mpr (by decide)

end RapidPatch.Jit

import RapidPatch.Jit.Blocks

/-!
The 64-bit shifts by an immediate.

Amounts below, at and above the width of a word have code of their own. The
encodings are evaluated at every amount.
-/

namespace RapidPatch.Jit

open RapidPatch.Vm RapidPatch.Thumb RapidPatch.Support

def flagWord (f : Bool) : BitVec 32 := if f then flagS else flagNos

theorem decode_lsr : ∀ (f : Bool) (p : Fin 5) (n : Fin 32), n ≠ 0 →
    decode32 (thumb32LsrwImmT2 (lo 4) (lo p) (BitVec.ofNat 32 n) (flagWord f)) =
      some (.data (.movShift f .lsr (loReg 4) (loReg p) n)) := by
  decide +kernel

theorem decode_orr : ∀ (f : Bool) (p : Fin 5) (n : Fin 32), n ≠ 0 →
    decode32 (thumb32OrrwRegT2 (lo p) (lo 4) (hi p) (32 - BitVec.ofNat 32 n) srtypeLsl
      (flagWord f)) = some (.data (.dp .orr f (loReg p) (loReg 4) (hiReg p) .lsl (32 - n))) := by
  decide +kernel

theorem decode_lsr_hi : ∀ (h : Bool) (p : Fin 5) (n : Fin 32), n ≠ 0 →
    decode32 (thumb32LsrwImmT2 (half h p) (hi p) (BitVec.ofNat 32 n) flagNos) =
      some (.data (.movShift false .lsr (halfReg h p) (hiReg p) n)) := by
  decide +kernel

theorem decode_asr_hi : ∀ (h : Bool) (p : Fin 5) (n : Fin 32), n ≠ 0 →
    decode32 (thumb32AsrwImmT2 (half h p) (hi p) (BitVec.ofNat 32 n) flagS) =
      some (.data (.movShift true .asr (halfReg h p) (hiReg p) n)) := by
  decide +kernel

theorem decode_mov_hi : ∀ p : Fin 5,
    decode16 (thumb16MovRegT1 (lo p) (hi p)) = some (.data (.movReg (loReg p) (hiReg p))) := by
  decide

/-- The shift of `emit_a32_rsh_i64`. -/
def rshCode (p : Fin 5) (v : BitVec 32) : Code :=
  if v = 0 then []
  else if v < 32 then
    emit4 (thumb32LsrwImmT2 (lo tmpPair) (lo p) v flagNos) ++
    emit4 (thumb32OrrwRegT2 (lo p) (lo tmpPair) (hi p) (32 - v) srtypeLsl flagNos) ++
    emit4 (thumb32LsrwImmT2 (hi p) (hi p) v flagNos)
  else if v = 32 then emitMovReg (hi p) (lo p) ++ emitMovImm (hi p) 0
  else emit4 (thumb32LsrwImmT2 (lo p) (hi p) (v - 32) flagNos) ++ emitMovImm (hi p) 0

/-- The shift of `emit_a32_arsh_i64`. -/
def arshCode (p : Fin 5) (v : BitVec 32) : Code :=
  if v = 0 then []
  else if v < 32 then
    emit4 (thumb32LsrwImmT2 (lo tmpPair) (lo p) v flagS) ++
    emit4 (thumb32OrrwRegT2 (lo p) (lo tmpPair) (hi p) (32 - v) srtypeLsl flagS) ++
    emit4 (thumb32AsrwImmT2 (hi p) (hi p) v flagS)
  else if v = 32 then emitMovReg (hi p) (lo p) ++ emit4 (thumb32AsrwImmT2 (hi p) (hi p) 31 flagS)
  else
    emit4 (thumb32AsrwImmT2 (lo p) (hi p) (v - 32) flagS) ++
    emit4 (thumb32AsrwImmT2 (hi p) (hi p) 31 flagS)

theorem amount_ne_zero {n : ℕ} (hpos : 0 < n) (hn : n < 32) : (⟨n, hn⟩ : Fin 32) ≠ 0 :=
  Fin.ne_of_val_ne (Nat.ne_of_gt hpos)

/-- The low word of a shift by less than a word, with the bits that come in
from the high word. The scratch register is the low one of `TMP_REG_2`. -/
theorem runs_funnel (f : Bool) (p : Fin 5) {n : ℕ} (hpos : 0 < n) (hn : n < 32) (s : Core) :
    ∃ t, Runs (emit4 (thumb32LsrwImmT2 (lo 4) (lo p) (BitVec.ofNat 32 n) (flagWord f)) ++
        emit4 (thumb32OrrwRegT2 (lo p) (lo 4) (hi p) (32 - BitVec.ofNat 32 n) srtypeLsl
          (flagWord f))) s t ∧ t.mem = s.mem ∧
      t.r (loReg p) = (s.r (loReg p) >>> n) ||| (s.r (hiReg p) <<< (32 - n)) ∧
      ∀ i, i ≠ loReg p → i ≠ loReg 4 → t.r i = s.r i := by
  have hne := amount_ne_zero hpos hn
  have h32 : 32 - n ≠ 0 := by omega
  have hd1 := decode_lsr f p ⟨n, hn⟩ hne
  have hd2 := decode_orr f p ⟨n, hn⟩ hne
  cases f with
  | false =>
      refine ⟨_, (runs_emit4 hd1 rfl).append (runs_emit4 hd2 rfl), rfl, ?_, ?_⟩
      · simp [dpResult, shiftC, h32, Nat.ne_of_gt hpos]
      · intro i h1 h2
        simp [h1, h2]
  | true =>
      refine ⟨_, (runs_emit4 hd1 rfl).append (runs_emit4 hd2 rfl), rfl, ?_, ?_⟩
      · simp [dpResult, shiftC, h32, Nat.ne_of_gt hpos]
      · intro i h1 h2
        simp [h1, h2]

theorem runs_shift_hi (arith h : Bool) (p : Fin 5) {n : ℕ} (hpos : 0 < n) (hn : n < 32)
    (s : Core) :
    ∃ t, Runs (emit4 (if arith then thumb32AsrwImmT2 (half h p) (hi p) (BitVec.ofNat 32 n) flagS
        else thumb32LsrwImmT2 (half h p) (hi p) (BitVec.ofNat 32 n) flagNos)) s t ∧
      t.mem = s.mem ∧
      t.r (halfReg h p) =
        (if arith then (s.r (hiReg p)).sshiftRight n else s.r (hiReg p) >>> n) ∧
      ∀ i ≠ halfReg h p, t.r i = s.r i := by
  have hne := amount_ne_zero hpos hn
  cases arith with
  | false =>
      refine ⟨_, runs_emit4 (decode_lsr_hi h p ⟨n, hn⟩ hne) rfl, rfl, ?_, ?_⟩
      · simp [shiftC, Nat.ne_of_gt hpos]
      · intro i hi
        simp [hi]
  | true =>
      refine ⟨_, runs_emit4 (decode_asr_hi h p ⟨n, hn⟩ hne) rfl, rfl, ?_, ?_⟩
      · simp [shiftC, Nat.ne_of_gt hpos]
      · intro i hi
        simp [hi]

theorem keeps_pair_scratch {p : Fin 5} {s t : Core} (hmem : t.mem = s.mem)
    (hreg : ∀ i, i ≠ loReg p → i ≠ hiReg p → i ≠ loReg 4 → t.r i = s.r i) :
    Keeps [.pair 4, .pair p] s t :=
  keeps_pairs hmem fun i h4 _ hlo hhi _ _ => hreg i hlo hhi h4

theorem amount_tests {n : ℕ} (hn : n < 64) :
    (BitVec.ofNat 32 n = 0 ↔ n = 0) ∧ (BitVec.ofNat 32 n < 32 ↔ n < 32) ∧
      (BitVec.ofNat 32 n = 32 ↔ n = 32) := by
  have hnat : (BitVec.ofNat 32 n).toNat = n := by
    rw [BitVec.toNat_ofNat, Nat.mod_eq_of_lt (by omega)]
  refine ⟨?_, ?_, ?_⟩
  · rw [← BitVec.toNat_inj, hnat]
    rfl
  · rw [BitVec.lt_def, hnat]
    rfl
  · rw [← BitVec.toNat_inj, hnat]
    rfl

theorem ofNat_sub_32 {n : ℕ} (hn : 32 < n) :
    BitVec.ofNat 32 n - 32 = BitVec.ofNat 32 (n - 32) := by
  obtain ⟨k, rfl⟩ := Nat.exists_eq_add_of_lt hn
  rw [show 32 + k + 1 = (k + 1) + 32 by omega, BitVec.ofNat_add, Nat.add_sub_cancel]
  exact BitVec.add_sub_cancel _ _

theorem emitMovReg_hi_lo : ∀ p : Fin 5,
    emitMovReg (hi p) (lo p) = emit2 (thumb16MovRegT1 (lo p) (hi p)) := by
  decide

/-- The high word, at or above the width of a word, goes to the low word. -/
theorem runs_hi_to_lo (arith : Bool) (p : Fin 5) {n : ℕ} (hn : 32 ≤ n) (hn' : n < 64) (s : Core) :
    ∃ t, Runs (if BitVec.ofNat 32 n = 32 then emitMovReg (hi p) (lo p)
        else emit4 (if arith then
            thumb32AsrwImmT2 (lo p) (hi p) (BitVec.ofNat 32 n - 32) flagS
          else thumb32LsrwImmT2 (lo p) (hi p) (BitVec.ofNat 32 n - 32) flagNos)) s t ∧
      t.mem = s.mem ∧
      t.r (loReg p) = (if arith then (s.r (hiReg p)).sshiftRight (n - 32)
        else s.r (hiReg p) >>> (n - 32)) ∧
      ∀ i ≠ loReg p, t.r i = s.r i := by
  rcases Nat.eq_or_lt_of_le hn with rfl | hlt
  · refine ⟨s.set (loReg p) (s.r (hiReg p)), ?_, rfl, ?_, ?_⟩
    · rw [if_pos ((amount_tests hn').2.2.mpr rfl), emitMovReg_hi_lo]
      exact runs_emit2 (decode_mov_hi p) rfl
    · cases arith <;> simp
    · intro i hi
      simp [hi]
  · rw [if_neg ((amount_tests hn').2.2.not.mpr (by omega)), ofNat_sub_32 hlt]
    exact runs_shift_hi arith false p (by omega) (by omega) s

theorem runs_rshCode (p : Fin 5) {n : ℕ} (hn : n < 64) (s : Core) :
    ∃ t, Runs (rshCode p (BitVec.ofNat 32 n)) s t ∧
      val t (.pair p) = val s (.pair p) >>> n ∧ Keeps [.pair 4, .pair p] s t := by
  obtain ⟨hzero, hlt, heq⟩ := amount_tests hn
  rcases Nat.eq_zero_or_pos n with rfl | hpos
  · exact ⟨s, by rw [rshCode, if_pos (hzero.mpr rfl)]; exact .nil s, by simp, .refl _ s⟩
  rw [rshCode, if_neg (hzero.not.mpr (by omega))]
  by_cases hsmall : n < 32
  · obtain ⟨u, hu, hmu, hlo, hku⟩ := runs_funnel false p hpos hsmall s
    obtain ⟨t, ht, hmt, hhi, hkt⟩ := runs_shift_hi false true p hpos hsmall u
    rw [if_pos (hlt.mpr hsmall)]
    simp only [halfReg, if_true, Bool.false_eq_true, if_false] at hhi hkt
    refine ⟨t, hu.append ht, ?_, ?_⟩
    · simp only [val]
      rw [hhi, hkt _ (by simp), hlo, hku _ (by simp) (by simp), pair_shr _ _ hpos hsmall]
    · refine keeps_pair_scratch (hmt.trans hmu) ?_
      intro i h1 h2 h3
      rw [hkt i h2, hku i h1 h3]
  · obtain ⟨u, hu, hmu, hlo, hku⟩ := runs_hi_to_lo false p (Nat.not_lt.mp hsmall) hn s
    obtain ⟨t, ht, hhi, hmt, -, hkt⟩ := runs_emitMovImm (pair_lt p).2 0 u
    rw [← hi_eq] at ht
    rw [if_neg (hlt.not.mpr hsmall)]
    refine ⟨t, hu.append_ite ht, ?_, ?_⟩
    · simp only [val]
      rw [hhi, hkt _ (by simp), hlo, pair_shr_wide _ _ (Nat.not_lt.mp hsmall)]
      rfl
    · refine keeps_pair_scratch (hmt.trans hmu) ?_
      intro i h1 h2 h3
      rw [hkt i h2, hku i h1]

theorem runs_arshCode (p : Fin 5) {n : ℕ} (hn : n < 64) (s : Core) :
    ∃ t, Runs (arshCode p (BitVec.ofNat 32 n)) s t ∧
      val t (.pair p) = (val s (.pair p)).sshiftRight n ∧ Keeps [.pair 4, .pair p] s t := by
  obtain ⟨hzero, hlt, heq⟩ := amount_tests hn
  rcases Nat.eq_zero_or_pos n with rfl | hpos
  · exact ⟨s, by rw [arshCode, if_pos (hzero.mpr rfl)]; exact .nil s, by simp, .refl _ s⟩
  rw [arshCode, if_neg (hzero.not.mpr (by omega))]
  by_cases hsmall : n < 32
  · obtain ⟨u, hu, hmu, hlo, hku⟩ := runs_funnel true p hpos hsmall s
    obtain ⟨t, ht, hmt, hhi, hkt⟩ := runs_shift_hi true true p hpos hsmall u
    rw [if_pos (hlt.mpr hsmall)]
    simp only [halfReg, if_true] at hhi hkt
    refine ⟨t, hu.append ht, ?_, ?_⟩
    · simp only [val]
      rw [hhi, hkt _ (by simp), hlo, hku _ (by simp) (by simp), pair_sar _ _ hpos hsmall]
    · refine keeps_pair_scratch (hmt.trans hmu) ?_
      intro i h1 h2 h3
      rw [hkt i h2, hku i h1 h3]
  · obtain ⟨u, hu, hmu, hlo, hku⟩ := runs_hi_to_lo true p (Nat.not_lt.mp hsmall) hn s
    obtain ⟨t, ht, hmt, hhi, hkt⟩ := runs_shift_hi true true p (show 0 < 31 by omega) (by omega) u
    rw [if_neg (hlt.not.mpr hsmall)]
    simp only [halfReg, if_true] at hhi hkt
    refine ⟨t, hu.append_ite ht, ?_, ?_⟩
    · simp only [val]
      rw [hhi, hkt _ (by simp), hlo, hku _ (by simp), pair_sar_wide _ _ (Nat.not_lt.mp hsmall) hn]
      rfl
    · refine keeps_pair_scratch (hmt.trans hmu) ?_
      intro i h1 h2 h3
      rw [hkt i h2, hku i h1]

end RapidPatch.Jit

import Mathlib.Tactic.IntervalCases
import Mathlib.Tactic.Ring
import Mathlib.Tactic.Set
import RapidPatch.Jit.Layout
import RapidPatch.Thumb.Block

/-!
What the encoders' words mean to the processor.

An encoder with a wide immediate is read field by field: each field of the
word is found bit by bit, and the decoder is then followed over the fields.
Encoders whose operands are registers only are evaluated.
-/

namespace RapidPatch.Jit

open RapidPatch.Thumb

/-! ### Words and fields -/

theorem bits_bits {w : ℕ} (x : BitVec w) {a n b m : ℕ} (h : b + m ≤ n) :
    bits (bits x a n) b m = bits x (a + b) m := by
  apply BitVec.eq_of_getLsbD_eq
  intro i hi
  simp only [bits, BitVec.getLsbD_extractLsb', hi, decide_true, Bool.true_and,
    show b + i < n by omega, Nat.add_assoc]

theorem halfwords (x : BitVec 32) : (x >>> 16).setWidth 16 ++ x.setWidth 16 = x := by
  apply BitVec.eq_of_getLsbD_eq
  intro i hi
  rw [BitVec.getLsbD_append]
  by_cases hlo : i < 16
  · simp [hlo]
  · simp only [hlo, if_false, BitVec.getLsbD_setWidth, BitVec.getLsbD_ushiftRight]
    have hsub : 16 + (i - 16) = i := by omega
    simp [hsub, show i - 16 < 16 by omega]

theorem isWide_halfword (x : BitVec 32) :
    isWide ((x >>> 16).setWidth 16) = (bits x 27 5 ≥ 0b11101) := by
  have hfield : bits ((x >>> 16).setWidth 16) 11 5 = bits x 27 5 := by
    apply BitVec.eq_of_getLsbD_eq
    intro i hi
    simp only [bits, BitVec.getLsbD_extractLsb', hi, decide_true, Bool.true_and,
      BitVec.getLsbD_setWidth, show 11 + i < 16 by omega, BitVec.getLsbD_ushiftRight]
    congr 1
    omega
  simp [isWide, hfield]

/-! ### Branches -/

def evenPart (d : BitVec 32) : BitVec 32 := d &&& 0xfffffffe

theorem signExtend_setWidth_of_range {d : BitVec 32} {w : ℕ} (hw : w < 32)
    (hlo : -2 ^ w ≤ d.toInt) (hhi : d.toInt < 2 ^ w) :
    (d.setWidth (w + 1)).signExtend 32 = d := by
  apply BitVec.eq_of_toInt_eq
  have hpow : (((2 : ℕ) ^ (w + 1) : ℕ) : ℤ) = 2 * 2 ^ w := by
    push_cast
    ring
  rw [BitVec.toInt_signExtend_of_le (by omega), BitVec.toInt_setWidth,
    ← Int.bmod_bmod_of_dvd (Nat.pow_dvd_pow 2 (show w + 1 ≤ 32 by omega)),
    ← BitVec.toInt_eq_toNat_bmod]
  exact Int.bmod_eq_of_le_mul_two (by omega) (by omega)

theorem getLsbD_of_range {d : BitVec 32} {w : ℕ} (hw : w < 32)
    (hlo : -2 ^ w ≤ d.toInt) (hhi : d.toInt < 2 ^ w) {i : ℕ} (hi : i < 32) (hwi : w ≤ i) :
    d.getLsbD i = d.getLsbD w := by
  have hd := congrArg (BitVec.getLsbD · i) (signExtend_setWidth_of_range hw hlo hhi)
  rcases Nat.eq_or_lt_of_le hwi with rfl | hlt
  · rfl
  · rw [← hd]
    simp only [BitVec.getLsbD_signExtend, hi, show ¬i < w + 1 by omega, if_false,
      BitVec.msb_eq_getLsbD_last, BitVec.getLsbD_setWidth, Nat.add_sub_cancel]
    simp

/-- The bits an encoding keeps of a displacement in its range. -/
theorem offset_eq_evenPart {d : BitVec 32} {w : ℕ} (hpos : 0 < w) (hw : w < 32)
    (hlo : -2 ^ w ≤ d.toInt) (hhi : d.toInt < 2 ^ w) :
    (bits d 1 w ++ (0 : BitVec 1)).signExtend 32 = evenPart d := by
  apply BitVec.eq_of_getLsbD_eq
  intro i hi
  have hmask : (0xfffffffe : BitVec 32).getLsbD i = decide (i ≠ 0) := by
    interval_cases i <;> rfl
  simp only [evenPart, BitVec.getLsbD_and, hmask, BitVec.getLsbD_signExtend, hi, decide_true,
    Bool.true_and, BitVec.msb_eq_getLsbD_last, BitVec.getLsbD_append, bits,
    BitVec.getLsbD_extractLsb']
  by_cases h0 : i = 0
  · simp [h0]
  by_cases hiw : i < w + 1
  · simp [h0, hiw, show i - 1 < w by omega, show 1 + (i - 1) = i by omega]
  · simp [h0, hiw, hpos, Nat.ne_of_gt hpos, show 1 + (w - 1) = w by omega,
      getLsbD_of_range hw hlo hhi hi (by omega)]

theorem isBranch_thumb16BT1 {d : BitVec 32} {c : BitVec 4} (hc : bits c 1 3 ≠ 0b111)
    (hlo : -256 ≤ d.toInt) (hhi : d.toInt ≤ 254) :
    IsBranch (emit2 (thumb16BT1 d (c.setWidth 32))) c (evenPart d) := by
  set hw := thumb16BT1 d (c.setWidth 32) with hhw
  have htop : bits hw 11 5 = 0b11010 ||| (bits c 3 1).setWidth 5 := by
    apply BitVec.eq_of_getLsbD_eq
    intro i hi
    simp only [hhw, bits, thumb16BT1]
    interval_cases i <;> simp
  have hcond : bits hw 8 4 = c := by
    apply BitVec.eq_of_getLsbD_eq
    intro i hi
    simp only [hhw, bits, thumb16BT1]
    interval_cases i <;> simp
  have hnever : bits hw 9 3 = bits c 1 3 := by
    rw [← hcond, bits_bits _ (by omega)]
  have himm : bits hw 0 8 = bits d 1 8 := by
    apply BitVec.eq_of_getLsbD_eq
    intro i hi
    simp only [hhw, bits, thumb16BT1]
    interval_cases i <;> simp
  have hoff := offset_eq_evenPart (d := d) (w := 8) (by omega) (by omega) (by omega) (by omega)
  have htop' : bits hw 11 5 = 0b11010 ∨ bits hw 11 5 = 0b11011 := by
    rw [htop]
    generalize bits c 3 1 = b
    revert b
    decide
  rcases htop' with htop' | htop'
  · refine .narrow (by simp [isWide, htop']) ?_
    simp only [decode16, htop', hcond, hnever, himm, hoff]
    exact if_neg hc
  · refine .narrow (by simp [isWide, htop']) ?_
    simp only [decode16, htop', hcond, hnever, himm, hoff]
    exact if_neg hc

theorem isBranch_thumb16BT2 {d : BitVec 32} (hlo : -2048 ≤ d.toInt) (hhi : d.toInt < 2048) :
    IsBranch (emit2 (thumb16BT2 d)) condAl (evenPart d) := by
  have htop : bits (thumb16BT2 d) 11 5 = 0b11100 := by
    apply BitVec.eq_of_getLsbD_eq
    intro i hi
    simp only [bits, thumb16BT2]
    interval_cases i <;> simp
  have himm : bits (thumb16BT2 d) 0 11 = bits d 1 11 := by
    apply BitVec.eq_of_getLsbD_eq
    intro i hi
    simp only [bits, thumb16BT2]
    interval_cases i <;> simp
  have hoff := offset_eq_evenPart (d := d) (w := 11) (by omega) (by omega) (by omega) (by omega)
  refine .narrow (by simp [isWide, htop]) ?_
  simp only [decode16, htop, himm, hoff]
  rfl

theorem isBranch_thumb32BwT3 {d : BitVec 32} {c : BitVec 4} (hc : bits c 1 3 ≠ 0b111)
    (hlo : -1048576 ≤ d.toInt) (hhi : d.toInt < 1048576) :
    IsBranch (emit4 (thumb32BwT3 d (c.setWidth 32))) c (evenPart d) := by
  have hsign : decide (d.toInt < 0) = d.getLsbD 20 := by
    rw [← BitVec.msb_eq_toInt, BitVec.msb_eq_getLsbD_last]
    exact getLsbD_of_range (by omega) (by omega) (by omega) (by omega) (by omega)
  set x := thumb32BwT3 d (c.setWidth 32) with hx
  have htop : bits x 27 5 = 0b11110 := by
    apply BitVec.eq_of_getLsbD_eq
    intro i hi
    simp only [hx, bits, thumb32BwT3, bit]
    interval_cases i <;> simp
  have hcond : bits x 22 4 = c := by
    apply BitVec.eq_of_getLsbD_eq
    intro i hi
    simp only [hx, bits, thumb32BwT3, bit]
    interval_cases i <;> simp
  have h15 : bits x 15 1 = 1 := by
    apply BitVec.eq_of_getLsbD_eq
    intro i hi
    simp only [hx, bits, thumb32BwT3, bit]
    interval_cases i
    simp
  have h14 : bits x 14 1 = 0 := by
    apply BitVec.eq_of_getLsbD_eq
    intro i hi
    simp only [hx, bits, thumb32BwT3, bit]
    interval_cases i
    simp
  have h12 : bits x 12 1 = 0 := by
    apply BitVec.eq_of_getLsbD_eq
    intro i hi
    simp only [hx, bits, thumb32BwT3, bit]
    interval_cases i
    simp
  have himm : bits x 26 1 ++ (bits x 11 1 ++ (bits x 13 1 ++
    (bits x 16 6 ++ (bits x 0 11 ++ (0 : BitVec 1))))) = bits d 1 20 ++ (0 : BitVec 1) := by
    apply BitVec.eq_of_getLsbD_eq
    intro i hi
    simp only [hx, bits, thumb32BwT3, bit, BitVec.getLsbD_append]
    interval_cases i <;> simp [hsign]
  have hnever : bits x 23 3 = bits c 1 3 := by
    rw [← hcond, bits_bits _ (by omega)]
  have hoff := offset_eq_evenPart (d := d) (w := 20) (by omega) (by omega) (by omega) (by omega)
  refine .wide (by simp [isWide_halfword, htop]) ?_
  rw [halfwords]
  simp only [decode32, htop, h15, h14, h12, decodeBranch, himm, hoff, hcond, hnever]
  simpa using hc

end RapidPatch.Jit

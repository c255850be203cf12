import Mathlib.Tactic.IntervalCases
import RapidPatch.Jit.Words
import RapidPatch.Thumb.Access

/-!
The encoders of loads and stores.

All of them or a register pair, flags and an offset into a base word, and
none checks that the offset fits: what does not fit its eight bits falls into
the bits of the mode (`encode_access`).
-/

namespace RapidPatch.Jit

open RapidPatch.Vm RapidPatch.Thumb RapidPatch.Support

/-! ### The encoders -/

theorem access_fields (isLoad imm12 : Bool) (size : Fin 3) (rn rt : Reg) {z : Word}
    (hz : z.toNat < 4096) :
    (accessHead isLoad imm12 size).setWidth 32 <<< 20 ||| regField rn.toNat 16 |||
      regField rt.toNat 12 ||| z = accessWord isLoad imm12 size rn rt (z.setWidth 12) := by
  have hcut : z = (z.setWidth 12).setWidth 32 := by
    apply BitVec.eq_of_toNat_eq
    simp only [BitVec.toNat_setWidth]
    omega
  generalize z.setWidth 12 = y at hcut
  subst hcut
  rw [regField_toNat, regField_toNat, accessWord]
  generalize accessHead isLoad imm12 size = H
  apply BitVec.eq_of_getLsbD_eq
  intro i hi
  simp only [BitVec.getLsbD_append]
  interval_cases i <;> simp

theorem mode_fields (m : BitVec 4) (z : Word) :
    (m.setWidth 32 <<< 8 ||| z).setWidth 12 = (m ||| bits z 8 4) ++ bits z 0 8 := by
  apply BitVec.eq_of_getLsbD_eq
  intro i hi
  simp only [bits, BitVec.getLsbD_append, BitVec.getLsbD_setWidth, BitVec.getLsbD_or,
    BitVec.getLsbD_shiftLeft, BitVec.getLsbD_extractLsb']
  interval_cases i <;> simp

theorem or_flag (a b c d e : Word) : a ||| b ||| c ||| d ||| e = (a ||| d) ||| b ||| c ||| e := by
  ac_rfl

theorem or_mode (a b c d e : Word) : (a ||| b) ||| c ||| d ||| e = a ||| c ||| d ||| (b ||| e) := by
  ac_rfl

/-- An encoder with flags: what does not fit the offset falls into the mode. -/
theorem encode_access (isLoad : Bool) (size : Fin 3) (rn rt : Reg) {base flag z : Word}
    {m : BitVec 4}
    (hbase : base ||| flag <<< 8 =
      (accessHead isLoad false size).setWidth 32 <<< 20 ||| m.setWidth 32 <<< 8)
    (hz : z.toNat < 4096) :
    base ||| regField rn.toNat 16 ||| regField rt.toNat 12 ||| flag <<< 8 ||| z =
      accessWord isLoad false size rn rt ((m ||| bits z 8 4) ++ bits z 0 8) := by
  have hm : (m.setWidth 32 <<< 8).toNat < 4096 := by
    have hlt := m.isLt
    simp only [BitVec.toNat_shiftLeft, BitVec.toNat_setWidth, Nat.shiftLeft_eq]
    omega
  have hsum : (m.setWidth 32 <<< 8 ||| z).toNat < 2 ^ 12 := by
    rw [BitVec.toNat_or]
    exact Nat.or_lt_two_pow hm hz
  rw [or_flag, hbase, or_mode, access_fields isLoad false size rn rt hsum, mode_fields]

theorem bits_high_eq_zero {z : Word} (hz : z.toNat < 256) : bits z 8 4 = 0 := by
  apply BitVec.eq_of_toNat_eq
  rw [bits, BitVec.extractLsb'_toNat, Nat.shiftRight_eq_div_pow]
  show z.toNat / 2 ^ 8 % 2 ^ 4 = 0
  omega

theorem encode_short (isLoad : Bool) (size : Fin 3) (rn rt : Reg) {base flag z : Word}
    {m : BitVec 4}
    (hbase : base ||| flag <<< 8 =
      (accessHead isLoad false size).setWidth 32 <<< 20 ||| m.setWidth 32 <<< 8)
    (hz : z.toNat < 256) :
    base ||| regField rn.toNat 16 ||| regField rt.toNat 12 ||| flag <<< 8 ||| z =
      accessWord isLoad false size rn rt (m ++ bits z 0 8) := by
  rw [encode_access isLoad size rn rt hbase (by omega), bits_high_eq_zero hz]
  exact congrArg (fun m => accessWord isLoad false size rn rt (m ++ bits z 0 8)) BitVec.or_zero

/-! ### Offsets -/

theorem within_iff {off : Word} {b : ℤ} :
    within off b = true ↔ -b ≤ off.toInt ∧ off.toInt ≤ b := by
  simp [within]

theorem toNat_magnitude {off : Word} {b : ℕ} (h : within off b = true) (hb : b < 2 ^ 31) :
    (magnitude off).toNat = off.toInt.natAbs := by
  obtain ⟨hlow, hhigh⟩ := within_iff.mp h
  have hcond := off.toInt_eq_toNat_cond
  have hlt := off.isLt
  unfold magnitude
  split
  · split at hcond <;> omega
  · rw [BitVec.toNat_neg]
    split at hcond <;> omega

theorem magnitude_lt {off : Word} {b : ℕ} (h : within off b = true) (hb : b < 2 ^ 31) :
    (magnitude off).toNat ≤ b := by
  rw [toNat_magnitude h hb]
  have := within_iff.mp h
  omega

theorem setWidth_bits {z : Word} (hz : z.toNat < 256) : (bits z 0 8).setWidth 32 = z := by
  apply BitVec.eq_of_toNat_eq
  rw [BitVec.toNat_setWidth, bits, BitVec.extractLsb'_toNat, Nat.shiftRight_zero]
  omega

theorem accessOff_magnitude {off : Word} (h : within off 255 = true) {add : Bool}
    (hpos : 0 < off.toInt → add = true) (hneg : off.toInt < 0 → add = false) :
    accessOff add (bits (magnitude off) 0 8) = off := by
  have hlt := magnitude_lt (b := 255) h (by decide)
  rw [accessOff, setWidth_bits (by omega), magnitude]
  by_cases hp : off.toInt > 0
  · rw [hpos hp, if_pos rfl, if_pos hp]
  · rw [if_neg hp]
    by_cases hn : off.toInt < 0
    · rw [hneg hn, if_neg (by decide), BitVec.neg_neg]
    · have hzero : off = 0 := by
        rw [← BitVec.toInt_inj]
        show off.toInt = 0
        omega
      subst hzero
      cases add <;> rfl

theorem within_accessOff : ∀ (add : Bool) (k : BitVec 8), within (accessOff add k) 255 = true := by
  decide

theorem nextWord_eq {off : Word} (h : within off 4091 = true) :
    nextWord off = off + 4 ∧ (off + 4).toInt = off.toInt + 4 := by
  obtain ⟨hlow, hhigh⟩ := within_iff.mp h
  have hcond := off.toInt_eq_toNat_cond
  have hsum : (off + 4).toInt = off.toInt + 4 := by
    rw [BitVec.toInt_add, show (4 : Word).toInt = 4 from rfl]
    exact Int.bmod_eq_of_le (by omega) (by omega)
  refine ⟨?_, hsum⟩
  rw [nextWord, ← BitVec.toInt_inj, BitVec.toInt_signExtend_of_le (by decide), hsum,
    BitVec.toInt_eq_toNat_cond, BitVec.toNat_setWidth, BitVec.toNat_add,
    show (4 : Word).toNat = 4 from rfl]
  split <;> split at hcond <;> omega

end RapidPatch.Jit

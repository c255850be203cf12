import Mathlib.Algebra.Group.Nat.Defs
import Mathlib.Data.Nat.Notation

/-!
The low bits of a word, as compiled code takes them.

A register is wider than the numbers in it. Code that works on narrow numbers
keeps them in the low bits and lets anything be above, and before the value
counts it cuts the rest off: with a mask, or with a shift to the left and one
back. Each of these is a `setWidth` there and back, or a `signExtend`; and sums,
differences and the bit operations can be taken on either side of the cut.
-/

namespace RapidPatch.Support

variable {w k : ℕ}

theorem setWidth_sub (x y : BitVec w) (h : k ≤ w) :
    (x - y).setWidth k = x.setWidth k - y.setWidth k := by
  have hadd := BitVec.setWidth_add (x - y) y h
  rw [BitVec.sub_add_cancel] at hadd
  rw [hadd, BitVec.add_sub_cancel]

theorem setWidth_setWidth_self (x : BitVec k) (h : k ≤ w) : (x.setWidth w).setWidth k = x := by
  rw [BitVec.setWidth_setWidth_of_le _ h, BitVec.setWidth_eq]

theorem setWidth_signExtend_self (x : BitVec k) (h : k ≤ w) :
    (x.signExtend w).setWidth k = x := by
  refine BitVec.eq_of_getLsbD_eq fun i hi => ?_
  have hiw : i < w := Nat.lt_of_lt_of_le hi h
  simp only [BitVec.getLsbD_setWidth, BitVec.getLsbD_signExtend, hi, hiw, decide_true,
    Bool.true_and, if_true]

theorem setWidth_add_setWidth (x : BitVec k) (y : BitVec w) (h : k ≤ w) :
    (x.setWidth w + y).setWidth k = x + y.setWidth k := by
  rw [BitVec.setWidth_add _ _ h, setWidth_setWidth_self x h]

theorem and_mask (x : BitVec w) (k : ℕ) :
    x &&& BitVec.ofNat w (2 ^ k - 1) = (x.setWidth k).setWidth w := by
  refine BitVec.eq_of_getLsbD_eq fun i hi => ?_
  simp only [BitVec.getLsbD_and, BitVec.getLsbD_ofNat, Nat.testBit_two_pow_sub_one,
    BitVec.getLsbD_setWidth]
  by_cases hik : i < k
  · simp [hi, hik]
  · simp [hik]

theorem ushiftRight_shiftLeft (x : BitVec w) (hk : k ≤ w) :
    (x <<< (w - k)) >>> (w - k) = (x.setWidth k).setWidth w := by
  refine BitVec.eq_of_getLsbD_eq fun i hi => ?_
  simp only [BitVec.getLsbD_ushiftRight, BitVec.getLsbD_shiftLeft, BitVec.getLsbD_setWidth]
  by_cases hik : i < k
  · simp [hi, hik, show w - k + i < w by omega]
  · simp [hik, show ¬w - k + i < w by omega]

theorem sshiftRight_shiftLeft (x : BitVec w) (hk : k ≤ w) (hpos : 0 < k) :
    (x <<< (w - k)).sshiftRight (w - k) = (x.setWidth k).signExtend w := by
  refine BitVec.eq_of_getLsbD_eq fun i hi => ?_
  have hmsb : (x <<< (w - k)).msb = (x.setWidth k).msb := by
    simp only [BitVec.msb_eq_getLsbD_last, BitVec.getLsbD_shiftLeft, BitVec.getLsbD_setWidth]
    simp [show w - 1 - (w - k) = k - 1 by omega, show w - 1 < w by omega,
      show ¬w - 1 < w - k by omega, show k - 1 < k by omega]
  rw [BitVec.getLsbD_sshiftRight, BitVec.getLsbD_signExtend, hmsb, BitVec.getLsbD_shiftLeft,
    BitVec.getLsbD_setWidth]
  by_cases hik : i < k
  · rw [if_pos (by omega), if_pos hik]
    simp [hi, hik, show w - k + i < w by omega, show ¬w ≤ i by omega]
  · simp [hi, hik, show ¬w - k + i < w by omega]

end RapidPatch.Support

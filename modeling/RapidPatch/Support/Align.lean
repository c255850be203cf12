import Mathlib.Algebra.Group.Nat.Defs

/-!
Words rounded down to a multiple of a power of two.
-/

namespace RapidPatch.Support

variable (x : BitVec 32)

theorem toNat_ushiftRight_shiftLeft (k : ℕ) :
    ((x >>> k) <<< k).toNat = x.toNat / 2 ^ k * 2 ^ k := by
  have hlt := x.isLt
  have hle := Nat.div_mul_le_self x.toNat (2 ^ k)
  rw [BitVec.toNat_shiftLeft, BitVec.toNat_ushiftRight, Nat.shiftLeft_eq,
    Nat.shiftRight_eq_div_pow, Nat.mod_eq_of_lt (by omega)]

theorem toNat_and_not_low (k : ℕ) :
    (x &&& ~~~BitVec.ofNat 32 (2 ^ k - 1)).toNat = x.toNat / 2 ^ k * 2 ^ k := by
  have hbits : x &&& ~~~BitVec.ofNat 32 (2 ^ k - 1) = (x >>> k) <<< k := by
    apply BitVec.eq_of_getLsbD_eq
    intro i hi
    rw [BitVec.getLsbD_and, BitVec.getLsbD_not, BitVec.getLsbD_ofNat, BitVec.getLsbD_shiftLeft,
      BitVec.getLsbD_ushiftRight, Nat.testBit_two_pow_sub_one]
    by_cases hk : i < k
    · simp [hi, hk]
    · simp [hi, hk, Nat.not_lt.mp hk]
  rw [hbits, toNat_ushiftRight_shiftLeft]

theorem toNat_and_not_one : (x &&& ~~~1#32).toNat = x.toNat / 2 * 2 := toNat_and_not_low x 1

theorem toNat_and_not_three : (x &&& ~~~3#32).toNat = x.toNat / 4 * 4 := toNat_and_not_low x 2

theorem and_low_of_lt {k : ℕ} (h : x.toNat < 2 ^ k) (hk : k ≤ 32) :
    x &&& BitVec.ofNat 32 (2 ^ k - 1) = x := by
  have hpow : 2 ^ k ≤ 2 ^ 32 := Nat.pow_le_pow_right (by decide) hk
  apply BitVec.eq_of_toNat_eq
  rw [BitVec.toNat_and, BitVec.toNat_ofNat, Nat.mod_eq_of_lt (by omega),
    Nat.and_two_pow_sub_one_eq_mod, Nat.mod_eq_of_lt h]

theorem or_one_and_not_one : (x ||| 1#32) &&& ~~~1#32 = x &&& ~~~1#32 := by
  rw [BitVec.and_or_distrib_right]
  simp

variable {x}

theorem and_not_low_of_dvd {k : ℕ} (h : x.toNat % 2 ^ k = 0) :
    x &&& ~~~BitVec.ofNat 32 (2 ^ k - 1) = x := by
  apply BitVec.eq_of_toNat_eq
  rw [toNat_and_not_low]
  exact Nat.div_mul_cancel (Nat.dvd_of_mod_eq_zero h)

theorem and_not_one_of_even (h : x.toNat % 2 = 0) : x &&& ~~~1#32 = x :=
  and_not_low_of_dvd (k := 1) h

theorem and_not_three_of_aligned (h : x.toNat % 4 = 0) : x &&& ~~~3#32 = x :=
  and_not_low_of_dvd (k := 2) h

theorem or_one_and_not_one_of_even (h : x.toNat % 2 = 0) : (x ||| 1#32) &&& ~~~1#32 = x :=
  (or_one_and_not_one x).trans (and_not_one_of_even h)

end RapidPatch.Support

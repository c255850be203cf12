import Mathlib.Tactic.IntervalCases
import Mathlib.Tactic.Ring
import RapidPatch.Thumb.Machine

/-!
64-bit arithmetic on pairs of words.

A 64-bit number is a pair `hi ++ lo` of words. The lemmas say how its
operations come apart into operations on words as the processor has them:
sums and differences through the carry of `AddWithCarry`, products through
the wide product of the low words, shifts by an amount below, at and above
the width of a word, and the signed order through the flags of a difference.
-/

namespace RapidPatch.Thumb

variable (a b c d : Word)

theorem toNat_pair : (a ++ b : BitVec 64).toNat = 2 ^ 32 * a.toNat + b.toNat := by
  have hb := b.isLt
  rw [BitVec.toNat_append, ← Nat.shiftLeft_add_eq_or_of_lt hb, Nat.shiftLeft_eq]
  ring

theorem toInt_pair : (a ++ b : BitVec 64).toInt = 2 ^ 32 * a.toInt + b.toNat := by
  rw [BitVec.toInt_append]
  simp

theorem pair_halves (x : BitVec 64) : (x >>> 32).setWidth 32 ++ x.setWidth 32 = x := by
  apply BitVec.eq_of_toNat_eq
  have hx := x.isLt
  rw [toNat_pair, BitVec.toNat_setWidth, BitVec.toNat_setWidth, BitVec.toNat_ushiftRight,
    Nat.shiftRight_eq_div_pow]
  omega

def loWord (x : BitVec 64) : Word := x.setWidth 32

def hiWord (x : BitVec 64) : Word := (x >>> 32).setWidth 32

@[simp] theorem pair_words (x : BitVec 64) : hiWord x ++ loWord x = x := pair_halves x

theorem toNat_loWord (x : BitVec 64) : (loWord x).toNat = x.toNat % 2 ^ 32 :=
  BitVec.toNat_setWidth 32 x

theorem toNat_hiWord (x : BitVec 64) : (hiWord x).toNat = x.toNat / 2 ^ 32 := by
  have hx := x.isLt
  rw [hiWord, BitVec.toNat_setWidth, BitVec.toNat_ushiftRight, Nat.shiftRight_eq_div_pow]
  omega

@[simp] theorem loWord_pair : loWord (a ++ b) = b := by
  apply BitVec.eq_of_toNat_eq
  have hb := b.isLt
  rw [toNat_loWord, toNat_pair]
  omega

@[simp] theorem hiWord_pair : hiWord (a ++ b) = a := by
  apply BitVec.eq_of_toNat_eq
  have hb := b.isLt
  rw [toNat_hiWord, toNat_pair]
  omega

theorem pair_eq_iff : (a ++ b : BitVec 64) = c ++ d ↔ a = c ∧ b = d := by
  constructor
  · intro h
    have hhi := congrArg hiWord h
    have hlo := congrArg loWord h
    rw [hiWord_pair, hiWord_pair] at hhi
    rw [loWord_pair, loWord_pair] at hlo
    exact ⟨hhi, hlo⟩
  · rintro ⟨rfl, rfl⟩
    rfl

theorem setWidth_eq_pair (w : Word) : (w.setWidth 64 : BitVec 64) = (0 : Word) ++ w := by
  apply BitVec.eq_of_toNat_eq
  have hw := w.isLt
  rw [toNat_pair, BitVec.toNat_setWidth]
  show _ = 2 ^ 32 * 0 + w.toNat
  omega

/-! ### Sums and differences -/

theorem toNat_addWithCarry (x y : Word) (k : Bool) :
    (addWithCarry x y k).1.toNat = (x.toNat + y.toNat + k.toNat) % 2 ^ 32 := by
  cases k <;> simp [addWithCarry]

theorem carry_addWithCarry (x y : Word) (k : Bool) :
    (addWithCarry x y k).2.1.toNat = (x.toNat + y.toNat + k.toNat) / 2 ^ 32 := by
  have hx := x.isLt
  have hy := y.isLt
  have hk : k.toNat ≤ 1 := by cases k <;> decide
  simp only [addWithCarry]
  by_cases h : 2 ^ 32 ≤ x.toNat + y.toNat + k.toNat
  · simp only [h, decide_true, Bool.toNat_true]
    omega
  · simp only [h, decide_false, Bool.toNat_false]
    omega

theorem addWithCarry_sum (x y : Word) : (addWithCarry x y false).1 = x + y := by
  show x + y + 0#32 = x + y
  rw [BitVec.add_zero]

theorem addWithCarry_diff (x y : Word) : (addWithCarry x (~~~y) true).1 = x - y := by
  show x + ~~~y + 1#32 = x - y
  rw [BitVec.add_assoc, ← BitVec.neg_eq_not_add, BitVec.sub_eq_add_neg]

theorem addWithCarry_rsb (x y : Word) : (addWithCarry (~~~x) y true).1 = y - x := by
  show ~~~x + y + 1#32 = y - x
  rw [BitVec.add_comm (~~~x), BitVec.add_assoc, ← BitVec.neg_eq_not_add, ← BitVec.sub_eq_add_neg]

theorem carry_diff (x y : Word) : (addWithCarry x (~~~y) true).2.1 = decide (y ≤ x) := by
  have hx := x.isLt
  have hy := y.isLt
  simp only [addWithCarry, BitVec.toNat_not, Bool.toNat_true, BitVec.le_def, decide_eq_decide]
  omega

theorem pair_add : (a ++ b : BitVec 64) + (c ++ d) =
    (addWithCarry a c (addWithCarry b d false).2.1).1 ++ (addWithCarry b d false).1 := by
  apply BitVec.eq_of_toNat_eq
  have hb := b.isLt
  have hd := d.isLt
  rw [BitVec.toNat_add, toNat_pair, toNat_pair, toNat_pair, toNat_addWithCarry,
    toNat_addWithCarry, carry_addWithCarry]
  simp only [Bool.toNat_false]
  omega

theorem pair_sub : (a ++ b : BitVec 64) - (c ++ d) =
    (addWithCarry a (~~~c) (addWithCarry b (~~~d) true).2.1).1 ++
      (addWithCarry b (~~~d) true).1 := by
  apply BitVec.eq_of_toNat_eq
  have ha := a.isLt
  have hb := b.isLt
  have hc := c.isLt
  have hd := d.isLt
  rw [BitVec.toNat_sub, toNat_pair, toNat_pair, toNat_pair, toNat_addWithCarry,
    toNat_addWithCarry, carry_addWithCarry, BitVec.toNat_not, BitVec.toNat_not]
  simp only [Bool.toNat_true]
  omega

/-- The sign of an exact sum is the sign of the word, corrected for overflow. -/
theorem sign_addWithCarry (x y : Word) (k : Bool) :
    ((addWithCarry x y k).1.msb != (addWithCarry x y k).2.2) =
      decide (x.toInt + y.toInt + k.toNat < 0) := by
  have hsum := toNat_addWithCarry x y k
  have hover : (addWithCarry x y k).2.2 =
      decide ((addWithCarry x y k).1.toInt ≠ x.toInt + y.toInt + k.toNat) := rfl
  have hk : k.toNat ≤ 1 := by cases k <;> decide
  have hx := x.isLt
  have hy := y.isLt
  rw [hover, BitVec.msb_eq_toInt]
  generalize (addWithCarry x y k).1 = z at hsum ⊢
  have hz := z.isLt
  have hxi := x.toInt_eq_toNat_cond
  have hyi := y.toInt_eq_toNat_cond
  have hzi := z.toInt_eq_toNat_cond
  rw [Bool.eq_iff_iff]
  simp only [bne_iff_ne, ne_eq, decide_eq_true_eq, decide_eq_decide]
  by_cases hv : z.toInt = x.toInt + y.toInt + k.toNat
  · simp only [hv, not_true_eq_false, iff_false]
    omega
  · simp only [hv, not_false_eq_true, iff_true]
    split at hxi <;> split at hyi <;> split at hzi <;> omega

/-- The signed order, read off the flags of the difference of the high words
with the borrow of the low words. -/
theorem pair_slt : (a ++ b : BitVec 64).slt (c ++ d) =
    ((addWithCarry a (~~~c) (addWithCarry b (~~~d) true).2.1).1.msb !=
      (addWithCarry a (~~~c) (addWithCarry b (~~~d) true).2.1).2.2) := by
  have hb := b.isLt
  have hd := d.isLt
  have hnot : (~~~c).toInt = -c.toInt - 1 := by
    have hc := c.isLt
    have hci := c.toInt_eq_toNat_cond
    rw [BitVec.toInt_eq_toNat_cond, BitVec.toNat_not]
    split at hci <;> split <;> omega
  rw [sign_addWithCarry, carry_addWithCarry, BitVec.slt_eq_decide, toInt_pair, toInt_pair,
    hnot, BitVec.toNat_not, decide_eq_decide]
  simp only [Bool.toNat_true]
  omega

/-! ### Products -/

theorem pair_mul : (a ++ b : BitVec 64) * (c ++ d) =
    ((((b.setWidth 64 * d.setWidth 64 : BitVec 64) >>> 32).setWidth 32 + (a * d + b * c)) ++
      (b.setWidth 64 * d.setWidth 64 : BitVec 64).setWidth 32 : BitVec 64) := by
  apply BitVec.eq_of_toNat_eq
  have hb := b.isLt
  have hd := d.isLt
  have hp : b.toNat * d.toNat < 2 ^ 64 := by
    calc b.toNat * d.toNat < 2 ^ 32 * 2 ^ 32 := Nat.mul_lt_mul'' hb hd
      _ = 2 ^ 64 := by norm_num
  have hexp : (2 ^ 32 * a.toNat + b.toNat) * (2 ^ 32 * c.toNat + d.toNat) =
      2 ^ 64 * (a.toNat * c.toNat) +
        (2 ^ 32 * (a.toNat * d.toNat + b.toNat * c.toNat) + b.toNat * d.toNat) := by ring
  simp only [BitVec.toNat_mul, toNat_pair, BitVec.toNat_add, BitVec.toNat_setWidth,
    BitVec.toNat_ushiftRight, Nat.shiftRight_eq_div_pow]
  rw [hexp, Nat.mod_eq_of_lt (show b.toNat < 2 ^ 64 by omega),
    Nat.mod_eq_of_lt (show d.toNat < 2 ^ 64 by omega), Nat.mod_eq_of_lt hp]
  generalize a.toNat * d.toNat = u
  generalize b.toNat * c.toNat = v
  generalize a.toNat * c.toNat = w
  generalize b.toNat * d.toNat = x at hp ⊢
  omega

/-! ### Shifts -/

/-- A right shift by less than a word moves the low bits of the high word
into the low word. -/
theorem pair_shr {n : ℕ} (hpos : 0 < n) (hn : n < 32) :
    (a ++ b : BitVec 64) >>> n = (a >>> n) ++ ((b >>> n) ||| (a <<< (32 - n))) := by
  apply BitVec.eq_of_getLsbD_eq
  intro i hi
  simp only [BitVec.getLsbD_ushiftRight, BitVec.getLsbD_append, BitVec.getLsbD_or,
    BitVec.getLsbD_shiftLeft]
  by_cases hlo : i < 32
  · by_cases hni : n + i < 32
    · simp [hlo, hni, show i < 32 - n by omega]
    · have hsub : n + i - 32 = i - (32 - n) := by omega
      simp [hlo, hni, show ¬i < 32 - n by omega, hsub, BitVec.getLsbD_of_ge b (n + i) (by omega)]
  · have hsub : n + i - 32 = n + (i - 32) := by omega
    simp [hlo, show ¬n + i < 32 by omega, hsub]

theorem pair_shr_wide {n : ℕ} (hn : 32 ≤ n) :
    (a ++ b : BitVec 64) >>> n = (0 : Word) ++ (a >>> (n - 32)) := by
  apply BitVec.eq_of_getLsbD_eq
  intro i hi
  simp only [BitVec.getLsbD_ushiftRight, BitVec.getLsbD_append]
  have hsub : n + i - 32 = n - 32 + i := by omega
  by_cases hlo : i < 32
  · simp [hlo, show ¬n + i < 32 by omega, hsub]
  · simp [hlo, show ¬n + i < 32 by omega, BitVec.getLsbD_of_ge a (n + i - 32) (by omega)]

/-- A left shift by at most a word moves the high bits of the low word into
the high word. -/
theorem pair_shl {n : ℕ} (hn : n ≤ 32) :
    (a ++ b : BitVec 64) <<< n = ((a <<< n) ||| (b >>> (32 - n))) ++ (b <<< n) := by
  apply BitVec.eq_of_getLsbD_eq
  intro i hi
  simp only [BitVec.getLsbD_ushiftRight, BitVec.getLsbD_append, BitVec.getLsbD_or,
    BitVec.getLsbD_shiftLeft]
  by_cases hlo : i < 32
  · simp [hlo, hi, show i - n < 32 by omega]
  · have hsub : 32 - n + (i - 32) = i - n := by omega
    by_cases hni : i - n < 32
    · simp [hlo, hi, hni, show ¬i < n by omega, hsub, show i - 32 < n by omega]
    · have hsub' : i - n - 32 = i - 32 - n := by omega
      simp [hlo, hi, hni, show ¬i < n by omega, hsub, show ¬i - 32 < n by omega, hsub',
        show i - 32 < 32 by omega, BitVec.getLsbD_of_ge b (i - n) (by omega)]

theorem pair_shl_wide {n : ℕ} (hn : 32 ≤ n) :
    (a ++ b : BitVec 64) <<< n = (b <<< (n - 32)) ++ (0 : Word) := by
  apply BitVec.eq_of_getLsbD_eq
  intro i hi
  simp only [BitVec.getLsbD_append, BitVec.getLsbD_shiftLeft]
  by_cases hlo : i < 32
  · simp [hlo, show i < n by omega]
  · by_cases hni : i < n
    · simp [hlo, hni, show i - 32 < n - 32 by omega]
    · have hsub : i - 32 - (n - 32) = i - n := by omega
      simp [hlo, hi, hni, show ¬i - 32 < n - 32 by omega, hsub, show i - 32 < 32 by omega,
        show i - n < 32 by omega]

theorem msb_pair : (a ++ b : BitVec 64).msb = a.msb := by
  rw [BitVec.msb_eq_toInt, BitVec.msb_eq_toInt, toInt_pair, decide_eq_decide]
  have hb := b.isLt
  omega

theorem getLsbD_sar {w : ℕ} (x : BitVec w) (n : ℕ) {i : ℕ} (hi : i < w) :
    (x.sshiftRight n).getLsbD i = if n + i < w then x.getLsbD (n + i) else x.msb := by
  rw [BitVec.getLsbD_sshiftRight, decide_eq_false (Nat.not_le.mpr hi), Bool.not_false,
    Bool.true_and]

theorem pair_sar {n : ℕ} (hpos : 0 < n) (hn : n < 32) :
    (a ++ b : BitVec 64).sshiftRight n =
      (a.sshiftRight n) ++ ((b >>> n) ||| (a <<< (32 - n))) := by
  apply BitVec.eq_of_getLsbD_eq
  intro i hi
  rw [getLsbD_sar _ _ hi, msb_pair]
  simp only [BitVec.getLsbD_append, BitVec.getLsbD_or, BitVec.getLsbD_shiftLeft,
    BitVec.getLsbD_ushiftRight]
  by_cases hlo : i < 32
  · by_cases hni : n + i < 32
    · simp [hlo, hni, show i < 32 - n by omega, show n + i < 64 by omega]
    · have hsub : n + i - 32 = i - (32 - n) := by omega
      simp [hlo, hni, show ¬i < 32 - n by omega, hsub, BitVec.getLsbD_of_ge b (n + i) (by omega),
        show n + i < 64 by omega]
  · have hsub : n + i - 32 = n + (i - 32) := by omega
    rw [if_neg (show ¬i < 32 by omega), getLsbD_sar a n (show i - 32 < 32 by omega)]
    by_cases hni : n + i < 64
    · simp [show ¬n + i < 32 by omega, hsub, hni, show n + (i - 32) < 32 by omega]
    · simp [hni, show ¬n + (i - 32) < 32 by omega]

theorem pair_sar_wide {n : ℕ} (hn : 32 ≤ n) (hn' : n < 64) :
    (a ++ b : BitVec 64).sshiftRight n = (a.sshiftRight 31) ++ (a.sshiftRight (n - 32)) := by
  apply BitVec.eq_of_getLsbD_eq
  intro i hi
  have hlast : a.getLsbD 31 = a.msb := by rw [BitVec.msb_eq_getLsbD_last]
  have hsub : n + i - 32 = n - 32 + i := by omega
  rw [getLsbD_sar _ _ hi, msb_pair, BitVec.getLsbD_append, BitVec.getLsbD_append]
  by_cases hlo : i < 32
  · rw [if_pos hlo, getLsbD_sar a _ hlo]
    by_cases hni : n + i < 64
    · simp [hni, hsub, show ¬n + i < 32 by omega, show n - 32 + i < 32 by omega]
    · simp [hni, show ¬n - 32 + i < 32 by omega]
  · -- the high word is all sign
    rw [if_neg hlo, getLsbD_sar a _ (show i - 32 < 32 by omega), if_neg (by omega)]
    by_cases h32 : i = 32
    · subst h32
      rw [if_pos (by omega)]
      exact hlast.symm
    · simp [show ¬31 + (i - 32) < 32 by omega]

end RapidPatch.Thumb

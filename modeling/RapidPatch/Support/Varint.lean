import Mathlib.Data.Nat.Notation
import Mathlib.Tactic.Ring

/-!
Numbers in base 128, seven bits a byte, lowest first.

A byte whose highest bit is set is followed by another one. A stream of bytes
has one number at most (`EndsAt.unique`), and as long as the value fits, a word
to which the payloads are added one after the other holds the value of the
bytes so far (`base128_add`).
-/

namespace RapidPatch.Support

variable {f : ℕ → BitVec 8} {b : BitVec 8} {n e e' : ℕ}

def Continues (b : BitVec 8) : Prop := 128 ≤ b.toNat

instance Continues.decidable (b : BitVec 8) : Decidable (Continues b) :=
  inferInstanceAs (Decidable (_ ≤ _))

/-- The value of the first `n` bytes. -/
def base128 (f : ℕ → BitVec 8) : ℕ → ℕ
  | 0 => 0
  | n + 1 => base128 f n + 128 ^ n * ((f n).toNat % 128)

/-- The number has its last byte at `e`. -/
structure EndsAt (f : ℕ → BitVec 8) (e : ℕ) : Prop where
  before : ∀ i < e, Continues (f i)
  last : ¬Continues (f e)

theorem EndsAt.unique (h : EndsAt f e) (h' : EndsAt f e') : e = e' := by
  rcases Nat.lt_trichotomy e e' with hlt | heq | hgt
  · exact absurd (h'.before e hlt) h.last
  · exact heq
  · exact absurd (h.before e' hgt) h'.last

theorem base128_lt (f : ℕ → BitVec 8) (n : ℕ) : base128 f n < 128 ^ n := by
  induction n with
  | zero => exact Nat.one_pos
  | succ n ih =>
      have hmod : (f n).toNat % 128 ≤ 127 := by omega
      have hmul := Nat.mul_le_mul_left (128 ^ n) hmod
      rw [base128, Nat.pow_succ]
      omega

theorem and_continuation_eq_zero : b &&& 0x80 = 0 ↔ ¬Continues b := by
  revert b
  decide

theorem toNat_payload (b : BitVec 8) : (b.setWidth 32 &&& 0x7f).toNat = b.toNat % 128 := by
  have hmask : (0x7f : BitVec 32).toNat = 2 ^ 7 - 1 := rfl
  have hb : b.toNat < 2 ^ 32 := Nat.lt_trans b.isLt (by decide)
  rw [BitVec.toNat_and, hmask, Nat.and_two_pow_sub_one_eq_mod, BitVec.toNat_setWidth,
    Nat.mod_eq_of_lt hb]

theorem base128_add {length : BitVec 32} (h : length.toNat = base128 f n) (hn : n < 4) :
    (length + (((f n).setWidth 32 &&& 0x7f) <<< (7 * n))).toNat = base128 f (n + 1) := by
  have hlt := base128_lt f (n + 1)
  have hpow : 128 ^ (n + 1) ≤ 128 ^ 4 := Nat.pow_le_pow_right (by decide) hn
  have hshift : 2 ^ (7 * n) = 128 ^ n := by rw [Nat.pow_mul]
  rw [base128] at hlt ⊢
  have hfits : (128 ^ n * ((f n).toNat % 128)) < 2 ^ 32 := by omega
  rw [BitVec.toNat_add, BitVec.toNat_shiftLeft, toNat_payload, Nat.shiftLeft_eq, hshift, h,
    Nat.mul_comm, Nat.mod_eq_of_lt hfits, Nat.mod_eq_of_lt (by omega)]

end RapidPatch.Support

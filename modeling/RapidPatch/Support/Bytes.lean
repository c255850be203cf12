import Mathlib.Algebra.Group.Nat.Defs
import Mathlib.Data.List.GetD
import Mathlib.Logic.Function.Basic

/-!
Bytes in a row.

A buffer is a function from offsets to bytes, which is total: what a reader
finds behind the bytes that were written is left to it. `overlay` writes a
list of bytes to the start of a buffer. `HasAt` says that a list stands at an
offset, and `u16At`, `u32At` and `bytesAt` read little-endian numbers and runs
of bytes back from it. `overwrite` puts the start of one buffer at an offset of
another; two spans in a row are one (`overwrite_append`). `reverseBytes` turns
the bytes of a number around.
-/

namespace RapidPatch.Support

section

variable {α : Type*} {xs ys : List α} {buf rest : ℕ → α} {k : ℕ}

/-- A buffer with a list written to its start. -/
def overlay (xs : List α) (rest : ℕ → α) : ℕ → α := fun k => xs.getD k (rest k)

theorem overlay_of_lt (h : k < xs.length) : overlay xs rest k = xs[k] :=
  List.getD_eq_getElem xs (rest k) h

/-- The list stands in the buffer at the offset. -/
def HasAt (buf : ℕ → α) (k : ℕ) (xs : List α) : Prop :=
  ∀ i (hi : i < xs.length), buf (k + i) = xs[i]

theorem hasAt_overlay (xs : List α) (rest : ℕ → α) : HasAt (overlay xs rest) 0 xs := by
  intro i hi
  rw [Nat.zero_add]
  exact overlay_of_lt hi

theorem HasAt.head {x : α} (h : HasAt buf k (x :: xs)) : buf k = x := h 0 (Nat.succ_pos _)

theorem HasAt.tail {x : α} (h : HasAt buf k (x :: xs)) : HasAt buf (k + 1) xs := by
  intro i hi
  have hi' := h (i + 1) (Nat.succ_lt_succ hi)
  rwa [← Nat.add_assoc, Nat.add_right_comm] at hi'

theorem HasAt.append (h : HasAt buf k (xs ++ ys)) :
    HasAt buf k xs ∧ HasAt buf (k + xs.length) ys := by
  induction xs generalizing k with
  | nil => exact ⟨fun i hi => absurd hi (Nat.not_lt_zero i), h⟩
  | cons x xs ih =>
      obtain ⟨hxs, hys⟩ := ih h.tail
      refine ⟨?_, ?_⟩
      · intro i hi
        cases i with
        | zero => exact h.head
        | succ i =>
            rw [← Nat.add_assoc, Nat.add_right_comm]
            exact hxs i (Nat.lt_of_succ_lt_succ hi)
      · rwa [List.length_cons, ← Nat.add_assoc, Nat.add_right_comm]

theorem HasAt.concat {x : α} (h : HasAt buf k xs) (hx : buf (k + xs.length) = x) :
    HasAt buf k (xs ++ [x]) := by
  intro i hi
  rw [List.length_append, List.length_singleton] at hi
  rcases Nat.lt_or_eq_of_le (Nat.le_of_lt_succ hi) with hlt | rfl
  · rw [List.getElem_append_left hlt]
    exact h i hlt
  · rw [List.getElem_concat_length rfl]
    exact hx

/-- A write in front of a list or behind it leaves it in place. -/
theorem HasAt.update {i : ℕ} (h : HasAt buf k xs) (hi : i < k ∨ k + xs.length ≤ i) (x : α) :
    HasAt (Function.update buf i x) k xs := by
  intro j hj
  rw [Function.update_of_ne (by omega)]
  exact h j hj

end

/-! ### Spans -/

section

variable {α : Type*} {m g : ℕ → α} {a n j x : ℕ}

/-- The buffer with `n` entries from `a` on replaced. -/
def overwrite (m : ℕ → α) (a n : ℕ) (g : ℕ → α) : ℕ → α := fun x =>
  if a ≤ x ∧ x < a + n then g (x - a) else m x

theorem overwrite_add (hj : j < n) : overwrite m a n g (a + j) = g j := by
  rw [overwrite, if_pos ⟨Nat.le_add_right a j, Nat.add_lt_add_left hj a⟩, Nat.add_sub_cancel_left]

theorem overwrite_of_lt (hx : x < a) : overwrite m a n g x = m x :=
  if_neg fun h => Nat.not_le_of_lt hx h.1

theorem overwrite_of_le (hx : a + n ≤ x) : overwrite m a n g x = m x :=
  if_neg fun h => Nat.not_le_of_lt h.2 hx

@[simp] theorem overwrite_zero : overwrite m a 0 g = m := by
  funext x
  rcases Nat.lt_or_ge x a with hx | hx
  · exact overwrite_of_lt hx
  · exact overwrite_of_le hx

theorem overwrite_append (k : ℕ) :
    overwrite (overwrite m a n g) (a + n) k (fun j => g (n + j)) = overwrite m a (n + k) g := by
  funext x
  rcases Nat.lt_or_ge x (a + n) with hx | hx
  · rw [overwrite_of_lt hx]
    rcases Nat.lt_or_ge x a with ha | ha
    · rw [overwrite_of_lt ha, overwrite_of_lt ha]
    · obtain ⟨j, rfl⟩ := Nat.exists_eq_add_of_le ha
      have hj : j < n := Nat.lt_of_add_lt_add_left hx
      rw [overwrite_add hj, overwrite_add (Nat.lt_add_right k hj)]
  · obtain ⟨j, rfl⟩ := Nat.exists_eq_add_of_le hx
    rcases Nat.lt_or_ge j k with hj | hj
    · rw [overwrite_add hj, Nat.add_assoc, overwrite_add (Nat.add_lt_add_left hj n)]
    · rw [overwrite_of_le (Nat.add_le_add_left hj _), overwrite_of_le (Nat.le_add_right _ _),
        overwrite_of_le (by rw [← Nat.add_assoc]; exact Nat.add_le_add_left hj _)]

theorem update_overwrite (m : ℕ → α) (a n : ℕ) (g : ℕ → α) :
    Function.update (overwrite m a n g) (a + n) (g n) = overwrite m a (n + 1) g := by
  rw [← overwrite_append 1]
  funext x
  rcases eq_or_ne x (a + n) with rfl | hx
  · rw [Function.update_self]
    have hlast := overwrite_add (m := overwrite m a n g) (a := a + n)
      (g := fun j => g (n + j)) Nat.zero_lt_one
    exact hlast.symm
  · rw [Function.update_of_ne hx]
    rcases Nat.lt_or_gt_of_ne hx with hlt | hgt
    · rw [overwrite_of_lt hlt]
    · rw [overwrite_of_le (m := overwrite m a n g) hgt]

end

def u16At (bytes : ℕ → BitVec 8) (k : ℕ) : BitVec 16 := bytes (k + 1) ++ bytes k

def u32At (bytes : ℕ → BitVec 8) (k : ℕ) : BitVec 32 :=
  bytes (k + 3) ++ bytes (k + 2) ++ bytes (k + 1) ++ bytes k

def bytesAt (bytes : ℕ → BitVec 8) (k n : ℕ) : List (BitVec 8) :=
  (List.range n).map fun i => bytes (k + i)

def le16 (n : ℕ) : List (BitVec 8) := [BitVec.ofNat 8 n, BitVec.ofNat 8 (n / 2 ^ 8)]

def le32 (n : ℕ) : List (BitVec 8) :=
  [BitVec.ofNat 8 n, BitVec.ofNat 8 (n / 2 ^ 8), BitVec.ofNat 8 (n / 2 ^ 16),
    BitVec.ofNat 8 (n / 2 ^ 24)]

theorem ofNat_append_ofNat (v w n : ℕ) :
    BitVec.ofNat v (n / 2 ^ w) ++ BitVec.ofNat w n = BitVec.ofNat (v + w) n := by
  apply BitVec.eq_of_getLsbD_eq
  intro i hi
  rw [BitVec.getLsbD_append, BitVec.getLsbD_ofNat, BitVec.getLsbD_ofNat, BitVec.getLsbD_ofNat]
  by_cases hlow : i < w
  · simp [hlow, hi]
  · have hhigh : i - w < v := by omega
    rw [if_neg hlow, Nat.testBit_div_two_pow, Nat.sub_add_cancel (Nat.not_lt.mp hlow)]
    simp [hi, hhigh]

variable {bytes : ℕ → BitVec 8} {k n : ℕ}

theorem toNat_u16At (bytes : ℕ → BitVec 8) (k : ℕ) :
    (u16At bytes k).toNat = (bytes k).toNat + 256 * (bytes (k + 1)).toNat := by
  have hlow := (bytes k).isLt
  rw [u16At, BitVec.toNat_append, ← Nat.shiftLeft_add_eq_or_of_lt hlow, Nat.shiftLeft_eq]
  omega

theorem HasAt.u16At (h : HasAt bytes k (le16 n)) : u16At bytes k = BitVec.ofNat 16 n := by
  rw [Support.u16At, h.head, h.tail.head]
  exact ofNat_append_ofNat 8 8 n

theorem HasAt.u32At (h : HasAt bytes k (le32 n)) : u32At bytes k = BitVec.ofNat 32 n := by
  have hhigh : BitVec.ofNat 8 (n / 2 ^ 24) ++ BitVec.ofNat 8 (n / 2 ^ 16) =
      BitVec.ofNat 16 (n / 2 ^ 16) := by
    have happend := ofNat_append_ofNat 8 8 (n / 2 ^ 16)
    rwa [Nat.div_div_eq_div_mul] at happend
  have hupper : BitVec.ofNat 16 (n / 2 ^ 16) ++ BitVec.ofNat 8 (n / 2 ^ 8) =
      BitVec.ofNat 24 (n / 2 ^ 8) := by
    have happend := ofNat_append_ofNat 16 8 (n / 2 ^ 8)
    rwa [Nat.div_div_eq_div_mul] at happend
  rw [Support.u32At, h.head, h.tail.head, h.tail.tail.head, h.tail.tail.tail.head, hhigh, hupper]
  exact ofNat_append_ofNat 24 8 n

theorem HasAt.bytesAt {xs : List (BitVec 8)} (h : HasAt bytes k xs) :
    bytesAt bytes k xs.length = xs := by
  apply List.ext_getElem
  · simp [Support.bytesAt]
  · intro i _ hi
    simpa [Support.bytesAt] using h i hi

/-! ### Reversal -/

/-- The low `n` bytes of a number in reverse order. -/
def reverseBytes : ℕ → ℕ → ℕ
  | 0, _ => 0
  | n + 1, x => 2 ^ (8 * n) * (x % 2 ^ 8) + reverseBytes n (x / 2 ^ 8)

theorem reverseBytes_lt (n x : ℕ) : reverseBytes n x < 2 ^ (8 * n) := by
  induction n generalizing x with
  | zero => exact Nat.one_pos
  | succ n ih =>
      have hrest := ih (x / 2 ^ 8)
      have hbyte : x % 2 ^ 8 ≤ 2 ^ 8 - 1 := Nat.le_pred_of_lt (Nat.mod_lt _ (by decide))
      calc reverseBytes (n + 1) x
        _ < 2 ^ (8 * n) * (x % 2 ^ 8) + 2 ^ (8 * n) := Nat.add_lt_add_left hrest _
        _ = 2 ^ (8 * n) * (x % 2 ^ 8 + 1) := by rw [Nat.mul_succ]
        _ ≤ 2 ^ (8 * n) * 2 ^ 8 := Nat.mul_le_mul_left _ (Nat.succ_le_succ hbyte)
        _ = 2 ^ (8 * (n + 1)) := by rw [← Nat.pow_add, Nat.mul_succ]

theorem testBit_reverseBytes (n x i : ℕ) :
    (reverseBytes n x).testBit i =
      (decide (i < 8 * n) && x.testBit (8 * (n - 1 - i / 8) + i % 8)) := by
  induction n generalizing x i with
  | zero => simp [reverseBytes]
  | succ n ih =>
      rw [reverseBytes, Nat.testBit_two_pow_mul_add _ (reverseBytes_lt n _)]
      split
      · rename_i hlow
        rw [ih, Nat.testBit_div_two_pow]
        have hplace : 8 * (n - 1 - i / 8) + i % 8 + 8 = 8 * (n + 1 - 1 - i / 8) + i % 8 := by
          omega
        simp [hlow, hplace, show i < 8 * (n + 1) by omega]
      · -- the byte on top is the lowest of `x`
        rename_i hhigh
        rw [Nat.testBit_mod_two_pow]
        by_cases htop : i < 8 * (n + 1)
        · rw [show i - 8 * n = 8 * (n + 1 - 1 - i / 8) + i % 8 by omega,
            decide_eq_true (show 8 * (n + 1 - 1 - i / 8) + i % 8 < 8 by omega),
            decide_eq_true htop]
        · simp [htop, show ¬i - 8 * n < 8 by omega]

/-- Reversed twice, the bytes are in order again. -/
theorem reverseBytes_reverseBytes (n x : ℕ) :
    reverseBytes n (reverseBytes n x) = x % 2 ^ (8 * n) := by
  apply Nat.eq_of_testBit_eq
  intro i
  rw [testBit_reverseBytes, testBit_reverseBytes, Nat.testBit_mod_two_pow]
  by_cases hi : i < 8 * n
  · rw [decide_eq_true hi, decide_eq_true (show 8 * (n - 1 - i / 8) + i % 8 < 8 * n by omega),
      Bool.true_and]
    congr 2
    omega
  · simp [hi]

end RapidPatch.Support

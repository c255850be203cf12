import Mathlib.Data.Nat.Notation
import Mathlib.Logic.Function.Basic

/-!
Finite maps kept in two parallel arrays, the keys strictly increasing.

Arrays are functions on all indices, of which the first `n` cells count;
what lies behind them is nobody's business. `Represents` relates the two
arrays to the map they stand for. Its three rules are the three things an
operation can do to such a map: overwrite the value of a key that is there,
open a gap for a new key, close the gap of an old one. An operation that
moves cells one at a time is brought to these rules by
`Represents.congr`, which looks at the first `n` cells only.
-/

namespace RapidPatch.Support

variable {α β : Type*} [LT α]

/-- The first `n` cells are strictly increasing. -/
def SortedTo (f : ℕ → α) (n : ℕ) : Prop := ∀ i j, i < j → j < n → f i < f j

/-- Open a gap at `p` and put `x` there. -/
def insertAt (f : ℕ → β) (p : ℕ) (x : β) : ℕ → β := fun i =>
  if i < p then f i else if i = p then x else f (i - 1)

/-- Close the gap at `p`. -/
def removeAt (f : ℕ → β) (p : ℕ) : ℕ → β := fun i => if i < p then f i else f (i + 1)

theorem SortedTo.congr {f g : ℕ → α} {n : ℕ} (hf : SortedTo f n) (h : ∀ i < n, g i = f i) :
    SortedTo g n := by
  intro i j hij hj
  rw [h i (Nat.lt_trans hij hj), h j hj]
  exact hf i j hij hj

theorem SortedTo.injective [Std.Irrefl (α := α) (· < ·)] {f : ℕ → α} {n i j : ℕ} (hf : SortedTo f n)
    (hi : i < n) (hj : j < n) (h : f i = f j) : i = j := by
  rcases Nat.lt_trichotomy i j with hlt | heq | hgt
  · exact absurd h (Std.ne_of_lt (hf i j hlt hj))
  · exact heq
  · exact absurd h.symm (Std.ne_of_lt (hf j i hgt hi))

theorem SortedTo.insertAt {f : ℕ → α} {n p : ℕ} {x : α} (hf : SortedTo f n) (hp : p ≤ n)
    (hlt : ∀ i < p, f i < x) (hgt : ∀ i, p ≤ i → i < n → x < f i) :
    SortedTo (insertAt f p x) (n + 1) := by
  intro i j hij hj
  unfold Support.insertAt
  -- where `i` and `j` lie with respect to the gap
  split
  · split
    · exact hf i j hij (by omega)
    · split
      · exact hlt i ‹_›
      · rename_i hip hjp hne
        rcases Nat.lt_or_ge i (j - 1) with h | h
        · exact hf i (j - 1) h (by omega)
        · omega
  · split
    · rw [if_neg (by omega), if_neg (by omega)]
      exact hgt (j - 1) (by omega) (by omega)
    · rw [if_neg (by omega), if_neg (by omega)]
      exact hf (i - 1) (j - 1) (by omega) (by omega)

theorem SortedTo.removeAt {f : ℕ → α} {n p : ℕ} (hf : SortedTo f n) :
    SortedTo (removeAt f p) (n - 1) := by
  intro i j hij hj
  unfold Support.removeAt
  split <;> split
  · exact hf i j hij (by omega)
  · exact hf i (j + 1) (by omega) (by omega)
  · omega
  · exact hf (i + 1) (j + 1) (by omega) (by omega)

/-- Closing the gap at `p` leaves the pairs with another key. -/
theorem SortedTo.exists_removeAt_iff [Std.Irrefl (α := α) (· < ·)] {f : ℕ → α} {g : ℕ → β}
    {n p : ℕ} {k : α} {v : β} (hf : SortedTo f n) (hp : p < n) :
    (∃ j < n - 1, Support.removeAt f p j = k ∧ Support.removeAt g p j = v) ↔
      (∃ j < n, f j = k ∧ g j = v) ∧ k ≠ f p := by
  unfold Support.removeAt
  constructor
  · rintro ⟨j, hj, rfl, rfl⟩
    split
    · refine ⟨⟨j, by omega, rfl, rfl⟩, fun heq => ?_⟩
      have := hf.injective (by omega) hp heq
      omega
    · refine ⟨⟨j + 1, by omega, rfl, rfl⟩, fun heq => ?_⟩
      have := hf.injective (by omega) hp heq
      omega
  · rintro ⟨⟨j, hj, rfl, rfl⟩, hne⟩
    rcases Nat.lt_trichotomy j p with hlt | rfl | hgt
    · exact ⟨j, by omega, if_pos hlt, if_pos hlt⟩
    · exact absurd rfl hne
    · refine ⟨j - 1, by omega, ?_, ?_⟩ <;>
        rw [if_neg (by omega), Nat.sub_add_cancel (by omega)]

/-- The first `n` cells of `keys` and `vals` hold exactly the map `m`. -/
structure Represents (keys : ℕ → α) (vals : ℕ → β) (n : ℕ) (m : α → Option β) : Prop where
  sorted : SortedTo keys n
  entry : ∀ i < n, m (keys i) = some (vals i)
  absent : ∀ k, (∀ i < n, keys i ≠ k) → m k = none

namespace Represents

variable {keys keys' : ℕ → α} {vals vals' : ℕ → β} {n : ℕ} {m : α → Option β}

theorem empty (keys : ℕ → α) (vals : ℕ → β) : Represents keys vals 0 fun _ => none where
  sorted := fun _ _ _ hj => absurd hj (Nat.not_lt_zero _)
  entry := fun _ hi => absurd hi (Nat.not_lt_zero _)
  absent := fun _ _ => rfl

theorem congr (h : Represents keys vals n m) (hk : ∀ i < n, keys' i = keys i)
    (hv : ∀ i < n, vals' i = vals i) : Represents keys' vals' n m where
  sorted := h.sorted.congr hk
  entry := by
    intro i hi
    rw [hk i hi, hv i hi]
    exact h.entry i hi
  absent := by
    intro k hne
    apply h.absent
    intro i hi
    rw [← hk i hi]
    exact hne i hi

variable [Std.Irrefl (α := α) (· < ·)] [DecidableEq α]

theorem update (h : Represents keys vals n m) {p : ℕ} (hp : p < n) (v : β) :
    Represents keys (Function.update vals p v) n (Function.update m (keys p) (some v)) where
  sorted := h.sorted
  entry := by
    intro i hi
    by_cases hip : i = p
    · rw [hip, Function.update_self, Function.update_self]
    · have hne : keys i ≠ keys p := fun hk => hip (h.sorted.injective hi hp hk)
      rw [Function.update_of_ne hne, Function.update_of_ne hip]
      exact h.entry i hi
  absent := by
    intro k hne
    rw [Function.update_of_ne (hne p hp).symm]
    exact h.absent k hne

theorem insertAt (h : Represents keys vals n m) {p : ℕ} (hp : p ≤ n) {k : α} (v : β)
    (hlt : ∀ i < p, keys i < k) (hgt : ∀ i, p ≤ i → i < n → k < keys i) :
    Represents (insertAt keys p k) (insertAt vals p v) (n + 1)
      (Function.update m k (some v)) where
  sorted := h.sorted.insertAt hp hlt hgt
  entry := by
    intro i hi
    unfold Support.insertAt
    split
    · rename_i hip
      rw [Function.update_of_ne (Std.ne_of_lt (hlt i hip))]
      exact h.entry i (by omega)
    · split
      · rw [Function.update_self]
      · rw [Function.update_of_ne (Std.ne_of_lt (hgt (i - 1) (by omega) (by omega))).symm]
        exact h.entry (i - 1) (by omega)
  absent := by
    intro k' hne
    have hpk := hne p (by omega)
    simp only [Support.insertAt, Nat.lt_irrefl, if_false, if_true] at hpk
    rw [Function.update_of_ne hpk.symm]
    apply h.absent
    intro i hi
    rcases Nat.lt_or_ge i p with hip | hip
    · have := hne i (by omega)
      simpa only [Support.insertAt, hip, if_true] using this
    · have := hne (i + 1) (by omega)
      simpa only [Support.insertAt, show ¬i + 1 < p by omega, show i + 1 ≠ p by omega, if_false,
        Nat.add_sub_cancel] using this

theorem removeAt (h : Represents keys vals n m) {p : ℕ} (hp : p < n) :
    Represents (removeAt keys p) (removeAt vals p) (n - 1)
      (Function.update m (keys p) none) where
  sorted := h.sorted.removeAt
  entry := by
    intro i hi
    unfold Support.removeAt
    split
    · have hne : keys i ≠ keys p := fun hk => by
        have := h.sorted.injective (by omega) hp hk
        omega
      rw [Function.update_of_ne hne]
      exact h.entry i (by omega)
    · have hne : keys (i + 1) ≠ keys p := fun hk => by
        have := h.sorted.injective (by omega) hp hk
        omega
      rw [Function.update_of_ne hne]
      exact h.entry (i + 1) (by omega)
  absent := by
    intro k' hne
    by_cases hk : k' = keys p
    · rw [hk, Function.update_self]
    · rw [Function.update_of_ne hk]
      apply h.absent
      intro i hi hki
      rcases Nat.lt_trichotomy i p with hip | hip | hip
      · have := hne i (by omega)
        simp only [Support.removeAt, hip, if_true] at this
        exact this hki
      · rw [hip] at hki
        exact hk hki.symm
      · have := hne (i - 1) (by omega)
        simp only [Support.removeAt, show ¬i - 1 < p by omega, if_false,
          show i - 1 + 1 = i by omega] at this
        exact this hki

end Represents

end RapidPatch.Support

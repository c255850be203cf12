import Mathlib.Data.List.Basic

/-!
Words used as filters for words.

A filter is the bitwise or of the words it stands for, and a word passes when
all its bits are set in the filter. Every word the filter was made from
passes; words that were not may pass as well.
-/

namespace RapidPatch.Support

variable {w : ℕ}

/-- All bits of `x` are set in the filter. -/
def Passes (bits x : BitVec w) : Prop := bits &&& x = x

instance Passes.decidable (bits x : BitVec w) : Decidable (Passes bits x) :=
  inferInstanceAs (Decidable (_ = _))

def orAll (xs : List (BitVec w)) : BitVec w := xs.foldl (· ||| ·) 0

theorem passes_iff {bits x : BitVec w} :
    Passes bits x ↔ ∀ i < w, x.getLsbD i = true → bits.getLsbD i = true := by
  constructor
  · intro h i _ hi
    have hbit := congrArg (fun y : BitVec w => y.getLsbD i) h
    simpa [hi] using hbit
  · intro h
    apply BitVec.eq_of_getLsbD_eq
    intro i hi
    rw [BitVec.getLsbD_and]
    cases hbit : x.getLsbD i with
    | false => simp
    | true => simp [h i hi hbit]

@[simp] theorem passes_zero (bits : BitVec w) : Passes bits 0 := by
  simp [Passes]

theorem passes_empty_iff {x : BitVec w} : Passes 0 x ↔ x = 0 := by
  have hzero : 0 &&& x = 0 := BitVec.zero_and
  rw [Passes, hzero]
  exact eq_comm

theorem getLsbD_foldl_or (xs : List (BitVec w)) (bits : BitVec w) (i : ℕ) :
    (xs.foldl (· ||| ·) bits).getLsbD i = (bits.getLsbD i || xs.any (·.getLsbD i)) := by
  induction xs generalizing bits with
  | nil => simp
  | cons x xs ih => rw [List.foldl_cons, ih, BitVec.getLsbD_or, List.any_cons, Bool.or_assoc]

theorem getLsbD_orAll (xs : List (BitVec w)) (i : ℕ) :
    (orAll xs).getLsbD i = xs.any (·.getLsbD i) := by
  rw [orAll, getLsbD_foldl_or]
  simp

/-- Every word a filter is made from passes it. -/
theorem passes_orAll {xs : List (BitVec w)} {x : BitVec w} (hx : x ∈ xs) : Passes (orAll xs) x := by
  rw [passes_iff]
  intro i _ hi
  rw [getLsbD_orAll]
  exact List.any_eq_true.mpr ⟨x, hx, hi⟩

theorem orAll_congr {xs ys : List (BitVec w)} (h : ∀ x, x ∈ xs ↔ x ∈ ys) : orAll xs = orAll ys := by
  apply BitVec.eq_of_getLsbD_eq
  intro i _
  rw [getLsbD_orAll, getLsbD_orAll, Bool.eq_iff_iff, List.any_eq_true, List.any_eq_true]
  simp only [h]

theorem orAll_append_singleton (xs : List (BitVec w)) (x : BitVec w) :
    orAll (xs ++ [x]) = orAll xs ||| x := by
  rw [orAll, List.foldl_append]
  rfl

end RapidPatch.Support

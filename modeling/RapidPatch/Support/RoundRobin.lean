import Mathlib.Data.Nat.Notation
import Mathlib.Logic.Function.Basic

/-!
A table of slots that are taken in turn.

A value that is in a slot already is not added again, and another one takes
the next slot, whatever is in it, the last slot being followed by the first.
So no value is in two slots (`Slots.Distinct.addAll`), and a value leaves the
table exactly when as many others have taken a slot after it as there are
slots (`Slots.addAll_holds_iff`).
-/

namespace RapidPatch.Support

/-- The slots, and the one to be taken next. -/
structure Slots (α : Type*) where
  slot : ℕ → α
  next : ℕ

namespace Slots

variable {α : Type*} {n k m : ℕ} {r : Slots α} {v w : α}

/-- The value is in one of the first `n` slots. -/
def Holds (r : Slots α) (n : ℕ) (v : α) : Prop := ∃ i < n, r.slot i = v

/-- All values but `free` are in one slot at most. -/
def Distinct (r : Slots α) (n : ℕ) (free : α) : Prop :=
  ∀ i < n, ∀ j < n, r.slot i = r.slot j → r.slot i ≠ free → i = j

/-- `v` is in the slot `k` alone, and `m` slots have been taken since. -/
structure Aged (r : Slots α) (n k m : ℕ) (v : α) : Prop where
  lt : k < n
  slot : r.slot k = v
  alone : ∀ i < n, r.slot i = v → i = k
  next : r.next = (k + 1 + m) % n

theorem Aged.holds (h : r.Aged n k m v) : r.Holds n v := ⟨k, h.lt, h.slot⟩

variable [DecidableEq α]

instance Holds.decidable (r : Slots α) (n : ℕ) (v : α) : Decidable (r.Holds n v) :=
  inferInstanceAs (Decidable (∃ i < n, _))

def add (n : ℕ) (r : Slots α) (v : α) : Slots α :=
  if r.Holds n v then r
  else { slot := Function.update r.slot r.next v, next := (r.next + 1) % n }

def addAll (n : ℕ) (r : Slots α) (vs : List α) : Slots α := vs.foldl (add n) r

/-- How many values of a sequence are not there when they are added. -/
def newCount (n : ℕ) : Slots α → List α → ℕ
  | _, [] => 0
  | r, v :: vs => (if r.Holds n v then 0 else 1) + newCount n (r.add n v) vs

theorem add_of_holds (h : r.Holds n v) : r.add n v = r := if_pos h

theorem add_of_not_holds (h : ¬r.Holds n v) :
    r.add n v = { slot := Function.update r.slot r.next v, next := (r.next + 1) % n } := if_neg h

theorem Distinct.add {free : α} (h : r.Distinct n free) : (r.add n v).Distinct n free := by
  by_cases hv : r.Holds n v
  · rwa [add_of_holds hv]
  · rw [add_of_not_holds hv]
    have hnew : ∀ i < n, r.slot i ≠ v := fun i hi heq => hv ⟨i, hi, heq⟩
    intro i hi j hj heq hne
    by_cases hin : i = r.next
    · by_cases hjn : j = r.next
      · rw [hin, hjn]
      · simp only [hin, Function.update_self, Function.update_of_ne hjn] at heq
        exact absurd heq.symm (hnew j hj)
    · by_cases hjn : j = r.next
      · simp only [hjn, Function.update_self, Function.update_of_ne hin] at heq
        exact absurd heq (hnew i hi)
      · simp only [Function.update_of_ne hin, Function.update_of_ne hjn] at heq hne
        exact h i hi j hj heq hne

theorem Distinct.addAll {free : α} (h : r.Distinct n free) (vs : List α) :
    (r.addAll n vs).Distinct n free := by
  induction vs generalizing r with
  | nil => exact h
  | cons v vs ih => exact ih h.add

theorem addAll_of_newCount (vs : List α) (h : r.newCount n vs = 0) : r.addAll n vs = r := by
  induction vs generalizing r with
  | nil => rfl
  | cons v vs ih =>
      rw [newCount] at h
      split at h
      · rename_i hv
        rw [add_of_holds hv] at h
        rw [addAll, List.foldl_cons, add_of_holds hv]
        exact ih (by omega)
      · omega

/-- A value that was not there takes the next slot. -/
theorem aged_add (hnext : r.next < n) (hv : ¬r.Holds n v) : (r.add n v).Aged n r.next 0 v := by
  rw [add_of_not_holds hv]
  refine ⟨hnext, Function.update_self .., ?_, rfl⟩
  intro i hi heq
  by_contra hne
  simp only [Function.update_of_ne hne] at heq
  exact hv ⟨i, hi, heq⟩

/-- The slots after `k` are taken one after the other, up to `k` itself. -/
theorem Aged.add_new (h : r.Aged n k m v) (hw : ¬r.Holds n w) (hm : m + 1 < n) :
    (r.add n w).Aged n k (m + 1) v := by
  have hk := h.lt
  have hne : k ≠ r.next := by
    intro heq
    rw [h.next] at heq
    rcases Nat.lt_or_ge (k + 1 + m) n with hlt | hge
    · rw [Nat.mod_eq_of_lt hlt] at heq
      omega
    · rw [Nat.mod_eq_sub_mod hge, Nat.mod_eq_of_lt (by omega)] at heq
      omega
  rw [add_of_not_holds hw]
  refine ⟨hk, ?_, ?_, ?_⟩
  · simp only [Function.update_of_ne hne, h.slot]
  · intro i hi heq
    by_cases hin : i = r.next
    · simp only [hin, Function.update_self] at heq
      rw [heq] at hw
      exact absurd h.holds hw
    · simp only [Function.update_of_ne hin] at heq
      exact h.alone i hi heq
  · rw [h.next, Nat.mod_add_mod]
    rfl

/-- The last of them is `k`. -/
theorem Aged.add_last (h : r.Aged n k m v) (hw : ¬r.Holds n w) (hm : m + 1 = n) :
    ¬(r.add n w).Holds n v := by
  have hnext : r.next = k := by
    rw [h.next, Nat.add_assoc, Nat.add_comm 1 m, hm, Nat.add_mod_right, Nat.mod_eq_of_lt h.lt]
  rw [add_of_not_holds hw, hnext]
  rintro ⟨i, hi, heq⟩
  by_cases hik : i = k
  · simp only [hik, Function.update_self] at heq
    exact hw (heq ▸ h.holds)
  · simp only [Function.update_of_ne hik] at heq
    exact hik (h.alone i hi heq)

/-- As long as `n` slots have not been taken since, `v` is there, and when they
have it is not. -/
theorem Aged.addAll_holds_iff (h : r.Aged n k m v) (hm : m < n) (vs : List α)
    (hcount : m + r.newCount n vs ≤ n) :
    (r.addAll n vs).Holds n v ↔ m + r.newCount n vs < n := by
  induction vs generalizing r m with
  | nil => exact iff_of_true h.holds hm
  | cons w vs ih =>
      by_cases hw : r.Holds n w
      · rw [newCount, if_pos hw, add_of_holds hw, Nat.zero_add] at hcount ⊢
        rw [addAll, List.foldl_cons, add_of_holds hw]
        exact ih h hm hcount
      · rw [newCount, if_neg hw, ← Nat.add_assoc] at hcount ⊢
        rw [addAll, List.foldl_cons]
        rcases Nat.lt_or_ge (m + 1) n with hlt | hge
        · exact ih (h.add_new hw hlt) hlt hcount
        · have hlast := h.add_last hw (by omega)
          have hnone : (r.add n w).newCount n vs = 0 := by omega
          refine iff_of_false ?_ (by omega)
          have hsame := addAll_of_newCount vs hnone
          rw [addAll] at hsame
          rwa [hsame]

/-- A value that has taken a slot leaves it to the `n`-th new value after
it. -/
theorem addAll_holds_iff (hnext : r.next < n) (hv : ¬r.Holds n v) (vs : List α)
    (hcount : (r.add n v).newCount n vs ≤ n) :
    ((r.add n v).addAll n vs).Holds n v ↔ (r.add n v).newCount n vs < n := by
  have haged := aged_add hnext hv
  have hiff := haged.addAll_holds_iff (Nat.zero_lt_of_lt hnext) vs (by omega)
  rwa [Nat.zero_add] at hiff

/-- Nothing else comes to be there. -/
theorem holds_addAll {vs : List α} (h : (r.addAll n vs).Holds n v) : r.Holds n v ∨ v ∈ vs := by
  induction vs generalizing r with
  | nil => exact .inl h
  | cons w vs ih =>
      rcases ih h with hadd | hmem
      · by_cases hw : r.Holds n w
        · rw [add_of_holds hw] at hadd
          exact .inl hadd
        · rw [add_of_not_holds hw] at hadd
          obtain ⟨i, hi, heq⟩ := hadd
          by_cases hin : i = r.next
          · simp only [hin, Function.update_self] at heq
            exact .inr (heq ▸ List.mem_cons_self ..)
          · simp only [Function.update_of_ne hin] at heq
            exact .inl ⟨i, hi, heq⟩
      · exact .inr (List.mem_cons_of_mem _ hmem)

theorem next_addAll_lt (hnext : r.next < n) (vs : List α) : (r.addAll n vs).next < n := by
  induction vs generalizing r with
  | nil => exact hnext
  | cons v vs ih =>
      refine ih ?_
      unfold add
      split
      · exact hnext
      · exact Nat.mod_lt _ (Nat.zero_lt_of_lt hnext)

theorem newCount_le_length (r : Slots α) (n : ℕ) (vs : List α) :
    r.newCount n vs ≤ vs.length := by
  induction vs generalizing r with
  | nil => exact Nat.le_refl 0
  | cons v vs ih =>
      have htail := ih (r.add n v)
      rw [newCount, List.length_cons]
      split <;> omega

/-- A value is there behind a sequence that has it, if the sequence is no longer
than the table. -/
theorem addAll_holds_of_mem (hnext : r.next < n) (hnew : ¬r.Holds n v) {vs : List α}
    (hlen : vs.length ≤ n) (hv : v ∈ vs) : (r.addAll n vs).Holds n v := by
  obtain ⟨pre, post, rfl, hpre⟩ := List.eq_append_cons_of_mem hv
  rw [List.length_append, List.length_cons] at hlen
  have habsent : ¬(r.addAll n pre).Holds n v := by
    intro h
    exact (holds_addAll h).elim hnew hpre
  have hcount := newCount_le_length ((r.addAll n pre).add n v) n post
  rw [addAll, List.foldl_append]
  refine (addAll_holds_iff (next_addAll_lt hnext pre) habsent post ?_).mpr ?_
  · omega
  · omega

end Slots

end RapidPatch.Support

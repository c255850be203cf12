import Mathlib.Data.List.Basic

/-!
The words of a list.

A predicate tells the separators. A word is what stands between two of them,
if it is not empty: a run of other elements that cannot be made longer.
-/

namespace RapidPatch.Support

variable {α : Type*} {sep : α → Bool} {a : α} {l u : List α}

/-- The runs between separators, without the empty ones. -/
def words (sep : α → Bool) (l : List α) : List (List α) :=
  (l.splitOnP sep).filter fun w => !w.isEmpty

theorem words_nil : words sep ([] : List α) = [] := rfl

theorem words_cons_sep (ha : sep a = true) : words sep (a :: l) = words sep l := by
  rw [words, List.splitOnP_cons_eq_if_modifyHead, if_pos ha]
  rfl

theorem words_of_forall (hu : ∀ x ∈ u, sep x = false) (hne : u ≠ []) : words sep u = [u] := by
  rw [words, List.splitOnP_eq_singleton hu]
  simp [hne]

theorem words_append_cons (hu : ∀ x ∈ u, sep x = false) (hne : u ≠ []) (ha : sep a = true) :
    words sep (u ++ a :: l) = u :: words sep l := by
  rw [words, List.splitOnP_append_cons_of_forall_mem hu a ha, List.filter_cons_of_pos]
  · rfl
  · simpa using hne

theorem words_append_sep (hu : ∀ x ∈ u, sep x = false) (ha : sep a = true) :
    words sep (u ++ a :: l) = words sep u ++ words sep l := by
  by_cases hne : u = []
  · rw [hne, List.nil_append, words_cons_sep ha, words_nil, List.nil_append]
  · rw [words_append_cons hu hne ha, words_of_forall hu hne, List.singleton_append]

theorem length_words_le (hu : ∀ x ∈ u, sep x = false) : (words sep u).length ≤ 1 := by
  by_cases hne : u = []
  · rw [hne, words_nil]
    exact Nat.zero_le 1
  · exact Nat.le_of_eq (congrArg List.length (words_of_forall hu hne))

theorem words_eq_nil_iff : words sep l = [] ↔ ∀ x ∈ l, sep x = true := by
  induction l with
  | nil => exact iff_of_true rfl fun _ hx => absurd hx List.not_mem_nil
  | cons a l ih =>
      rw [List.forall_mem_cons]
      by_cases ha : sep a = true
      · rw [words_cons_sep ha, ih, and_iff_right ha]
      · refine iff_of_false (fun hnil => ?_) fun h => ha h.1
        obtain ⟨w, ws, hw⟩ := List.exists_cons_of_ne_nil (List.splitOnP_ne_nil sep l)
        rw [words, List.splitOnP_cons_eq_if_modifyHead, if_neg ha, hw, List.modifyHead_cons] at hnil
        simp at hnil

end RapidPatch.Support

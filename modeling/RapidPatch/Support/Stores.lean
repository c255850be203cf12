import Mathlib.Data.List.Basic

/-!
Updates that take several stores.

An interrupt may come between any two stores of an update, and what it then
sees is a state the update only passes through. What every store preserves
holds in all of them.
-/

namespace RapidPatch.Support

variable {σ ω : Type*} {apply : σ → ω → σ} {s t : σ} {ws : List ω}

/-- Some of the stores are done and some are not. -/
def Between (apply : σ → ω → σ) (s : σ) (ws : List ω) (t : σ) : Prop :=
  ∃ done todo, ws = done ++ todo ∧ done ≠ [] ∧ todo ≠ [] ∧ t = done.foldl apply s

/-- What every store preserves holds after some of them. -/
theorem foldl_stores_invariant {P : σ → Prop} (hstep : ∀ u, ∀ w ∈ ws, P u → P (apply u w))
    (hs : P s) : P (ws.foldl apply s) := by
  induction ws generalizing s with
  | nil => exact hs
  | cons w ws ih =>
      refine ih (fun u v hv => hstep u v (List.mem_cons_of_mem w hv)) ?_
      exact hstep s w List.mem_cons_self hs

theorem Between.invariant {P : σ → Prop} (h : Between apply s ws t)
    (hstep : ∀ u, ∀ w ∈ ws, P u → P (apply u w)) (hs : P s) : P t := by
  obtain ⟨done, todo, rfl, -, -, rfl⟩ := h
  exact foldl_stores_invariant (fun u w hw => hstep u w (List.mem_append_left todo hw)) hs

end RapidPatch.Support

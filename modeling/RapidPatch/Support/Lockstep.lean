import RapidPatch.Support.Machine

/-!
Two machines in step.

`Alike` says of two steps that both stop with the same result, or both go on
to related states. If each step of two related states ends alike, so do their
runs of any length (`run_alike`), and every state that one machine reaches
has a partner that the other reaches (`Reaches.partner`). The condition on
the steps need only hold where the first machine comes by.
-/

namespace RapidPatch.Support

variable {σ τ ρ : Type*} {step : σ → Next σ ρ} {step' : τ → Next τ ρ} {R R' : σ → τ → Prop}
  {P : σ → Prop} {s : σ} {t : τ}

/-- Both stop with the same result, or both go on to related states. -/
inductive Alike (R : σ → τ → Prop) : Next σ ρ → Next τ ρ → Prop
  | cont {s : σ} {t : τ} (h : R s t) : Alike R (.cont s) (.cont t)
  | stop (r : ρ) : Alike R (.stop r) (.stop r)

theorem Alike.mono {a : Next σ ρ} {b : Next τ ρ} (h : Alike R a b)
    (hR : ∀ s t, a = .cont s → b = .cont t → R s t → R' s t) : Alike R' a b := by
  cases h with
  | cont h => exact .cont (hR _ _ rfl rfl h)
  | stop r => exact .stop r

theorem Alike.stop_eq {r : ρ} {b : Next τ ρ} (h : Alike R (.stop r) b) : b = .stop r := by
  cases h
  rfl

theorem Alike.of_stop {a : Next σ ρ} {r : ρ} (h : Alike R a (.stop r)) : a = .stop r := by
  cases h
  rfl

theorem Alike.of_cont {a : Next σ ρ} {v : τ} (h : Alike R a (.cont v)) :
    ∃ u, a = .cont u ∧ R u v := by
  cases h with
  | cont h => exact ⟨_, rfl, h⟩

/-- Runs of machines that step alike end alike. -/
theorem run_alike (hstep : ∀ s t, R s t → P s → Alike R (step s) (step' t)) (n : ℕ)
    (hP : ∀ u, Reaches step s u → P u) (hR : R s t) :
    Alike R (run step n s) (run step' n t) := by
  induction n generalizing s t with
  | zero => exact .cont hR
  | succ n ih =>
      have hfirst := hstep s t hR (hP s (.refl s))
      cases hs : step s with
      | cont u =>
          rw [hs] at hfirst
          rw [run_succ_cont hs]
          cases ht : step' t with
          | cont v =>
              rw [ht] at hfirst
              cases hfirst with
              | cont hv =>
                  rw [run_succ_cont ht]
                  exact ih (fun w hw => hP w (.head hs hw)) hv
          | stop r =>
              rw [ht] at hfirst
              cases hfirst
      | stop r =>
          rw [hs] at hfirst
          rw [run_succ_stop hs, run_succ_stop hfirst.stop_eq]
          exact .stop r

/-- A state of the second machine has a partner in the first. -/
theorem Reaches.partner (hstep : ∀ s t, R s t → P s → Alike R (step s) (step' t))
    (hP : ∀ u, Reaches step s u → P u) (hR : R s t) {v : τ} (hv : Reaches step' t v) :
    ∃ u, Reaches step s u ∧ R u v := by
  induction hv with
  | refl => exact ⟨s, .refl s, hR⟩
  | @tail v w _ hw ih =>
      obtain ⟨u, hu, hRu⟩ := ih
      have hnext := hstep u v hRu (hP u hu)
      rw [hw] at hnext
      obtain ⟨x, hx, hRx⟩ := hnext.of_cont
      exact ⟨x, hu.trans (.single hx), hRx⟩

end RapidPatch.Support

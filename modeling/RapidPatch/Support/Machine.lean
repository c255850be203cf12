import Mathlib.Logic.Relation
import Mathlib.Order.Basic

/-!
Machines that run one step at a time, and stop with a result.

A step either continues in a new state or stops. `run` takes a number of
steps and says where the machine is after them; `Reaches` forgets the
number. A run that stops reaches a state whose step stops
(`reaches_of_run_stop`), and no further step changes its result.

Four rules carry every argument about whole runs in this development.
`Reaches.invariant` lifts what one step preserves to every state reached,
`run_stops_of_variant` turns a variant into termination together with a
bound on the number of steps, `Reaches.simulate` lifts a step-by-step
simulation between two machines to their runs, and `run_congr` identifies
the runs of two machines that agree wherever one of them gets to.
-/

namespace RapidPatch.Support

/-- One step either continues in a state or stops with a result. -/
inductive Next (σ ρ : Type*)
  | cont (s : σ)
  | stop (r : ρ)
  deriving DecidableEq, Repr

section Run

variable {σ ρ : Type*} {step : σ → Next σ ρ}

/-- The machine after at most `n` steps. -/
def run (step : σ → Next σ ρ) : ℕ → σ → Next σ ρ
  | 0, s => .cont s
  | n + 1, s =>
      match step s with
      | .cont t => run step n t
      | .stop r => .stop r

/-- Some number of continuing steps leads from one state to another. -/
def Reaches (step : σ → Next σ ρ) : σ → σ → Prop :=
  Relation.ReflTransGen fun s t => step s = .cont t

@[simp] theorem run_zero (s : σ) : run step 0 s = .cont s := rfl

theorem run_succ_cont {s t : σ} {n : ℕ} (h : step s = .cont t) :
    run step (n + 1) s = run step n t := by
  simp only [run, h]

theorem run_succ_stop {s : σ} {r : ρ} {n : ℕ} (h : step s = .stop r) :
    run step (n + 1) s = .stop r := by
  simp only [run, h]

theorem Reaches.refl (s : σ) : Reaches step s s := Relation.ReflTransGen.refl

theorem Reaches.trans {s t u : σ} (h₁ : Reaches step s t) (h₂ : Reaches step t u) :
    Reaches step s u := Relation.ReflTransGen.trans h₁ h₂

theorem Reaches.single {s t : σ} (h : step s = .cont t) : Reaches step s t :=
  Relation.ReflTransGen.single h

theorem Reaches.head {s t u : σ} (h : step s = .cont t) (h' : Reaches step t u) :
    Reaches step s u := Relation.ReflTransGen.head h h'

/-- What every step preserves holds in every state reached. -/
theorem Reaches.invariant {P : σ → Prop} {s t : σ} (h : Reaches step s t)
    (hstep : ∀ u v, P u → step u = .cont v → P v) (hs : P s) : P t := by
  induction h with
  | refl => exact hs
  | tail _ hv ih => exact hstep _ _ ih hv

theorem Reaches.forall_cont_iff {P : σ → Prop} {s t : σ} (h : step s = .cont t) :
    (∀ u, Reaches step s u → P u) ↔ P s ∧ ∀ u, Reaches step t u → P u := by
  constructor
  · intro hall
    exact ⟨hall s (.refl s), fun u hu => hall u (.head h hu)⟩
  · rintro ⟨hs, ht⟩ u hu
    rcases Relation.ReflTransGen.cases_head hu with rfl | ⟨t', ht', hu⟩
    · exact hs
    · cases h.symm.trans ht'
      exact ht u hu

theorem Reaches.forall_stop_iff {P : σ → Prop} {s : σ} {r : ρ} (h : step s = .stop r) :
    (∀ u, Reaches step s u → P u) ↔ P s := by
  refine ⟨fun hall => hall s (.refl s), fun hs u hu => ?_⟩
  rcases Relation.ReflTransGen.cases_head hu with rfl | ⟨t', ht', -⟩
  · exact hs
  · cases h.symm.trans ht'

/-- A run that stops reaches a state whose step stops. -/
theorem reaches_of_run_stop {n : ℕ} {s : σ} {r : ρ} (h : run step n s = .stop r) :
    ∃ t, Reaches step s t ∧ step t = .stop r := by
  induction n generalizing s with
  | zero => cases h
  | succ n ih =>
      cases hs : step s with
      | cont u =>
          rw [run_succ_cont hs] at h
          obtain ⟨t, ht, hstop⟩ := ih h
          exact ⟨t, .head hs ht, hstop⟩
      | stop r' =>
          rw [run_succ_stop hs] at h
          cases h
          exact ⟨s, .refl s, hs⟩

/-- Once stopped, more steps change nothing. -/
theorem run_stop_mono {n m : ℕ} {s : σ} {r : ρ} (h : run step n s = .stop r)
    (hnm : n ≤ m) : run step m s = .stop r := by
  induction n generalizing m s with
  | zero => cases h
  | succ n ih =>
      obtain ⟨m, rfl⟩ := Nat.exists_eq_add_of_le' (Nat.lt_of_lt_of_le n.succ_pos hnm)
      cases hs : step s with
      | cont u =>
          rw [run_succ_cont hs] at h ⊢
          exact ih h (Nat.le_of_succ_le_succ hnm)
      | stop r' =>
          rw [run_succ_stop hs] at h ⊢
          exact h

/-- A variant that every continuing step decreases bounds the number of
steps: the machine stops within one step more than its value. -/
theorem run_stops_of_variant {P : σ → Prop} (variant : σ → ℕ)
    (hstep : ∀ u v, P u → step u = .cont v → P v ∧ variant v < variant u)
    {s : σ} (hs : P s) : ∃ r, run step (variant s + 1) s = .stop r := by
  induction hn : variant s using Nat.strongRecOn generalizing s with
  | ind n ih =>
      cases h : step s with
      | stop r => exact ⟨r, run_succ_stop h⟩
      | cont t =>
          obtain ⟨ht, hlt⟩ := hstep s t hs h
          obtain ⟨r, hr⟩ := ih (variant t) (hn ▸ hlt) ht rfl
          refine ⟨r, ?_⟩
          rw [run_succ_cont h]
          exact run_stop_mono hr (by omega)

/-- A state reached is the state after some number of steps, fewer than any
number that stops the machine. -/
theorem Reaches.exists_run {n : ℕ} {s t : σ} {r : ρ} (h : Reaches step s t)
    (hrun : run step n s = .stop r) : ∃ m < n, run step m s = .cont t := by
  have hm : ∃ m, run step m s = .cont t := by
    clear hrun
    induction h using Relation.ReflTransGen.head_induction_on with
    | refl => exact ⟨0, rfl⟩
    | head hstep _ ih =>
        obtain ⟨m, hm⟩ := ih
        exact ⟨m + 1, by rw [run_succ_cont hstep, hm]⟩
  obtain ⟨m, hm⟩ := hm
  refine ⟨m, Nat.lt_of_not_le fun hle => ?_, hm⟩
  rw [run_stop_mono hrun hle] at hm
  cases hm

/-- Two machines that agree on every state one of them reaches run alike. -/
theorem run_congr {step' : σ → Next σ ρ} {n : ℕ} {s : σ}
    (h : ∀ t, Reaches step s t → step' t = step t) : run step' n s = run step n s := by
  induction n generalizing s with
  | zero => rfl
  | succ n ih =>
      have hs := h s (.refl s)
      cases hstep : step s with
      | cont t =>
          rw [run_succ_cont hstep, run_succ_cont (hs.trans hstep)]
          exact ih fun u hu => h u (.head hstep hu)
      | stop r => rw [run_succ_stop hstep, run_succ_stop (hs.trans hstep)]

/-- They reach the same states. -/
theorem Reaches.congr {step' : σ → Next σ ρ} {s t : σ}
    (h : ∀ u, Reaches step s u → step' u = step u) : Reaches step' s t ↔ Reaches step s t := by
  constructor
  · intro ht
    induction ht with
    | refl => exact .refl s
    | tail _ hstep ih => exact ih.trans (.single ((h _ ih).symm.trans hstep))
  · intro ht
    induction ht with
    | refl => exact .refl s
    | tail hu hstep ih => exact ih.trans (.single ((h _ hu).trans hstep))

/-- A run that stops, stops with the result of any stopping state it
reaches. -/
theorem Reaches.run_eq_stop {n : ℕ} {s t : σ} {r r' : ρ} (h : Reaches step s t)
    (ht : step t = .stop r) (hrun : run step n s = .stop r') : run step n s = .stop r := by
  induction h using Relation.ReflTransGen.head_induction_on generalizing n with
  | refl =>
      cases n with
      | zero => cases hrun
      | succ n => exact run_succ_stop ht
  | head hstep _ ih =>
      cases n with
      | zero => cases hrun
      | succ n =>
          rw [run_succ_cont hstep] at hrun ⊢
          exact ih hrun

end Run

/-- Step-by-step simulation lifts to runs: if every continuing step of the
source from related states is matched by a run of the target that relates
them again, every state the source reaches is matched. -/
theorem Reaches.simulate {σ τ ρ ρ' : Type*} {step : σ → Next σ ρ}
    {step' : τ → Next τ ρ'} {R : σ → τ → Prop}
    (hsim : ∀ s s' t, R s t → step s = .cont s' → ∃ t', Reaches step' t t' ∧ R s' t')
    {s s' : σ} {t : τ} (h : Reaches step s s') (hR : R s t) :
    ∃ t', Reaches step' t t' ∧ R s' t' := by
  induction h with
  | refl => exact ⟨t, .refl t, hR⟩
  | tail _ hstep ih =>
      obtain ⟨u, htu, hu⟩ := ih
      obtain ⟨v, huv, hv⟩ := hsim _ _ _ hu hstep
      exact ⟨v, htu.trans huv, hv⟩

end RapidPatch.Support

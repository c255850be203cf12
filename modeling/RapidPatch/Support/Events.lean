import Mathlib.Data.List.Basic

/-!
Systems that take one event at a time.

An event may be impossible in a state, so that a step is partial; a sequence
of events is possible when each of them is, in its turn. What every event
preserves holds at the end of every possible sequence (`runEvents_invariant`),
and a sequence is possible from a state exactly if each of its parts is from
where the part before it ends (`runEvents_append`). Where an event preserves a
property only under a condition, the property holds all along a sequence
exactly if every event of it meets the condition
(`throughout_iff_eachStep`).
-/

namespace RapidPatch.Support

variable {σ ε : Type*} {step : σ → ε → Option σ} {s t : σ}

def runEvents (step : σ → ε → Option σ) : σ → List ε → Option σ
  | s, [] => some s
  | s, e :: es => (step s e).bind fun t => runEvents step t es

@[simp] theorem runEvents_nil : runEvents step s [] = some s := rfl

@[simp] theorem runEvents_cons (e : ε) (es : List ε) :
    runEvents step s (e :: es) = (step s e).bind fun t => runEvents step t es := rfl

theorem runEvents_append (es fs : List ε) :
    runEvents step s (es ++ fs) = (runEvents step s es).bind fun t => runEvents step t fs := by
  induction es generalizing s with
  | nil => rfl
  | cons e es ih =>
      simp only [List.cons_append, runEvents_cons, Option.bind_assoc]
      congr 1
      funext t
      exact ih

/-- The last event of a sequence is possible in the state the others lead
to. -/
theorem runEvents_concat {es : List ε} {e : ε} :
    runEvents step s (es ++ [e]) = some t ↔
      ∃ u, runEvents step s es = some u ∧ step u e = some t := by
  simp [runEvents_append, Option.bind_eq_some_iff]

/-- What every event preserves holds at the end of every sequence. -/
theorem runEvents_invariant {P : σ → Prop}
    (hstep : ∀ u e v, P u → step u e = some v → P v) {es : List ε} (hs : P s)
    (h : runEvents step s es = some t) : P t := by
  induction es generalizing s with
  | nil =>
      cases h
      exact hs
  | cons e es ih =>
      rw [runEvents_cons, Option.bind_eq_some_iff] at h
      obtain ⟨u, hu, h⟩ := h
      exact ih (hstep s e u hs hu) h

/-- Two systems that can do the same events in related states can do the same
sequences. -/
theorem runEvents_isSome_congr {τ δ : Type*} {step' : τ → δ → Option τ} {f : ε → δ}
    {R : σ → τ → Prop}
    (hstep : ∀ s t e, R s t →
      (∃ s' t', step s e = some s' ∧ step' t (f e) = some t' ∧ R s' t') ∨
        step s e = none ∧ step' t (f e) = none)
    {t : τ} (h : R s t) (es : List ε) :
    (runEvents step s es).isSome = (runEvents step' t (es.map f)).isSome := by
  induction es generalizing s t with
  | nil => rfl
  | cons e es ih =>
      rw [List.map_cons, runEvents_cons, runEvents_cons]
      rcases hstep s t e h with ⟨s', t', hs', ht', h'⟩ | ⟨hs', ht'⟩
      · rw [hs', ht']
        exact ih h'
      · rw [hs', ht']
        rfl

/-- The property holds in every state a sequence of events goes through. -/
def Throughout (step : σ → ε → Option σ) (P : σ → Prop) : σ → List ε → Prop
  | s, [] => P s
  | s, e :: es => P s ∧ ∀ t, step s e = some t → Throughout step P t es

/-- Every event of a sequence meets a condition on the state it happens in. -/
def EachStep (step : σ → ε → Option σ) (C : σ → ε → Prop) : σ → List ε → Prop
  | _, [] => True
  | s, e :: es => ∀ t, step s e = some t → C s e ∧ EachStep step C t es

theorem Throughout.head {P : σ → Prop} {es : List ε} (h : Throughout step P s es) : P s := by
  cases es with
  | nil => exact h
  | cons e es => exact h.1

theorem Throughout.run {P : σ → Prop} {es : List ε} (h : Throughout step P s es)
    (hrun : runEvents step s es = some t) : P t := by
  induction es generalizing s with
  | nil =>
      cases hrun
      exact h
  | cons e es ih =>
      rw [runEvents_cons, Option.bind_eq_some_iff] at hrun
      obtain ⟨u, hu, hrun⟩ := hrun
      exact ih (h.2 u hu) hrun

/-- Where every event that meets the condition keeps an invariant, its
consequences hold throughout a sequence of such events. -/
theorem throughout_of_eachStep {I P : σ → Prop} {C : σ → ε → Prop}
    (hstep : ∀ u e v, I u → C u e → step u e = some v → I v) (hP : ∀ u, I u → P u) (hI : I s)
    {es : List ε} (h : EachStep step C s es) : Throughout step P s es := by
  induction es generalizing s with
  | nil => exact hP s hI
  | cons e es ih =>
      refine ⟨hP s hI, fun t ht => ?_⟩
      obtain ⟨hC, hrest⟩ := h t ht
      exact ih (hstep s e t hI hC ht) hrest

/-- Where, under the same invariant, the property is lost with the first event
that does not meet the condition, every event met it. `N` is about the event
alone. -/
theorem eachStep_of_throughout {I P : σ → Prop} {C : σ → ε → Prop} {N : ε → Prop}
    (hstep : ∀ u e v, I u → C u e → step u e = some v → I v)
    (hC : ∀ u e v, I u → N e → step u e = some v → P v → C u e) (hI : I s) {es : List ε}
    (hN : ∀ e ∈ es, N e) (h : Throughout step P s es) : EachStep step C s es := by
  induction es generalizing s with
  | nil => trivial
  | cons e es ih =>
      intro t ht
      have hCe := hC s e t hI (hN e List.mem_cons_self) ht (h.2 t ht).head
      refine ⟨hCe, ih (hstep s e t hI hCe ht) ?_ (h.2 t ht)⟩
      exact fun f hf => hN f (List.mem_cons_of_mem e hf)

/-- Where the events that meet the condition keep an invariant, and the others
lose the property, it holds throughout exactly if each event meets the
condition. -/
theorem throughout_iff_eachStep_of_kept {I P : σ → Prop} {C : σ → ε → Prop}
    (hstep : ∀ u e v, I u → C u e → step u e = some v → I v)
    (hC : ∀ u e v, I u → step u e = some v → P v → C u e) (hP : ∀ u, I u → P u) (hI : I s)
    (es : List ε) : Throughout step P s es ↔ EachStep step C s es :=
  ⟨eachStep_of_throughout (N := fun _ => True) hstep (fun u e v hu _ => hC u e v hu) hI
    fun _ _ => trivial, throughout_of_eachStep hstep hP hI⟩

/-- Where every event preserves the property exactly under a condition, given
an invariant of the system, it holds throughout exactly if each event meets
the condition. -/
theorem throughout_iff_eachStep_of_invariant {I P : σ → Prop} {C : σ → ε → Prop}
    (hinv : ∀ u e v, I u → step u e = some v → I v)
    (hstep : ∀ u e v, I u → P u → step u e = some v → (P v ↔ C u e)) (hI : I s) (hs : P s)
    (es : List ε) : Throughout step P s es ↔ EachStep step C s es := by
  have hboth (u : σ) (e : ε) (v : σ) (hu : I u ∧ P u) (hC : C u e) (hv : step u e = some v) :
      I v ∧ P v := ⟨hinv u e v hu.1 hv, (hstep u e v hu.1 hu.2 hv).mpr hC⟩
  refine throughout_iff_eachStep_of_kept hboth ?_ (fun _ hu => hu.2) ⟨hI, hs⟩ es
  exact fun u e v hu hv hPv => (hstep u e v hu.1 hu.2 hv).mp hPv

theorem throughout_iff_eachStep {P : σ → Prop} {C : σ → ε → Prop}
    (hstep : ∀ u e v, P u → step u e = some v → (P v ↔ C u e)) (hs : P s) (es : List ε) :
    Throughout step P s es ↔ EachStep step C s es :=
  throughout_iff_eachStep_of_invariant (I := fun _ => True) (fun _ _ _ _ _ => trivial)
    (fun u e v _ => hstep u e v) trivial hs es

end RapidPatch.Support

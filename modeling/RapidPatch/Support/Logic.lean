import RapidPatch.Support.Machine

/-!
Rules for the runs of a machine, with the number of steps.

`After step n s Q` says that `n` steps lead from `s` to a state with `Q`, and
`Within step n s Q` that at most `n` steps do. The judgements are total: a
machine that stops early has neither. `HaltsWithin` is the end of a run, where
the next step stops the machine with a result. The exact count is for whoever
has a budget and must know that a run does not end before it
(`After.run_cont`).

Straight code is put together by `seq`, a single step in front by `head`. The
rule for loops is `Implements`, which is for code that was made from a loop of
another machine: if each turn of the source is one round of the code, what the
source does in any number of turns the code does too, and the bounds on one
round bound the whole (`Implements.turns`, `Implements.halts`).
-/

namespace RapidPatch.Support

section Judgements

variable {σ ρ : Type*} {step : σ → Next σ ρ}

/-- `n` steps lead to a state with `Q`. -/
def After (step : σ → Next σ ρ) (n : ℕ) (s : σ) (Q : σ → Prop) : Prop :=
  ∃ t, run step n s = .cont t ∧ Q t

/-- At most `n` steps lead to a state with `Q`. -/
def Within (step : σ → Next σ ρ) (n : ℕ) (s : σ) (Q : σ → Prop) : Prop :=
  ∃ m ≤ n, After step m s Q

/-- At most `n` steps lead to a state whose step stops the machine. -/
abbrev HaltsWithin (step : σ → Next σ ρ) (n : ℕ) (s : σ) (r : ρ) : Prop :=
  Within step n s fun t => step t = .stop r

variable {m n k : ℕ} {s t : σ} {r : ρ} {P Q Q' : σ → Prop}

theorem run_add_of_cont (h : run step m s = .cont t) : run step (m + n) s = run step n t := by
  induction m generalizing s with
  | zero =>
      cases h
      rw [Nat.zero_add]
  | succ m ih =>
      cases hs : step s with
      | cont u =>
          rw [run_succ_cont hs] at h
          rw [Nat.add_right_comm, run_succ_cont hs, ih h]
      | stop r =>
          rw [run_succ_stop hs] at h
          cases h

theorem reaches_of_run (h : run step n s = .cont t) : Reaches step s t := by
  induction n generalizing s with
  | zero =>
      cases h
      exact .refl _
  | succ n ih =>
      cases hs : step s with
      | cont u =>
          rw [run_succ_cont hs] at h
          exact .head hs (ih h)
      | stop r =>
          rw [run_succ_stop hs] at h
          cases h

/-- A run that goes on has not stopped before. -/
theorem run_cont_of_le (h : run step n s = .cont t) (hmn : m ≤ n) :
    ∃ u, run step m s = .cont u := by
  cases hm : run step m s with
  | cont u => exact ⟨u, rfl⟩
  | stop r =>
      rw [run_stop_mono hm hmn] at h
      cases h

theorem step_of_run_succ {u : σ} (h : run step n s = .cont t)
    (h' : run step (n + 1) s = .cont u) : step t = .cont u := by
  rw [run_add_of_cont h] at h'
  cases ht : step t with
  | cont v => rwa [run_succ_cont ht] at h'
  | stop r =>
      rw [run_succ_stop ht] at h'
      cases h'

/-- A run that stops has a last step. -/
theorem exists_run_of_stop (h : run step n s = .stop r) :
    ∃ m t, m < n ∧ run step m s = .cont t ∧ step t = .stop r := by
  obtain ⟨t, ht, hstop⟩ := reaches_of_run_stop h
  obtain ⟨m, hm, hrun⟩ := ht.exists_run h
  exact ⟨m, t, hm, hrun, hstop⟩

/-! ### An exact count -/

theorem After.refl (h : Q s) : After step 0 s Q := ⟨s, rfl, h⟩

theorem After.mono (h : After step n s Q) (hQ : ∀ t, Q t → Q' t) : After step n s Q' := by
  obtain ⟨t, ht, hq⟩ := h
  exact ⟨t, ht, hQ t hq⟩

theorem After.head (hstep : step s = .cont t) (h : After step n t Q) :
    After step (n + 1) s Q := by
  obtain ⟨u, hu, hq⟩ := h
  exact ⟨u, (run_succ_cont hstep).trans hu, hq⟩

theorem After.seq (h : After step m s P) (h' : ∀ t, P t → After step n t Q) :
    After step (m + n) s Q := by
  obtain ⟨t, ht, hp⟩ := h
  obtain ⟨u, hu, hq⟩ := h' t hp
  exact ⟨u, (run_add_of_cont ht).trans hu, hq⟩

/-- Whoever does not wait long enough sees no result. -/
theorem After.run_cont (h : After step n s Q) (hm : m ≤ n) : ∃ t, run step m s = .cont t := by
  obtain ⟨t, ht, -⟩ := h
  exact run_cont_of_le ht hm

/-! ### A bound -/

theorem After.within (h : After step m s Q) (hmn : m ≤ n) : Within step n s Q := ⟨m, hmn, h⟩

theorem Within.refl (h : Q s) : Within step n s Q := (After.refl h).within (Nat.zero_le n)

theorem Within.mono (h : Within step n s Q) (hQ : ∀ t, Q t → Q' t) : Within step n s Q' := by
  obtain ⟨m, hm, h⟩ := h
  exact ⟨m, hm, h.mono hQ⟩

theorem Within.le (h : Within step m s Q) (hmn : m ≤ n) : Within step n s Q := by
  obtain ⟨k, hk, h⟩ := h
  exact ⟨k, Nat.le_trans hk hmn, h⟩

theorem Within.head (hstep : step s = .cont t) (h : Within step n t Q) :
    Within step (n + 1) s Q := by
  obtain ⟨m, hm, h⟩ := h
  exact ⟨m + 1, Nat.succ_le_succ hm, h.head hstep⟩

theorem Within.seq (h : Within step m s P) (h' : ∀ t, P t → Within step n t Q) :
    Within step (m + n) s Q := by
  obtain ⟨k, hk, t, ht, hp⟩ := h
  obtain ⟨l, hl, hq⟩ := h' t hp
  have hfirst : After step k s (· = t) := ⟨t, ht, rfl⟩
  exact ⟨k + l, Nat.add_le_add hk hl, hfirst.seq fun t' ht' => ht' ▸ hq⟩

theorem After.seqWithin (h : After step m s P) (h' : ∀ t, P t → Within step n t Q) :
    Within step (m + n) s Q := (h.within (Nat.le_refl m)).seq h'

end Judgements

/-! ### The loop of another machine -/

section Implements

variable {τ α σ ρ : Type*}

/-- Through the first `limit` turns of the source, where `Rel i` relates the
states behind `i` of them, the next turn takes the target between `lo` and `hi`
steps and relates the states again. Where the source stops, the target stops
within `last` steps with the result that `res` gives for it. -/
structure Implements (src : τ → Next τ α) (tgt : σ → Next σ ρ) (Rel : ℕ → τ → σ → Prop)
    (limit lo hi last : ℕ) (res : α → ρ) : Prop where
  turn : ∀ i < limit, ∀ u s v, Rel i u s → src u = .cont v →
    ∃ n, lo ≤ n ∧ n ≤ hi ∧ After tgt n s (Rel (i + 1) v)
  halt : ∀ i ≤ limit, ∀ u s a, Rel i u s → src u = .stop a → HaltsWithin tgt last s (res a)

variable {src : τ → Next τ α} {tgt : σ → Next σ ρ} {Rel : ℕ → τ → σ → Prop}
  {limit lo hi last k : ℕ} {res : α → ρ} {u v : τ} {s : σ} {a : α}

/-- What the source does in `k` turns. -/
theorem Implements.turns (h : Implements src tgt Rel limit lo hi last res) (hRel : Rel 0 u s)
    (hk : k ≤ limit) (hrun : run src k u = .cont v) :
    ∃ n, lo * k ≤ n ∧ n ≤ hi * k ∧ After tgt n s (Rel k v) := by
  induction k generalizing v with
  | zero =>
      cases hrun
      exact ⟨0, Nat.le_refl _, Nat.zero_le _, .refl hRel⟩
  | succ k ih =>
      obtain ⟨w, hw⟩ := run_cont_of_le hrun k.le_succ
      obtain ⟨n, hlo, hhi, hn⟩ := ih (Nat.le_of_succ_le hk) hw
      have hstep : src w = .cont v := step_of_run_succ hw hrun
      obtain ⟨t, ht, hRelw⟩ := hn
      obtain ⟨m, hlo', hhi', hm⟩ := h.turn k hk w t v hRelw hstep
      have hturns : After tgt n s (· = t) := ⟨t, ht, rfl⟩
      refine ⟨n + m, ?_, ?_, hturns.seq fun t' ht' => ht' ▸ hm⟩
      · rw [Nat.mul_succ]
        omega
      · rw [Nat.mul_succ]
        omega

theorem Implements.halts (h : Implements src tgt Rel limit lo hi last res) (hRel : Rel 0 u s)
    (hk : k ≤ limit) (hrun : run src k u = .cont v) (hstop : src v = .stop a) :
    HaltsWithin tgt (hi * k + last) s (res a) := by
  obtain ⟨n, -, hhi, hn⟩ := h.turns hRel hk hrun
  exact (hn.within hhi).seq fun t hv => h.halt k hk v t a hv hstop

end Implements

end RapidPatch.Support

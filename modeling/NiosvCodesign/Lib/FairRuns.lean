import NiosvCodesign.Lib.Transitions

/-!
# Fair runs

Infinite runs of a transition function, and the parties that take its steps. A
party that can act from some time on acts again.

* `Run.exec`: each state of such a run is reached by a finite one.
* `Run.Fair.reaches`: a target is reached if every step keeps or decreases a
  measure, and at each time there is a party whose steps decrease it and that
  can act until they do.
* `Run.Fair.acts_while`: a party that alone can end a condition does act.
* `Run.ofScheduler`: a schedule that never gets stuck has a run.
-/

namespace Transitions

variable {σ ε κ α : Type*} {step : σ → ε → Option σ}

/-- An infinite run. -/
structure Run (step : σ → ε → Option σ) where
  state : ℕ → σ
  event : ℕ → ε
  next : ∀ n, step (state n) (event n) = some (state (n + 1))

namespace Run

variable {r : Run step}

theorem exec (r : Run step) (n : ℕ) :
    exec step (r.state 0) ((List.range n).map r.event) = some (r.state n) := by
  induction n with
  | zero => rfl
  | succ n ih =>
    rw [List.range_succ, List.map_append, List.map_singleton, exec_concat, ih]
    exact r.next n

/-- From `n` on, what holds at `n` and is kept by every step. -/
theorem invariant_from {I : σ → Prop} (hstep : ∀ s e t, I s → step s e = some t → I t) {n m : ℕ}
    (hnm : n ≤ m) (hn : I (r.state n)) : I (r.state m) := by
  induction m, hnm using Nat.le_induction with
  | base => exact hn
  | succ m _ ih => exact hstep _ _ _ ih (r.next m)

/-- Each party acts again and again, unless it is again and again unable to. -/
def Fair (r : Run step) (acts : κ → ε → Prop) (enabled : κ → σ → Prop) : Prop :=
  ∀ k n, ∃ m, n ≤ m ∧ (acts k (r.event m) ∨ ¬ enabled k (r.state m))

/-- The rule for reaching `T`. Until then every step decreases the measure, or
    keeps both the measure and the party `helpful` whose steps decrease it; and
    this party can act. -/
theorem Fair.reaches [Preorder α] [WellFoundedLT α] {acts : κ → ε → Prop} {enabled : κ → σ → Prop}
    (hfair : r.Fair acts enabled) {I T : σ → Prop} (μ : σ → α) (helpful : σ → κ) {n : ℕ}
    (hI : ∀ m, n ≤ m → I (r.state m))
    (hstep : ∀ s e t, I s → ¬ T s → step s e = some t →
      μ t < μ s ∨ (μ t = μ s ∧ helpful t = helpful s ∧ ¬ acts (helpful s) e))
    (henabled : ∀ s, I s → ¬ T s → enabled (helpful s) s) : ∃ m, n ≤ m ∧ T (r.state m) := by
  induction hμ : μ (r.state n) using WellFoundedLT.induction generalizing n with
  | ind a ih =>
    subst hμ
    by_contra hnever
    have hnot : ∀ m, n ≤ m → ¬ T (r.state m) := fun m hm hT => hnever ⟨m, hm, hT⟩
    -- as long as the measure does not get smaller, the same party helps
    have hstuck : ∀ m, n ≤ m → μ (r.state m) = μ (r.state n) ∧
        helpful (r.state m) = helpful (r.state n) := by
      intro m hm
      induction m, hm using Nat.le_induction with
      | base => exact ⟨rfl, rfl⟩
      | succ m hm ihm =>
        rcases hstep _ _ _ (hI m hm) (hnot m hm) (r.next m) with hlt | ⟨hμ, hhelp, -⟩
        · obtain ⟨k, hk, hT⟩ := ih _ (ihm.1 ▸ hlt) (fun k hk => hI k (by omega)) rfl
          exact absurd hT (hnot k (by omega))
        · exact ⟨hμ.trans ihm.1, hhelp.trans ihm.2⟩
    obtain ⟨m, hm, hact⟩ := hfair (helpful (r.state n)) n
    obtain ⟨hμm, hhelp⟩ := hstuck m hm
    rw [← hhelp] at hact
    rcases hstep _ _ _ (hI m hm) (hnot m hm) (r.next m) with hlt | ⟨-, -, hidle⟩
    · exact absurd ((hstuck (m + 1) (by omega)).1.trans hμm.symm) hlt.ne
    · rcases hact with hact | hblocked
      · exact hidle hact
      · exact hblocked (henabled _ (hI m hm) (hnot m hm))

/-- A party acts where `T` holds, if only it can take the run out of `T`. -/
theorem Fair.acts_while {acts : κ → ε → Prop} {enabled : κ → σ → Prop}
    (hfair : r.Fair acts enabled) {T : σ → Prop} {k : κ}
    (hkeep : ∀ s e t, T s → ¬ acts k e → step s e = some t → T t)
    (henabled : ∀ s, T s → enabled k s) {n : ℕ} (hn : T (r.state n)) :
    ∃ m, n ≤ m ∧ T (r.state m) ∧ acts k (r.event m) := by
  by_contra hnever
  have hidle : ∀ m, n ≤ m → T (r.state m) → ¬ acts k (r.event m) :=
    fun m hm hT hact => hnever ⟨m, hm, hT, hact⟩
  have hstays : ∀ m, n ≤ m → T (r.state m) := by
    intro m hm
    induction m, hm using Nat.le_induction with
    | base => exact hn
    | succ m hm ih => exact hkeep _ _ _ ih (hidle m hm ih) (r.next m)
  obtain ⟨m, hm, hact | hblocked⟩ := hfair k n
  · exact hidle m hm (hstays m hm) hact
  · exact hblocked (henabled _ (hstays m hm))

/-- The states of a schedule. -/
def scheduled (step : σ → ε → Option σ) (next : ℕ → σ → ε) (s : σ) : ℕ → σ
  | 0 => s
  | n + 1 => (step (scheduled step next s n) (next n (scheduled step next s n))).getD s

theorem scheduled_invariant {next : ℕ → σ → ε} {s : σ} {I : σ → Prop} (h0 : I s)
    (hstep : ∀ s e t, I s → step s e = some t → I t) (n : ℕ) : I (scheduled step next s n) := by
  induction n with
  | zero => exact h0
  | succ n ih =>
    rw [scheduled]
    cases ht : step (scheduled step next s n) (next n (scheduled step next s n)) with
    | none => exact h0
    | some t => exact hstep _ _ _ ih ht

/-- The run of a schedule that does not get stuck where the invariant `I` holds. -/
def ofScheduler (step : σ → ε → Option σ) (next : ℕ → σ → ε) {s : σ} {I : σ → Prop} (h0 : I s)
    (hstep : ∀ s e t, I s → step s e = some t → I t)
    (h : ∀ n t, I t → (step t (next n t)).isSome = true) : Run step where
  state := scheduled step next s
  event := fun n => next n (scheduled step next s n)
  next := by
    intro n
    obtain ⟨t, ht⟩ := Option.isSome_iff_exists.mp (h n _ (scheduled_invariant h0 hstep n))
    rw [scheduled, ht]
    rfl

end Run

end Transitions

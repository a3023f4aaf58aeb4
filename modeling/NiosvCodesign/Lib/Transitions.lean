import Mathlib

/-!
# Runs of a partial transition function

`step s e` is the state after event `e`, or `none` when `e` cannot happen in
`s`. A run is a list of events.

* `exec_invariant`: a property kept by every step holds in every state reached.
* `StepsHave.statesHave`, `exec_invariant_of_forall`: the same for runs whose
  steps, or whose events, all meet a condition.
* `exec_watch`: a history variable does not change the runs.
* `exec_simulation`: a machine each of whose steps another can follow has each of
  its runs followed.
* `exists_exec_of_measure`: a schedule under which a measure decreases until a
  target holds does reach the target.
-/

namespace Transitions

variable {σ ε : Type*} (step : σ → ε → Option σ)

/-- The state after a list of events. -/
def exec : σ → List ε → Option σ
  | s, [] => some s
  | s, e :: es => (step s e).bind fun t => exec t es

/-- `P` holds in every state of the run `es` from `s`. -/
def StatesHave (s : σ) (P : σ → Prop) (es : List ε) : Prop :=
  ∀ es' t, es' <+: es → exec step s es' = some t → P t

/-- `Q` holds of every step of the run `es` from `s`. -/
def StepsHave (s : σ) (Q : σ → ε → Prop) (es : List ε) : Prop :=
  ∀ es' e t t', es' ++ [e] <+: es → exec step s es' = some t → step t e = some t' → Q t e

variable {step} {s t : σ} {es : List ε}

theorem exec_append (es es' : List ε) :
    exec step s (es ++ es') = (exec step s es).bind fun t => exec step t es' := by
  induction es generalizing s with
  | nil => rfl
  | cons e es ih =>
    rw [List.cons_append, exec, exec]
    cases step s e with
    | none => rfl
    | some t => exact ih

theorem exec_concat (es : List ε) (e : ε) :
    exec step s (es ++ [e]) = (exec step s es).bind fun t => step t e := by
  rw [exec_append]
  congr 1
  funext t
  rw [exec]
  cases step t e <;> rfl

theorem exec_concat_eq_some_iff {e : ε} : exec step s (es ++ [e]) = some t ↔
    ∃ r, exec step s es = some r ∧ step r e = some t := by
  rw [exec_concat, Option.bind_eq_some_iff]

/-- Step rule to run rule. -/
theorem exec_invariant {I : σ → Prop} (hstep : ∀ r e t, I r → step r e = some t → I t)
    (h0 : I s) (h : exec step s es = some t) : I t := by
  induction es using List.reverseRecOn generalizing t with
  | nil => exact Option.some.inj h ▸ h0
  | append_singleton es e ih =>
    obtain ⟨r, hr, hrt⟩ := exec_concat_eq_some_iff.mp h
    exact hstep r e t (ih hr) hrt

/-- Step rule to run rule when every step of the run meets `Q`. -/
theorem StepsHave.statesHave {I : σ → Prop} {Q : σ → ε → Prop}
    (hstep : ∀ r e t, I r → Q r e → step r e = some t → I t) (h0 : I s)
    (h : StepsHave step s Q es) : StatesHave step s I es := by
  intro es' t hpre ht
  induction es' using List.reverseRecOn generalizing t with
  | nil => exact Option.some.inj ht ▸ h0
  | append_singleton es' e ih =>
    obtain ⟨r, hr, hrt⟩ := exec_concat_eq_some_iff.mp ht
    have hI := ih r ((List.prefix_append es' [e]).trans hpre) hr
    exact hstep r e t hI (h es' e r t hpre hr hrt) hrt

/-- Step rule to run rule for the runs of events that all meet `Q`. -/
theorem exec_invariant_of_forall {I : σ → Prop} {Q : ε → Prop}
    (hstep : ∀ r e t, I r → Q e → step r e = some t → I t) (h0 : I s) (hes : ∀ e ∈ es, Q e)
    (h : exec step s es = some t) : I t := by
  have hsteps : StepsHave step s (fun _ e => Q e) es := fun es' e _ _ hpre _ _ =>
    hes e (hpre.subset (List.mem_append_right es' (List.mem_singleton_self e)))
  exact hsteps.statesHave hstep h0 es t List.prefix_rfl h

/-- The machine with a history variable that `observe` updates at each step. -/
def watch {η : Type*} (step : σ → ε → Option σ) (observe : η → σ → ε → η) (p : σ × η) (e : ε) :
    Option (σ × η) :=
  (step p.1 e).map fun t => (t, observe p.2 p.1 e)

/-- A history variable neither adds runs nor takes any away. -/
theorem exec_watch {η : Type*} (observe : η → σ → ε → η) (h : η) :
    (exec (watch step observe) (s, h) es).map Prod.fst = exec step s es := by
  induction es generalizing s h with
  | nil => rfl
  | cons e es ih =>
    rw [exec, exec, watch]
    cases step s e with
    | none => rfl
    | some t => exact ih (observe h s e)

/-- Step rule to run rule for two machines: what holds between them is kept if
    the second follows each step of the first with some steps of its own. -/
theorem exec_simulation {τ φ : Type*} {step' : τ → φ → Option τ} {R : σ → τ → Prop}
    (hstep : ∀ s e t s', R s s' → step s e = some t →
      ∃ fs t', exec step' s' fs = some t' ∧ R t t')
    {s' : τ} (h0 : R s s') (h : exec step s es = some t) :
    ∃ fs t', exec step' s' fs = some t' ∧ R t t' := by
  induction es using List.reverseRecOn generalizing t with
  | nil => exact ⟨[], s', rfl, Option.some.inj h ▸ h0⟩
  | append_singleton es e ih =>
    obtain ⟨r, hr, hrt⟩ := exec_concat_eq_some_iff.mp h
    obtain ⟨fs, r', hr', hR⟩ := ih hr
    obtain ⟨gs, t', ht', hR'⟩ := hstep r e t r' hR hrt
    refine ⟨fs ++ gs, t', ?_, hR'⟩
    rw [exec_append, hr']
    exact ht'

/-- Follow the schedule `next` as long as the target `T` does not hold: if this
    keeps `I` and decreases a measure, the target is reached. -/
theorem exists_exec_of_measure {I T : σ → Prop} (next : σ → ε) (μ : σ → ℕ)
    (hstep : ∀ r, I r → ¬ T r → ∃ t, step r (next r) = some t ∧ I t ∧ μ t < μ r) (h0 : I s) :
    ∃ es t, exec step s es = some t ∧ I t ∧ T t ∧ ∀ e ∈ es, ∃ r, e = next r := by
  induction hm : μ s using Nat.strong_induction_on generalizing s with
  | _ m ih =>
    by_cases hT : T s
    · exact ⟨[], s, rfl, h0, hT, fun e he => absurd he List.not_mem_nil⟩
    · obtain ⟨r, hr, hI, hlt⟩ := hstep s h0 hT
      obtain ⟨es, t, hexec, hIt, hTt, hall⟩ := ih (μ r) (hm ▸ hlt) hI rfl
      refine ⟨next s :: es, t, ?_, hIt, hTt, ?_⟩
      · rw [exec, hr]
        exact hexec
      · intro e he
        rcases List.mem_cons.mp he with rfl | he
        · exact ⟨s, rfl⟩
        · exact hall e he

end Transitions

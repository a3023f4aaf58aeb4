import Mathlib

/-!
# Clocked runs

A clocked machine takes one step at each edge of its clock. Edges are numbered
`1, 2, 3, …`; `u m` is what edge `m` samples and `run step s u n` is the state
after the first `n` edges, so `run step s u 0` is the state at power-up.

* `run_rel`: a relation kept by one step of both machines holds at every edge
  of two runs. The step may assume what is known of edge `n + 1`.
-/

namespace Clocked

variable {σ τ ι κ : Type*}

/-- The state after the first `n` edges. -/
def run (step : σ → ι → σ) (s : σ) (u : ℕ → ι) : ℕ → σ
  | 0 => s
  | n + 1 => step (run step s u n) (u (n + 1))

variable {step : σ → ι → σ} {s : σ} {u : ℕ → ι}

@[simp] theorem run_zero : run step s u 0 = s := rfl

@[simp] theorem run_succ (n : ℕ) : run step s u (n + 1) = step (run step s u n) (u (n + 1)) := rfl

/-- Step rule to run rule for two machines side by side. -/
theorem run_rel {step' : τ → κ → τ} {t : τ} {v : ℕ → κ} {R : ℕ → σ → τ → Prop} (h0 : R 0 s t)
    (hstep : ∀ n a b, R n a b → R (n + 1) (step a (u (n + 1))) (step' b (v (n + 1)))) (n : ℕ) :
    R n (run step s u n) (run step' t v n) := by
  induction n with
  | zero => exact h0
  | succ n ih => exact hstep n _ _ ih

/-- The state after `n` edges depends on the samples of these edges only. -/
theorem run_congr {v : ℕ → ι} {n : ℕ} (h : ∀ m, 1 ≤ m → m ≤ n → u m = v m) :
    run step s u n = run step s v n := by
  induction n with
  | zero => rfl
  | succ n ih =>
    rw [run_succ, run_succ, ih fun m h1 h2 => h m h1 (by omega), h (n + 1) (by omega) le_rfl]

end Clocked

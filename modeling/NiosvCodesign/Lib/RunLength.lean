import Mathlib

/-!
# Run lengths of a sampled condition

Edges are numbered `1, 2, 3, …`; `p m` says whether a condition holds at edge
`m`. A saturating counter that counts the edges at which `p` holds and restarts
whenever it does not measures the run of `p` that ends at the current edge, up
to its limit.

* `held_succ`: one more edge.
* `le_count_iff`: the counter has reached `k` iff `p` held at the last `k`
  edges.
* `count_eq_limit_iff`: it stands at its limit `T` iff `p` held at the last `T`
  edges.
-/

namespace RunLength

variable (p : ℕ → Bool)

/-- `p` held at each of the last `k` edges up to and including edge `n`. Only
    edges from 1 on exist. -/
def Held (k n : ℕ) : Prop := k ≤ n ∧ ∀ m, n < m + k → m ≤ n → p m = true

/-- The counter after edge `n`: one more while `p` holds, never above `T`, back
    to zero when `p` fails. -/
def count (T : ℕ) : ℕ → ℕ
  | 0 => 0
  | n + 1 => if p (n + 1) then min (count T n + 1) T else 0

variable {p} {k n T : ℕ}

@[simp] theorem held_zero : Held p 0 n := ⟨Nat.zero_le n, fun _ _ _ => by omega⟩

theorem held_succ : Held p (k + 1) (n + 1) ↔ p (n + 1) = true ∧ Held p k n := by
  constructor
  · rintro ⟨hk, h⟩
    exact ⟨h (n + 1) (by omega) le_rfl, by omega, fun m h1 h2 => h m (by omega) (by omega)⟩
  · rintro ⟨hp, hk, h⟩
    refine ⟨by omega, fun m h1 h2 => ?_⟩
    rcases Nat.lt_or_eq_of_le h2 with h2 | rfl
    · exact h m (by omega) (by omega)
    · exact hp

theorem not_held_succ_zero : ¬ Held p (k + 1) 0 := fun h => absurd h.1 (by omega)

theorem count_succ (n : ℕ) :
    count p T (n + 1) = if p (n + 1) = true then min (count p T n + 1) T else 0 := rfl

/-- While `p` goes on, it keeps having held. -/
theorem Held.extend {m : ℕ} (h : Held p k n) (hnm : n ≤ m)
    (hp : ∀ j, n < j → j ≤ m → p j = true) : Held p k m := by
  obtain ⟨hk, hwin⟩ := h
  refine ⟨hk.trans hnm, fun j h1 h2 => ?_⟩
  rcases Nat.lt_or_ge n j with hj | hj
  · exact hp j hj h2
  · exact hwin j (by omega) hj

/-- The counter has reached `k` iff the last `k` edges all had `p`. -/
theorem le_count_iff (hk : k ≤ T) : k ≤ count p T n ↔ Held p k n := by
  induction n generalizing k with
  | zero =>
    cases k with
    | zero => simp
    | succ k => simp [count, not_held_succ_zero]
  | succ n ih =>
    cases k with
    | zero => simp
    | succ k =>
      rw [held_succ, ← ih (by omega), count_succ]
      split_ifs with h
      · simp only [h, true_and]
        omega
      · simp [h]

theorem count_le (n : ℕ) : count p T n ≤ T := by
  cases n with
  | zero => exact Nat.zero_le T
  | succ n =>
    rw [count_succ]
    split_ifs
    · exact min_le_right _ _
    · exact Nat.zero_le T

/-- The counter stands at its limit iff the last `T` edges all had `p`. -/
theorem count_eq_limit_iff : count p T n = T ↔ Held p T n := by
  rw [← le_count_iff (le_refl T)]
  have := count_le (p := p) (T := T) n
  omega

end RunLength

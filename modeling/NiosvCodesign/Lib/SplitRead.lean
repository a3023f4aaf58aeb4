import Mathlib

/-!
# Reading a counter in two halves

A counter that only grows stands at `a` when one half of it is read and at `b`
when the other half is. Halves are the quotient and the remainder by `M`.

* `value_held_iff`: in either order, what is put together is a value the
  counter held on the way from `a` to `b` iff its low half did not go down.
* `value_of_same_high`: with a second read of the high half that agrees with the
  first, what is put together is what the counter was in between.
-/

namespace SplitRead

/-- Which half is read first. -/
inductive Order
  | lowFirst
  | highFirst
deriving DecidableEq

/-- The value put together from a first read at `a` and a second one at `b`. -/
def value (M : ℕ) (a b : ℕ) : Order → ℕ
  | .lowFirst => M * (b / M) + a % M
  | .highFirst => M * (a / M) + b % M

variable {M a b : ℕ}

theorem value_held_iff (hab : a ≤ b) (o : Order) :
    a ≤ value M a b o ∧ value M a b o ≤ b ↔ a % M ≤ b % M := by
  have hdiv : M * (a / M) ≤ M * (b / M) := Nat.mul_le_mul_left M (Nat.div_le_div_right hab)
  have ha := Nat.div_add_mod a M
  have hb := Nat.div_add_mod b M
  cases o with
  | lowFirst =>
    show a ≤ M * (b / M) + a % M ∧ M * (b / M) + a % M ≤ b ↔ a % M ≤ b % M
    omega
  | highFirst =>
    show a ≤ M * (a / M) + b % M ∧ M * (a / M) + b % M ≤ b ↔ a % M ≤ b % M
    omega

theorem value_of_same_high {c : ℕ} (hab : a ≤ b) (hbc : b ≤ c) (hsame : a / M = c / M) :
    M * (a / M) + b % M = b := by
  have hb := Nat.div_add_mod b M
  have hmid : b / M = a / M :=
    le_antisymm (hsame ▸ Nat.div_le_div_right hbc) (Nat.div_le_div_right hab)
  rw [hmid] at hb
  exact hb

end SplitRead

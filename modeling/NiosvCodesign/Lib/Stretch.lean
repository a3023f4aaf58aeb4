import Mathlib

/-!
# Pulse stretching

A stretched output is active at edge `n` iff some event fired within the last
`W` edges. Events that come while the output is active make the pulse longer.

* `Stretches.fire_of_rise`: a pulse starts at an edge that fires.
* `Stretches.pulse`: a pulse ends exactly `W` cycles after its last event.
* `Stretches.card_rises_le`: there are no more pulses than events.
-/

namespace Stretch

/-- `out` is `fire` stretched to `W` cycles. -/
def Stretches (W : ℕ) (fire : ℕ → Prop) (out : ℕ → Bool) : Prop :=
  ∀ n, out n = true ↔ ∃ m, m ≤ n ∧ n < m + W ∧ fire m

/-- `[a, b]` is a maximal interval on which `out` is active. -/
structure Pulse (out : ℕ → Bool) (a b : ℕ) : Prop where
  pos : 1 ≤ a
  le : a ≤ b
  active : ∀ n, a ≤ n → n ≤ b → out n = true
  before : out (a - 1) = false
  after : out (b + 1) = false

/-- The edges from `1` to `n` at which `out` becomes active. -/
def rises (out : ℕ → Bool) (n : ℕ) : Finset ℕ :=
  (Finset.Icc 1 n).filter fun a => out (a - 1) = false ∧ out a = true

variable {W : ℕ} {fire : ℕ → Prop} {out : ℕ → Bool}

theorem Stretches.not_fire (h : Stretches W fire out) {m n : ℕ} (hn : out n = false) (hm : m ≤ n)
    (hW : n < m + W) : ¬ fire m := by
  intro hf
  have hout : out n = true := (h n).mpr ⟨m, hm, hW, hf⟩
  rw [hn] at hout
  contradiction

theorem Stretches.fire_of_rise (h : Stretches W fire out) {a : ℕ} (h0 : out (a - 1) = false)
    (h1 : out a = true) : fire a := by
  obtain ⟨m, hm, hW, hf⟩ := (h a).mp h1
  rcases Nat.lt_or_eq_of_le hm with hlt | rfl
  · exact absurd hf (h.not_fire h0 (by omega) (by omega))
  · exact hf

/-- A pulse ends `W` cycles after the last event in it. -/
theorem Stretches.pulse (h : Stretches W fire out) {a b : ℕ} (hp : Pulse out a b) :
    ∃ m, a ≤ m ∧ m ≤ b ∧ fire m ∧ (∀ m', m < m' → m' ≤ b → ¬ fire m') ∧ b + 1 = m + W := by
  obtain ⟨m, hm, hW, hf⟩ := (h b).mp (hp.active b hp.le le_rfl)
  have hend : b + 1 = m + W := by
    by_contra hne
    exact h.not_fire hp.after (by omega) (by omega) hf
  have hstart : a ≤ m := by
    have := hp.pos
    have := hp.le
    by_contra hlt
    exact h.not_fire hp.before (by omega) (by omega) hf
  refine ⟨m, hstart, hm, hf, ?_, hend⟩
  intro m' h1 h2
  exact h.not_fire hp.after (by omega) (by omega)

/-- No more pulses than events of any kind `e` that each firing edge follows by
    one cycle. -/
theorem Stretches.card_rises_le (h : Stretches W fire out) {e : ℕ → Prop} [DecidablePred e]
    (he : ∀ m, fire m → 3 ≤ m ∧ e (m - 1)) (n : ℕ) :
    (rises out n).card ≤ ((Finset.Icc 2 n).filter e).card := by
  refine Finset.card_le_card_of_injOn (fun a => a - 1) ?_ ?_
  · intro a ha
    obtain ⟨hmem, h0, h1⟩ := Finset.mem_filter.mp (Finset.mem_coe.mp ha)
    obtain ⟨h3, hea⟩ := he a (h.fire_of_rise h0 h1)
    rw [Finset.mem_Icc] at hmem
    have hpred : a - 1 ∈ Finset.Icc 2 n := Finset.mem_Icc.mpr ⟨by omega, by omega⟩
    exact Finset.mem_coe.mpr (Finset.mem_filter.mpr ⟨hpred, hea⟩)
  · intro a ha b hb hab
    obtain ⟨hmem, -⟩ := Finset.mem_filter.mp (Finset.mem_coe.mp ha)
    obtain ⟨hmem', -⟩ := Finset.mem_filter.mp (Finset.mem_coe.mp hb)
    rw [Finset.mem_Icc] at hmem hmem'
    simp only at hab
    omega

end Stretch

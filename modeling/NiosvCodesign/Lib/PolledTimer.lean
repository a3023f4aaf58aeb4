import NiosvCodesign.Lib.Clocked

/-!
# A polled interval timer

A timer without an interrupt: software reads a clock now and then and fires
when at least `h` ticks have passed since the reading at which it last fired.
The next interval starts at that (late) reading. `h n` is the interval in force
at poll `n` and `t n` its reading; `t 0` is the reading that starts the timer.

* `run_count_mul_le`: with a constant interval the `N`-th firing is not before
  `t 0 + N * h`.
* `run_last_le`, `le_run_count`: if polls are at most `p` ticks apart, the
  `N`-th firing is not after `t 0 + N * (h + p)`.
* `run_ahead`: with shorter intervals the timer is never behind, although the
  two timers fall out of step.
* `run_eq_of_gap`: a shorter interval goes unnoticed while no poll falls between
  the two deadlines.
-/

namespace PolledTimer

/-- The reading at the last firing, and the number of firings. -/
structure State where
  last : ℕ
  count : ℕ

/-- A poll that reads `t` while the interval is `h`. -/
def poll (h t : ℕ) (s : State) : State := if s.last + h ≤ t then ⟨t, s.count + 1⟩ else s

/-- The timer after `n` polls. -/
def run (h t : ℕ → ℕ) (n : ℕ) : State :=
  Clocked.run (fun s n => poll (h n) (t n) s) ⟨t 0, 0⟩ (fun n => n) n

@[simp] theorem run_zero (h t : ℕ → ℕ) : run h t 0 = ⟨t 0, 0⟩ := rfl

theorem run_succ (h t : ℕ → ℕ) (n : ℕ) :
    run h t (n + 1) = poll (h (n + 1)) (t (n + 1)) (run h t n) := rfl

theorem poll_of_le {h t : ℕ} {s : State} (hs : s.last + h ≤ t) : poll h t s = ⟨t, s.count + 1⟩ :=
  if_pos hs

theorem poll_of_lt {h t : ℕ} {s : State} (hs : t < s.last + h) : poll h t s = s :=
  if_neg (by omega)

/-! ## One timer -/

section Bounds

variable {t : ℕ → ℕ}

theorem run_last_le_now (hmono : ∀ n, t n ≤ t (n + 1)) (h : ℕ → ℕ) (n : ℕ) : (run h t n).last ≤ t n := by
  induction n with
  | zero => exact le_rfl
  | succ n ih =>
    rw [run_succ, poll]
    split_ifs
    · exact le_rfl
    · exact ih.trans (hmono n)

/-- No firing comes early. -/
theorem run_count_mul_le (h n : ℕ) :
    t 0 + (run (fun _ => h) t n).count * h ≤ (run (fun _ => h) t n).last := by
  induction n with
  | zero => simp
  | succ n ih =>
    rw [run_succ, poll]
    split_ifs with hfire
    · simp only
      calc t 0 + ((run (fun _ => h) t n).count + 1) * h
          = t 0 + (run (fun _ => h) t n).count * h + h := by ring
        _ ≤ t (n + 1) := by omega
    · exact ih

/-- Every firing comes within `p` ticks of its deadline, and after each poll
    the next deadline is still ahead. -/
theorem run_last_le {h p : ℕ} (hpos : 0 < h) (hstep : ∀ n, t (n + 1) ≤ t n + p) (n : ℕ) :
    (run (fun _ => h) t n).last ≤ t 0 + (run (fun _ => h) t n).count * (h + p) ∧
      t n < (run (fun _ => h) t n).last + h := by
  induction n with
  | zero => simpa using hpos
  | succ n ih =>
    obtain ⟨hlast, hnow⟩ := ih
    have hnext := hstep n
    rw [run_succ, poll]
    split_ifs with hfire
    · simp only
      refine ⟨?_, by omega⟩
      calc t (n + 1) ≤ (run (fun _ => h) t n).last + (h + p) := by omega
        _ ≤ t 0 + (run (fun _ => h) t n).count * (h + p) + (h + p) := by omega
        _ = t 0 + ((run (fun _ => h) t n).count + 1) * (h + p) := by ring
    · exact ⟨hlast, by omega⟩

/-- By `t 0 + N * (h + p)` there have been at least `N` firings. -/
theorem le_run_count {h p : ℕ} (hpos : 0 < h) (hstep : ∀ n, t (n + 1) ≤ t n + p) {n N : ℕ}
    (hN : t 0 + N * (h + p) ≤ t n) : N ≤ (run (fun _ => h) t n).count := by
  obtain ⟨hlast, hnow⟩ := run_last_le hpos hstep n
  by_contra hlt
  have hmul : ((run (fun _ => h) t n).count + 1) * (h + p) ≤ N * (h + p) :=
    Nat.mul_le_mul_right _ (by omega)
  rw [Nat.succ_mul] at hmul
  omega

/-! ## Two timers -/

/-- A shorter interval makes no difference while no poll falls between the two
    deadlines. -/
theorem run_eq_of_gap {h h' : ℕ} (hle : h ≤ h')
    (hgap : ∀ n, ¬ ((run (fun _ => h') t n).last + h ≤ t (n + 1) ∧
      t (n + 1) < (run (fun _ => h') t n).last + h')) (n : ℕ) :
    run (fun _ => h) t n = run (fun _ => h') t n := by
  induction n with
  | zero => rfl
  | succ n ih =>
    have hno := hgap n
    rw [run_succ, run_succ, ih]
    by_cases hfire : (run (fun _ => h') t n).last + h' ≤ t (n + 1)
    · rw [poll_of_le hfire, poll_of_le (by omega)]
    · rw [poll_of_lt (by omega), poll_of_lt (by omega)]

/-- `s'` has fired more often, or as often and no later. -/
def Ahead (s s' : State) : Prop := s.count < s'.count ∨ s.count = s'.count ∧ s'.last ≤ s.last

/-- One poll keeps the lead. If only the slower timer fires it catches up at
    most, and then it restarts at the present reading. -/
theorem Ahead.poll {h h' t : ℕ} {s s' : State} (hs : Ahead s s') (hh : h' ≤ h)
    (hlast : s'.last ≤ t) : Ahead (poll h t s) (poll h' t s') := by
  rcases hs with hlt | ⟨heq, hle⟩
  · by_cases hf : s.last + h ≤ t
    · rw [poll_of_le hf]
      by_cases hf' : s'.last + h' ≤ t
      · rw [poll_of_le hf']; left; simp only; omega
      · rw [poll_of_lt (s := s') (by omega)]
        rcases Nat.eq_or_lt_of_le (Nat.succ_le_of_lt hlt) with hcatch | hahead
        · exact Or.inr ⟨hcatch, hlast⟩
        · exact Or.inl hahead
    · rw [poll_of_lt (by omega)]
      by_cases hf' : s'.last + h' ≤ t
      · rw [poll_of_le hf']; left; simp only; omega
      · rw [poll_of_lt (by omega)]; exact Or.inl hlt
  · by_cases hf : s.last + h ≤ t
    · -- the faster timer is due as well
      rw [poll_of_le hf, poll_of_le (s := s') (by omega)]
      exact Or.inr ⟨by simp only; omega, le_rfl⟩
    · rw [poll_of_lt (by omega)]
      by_cases hf' : s'.last + h' ≤ t
      · rw [poll_of_le hf']; left; simp only; omega
      · rw [poll_of_lt (by omega)]; exact Or.inr ⟨heq, hle⟩

theorem run_ahead (hmono : ∀ n, t n ≤ t (n + 1)) {h h' : ℕ → ℕ} (hh : ∀ n, h' (n + 1) ≤ h (n + 1)) (n : ℕ) :
    Ahead (run h t n) (run h' t n) := by
  induction n with
  | zero => exact Or.inr ⟨rfl, le_rfl⟩
  | succ n ih =>
    rw [run_succ, run_succ]
    exact ih.poll (hh n) ((run_last_le_now hmono h' n).trans (hmono n))

end Bounds

end PolledTimer

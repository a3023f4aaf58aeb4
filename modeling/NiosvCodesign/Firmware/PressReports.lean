import NiosvCodesign.Firmware.ChangeReports

/-!
# Presses and releases in the printed log

The log reports switches and both keys together. What it says about one key,
apart from all the other changes:

* `presses_succ`: an iteration adds a press of `KEYi` iff the button word of
  the previous read had the key released and this one has it pressed.
* `releases_le_presses`: presses and releases alternate.
* `encard_pressPositions`: the presses are the positions of the log at which
  `KEYi` goes from released to pressed.
-/

namespace NiosvCodesign.Firmware

open ChangeLog

/-- What a report says about `KEYi`. -/
def Report.keyPressed (r : Report) : Fin 2 → Bool
  | 0 => r.shown.key0
  | 1 => r.shown.key1

theorem report_keyPressed (p : Poll) (i : Fin 2) :
    p.report.keyPressed i = !p.button.getLsbD i := by
  unfold Report.keyPressed
  rw [shown_report]
  fin_cases i <;> rfl

/-- `KEYi` goes from released to pressed between two reports. -/
def pressStep (i : Fin 2) (r r' : Report) : Bool := !r.keyPressed i && r'.keyPressed i

/-- `KEYi` goes from pressed to released between two reports. -/
def releaseStep (i : Fin 2) (r r' : Report) : Bool := r.keyPressed i && !r'.keyPressed i

variable (tps : BitVec 32) (poll : ℕ → Poll) (i : Fin 2)

/-- The presses of `KEYi` that the first `n` iterations report. -/
def presses (n : ℕ) : ℕ := steps (pressStep i) (reports tps poll n)

/-- The releases of `KEYi` that the first `n` iterations report. -/
def releases (n : ℕ) : ℕ := steps (releaseStep i) (reports tps poll n)

/-- The positions of the printed sequence of reports at which `KEYi` changes
    from released to pressed. -/
def pressPositions : Set ℕ := ⋃ n, stepsAt (pressStep i) (reports tps poll n)

theorem presses_eq (n : ℕ) : presses tps poll i n =
    steps (pressStep i) ((List.range (n + 1)).map fun k => (poll k).report) := by
  rw [presses, reports_eq_destutter, steps_destutter]
  intro r
  exact Bool.not_and_self (r.keyPressed i)

theorem presses_zero : presses tps poll i 0 = 0 := rfl

/-- Reports caused by the other key or the switches do not count. -/
theorem presses_succ (n : ℕ) : presses tps poll i (n + 1) = presses tps poll i n +
    ((poll n).button.getLsbD i && !(poll (n + 1)).button.getLsbD i).toNat := by
  rw [presses_eq, presses_eq, steps_map_range_succ, pressStep, report_keyPressed,
    report_keyPressed, Bool.not_not]

/-- As long as the start-up read has the key released, presses lead. -/
theorem releases_le_presses (hstart : (poll 0).button.getLsbD i = true) (n : ℕ) :
    releases tps poll i n ≤ presses tps poll i n ∧
      presses tps poll i n ≤ releases tps poll i n + 1 := by
  have hsplit : ∃ l, reports tps poll n = (poll 0).report :: l := by
    induction n with
    | zero => exact ⟨[], rfl⟩
    | succ n ih =>
      obtain ⟨l, hl⟩ := ih
      rw [reports_succ, hl]
      exact ⟨_, List.cons_append⟩
  obtain ⟨l, hl⟩ := hsplit
  have halt : steps (pressStep i) ((poll 0).report :: l) + ((poll 0).report.keyPressed i).toNat =
      steps (releaseStep i) ((poll 0).report :: l) +
        ((((poll 0).report :: l).getLast (by simp)).keyPressed i).toNat :=
    steps_alternate (fun r : Report => r.keyPressed i) (poll 0).report l
  have hfirst : ((poll 0).report.keyPressed i).toNat = 0 := by
    rw [report_keyPressed, hstart]
    rfl
  have hlast := Bool.toNat_le ((((poll 0).report :: l).getLast (by simp)).keyPressed i)
  unfold presses releases
  rw [hl]
  omega

theorem reports_prefix_mono {m n : ℕ} (h : m ≤ n) : reports tps poll m <+: reports tps poll n := by
  induction n, h using Nat.le_induction with
  | base => exact List.prefix_rfl
  | succ n h ih =>
    rw [reports_succ]
    exact ih.trans (List.prefix_append _ _)

/-- The number of positions, in a log that never ends, is the limit of the
    counts. -/
theorem encard_pressPositions {β : Type*} {B : ℕ → Set β} (hB : Monotone B)
    (h : ∀ n, (B n).encard = presses tps poll i n) :
    (pressPositions tps poll i).encard = (⋃ n, B n).encard := by
  refine encard_iUnion_congr ?_ hB ?_
  · intro m n hmn
    exact stepsAt_mono _ (reports_prefix_mono tps poll hmn)
  · intro n
    rw [encard_stepsAt, h, presses]

end NiosvCodesign.Firmware

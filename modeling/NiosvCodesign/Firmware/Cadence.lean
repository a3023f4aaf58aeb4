import NiosvCodesign.Firmware.BlinkTimer
import NiosvCodesign.Firmware.LedControl

/-!
# The documented blink cadence

The header of main.c and the README give the half period as
`500 ms / (DIPSW + 1)`. `alt_ticks_per_second()` is 1000 (`system.h`), so one
tick is 1 ms, but main.c:65 divides the tick rate by 10 and not by 2: the half
period of the code is `100 ms / (DIPSW + 1)`.

* `Cadence`: the documented behaviour of an LED sequence.
* `cadence_iff`: a run shows it iff no poll falls between the half period of
  the code and the documented one.
* `cadence_violated`: with all switches off the LED already changes 100 ms
  after start-up.
-/

namespace NiosvCodesign.Firmware

/-! ## What the documentation promises -/

/-- `NIOSV_INTERNAL_TIMER_TICKS_PER_SECOND` (system.h:251), which
    `INTEL_NIOSV_G_INIT` makes the value of `alt_ticks_per_second()`. -/
def ticksPerSecond : BitVec 32 := 1000

/-- The documented half period in ticks, `500 ms / (DIPSW + 1)`. -/
def documentedHalfPeriod (d : ℕ) : ℕ := 500 / (d + 1)

section Spec

variable (led : ℕ → BitVec 32) (t : ℕ → ℕ)

/-- The reading at the last change of the LED up to iteration `n`, or the
    initial reading. -/
def lastChange : ℕ → ℕ
  | 0 => t 0
  | n + 1 => if led (n + 1) ≠ led n then t (n + 1) else lastChange n

/-- The number of LED changes in the first `n` iterations. -/
def changes : ℕ → ℕ
  | 0 => 0
  | n + 1 => if led (n + 1) ≠ led n then changes n + 1 else changes n

/-- The documented cadence with half period `h`, for polls at most `p` ticks
    apart: the LED changes exactly in the iterations that read at least `h`
    ticks after the previous change, so the `N`-th change comes neither before
    `N * h` nor after `N * (h + p)` ticks. -/
structure Cadence (h p : ℕ) : Prop where
  change_iff : ∀ n, led (n + 1) ≠ led n ↔ lastChange led t n + h ≤ t (n + 1)
  no_earlier : ∀ n, led (n + 1) ≠ led n → t 0 + changes led (n + 1) * h ≤ t (n + 1)
  no_later : ∀ n, led (n + 1) ≠ led n → t (n + 1) ≤ t 0 + changes led (n + 1) * (h + p)
  reached : ∀ n N, t 0 + N * (h + p) ≤ t n → N ≤ changes led n

end Spec

/-- A run with the switches at `d`, no button held, and readings that never go
    back and are at most `p ≥ 1` ticks apart. -/
structure SteadyRun (d p : ℕ) (poll : ℕ → Poll) : Prop where
  switches : ∀ n, (readDipsw (poll n).dipsw).toNat = d
  released : ∀ n, (poll n).NoKeyHeld
  period_pos : 1 ≤ p
  mono : ∀ n, ticks poll n ≤ ticks poll (n + 1)
  spacing : ∀ n, ticks poll (n + 1) ≤ ticks poll n + p

/-! ## What the code does -/

section Steady

variable {d p : ℕ} {poll : ℕ → Poll} (hrun : SteadyRun d p poll)
include hrun

theorem SteadyRun.lt : d < 16 := by
  rw [← hrun.switches 0]; exact readDipsw_lt _

/-- The half period of the code is a fifth of the documented one. -/
theorem SteadyRun.interval_eq (n : ℕ) : interval ticksPerSecond poll n = 100 / (d + 1) := by
  have hd := hrun.lt
  rw [interval, halfPeriod_toNat (readDipsw_lt _), hrun.switches]
  have hpos : 1 ≤ 100 / (d + 1) := (Nat.one_le_div_iff (by omega)).mpr (by omega)
  exact max_eq_right hpos

/-- The timer behind the LED of a steady run. -/
theorem SteadyRun.timer_eq (n : ℕ) :
    PolledTimer.run (fun _ => 100 / (d + 1)) (ticks poll) n =
      ⟨(mainRun ticksPerSecond poll n).lastToggle.toNat, toggleCount ticksPerSecond poll n⟩ := by
  rw [← mainRun_timer poll hrun.mono]
  congr 1
  funext k
  exact (hrun.interval_eq k).symm

/-- The LED changes in exactly the iterations in which this timer fires. -/
theorem SteadyRun.led_change_iff (n : ℕ) :
    ledWrite ticksPerSecond poll (n + 1) ≠ ledWrite ticksPerSecond poll n ↔
      (PolledTimer.run (fun _ => 100 / (d + 1)) (ticks poll) n).last + 100 / (d + 1) ≤
        ticks poll (n + 1) := by
  have hlast := PolledTimer.run_last_le_now hrun.mono (fun _ => 100 / (d + 1)) n
  rw [hrun.timer_eq] at hlast ⊢
  rw [ledWrite_of_noKeyHeld _ (hrun.released _), ledWrite_of_noKeyHeld _ (hrun.released _),
    mainRun_succ, blink_change_iff, toggles_iff (le_trans hlast (hrun.mono n)), ← interval,
    hrun.interval_eq]
  rfl

theorem SteadyRun.lastChange_eq (n : ℕ) :
    lastChange (ledWrite ticksPerSecond poll) (ticks poll) n =
        (PolledTimer.run (fun _ => 100 / (d + 1)) (ticks poll) n).last ∧
      changes (ledWrite ticksPerSecond poll) n =
        (PolledTimer.run (fun _ => 100 / (d + 1)) (ticks poll) n).count := by
  induction n with
  | zero => exact ⟨rfl, rfl⟩
  | succ n ih =>
    rw [lastChange, changes, PolledTimer.run_succ, ih.1, ih.2]
    by_cases hfire : (PolledTimer.run (fun _ => 100 / (d + 1)) (ticks poll) n).last +
        100 / (d + 1) ≤ ticks poll (n + 1)
    · have hled := (hrun.led_change_iff n).mpr hfire
      rw [if_pos hled, if_pos hled, PolledTimer.poll_of_le hfire]
      exact ⟨rfl, rfl⟩
    · have hled := mt (hrun.led_change_iff n).mp hfire
      rw [if_neg hled, if_neg hled, PolledTimer.poll_of_lt (not_le.mp hfire)]
      exact ⟨rfl, rfl⟩

end Steady

/-! ## When the two agree -/

/-- The reading at which a timer with the documented half period, polled in the
    same iterations, last fired. It depends on the readings only. -/
def documentedRestart (d : ℕ) (t : ℕ → ℕ) (n : ℕ) : ℕ :=
  (PolledTimer.run (fun _ => documentedHalfPeriod d) t n).last

/-- No poll reads at least `⌊100 / (d + 1)⌋` but less than `⌊500 / (d + 1)⌋`
    ticks after the documented timer last fired. -/
def NoPollBetween (d : ℕ) (t : ℕ → ℕ) : Prop :=
  ∀ n, ¬ (documentedRestart d t n + 100 / (d + 1) ≤ t (n + 1) ∧
    t (n + 1) < documentedRestart d t n + documentedHalfPeriod d)

/-- If the LED obeys the documented rule, the two timers run in lockstep. -/
theorem SteadyRun.lockstep {d p : ℕ} {poll : ℕ → Poll} (hrun : SteadyRun d p poll)
    (hrule : ∀ n, ledWrite ticksPerSecond poll (n + 1) ≠ ledWrite ticksPerSecond poll n ↔
      lastChange (ledWrite ticksPerSecond poll) (ticks poll) n + documentedHalfPeriod d ≤
        ticks poll (n + 1)) (n : ℕ) :
    PolledTimer.run (fun _ => documentedHalfPeriod d) (ticks poll) n =
      PolledTimer.run (fun _ => 100 / (d + 1)) (ticks poll) n := by
  induction n with
  | zero => rfl
  | succ n ih =>
    have hfire := (hrun.led_change_iff n).symm.trans (hrule n)
    rw [(hrun.lastChange_eq n).1] at hfire
    rw [PolledTimer.run_succ, PolledTimer.run_succ, ih]
    by_cases h : (PolledTimer.run (fun _ => 100 / (d + 1)) (ticks poll) n).last + 100 / (d + 1) ≤
        ticks poll (n + 1)
    · rw [PolledTimer.poll_of_le h, PolledTimer.poll_of_le (hfire.mp h)]
    · rw [PolledTimer.poll_of_lt (not_le.mp h),
        PolledTimer.poll_of_lt (not_le.mp (mt hfire.mpr h))]

/-- **The documented cadence.** A steady run shows it iff no poll falls between
    the half period of the code and the documented one. -/
theorem cadence_iff {d p : ℕ} {poll : ℕ → Poll} (hrun : SteadyRun d p poll) :
    Cadence (ledWrite ticksPerSecond poll) (ticks poll) (documentedHalfPeriod d) p ↔
      NoPollBetween d (ticks poll) := by
  have hd := hrun.lt
  have hpos : 0 < documentedHalfPeriod d := Nat.div_pos (by omega) (by omega)
  have hle : 100 / (d + 1) ≤ documentedHalfPeriod d := Nat.div_le_div_right (by norm_num)
  constructor
  · rintro hcad n ⟨hlo, hhi⟩
    have hfire := (hrun.led_change_iff n).symm.trans (hcad.change_iff n)
    rw [(hrun.lastChange_eq n).1] at hfire
    rw [documentedRestart, hrun.lockstep hcad.change_iff] at hlo hhi
    have := hfire.mp hlo
    omega
  · intro hgap
    have heq := PolledTimer.run_eq_of_gap hle hgap
    have hbound := PolledTimer.run_last_le hpos hrun.spacing
    have hearly := PolledTimer.run_count_mul_le (t := ticks poll) (documentedHalfPeriod d)
    have hchange : ∀ n, ledWrite ticksPerSecond poll (n + 1) ≠ ledWrite ticksPerSecond poll n ↔
        documentedRestart d (ticks poll) n + documentedHalfPeriod d ≤ ticks poll (n + 1) := by
      intro n
      have hno := hgap n
      rw [hrun.led_change_iff, heq, ← documentedRestart]
      omega
    have hlast : ∀ n, ledWrite ticksPerSecond poll (n + 1) ≠ ledWrite ticksPerSecond poll n →
        (PolledTimer.run (fun _ => documentedHalfPeriod d) (ticks poll) (n + 1)).last =
          ticks poll (n + 1) := by
      intro n h
      rw [PolledTimer.run_succ, PolledTimer.poll_of_le ((hchange n).mp h)]
    refine ⟨fun n => ?_, fun n h => ?_, fun n h => ?_, fun n N hN => ?_⟩
    · rw [(hrun.lastChange_eq n).1, heq]
      exact hchange n
    · rw [(hrun.lastChange_eq _).2, heq]
      exact (hearly (n + 1)).trans_eq (hlast n h)
    · rw [(hrun.lastChange_eq _).2, heq]
      exact (hlast n h).symm.trans_le (hbound (n + 1)).1
    · rw [(hrun.lastChange_eq _).2, heq]
      exact PolledTimer.le_run_count hpos hrun.spacing hN

/-! ## Two runs with all switches off -/

theorem ticks_jumpPoll {t : ℕ} (ht : t < 2 ^ 64) (n : ℕ) :
    ticks (jumpPoll 0 (BitVec.ofNat 64 t)) n = if n = 0 then 0 else t := by
  rw [ticks, jumpPoll, apply_ite BitVec.toNat, BitVec.toNat_ofNat, Nat.mod_eq_of_lt ht]
  rfl

theorem steadyRun_jump {t : ℕ} (h1 : 1 ≤ t) (ht : t < 2 ^ 64) :
    SteadyRun 0 t (jumpPoll 0 (BitVec.ofNat 64 t)) := by
  refine ⟨fun _ => ?_, fun _ => ?_, h1, fun n => ?_, fun n => ?_⟩
  · exact (by decide : (readDipsw 0#32).toNat = 0)
  · exact (by decide : (3#32).getLsbD 0 = true ∧ (3#32).getLsbD 1 = true)
  · rw [ticks_jumpPoll ht, ticks_jumpPoll ht, if_neg (Nat.succ_ne_zero n)]; split_ifs <;> omega
  · rw [ticks_jumpPoll ht, ticks_jumpPoll ht, if_neg (Nat.succ_ne_zero n)]; split_ifs <;> omega

/-- Readings 0, 500, 500, …: the documented cadence. -/
theorem cadence_iff_jump :
    Cadence (ledWrite ticksPerSecond (jumpPoll 0 500)) (ticks (jumpPoll 0 500))
        (documentedHalfPeriod 0) 500 ↔ NoPollBetween 0 (ticks (jumpPoll 0 500)) :=
  cadence_iff (steadyRun_jump (t := 500) (by norm_num) (by norm_num))

/-- Readings 0, 100, 100, …: polls are at most 100 ms apart, and the LED already
    changes 100 ms after start-up, where the documentation says 500 ms. -/
theorem cadence_violated : SteadyRun 0 100 (jumpPoll 0 100) ∧
    ledWrite ticksPerSecond (jumpPoll 0 100) 1 ≠ ledWrite ticksPerSecond (jumpPoll 0 100) 0 ∧
    ¬ Cadence (ledWrite ticksPerSecond (jumpPoll 0 100)) (ticks (jumpPoll 0 100))
      (documentedHalfPeriod 0) 100 := by
  have hled : ledWrite ticksPerSecond (jumpPoll 0 100) 1 ≠
      ledWrite ticksPerSecond (jumpPoll 0 100) 0 := by decide
  refine ⟨steadyRun_jump (t := 100) (by norm_num) (by norm_num), hled, fun h => ?_⟩
  exact absurd ((h.change_iff 0).mp hled) (by decide)

end NiosvCodesign.Firmware

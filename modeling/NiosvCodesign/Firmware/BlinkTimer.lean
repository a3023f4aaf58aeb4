import NiosvCodesign.Lib.PolledTimer
import NiosvCodesign.Firmware.Main

/-!
# The blink logic is a polled interval timer

While the tick readings do not go back, the 64-bit subtraction of
main.c:71 does not wrap, and `(last_toggle, number of toggles)` evolves as
`PolledTimer.run` with the half period as the interval.

* `halfPeriod_toNat`: `half_period` is `⌊⌊tps / 10⌋ / (DIPSW + 1)⌋`, at least 1.
* `mainRun_timer`: the refinement.
* `blink_monotone`: a larger switch value never blinks more slowly.
-/

namespace NiosvCodesign.Firmware

variable (tps : BitVec 32) (poll : ℕ → Poll)

/-- The tick readings as numbers; `ticks poll 0` initialises `last_toggle`. -/
def ticks (n : ℕ) : ℕ := (poll n).nticks.toNat

/-- The half period used in iteration `n`, as a number. -/
def interval (n : ℕ) : ℕ := (halfPeriod tps (readDipsw (poll n).dipsw)).toNat

/-- How often the first `n` iterations changed the blink bit. -/
def toggleCount (n : ℕ) : ℕ :=
  ((Finset.range n).filter fun k =>
    (mainRun tps poll (k + 1)).blink ≠ (mainRun tps poll k).blink).card

/-! ## One iteration -/

theorem xor_one_ne (x : BitVec 32) : x ^^^ 1#32 ≠ x := by
  intro h
  have hbit : (x ^^^ 1#32).getLsbD 0 = x.getLsbD 0 := by rw [h]
  simp at hbit

variable {tps}

theorem blink_change_iff {st : MainState} {p : Poll} :
    (loopBody tps st p).1.blink ≠ st.blink ↔ Toggles tps st p := by
  rw [loopBody_blink]
  split_ifs with h
  · exact iff_of_true (xor_one_ne _) h
  · exact iff_of_false (fun hne => hne rfl) h

theorem halfPeriod_toNat {d : BitVec 32} (hd : d.toNat < 16) :
    (halfPeriod tps d).toNat = max 1 (tps.toNat / 10 / (d.toNat + 1)) := by
  have hdiv : (tps / 10#32 / (d + 1#32)).toNat = tps.toNat / 10 / (d.toNat + 1) := by
    rw [BitVec.toNat_udiv, BitVec.toNat_udiv, BitVec.toNat_add]
    congr 1
    exact Nat.mod_eq_of_lt (by simp; omega)
  unfold halfPeriod
  simp only
  split_ifs with h0
  · rw [← hdiv, h0]; rfl
  · have hne : (tps / 10#32 / (d + 1#32)).toNat ≠ 0 := fun h => h0 (BitVec.eq_of_toNat_eq h)
    rw [hdiv] at hne ⊢
    omega

/-- The toggle condition without machine arithmetic, when the reading is not
    before the last toggle. -/
theorem toggles_iff {st : MainState} {p : Poll} (hle : st.lastToggle.toNat ≤ p.nticks.toNat) :
    Toggles tps st p ↔
      st.lastToggle.toNat + (halfPeriod tps (readDipsw p.dipsw)).toNat ≤ p.nticks.toNat := by
  rw [Toggles, BitVec.le_def, BitVec.toNat_sub_of_le (BitVec.le_def.mpr hle)]
  have hext : ((halfPeriod tps (readDipsw p.dipsw)).zeroExtend 64).toNat =
      (halfPeriod tps (readDipsw p.dipsw)).toNat :=
    BitVec.toNat_setWidth_of_le (by norm_num)
  rw [hext]
  omega

/-! ## The refinement -/

theorem toggleCount_succ (n : ℕ) : toggleCount tps poll (n + 1) = toggleCount tps poll n +
    if Toggles tps (mainRun tps poll n) (poll (n + 1)) then 1 else 0 := by
  rw [toggleCount, Finset.range_add_one, Finset.filter_insert]
  have hstep : (mainRun tps poll (n + 1)).blink ≠ (mainRun tps poll n).blink ↔
      Toggles tps (mainRun tps poll n) (poll (n + 1)) := by
    rw [mainRun_succ]; exact blink_change_iff
  split_ifs with h1 h2 h2
  · rw [Finset.card_insert_of_notMem (by simp)]; rfl
  · exact absurd (hstep.mp h1) h2
  · exact absurd (hstep.mpr h2) h1
  · rfl

/-- The blink logic refines the polled timer. -/
theorem mainRun_timer (hmono : ∀ n, ticks poll n ≤ ticks poll (n + 1)) (n : ℕ) :
    PolledTimer.run (interval tps poll) (ticks poll) n =
      ⟨(mainRun tps poll n).lastToggle.toNat, toggleCount tps poll n⟩ := by
  induction n with
  | zero => rfl
  | succ n ih =>
    have hlast := PolledTimer.run_last_le_now hmono (interval tps poll) n
    rw [ih] at hlast
    have htog : Toggles tps (mainRun tps poll n) (poll (n + 1)) ↔ _ :=
      toggles_iff (le_trans hlast (hmono n))
    rw [PolledTimer.run_succ, ih, mainRun_succ, loopBody_lastToggle, toggleCount_succ]
    by_cases h : Toggles tps (mainRun tps poll n) (poll (n + 1))
    · rw [if_pos h, if_pos h]
      exact PolledTimer.poll_of_le (htog.mp h)
    · rw [if_neg h, if_neg h]
      exact PolledTimer.poll_of_lt (not_le.mp (mt htog.mpr h))

/-! ## Monotone in the switches -/

theorem readDipsw_lt (w : BitVec 32) : (readDipsw w).toNat < 16 := by
  rw [readDipsw, BitVec.toNat_and]
  exact lt_of_le_of_lt Nat.and_le_right (by decide)

theorem halfPeriod_antitone {d d' : BitVec 32} (hd : d'.toNat < 16) (hle : d.toNat ≤ d'.toNat) :
    (halfPeriod tps d').toNat ≤ (halfPeriod tps d).toNat := by
  rw [halfPeriod_toNat hd, halfPeriod_toNat (by omega)]
  exact max_le_max le_rfl (Nat.div_le_div_left (by omega) (by omega))

variable (tps)

/-- **Faster as the switch value increases.** Two runs read the same
    non-decreasing ticks, and in every iteration the second reads a switch value
    at least as large. Then after every iteration the second has toggled at
    least as often, and while the counts are equal its last toggle is no later;
    nothing is assumed of the buttons. -/
theorem blink_monotone (poll poll' : ℕ → Poll) (ht : ∀ n, (poll' n).nticks = (poll n).nticks)
    (hmono : ∀ n, (poll n).nticks ≤ (poll (n + 1)).nticks)
    (hd : ∀ n, readDipsw (poll (n + 1)).dipsw ≤ readDipsw (poll' (n + 1)).dipsw) (n : ℕ) :
    toggleCount tps poll n ≤ toggleCount tps poll' n ∧
      (toggleCount tps poll n = toggleCount tps poll' n →
        (mainRun tps poll' n).lastToggle ≤ (mainRun tps poll n).lastToggle) := by
  have hticks : ticks poll' = ticks poll := by
    funext k; simp only [ticks, ht]
  have hnat : ∀ n, ticks poll n ≤ ticks poll (n + 1) := fun n => BitVec.le_def.mp (hmono n)
  have hint : ∀ n, interval tps poll' (n + 1) ≤ interval tps poll (n + 1) := fun n =>
    halfPeriod_antitone (readDipsw_lt _) (BitVec.le_def.mp (hd n))
  have hahead := PolledTimer.run_ahead hnat hint n
  have hrun' : PolledTimer.run (interval tps poll') (ticks poll) n =
      ⟨(mainRun tps poll' n).lastToggle.toNat, toggleCount tps poll' n⟩ := by
    rw [← hticks]
    exact mainRun_timer poll' (by rw [hticks]; exact hnat) n
  rw [mainRun_timer poll hnat, hrun'] at hahead
  rcases hahead with hlt | ⟨heq, hle⟩
  · exact ⟨le_of_lt hlt, fun h => absurd h (ne_of_lt hlt)⟩
  · exact ⟨le_of_eq heq, fun _ => BitVec.le_def.mpr hle⟩

/-- Switches at `d`, no button held, and a clock that jumps once from 0 to `t`. -/
def jumpPoll (d : BitVec 32) (t : BitVec 64) (n : ℕ) : Poll := ⟨d, 3, if n = 0 then 0 else t⟩

theorem jumpPoll_mono (d : BitVec 32) (t : BitVec 64) (n : ℕ) :
    (jumpPoll d t n).nticks ≤ (jumpPoll d t (n + 1)).nticks := by
  show (if n = 0 then 0#64 else t) ≤ if n + 1 = 0 then 0#64 else t
  rw [if_neg (Nat.succ_ne_zero n)]
  split_ifs
  · exact BitVec.le_def.mpr (Nat.zero_le _)
  · exact BitVec.le_refl t

/-- Switches 0 against switches 1, with a jump of 60 ticks: only the second run
    toggles. -/
theorem blink_monotone_jump :
    toggleCount 1000 (jumpPoll 0 60) 1 ≤ toggleCount 1000 (jumpPoll 1 60) 1 ∧
      (toggleCount 1000 (jumpPoll 0 60) 1 = toggleCount 1000 (jumpPoll 1 60) 1 →
        (mainRun 1000 (jumpPoll 1 60) 1).lastToggle ≤ (mainRun 1000 (jumpPoll 0 60) 1).lastToggle) :=
  blink_monotone 1000 (jumpPoll 0 60) (jumpPoll 1 60) (fun _ => rfl) (jumpPoll_mono 0 60)
    (fun _ => by show readDipsw 0 ≤ readDipsw 1; decide) 1

end NiosvCodesign.Firmware

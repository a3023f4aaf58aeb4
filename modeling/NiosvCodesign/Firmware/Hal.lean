import Mathlib

/-!
# The HAL tick and alarms

The part of the HAL that the JTAG UART driver relies on
(`software/hal_bsp/HAL`): the tick rate, the tick counter and the list of
alarms. An alarm's callback is left open; `α` is what callbacks act on.

* `altAlarmStart_eq_none_iff`: an alarm is refused exactly as long as the
  system clock has no tick rate.
* `altTick_of_no_alarms`: without registered alarms a tick only counts.
-/

namespace NiosvCodesign.Firmware

/-- `_alt_tick_rate`, `_alt_nticks`, `alt_alarm_list` (the field `time` of each
    alarm, first to last) and whether the timer interrupt is enabled. -/
structure Hal where
  tickRate : BitVec 32
  nticks : BitVec 64
  alarms : List (BitVec 64)
  timerEnabled : Bool

/-- The HAL at reset. -/
def Hal.init : Hal := ⟨0, 0, [], false⟩

/-- `ALT_CPU_TICKS_PER_SEC` (system.h:84, 251). -/
def altCpuTicksPerSec : BitVec 32 := 1000#32

/-- `alt_alarm_start` (alt_alarm_start.c:64-98) on a valid alarm; `none` is the
    error `-ENOTSUP`. -/
def altAlarmStart (h : Hal) (nticks : BitVec 32) : Option Hal :=
  if h.tickRate ≠ 0#32 then
    some { h with alarms := (nticks.zeroExtend 64 + h.nticks + 1#64) :: h.alarms }
  else none

/-- `alt_sysclk_init` (sys/alt_alarm.h:93-104). -/
def altSysclkInit (h : Hal) (nticks : BitVec 32) : Hal :=
  if h.tickRate = 0#32 then { h with tickRate := nticks } else h

variable {α : Type*}

/-- The loop of `alt_tick` over the alarms (alt_tick.c:100-121): `callback`
    returns the number of ticks to the next call, 0 to stop. -/
def processAlarms (callback : α → BitVec 32 × α) (now : BitVec 64) :
    List (BitVec 64) → α → List (BitVec 64) × α
  | [], a => ([], a)
  | time :: alarms, a =>
    if time ≤ now then
      let (nextCallback, a) := callback a
      let (alarms, a) := processAlarms callback now alarms a
      if nextCallback = 0#32 then (alarms, a)
      else ((time + nextCallback.zeroExtend 64) :: alarms, a)
    else
      let (alarms, a) := processAlarms callback now alarms a
      (time :: alarms, a)

/-- `alt_tick` (alt_tick.c:87-128). -/
def altTick (callback : α → BitVec 32 × α) (h : Hal) (a : α) : Hal × α :=
  let nticks := h.nticks + 1#64
  let (alarms, a) := processAlarms callback nticks h.alarms a
  ({ h with nticks := nticks, alarms := alarms }, a)

theorem altAlarmStart_eq_none_iff (h : Hal) (n : BitVec 32) :
    altAlarmStart h n = none ↔ h.tickRate = 0#32 := by
  unfold altAlarmStart
  split_ifs with hrate
  · simp [hrate]
  · simpa using hrate

theorem altTick_of_no_alarms (callback : α → BitVec 32 × α) {h : Hal} (hnone : h.alarms = [])
    (a : α) : altTick callback h a = ({ h with nticks := h.nticks + 1#64 }, a) := by
  unfold altTick
  rw [hnone]
  rfl

/-- What every callback keeps, the loop over the alarms keeps. -/
theorem processAlarms_keeps {callback : α → BitVec 32 × α} {P : α → Prop}
    (hcallback : ∀ a, P a → P (callback a).2) (now : BitVec 64) (alarms : List (BitVec 64)) {a : α}
    (h : P a) : P (processAlarms callback now alarms a).2 := by
  induction alarms generalizing a with
  | nil => exact h
  | cons time alarms ih =>
    unfold processAlarms
    simp only
    split_ifs
    · exact ih (hcallback a h)
    · exact ih (hcallback a h)
    · exact ih h

theorem altTick_keeps {callback : α → BitVec 32 × α} {P : α → Prop}
    (hcallback : ∀ a, P a → P (callback a).2) (h : Hal) {a : α} (ha : P a) :
    P (altTick callback h a).2 :=
  processAlarms_keeps hcallback _ h.alarms ha

end NiosvCodesign.Firmware

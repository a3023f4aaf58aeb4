import NiosvCodesign.Lib.Clocked

/-!
# The bring-up firmware

Model of `main` and its helpers (`software/hal_app/src/main.c`). `unsigned` and
`alt_u32` are `BitVec 32`, `alt_u64` is `BitVec 64`.

A run of the loop is driven by a stream of `Poll`s: `poll 0` holds what the
start-up reads return, `poll k` (`k ≥ 1`) what the reads of iteration `k`
return. Nothing is assumed of them: the PIO words may have anything in their
unused upper bits and the tick readings may be arbitrary.

* `mainRun_dipsw`, `mainRun_keys`: after the combined "either changed" branch
  the cached pair is the current sample, whichever of the two changed.
* `mainRun_blink_congr`: blink bit and `last_toggle` never depend on the
  buttons.
-/

namespace NiosvCodesign.Firmware

/-! ## Reading the inputs -/

/-- `DIPSW_MASK` (main.c:20). -/
def dipswMask : BitVec 32 := 0xF#32

/-- `KEY_MASK` (main.c:21). -/
def keyMask : BitVec 32 := 0x3#32

/-- `KEY0_PRESSED` (main.c:22). -/
def key0Pressed : BitVec 32 := 0x1#32

/-- `KEY1_PRESSED` (main.c:23). -/
def key1Pressed : BitVec 32 := 0x2#32

/-- `read_dipsw` (main.c:27-30) on the word returned by the PIO. -/
def readDipsw (word : BitVec 32) : BitVec 32 := word &&& dipswMask

/-- `read_keys_pressed` (main.c:32-36) on the word returned by the PIO. The
    buttons are active-low. -/
def readKeysPressed (word : BitVec 32) : BitVec 32 := ~~~word &&& keyMask

/-- Bit `i` of the pressed mask is set iff the active-low bit `i` of the word
    is 0. -/
theorem readKeysPressed_bit (w : BitVec 32) {i : ℕ} (hi : i < 2) :
    readKeysPressed w &&& BitVec.twoPow 32 i ≠ 0 ↔ w.getLsbD i = false := by
  have hmask : keyMask &&& BitVec.twoPow 32 i = BitVec.twoPow 32 i := by
    interval_cases i <;> rfl
  have hne : BitVec.twoPow 32 i ≠ 0#32 := by interval_cases i <;> decide
  rw [readKeysPressed, BitVec.and_assoc, hmask, BitVec.and_twoPow, BitVec.getLsbD_not,
    decide_eq_true (show i < 32 by omega), Bool.true_and]
  cases w.getLsbD i
  · simpa using hne
  · simp

theorem key0_pressed_iff (w : BitVec 32) :
    readKeysPressed w &&& key0Pressed ≠ 0 ↔ w.getLsbD 0 = false :=
  readKeysPressed_bit w (i := 0) (by norm_num)

theorem key1_pressed_iff (w : BitVec 32) :
    readKeysPressed w &&& key1Pressed ≠ 0 ↔ w.getLsbD 1 = false :=
  readKeysPressed_bit w (i := 1) (by norm_num)

theorem bne_pressed {m : BitVec 32} {b : Bool} (h : m ≠ 0 ↔ b = false) : (m != 0) = !b := by
  cases b
  · simpa using h
  · simpa using h

/-- What the two PIO reads and the `alt_nticks()` call of one iteration (or of
    the start-up code) return. -/
structure Poll where
  dipsw : BitVec 32
  button : BitVec 32
  nticks : BitVec 64
deriving DecidableEq

/-! ## The console -/

/-- Characters as they are passed to the console. -/
abbrev Text := List Char

/-- The first line `main` prints (main.c:52). -/
def banner : Text := "\nQMTECH C5SOC KFB: Nios V/g control processor running\n".toList

/-- `%X` of `printf`. -/
def formatX (x : BitVec 32) : Text := (Nat.toDigits 16 x.toNat).map Char.toUpper

/-- The text chosen by `(keys & KEYi_PRESSED) ? "pressed" : "released"`. -/
def keyText (pressed : Bool) : Text :=
  if pressed then "pressed".toList else "released".toList

/-- The text printed by `report_inputs` (main.c:38-43). -/
def reportInputs (dipsw keys : BitVec 32) : Text :=
  "DIPSW=0x".toList ++ formatX dipsw ++ " KEY0=".toList ++
    keyText (keys &&& key0Pressed != 0) ++ " KEY1=".toList ++
    keyText (keys &&& key1Pressed != 0) ++ "\n".toList

/-- The arguments of one call of `report_inputs`. -/
structure Report where
  dipsw : BitVec 32
  keys : BitVec 32
deriving DecidableEq

/-- The line this call prints. -/
def Report.line (r : Report) : Text := reportInputs r.dipsw r.keys

/-! ## The loop -/

/-- The local variables of `main` that live across iterations. -/
structure MainState where
  dipsw : BitVec 32
  keys : BitVec 32
  blink : BitVec 32
  lastToggle : BitVec 64

/-- The declarations at the top of `main` (main.c:47-50). -/
def mainInit (p : Poll) : MainState where
  dipsw := readDipsw p.dipsw
  keys := readKeysPressed p.button
  blink := 0
  lastToggle := p.nticks

/-- The change detection (main.c:56-63): the new state and the call of
    `report_inputs`, if there is one. -/
def detectChange (st : MainState) (p : Poll) : MainState × Option Report :=
  let newDipsw := readDipsw p.dipsw
  let newKeys := readKeysPressed p.button
  if newDipsw ≠ st.dipsw ∨ newKeys ≠ st.keys then
    ({ st with dipsw := newDipsw, keys := newKeys }, some ⟨newDipsw, newKeys⟩)
  else (st, none)

/-- `half_period` (main.c:65-68); `tps` is what `alt_ticks_per_second()`
    returns. -/
def halfPeriod (tps dipsw : BitVec 32) : BitVec 32 :=
  let halfPeriod := (tps / 10#32) / (dipsw + 1#32)
  if halfPeriod = 0#32 then 1#32 else halfPeriod

/-- The toggle (main.c:70-74). The subtraction wraps, and `half_period` is
    widened to 64 bits for the comparison. -/
def toggleBlink (tps : BitVec 32) (st : MainState) (now : BitVec 64) : MainState :=
  if (halfPeriod tps st.dipsw).zeroExtend 64 ≤ now - st.lastToggle then
    { st with blink := st.blink ^^^ 1#32, lastToggle := now }
  else st

/-- The value of `led` at the write (main.c:76-82). -/
def ledValue (keys blink : BitVec 32) : BitVec 32 :=
  if keys &&& key0Pressed ≠ 0 then 1
  else if keys &&& key1Pressed ≠ 0 then 0
  else blink

/-- One iteration of `for (;;)` (main.c:55-85) up to its LED write: the new
    state and the call of `report_inputs`, if any. The word written to
    `pio_led` is `ledValue` of the new state. `usleep` has no effect on the
    state. -/
def loopBody (tps : BitVec 32) (st : MainState) (p : Poll) : MainState × Option Report :=
  let (st, report) := detectChange st p
  (toggleBlink tps st p.nticks, report)

/-- The state after `n` iterations of the loop. -/
def mainRun (tps : BitVec 32) (poll : ℕ → Poll) (n : ℕ) : MainState :=
  Clocked.run (fun st p => (loopBody tps st p).1) (mainInit (poll 0)) poll n

/-- The word written to `pio_led` in iteration `n` (`n ≥ 1`; for `n = 0` it is
    what the initial `blink` and the start-up buttons would give). -/
def ledWrite (tps : BitVec 32) (poll : ℕ → Poll) (n : ℕ) : BitVec 32 :=
  ledValue (mainRun tps poll n).keys (mainRun tps poll n).blink

/-- The call of `report_inputs` made in iteration `n`; the start-up code
    (`n = 0`) always makes one (main.c:53). -/
def reportAt (tps : BitVec 32) (poll : ℕ → Poll) : ℕ → Option Report
  | 0 => some ⟨(mainInit (poll 0)).dipsw, (mainInit (poll 0)).keys⟩
  | n + 1 => (loopBody tps (mainRun tps poll n) (poll (n + 1))).2

/-! ## What one step does -/

section Step

variable (tps : BitVec 32) (st : MainState) (p : Poll)

/-- Both cached values are the current sample after the combined branch: when
    neither differs there is nothing to update. -/
theorem detectChange_fst : (detectChange st p).1 =
    { st with dipsw := readDipsw p.dipsw, keys := readKeysPressed p.button } := by
  unfold detectChange
  simp only
  split_ifs with h
  · rfl
  · obtain ⟨hd, hk⟩ := not_or.mp h
    rw [not_not.mp hd, not_not.mp hk]

/-- A line is printed iff the pair (switches, keys) changed, and it shows the
    new pair. -/
theorem detectChange_snd : (detectChange st p).2 =
    if (⟨st.dipsw, st.keys⟩ : Report) ≠ ⟨readDipsw p.dipsw, readKeysPressed p.button⟩ then
      some ⟨readDipsw p.dipsw, readKeysPressed p.button⟩ else none := by
  unfold detectChange
  simp only [ne_eq, Report.mk.injEq, not_and_or, eq_comm (a := st.dipsw), eq_comm (a := st.keys)]
  split_ifs <;> rfl

/-- Does iteration `p` toggle the blink bit when it starts in `st`? -/
def Toggles : Prop :=
  (halfPeriod tps (readDipsw p.dipsw)).zeroExtend 64 ≤ p.nticks - st.lastToggle

instance : Decidable (Toggles tps st p) := inferInstanceAs (Decidable (_ ≤ _))

variable {tps st p}

theorem loopBody_of_toggles (h : Toggles tps st p) : (loopBody tps st p).1 =
    ⟨readDipsw p.dipsw, readKeysPressed p.button, st.blink ^^^ 1#32, p.nticks⟩ := by
  simp only [loopBody, detectChange_fst, toggleBlink]
  exact if_pos h

theorem loopBody_of_not_toggles (h : ¬ Toggles tps st p) : (loopBody tps st p).1 =
    ⟨readDipsw p.dipsw, readKeysPressed p.button, st.blink, st.lastToggle⟩ := by
  simp only [loopBody, detectChange_fst, toggleBlink]
  exact if_neg h

variable (tps st p)

@[simp] theorem loopBody_dipsw : (loopBody tps st p).1.dipsw = readDipsw p.dipsw := by
  by_cases h : Toggles tps st p
  · rw [loopBody_of_toggles h]
  · rw [loopBody_of_not_toggles h]

@[simp] theorem loopBody_keys : (loopBody tps st p).1.keys = readKeysPressed p.button := by
  by_cases h : Toggles tps st p
  · rw [loopBody_of_toggles h]
  · rw [loopBody_of_not_toggles h]

theorem loopBody_blink : (loopBody tps st p).1.blink =
    if Toggles tps st p then st.blink ^^^ 1#32 else st.blink := by
  split_ifs with h
  · rw [loopBody_of_toggles h]
  · rw [loopBody_of_not_toggles h]

theorem loopBody_lastToggle : (loopBody tps st p).1.lastToggle =
    if Toggles tps st p then p.nticks else st.lastToggle := by
  split_ifs with h
  · rw [loopBody_of_toggles h]
  · rw [loopBody_of_not_toggles h]

end Step

/-! ## What a run does -/

section Run

variable (tps : BitVec 32) (poll : ℕ → Poll)

theorem mainRun_succ (n : ℕ) :
    mainRun tps poll (n + 1) = (loopBody tps (mainRun tps poll n) (poll (n + 1))).1 := rfl

/-- The state after iteration `n` depends on the polls made by then. -/
theorem mainRun_congr {poll poll' : ℕ → Poll} {n : ℕ} (h : ∀ k ≤ n, poll' k = poll k) :
    mainRun tps poll' n = mainRun tps poll n := by
  unfold mainRun
  rw [h 0 (Nat.zero_le n)]
  exact Clocked.run_congr fun k _ hk => h k hk

/-- No switch change is lost: the value behind the half period is always the
    current sample. -/
theorem mainRun_dipsw (n : ℕ) : (mainRun tps poll n).dipsw = readDipsw (poll n).dipsw := by
  cases n with
  | zero => rfl
  | succ n => rw [mainRun_succ, loopBody_dipsw]

theorem mainRun_keys (n : ℕ) : (mainRun tps poll n).keys = readKeysPressed (poll n).button := by
  cases n with
  | zero => rfl
  | succ n => rw [mainRun_succ, loopBody_keys]

variable {poll} {poll' : ℕ → Poll}

/-- The blink phase is a function of the switch words and the tick readings. -/
theorem mainRun_blink_congr (hd : ∀ k, (poll' k).dipsw = (poll k).dipsw)
    (ht : ∀ k, (poll' k).nticks = (poll k).nticks) (n : ℕ) :
    (mainRun tps poll' n).blink = (mainRun tps poll n).blink ∧
      (mainRun tps poll' n).lastToggle = (mainRun tps poll n).lastToggle := by
  induction n with
  | zero => exact ⟨rfl, ht 0⟩
  | succ n ih =>
    obtain ⟨hb, hl⟩ := ih
    have htog : Toggles tps (mainRun tps poll' n) (poll' (n + 1)) ↔
        Toggles tps (mainRun tps poll n) (poll (n + 1)) := by
      unfold Toggles; rw [hd, ht, hl]
    rw [mainRun_succ, mainRun_succ, loopBody_blink, loopBody_blink, loopBody_lastToggle,
      loopBody_lastToggle]
    simp only [htog, hb, hl, ht]
    exact ⟨trivial, trivial⟩

end Run

end NiosvCodesign.Firmware

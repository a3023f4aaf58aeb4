import NiosvCodesign.Lib.Clocked

/-!
# The edge detector with pulse extension

Model of `altera_edge_detector` (`ip/edge_detect/altera_edge_detector.v`) for
arbitrary parameters: an `IDLE`/`ARM`/`CAPT` state machine, reset by `rst_n`,
that reports an edge, and a shift register that stretches the report to
`PULSE_EXT` cycles. With `IGNORE_RST_WHILE_BUSY` the shift register is reset by
`rst_n | pulse_out` instead.

* `asyncReset_eq`: with `IGNORE_RST_WHILE_BUSY` the asynchronous reset of the
  shift register never does anything, so what `rst_n` does between two edges is
  irrelevant.
* `run_state_arm`, `run_state_capt`: the state machine is a function of the
  last two samples.
* `run_pulse_bit`: bit `j` of the shift register says whether the detector
  fired `j` edges ago.
* `run_pulseOut`: the output is active iff an edge fired within the last
  `PULSE_EXT` edges.
-/

namespace NiosvCodesign.EdgeDetector

/-! ## Model -/

/-- The parameters (altera_edge_detector.v:2-4). -/
structure Params where
  pulseExt : ℕ
  edgeType : ℕ
  ignoreRstWhileBusy : ℕ

/-- The values of `state` (altera_edge_detector.v:12). The two-bit register has
    a fourth value, handled by the `default` branch. -/
inductive Fsm
  | idle
  | arm
  | capt
  | unused
deriving DecidableEq

variable (P : Params)

/-- The width of `extend_pulse`, or of `pulse_reg` (altera_edge_detector.v:27,
    41). -/
def pulseWidth : ℕ := if 1 < P.pulseExt then P.pulseExt else 1

/-- The registers: `state`, and `extend_pulse` or `pulse_reg`. -/
structure Regs where
  state : Fsm
  pulse : BitVec (pulseWidth P)

/-- The power-up state. -/
def init : Regs P := ⟨.idle, 0⟩

/-- What the module sees from one rising edge of `clk` to the next: the levels
    `rst_n` passes through before the edge, and `rst_n` and `signal_in` as the
    edge samples them. -/
structure Input where
  levels : List Bool
  rstN : Bool
  signalIn : Bool

/-- `SIGNAL_ASSERT` (altera_edge_detector.v:13); `SIGNAL_DEASSERT` is the other
    level. -/
def signalAssert : Bool := P.edgeType != 0

/-- `pulse_out` (altera_edge_detector.v:38, 48). -/
def pulseOut (s : Regs P) : Bool := s.pulse != 0

/-- `busy_pulsing` (altera_edge_detector.v:21). -/
def busyPulsing (s : Regs P) : Bool := if P.ignoreRstWhileBusy ≠ 0 then pulseOut P s else false

/-- `reset_qual_n` (altera_edge_detector.v:22). -/
def resetQualN (rstN : Bool) (s : Regs P) : Bool := rstN || busyPulsing P s

/-- `next_state` (altera_edge_detector.v:60-84). -/
def nextState (state : Fsm) (signalIn : Bool) : Fsm :=
  match state with
  | .idle => if signalIn = !signalAssert P then .arm else .idle
  | .arm => if signalIn = signalAssert P then .capt else .arm
  | .capt => if signalIn = !signalAssert P then .arm else .idle
  | .unused => .idle

/-- `pulse_detect` (altera_edge_detector.v:60-84). -/
def pulseDetect (state : Fsm) : Bool := state == .capt

/-- A falling edge of `reset_qual_n` (altera_edge_detector.v:28-30, 42-44):
    `rstN` is the level `rst_n` has reached. -/
def asyncReset (rstN : Bool) (s : Regs P) : Regs P :=
  if resetQualN P rstN s = false then { s with pulse := 0 } else s

/-- A rising edge of `clk` (altera_edge_detector.v:28-37, 42-47, 52-57). The
    loop shifts every bit up by one. -/
def clock (s : Regs P) (u : Input) : Regs P where
  state := if u.rstN = false then .idle else nextState P s.state u.signalIn
  pulse := if resetQualN P u.rstN s = false then 0 else s.pulse.shiftConcat (pulseDetect s.state)

/-- From one rising edge of `clk` to the next. -/
def step (s : Regs P) (u : Input) : Regs P :=
  clock P (u.levels.foldl (fun t l => asyncReset P l t) s) u

/-- The registers after `n` edges. -/
def run (u : ℕ → Input) (n : ℕ) : Regs P := Clocked.run (step P) (init P) u n

/-- Edge `m` fires: two edges earlier `signal_in` was not asserted, one edge
    earlier it was, at neither of the two the module was in reset, and at `m`
    the shift register is not in reset. -/
def Fires (u : ℕ → Input) (m : ℕ) : Prop :=
  3 ≤ m ∧ (u (m - 2)).signalIn = !signalAssert P ∧ (u (m - 1)).signalIn = signalAssert P ∧
    (u (m - 2)).rstN = true ∧ (u (m - 1)).rstN = true ∧
    ((u m).rstN = true ∨ pulseOut P (run P u (m - 1)) = true)

/-! ## The asynchronous reset -/

variable {P}

theorem pulseOut_eq_true_iff (s : Regs P) :
    pulseOut P s = true ↔ ∃ j < pulseWidth P, s.pulse.getLsbD j = true := by
  have hzero : s.pulse = 0 ↔ ∀ j < pulseWidth P, s.pulse.getLsbD j = false := by
    constructor
    · intro h j _
      rw [h]
      exact BitVec.getLsbD_zero
    · intro h
      apply BitVec.eq_of_getLsbD_eq
      intro j hj
      rw [h j hj]
      exact BitVec.getLsbD_zero.symm
  rw [pulseOut, bne_iff_ne, ne_eq, hzero]
  push Not
  simp only [Bool.not_eq_false]

variable (hP : P.ignoreRstWhileBusy ≠ 0)
include hP

theorem resetQualN_eq (rstN : Bool) (s : Regs P) :
    resetQualN P rstN s = (rstN || pulseOut P s) := by
  rw [resetQualN, busyPulsing, if_pos hP]

/-- The shift register is only reset when it is empty. -/
theorem asyncReset_eq (rstN : Bool) (s : Regs P) : asyncReset P rstN s = s := by
  unfold asyncReset
  split_ifs with h
  · rw [resetQualN_eq hP, Bool.or_eq_false_iff] at h
    have hz : s.pulse = 0 := by simpa [pulseOut] using h.2
    rw [← hz]
  · rfl

theorem step_eq (s : Regs P) (u : Input) : step P s u = clock P s u := by
  have hfold : u.levels.foldl (fun t l => asyncReset P l t) s = s := by
    induction u.levels with
    | nil => rfl
    | cons l ls ih => rw [List.foldl_cons, asyncReset_eq hP, ih]
  rw [step, hfold]

theorem run_succ (u : ℕ → Input) (n : ℕ) :
    run P u (n + 1) = clock P (run P u n) (u (n + 1)) := by
  rw [run, Clocked.run_succ, step_eq hP]
  rfl

/-! ## The state machine sees the last two samples -/

omit hP in
theorem nextState_ne_unused (st : Fsm) (x : Bool) : nextState P st x ≠ .unused := by
  unfold nextState
  cases st with
  | unused => exact nofun
  | _ => simp only; split_ifs <;> exact nofun

omit hP in
theorem nextState_eq_arm_iff {st : Fsm} (h : st ≠ .unused) (x : Bool) :
    nextState P st x = .arm ↔ x = !signalAssert P := by
  unfold nextState
  cases st <;> cases x <;> cases signalAssert P <;> simp at h ⊢

omit hP in
theorem nextState_eq_capt_iff (st : Fsm) (x : Bool) :
    nextState P st x = .capt ↔ st = .arm ∧ x = signalAssert P := by
  unfold nextState
  cases st <;> cases x <;> cases signalAssert P <;> simp

variable (u : ℕ → Input)

theorem run_state_succ (n : ℕ) : (run P u (n + 1)).state =
    if (u (n + 1)).rstN = false then .idle
    else nextState P (run P u n).state (u (n + 1)).signalIn := by
  rw [run_succ hP]
  rfl

theorem run_state_ne_unused (n : ℕ) : (run P u n).state ≠ .unused := by
  cases n with
  | zero => exact nofun
  | succ n =>
    rw [run_state_succ hP]
    split_ifs
    · exact nofun
    · exact nextState_ne_unused _ _

/-- The detector is armed iff the last sample was not asserted. -/
theorem run_state_arm (n : ℕ) : (run P u n).state = .arm ↔
    1 ≤ n ∧ (u n).rstN = true ∧ (u n).signalIn = !signalAssert P := by
  cases n with
  | zero => simp [run, init]
  | succ n =>
    rw [run_state_succ hP]
    split_ifs with h
    · simp [h]
    · rw [nextState_eq_arm_iff (run_state_ne_unused hP u n)]
      simp [Bool.eq_true_of_not_eq_false h]

/-- It has captured an edge iff the last two samples form one. -/
theorem run_state_capt (n : ℕ) : (run P u n).state = .capt ↔
    2 ≤ n ∧ (u (n - 1)).signalIn = !signalAssert P ∧ (u n).signalIn = signalAssert P ∧
      (u (n - 1)).rstN = true ∧ (u n).rstN = true := by
  cases n with
  | zero => simp [run, init]
  | succ n =>
    rw [run_state_succ hP, Nat.add_sub_cancel]
    split_ifs with h
    · simp [h]
    · rw [nextState_eq_capt_iff, run_state_arm hP]
      simp only [Bool.eq_true_of_not_eq_false h]
      constructor
      · rintro ⟨⟨hn, hr, hs⟩, ha⟩
        exact ⟨by omega, hs, ha, hr, trivial⟩
      · rintro ⟨hn, hs, ha, hr, -⟩
        exact ⟨⟨by omega, hr, hs⟩, ha⟩

/-! ## The shift register remembers when the detector fired -/

theorem run_pulse_succ (n : ℕ) : (run P u (n + 1)).pulse =
    if ((u (n + 1)).rstN || pulseOut P (run P u n)) = false then 0
    else (run P u n).pulse.shiftConcat (pulseDetect (run P u n).state) := by
  rw [run_succ hP, ← resetQualN_eq hP]
  rfl

theorem run_pulse_bit_zero (n : ℕ) : (run P u (n + 1)).pulse.getLsbD 0 = true ↔
    0 < pulseWidth P ∧ Fires P u (n + 1) := by
  have hcapt : pulseDetect (run P u n).state = true ↔ (run P u n).state = .capt := by
    simp [pulseDetect]
  have hfires : Fires P u (n + 1) ↔ (run P u n).state = .capt ∧
      ((u (n + 1)).rstN = true ∨ pulseOut P (run P u n) = true) := by
    rw [run_state_capt hP, Fires, show n + 1 - 2 = n - 1 by omega, Nat.add_sub_cancel]
    simp only [and_assoc, Nat.succ_le_succ_iff]
  rw [hfires, run_pulse_succ hP, ← hcapt]
  split_ifs with h
  · rw [Bool.or_eq_false_iff] at h
    simp [h.1, h.2]
  · rw [Bool.not_eq_false, Bool.or_eq_true] at h
    simp [BitVec.getLsbD_shiftConcat, h]

/-- A bit that is set keeps the register out of reset, so it always moves on. -/
theorem run_pulse_bit_succ (n j : ℕ) : (run P u (n + 1)).pulse.getLsbD (j + 1) = true ↔
    j + 1 < pulseWidth P ∧ (run P u n).pulse.getLsbD j = true := by
  rw [run_pulse_succ hP]
  split_ifs with h
  · rw [Bool.or_eq_false_iff] at h
    have hz : (run P u n).pulse = 0 := by simpa [pulseOut] using h.2
    simp [hz]
  · simp [BitVec.getLsbD_shiftConcat]

/-- Bit `j` is set iff the detector fired `j` edges ago. -/
theorem run_pulse_bit (n j : ℕ) : (run P u n).pulse.getLsbD j = true ↔
    j < pulseWidth P ∧ Fires P u (n - j) := by
  induction n generalizing j with
  | zero => simp [run, init, Fires]
  | succ n ih =>
    cases j with
    | zero => exact run_pulse_bit_zero hP u n
    | succ j =>
      rw [run_pulse_bit_succ hP, ih, Nat.add_sub_add_right]
      constructor
      · rintro ⟨hj, -, hf⟩
        exact ⟨hj, hf⟩
      · rintro ⟨hj, hf⟩
        exact ⟨hj, by omega, hf⟩

/-- The output is active iff an edge fired within the last `pulseWidth` edges. -/
theorem run_pulseOut (n : ℕ) : pulseOut P (run P u n) = true ↔
    ∃ m, m ≤ n ∧ n < m + pulseWidth P ∧ Fires P u m := by
  rw [pulseOut_eq_true_iff]
  constructor
  · rintro ⟨j, hj, hbit⟩
    obtain ⟨-, hf⟩ := (run_pulse_bit hP u n j).mp hbit
    exact ⟨n - j, Nat.sub_le n j, by omega, hf⟩
  · rintro ⟨m, hm, hn, hf⟩
    refine ⟨n - m, by omega, (run_pulse_bit hP u n (n - m)).mpr ⟨by omega, ?_⟩⟩
    rwa [Nat.sub_sub_self hm]

end NiosvCodesign.EdgeDetector

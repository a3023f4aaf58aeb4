import NiosvCodesign.Hdl.Debounce
import NiosvCodesign.Hdl.EdgeDetector

/-!
# The top level

Model of `qmtech_c5soc_kfb_niosv_codesign`
(`hdl/qmtech_c5soc_kfb_niosv_codesign.sv`), one step for each rising edge of
`FPGA_CLK1_50`. The two processor systems are arbitrary machines
(`SocSystem`, `NiosvSystem`) that see nothing of the top level but their ports;
what else they are connected to (memories, UART, USB, …) is part of the machine.
Their outputs may depend combinationally on every input that is not itself
computed from these outputs. `HPS_RESET_INST` only exposes a register written
over JTAG, so `hps_reset_req` is an input.

* `run_fpgaResetN`: the power-on reset is released by the fourth edge and never
  asserted again.
* `run_keySync`: the synchronizer delays `KEY` by two edges.
* `run_counter`: the debounce counters are a run of the debouncer on the
  synchronized keys.
* `run_resetPulse`: each reset pulse generator is a run of the edge detector on
  its request bit and the reset output of the HPS.
-/

namespace NiosvCodesign.Top

/-! ## The two processor systems -/

/-- The inputs of `soc_system` that do not depend on its outputs (.sv:131-133,
    213, 215). -/
structure SocFreeIn where
  coldResetReqN : Bool
  warmResetReqN : Bool
  debugResetReqN : Bool
  buttonPio : BitVec 2
  dipswPio : BitVec 4

/-- All inputs of `soc_system` (.sv:127-134, 213-215). -/
structure SocIn extends SocFreeIn where
  inResetN : Bool
  stmHwEvents : BitVec 28

/-- The outputs of `soc_system` during one clock cycle. `h2fResetN` is the level
    of `hps_h2f_reset_reset_n` at the end of the cycle, `h2fResetLevels` are the
    levels it passes through before. -/
structure SocOut where
  h2fResetLevels : List Bool
  h2fResetN : Bool
  ledPio : Bool

/-- `soc_system`. -/
structure SocSystem where
  State : Type
  init : State
  out : State → SocFreeIn → SocOut
  next : State → SocIn → State

/-- An HPS that is out of reset and does nothing. -/
instance : Inhabited SocSystem := ⟨⟨Unit, (), fun _ _ => ⟨[], true, false⟩, fun _ _ => ()⟩⟩

/-- The inputs of `niosv_system` that do not depend on its outputs (.sv:242,
    246-247). -/
structure NiosvFreeIn where
  pllRst : Bool
  dipsw : BitVec 4
  button : BitVec 2

/-- All inputs of `niosv_system` (.sv:242-247). -/
structure NiosvIn extends NiosvFreeIn where
  rstN : Bool

/-- The outputs of `niosv_system` (.sv:244-245). -/
structure NiosvOut where
  locked : Bool
  led : Bool

/-- `niosv_system`, its PLL included. -/
structure NiosvSystem where
  State : Type
  init : State
  out : State → NiosvFreeIn → NiosvOut
  next : State → NiosvIn → State

/-- A Nios V system whose PLL is locked and whose LED is off. -/
instance : Inhabited NiosvSystem := ⟨⟨Unit, (), fun _ _ => ⟨true, false⟩, fun _ _ => ()⟩⟩

/-! ## Registers -/

/-- The parameters of `DEBOUNCE_INST` (.sv:269-274). -/
def debounceInst : Debounce.Params where
  width := 2
  polarity := .low
  timeout := 50000
  timeoutWidth := 16

/-- The parameters of `HPS_COLD_RESET_PULSE` (.sv:289-293). -/
def hpsColdResetPulse : EdgeDetector.Params where
  pulseExt := 6
  edgeType := 1
  ignoreRstWhileBusy := 1

/-- The parameters of `HPS_WARM_RESET_PULSE` (.sv:302-306). -/
def hpsWarmResetPulse : EdgeDetector.Params where
  pulseExt := 6
  edgeType := 1
  ignoreRstWhileBusy := 1

/-- The parameters of `HPS_DEBUG_RESET_PULSE` (.sv:315-319). -/
def hpsDebugResetPulse : EdgeDetector.Params where
  pulseExt := 6
  edgeType := 1
  ignoreRstWhileBusy := 1

/-- The registers of the top level and of its debouncer and edge detectors. -/
structure Regs where
  fpgaPorSr : BitVec 4
  keyMeta : BitVec 2
  keySync : BitVec 2
  dipswMeta : BitVec 4
  dipswSync : BitVec 4
  counter : Debounce.Counters debounceInst
  coldReset : EdgeDetector.Regs hpsColdResetPulse
  warmReset : EdgeDetector.Regs hpsWarmResetPulse
  debugReset : EdgeDetector.Regs hpsDebugResetPulse

/-- After configuration (.sv:92-103). `counter` has no initial value of its own;
    `fpga_reset_n` is low from the start and clears it. -/
def Regs.init : Regs where
  fpgaPorSr := 0b0000#4
  keyMeta := 0b11#2
  keySync := 0b11#2
  dipswMeta := 0b0000#4
  dipswSync := 0b0000#4
  counter := fun _ => 0
  coldReset := EdgeDetector.init hpsColdResetPulse
  warmReset := EdgeDetector.init hpsWarmResetPulse
  debugReset := EdgeDetector.init hpsDebugResetPulse

/-- What an edge samples from outside the FPGA. -/
structure Pins where
  key : BitVec 2
  dipsw : BitVec 4
  hpsResetReq : BitVec 3

/-! ## Wires driven by registers -/

namespace Regs

variable (r : Regs)

/-- `fpga_reset_n` (.sv:256). -/
def fpgaResetN : Bool := r.fpgaPorSr.getLsbD 3

/-- `fpga_debounced_buttons` (.sv:278). -/
def debouncedButtons : BitVec 2 := Debounce.dataOut debounceInst r.counter

/-- `hps_cold_reset` (.sv:297). -/
def hpsColdReset : Bool := EdgeDetector.pulseOut hpsColdResetPulse r.coldReset

/-- `hps_warm_reset` (.sv:310). -/
def hpsWarmReset : Bool := EdgeDetector.pulseOut hpsWarmResetPulse r.warmReset

/-- `hps_debug_reset` (.sv:323). -/
def hpsDebugReset : Bool := EdgeDetector.pulseOut hpsDebugResetPulse r.debugReset

/-- The ports .sv:131-133, 213 and 215. -/
def socFreeIn : SocFreeIn where
  coldResetReqN := !r.hpsColdReset
  warmResetReqN := !r.hpsWarmReset
  debugResetReqN := !r.hpsDebugReset
  buttonPio := r.debouncedButtons
  dipswPio := r.dipswSync

/-- The ports .sv:242, 246 and 247. -/
def niosvFreeIn : NiosvFreeIn where
  pllRst := !r.fpgaResetN
  dipsw := r.dipswSync
  button := r.debouncedButtons

/-- The registers at the next edge; `soc` is what the HPS drives before it. -/
def next (soc : SocOut) (p : Pins) : Regs where
  fpgaPorSr := r.fpgaPorSr.shiftConcat true
  keyMeta := p.key
  keySync := r.keyMeta
  dipswMeta := p.dipsw
  dipswSync := r.dipswMeta
  counter :=
    -- the new level of fpga_reset_n acts on the counters at once
    Debounce.asyncReset debounceInst ((r.fpgaPorSr.shiftConcat true).getLsbD 3)
      (Debounce.clock debounceInst r.counter ⟨r.fpgaResetN, r.keySync⟩)
  coldReset := EdgeDetector.step hpsColdResetPulse r.coldReset
    ⟨soc.h2fResetLevels, soc.h2fResetN, p.hpsResetReq.getLsbD 0⟩
  warmReset := EdgeDetector.step hpsWarmResetPulse r.warmReset
    ⟨soc.h2fResetLevels, soc.h2fResetN, p.hpsResetReq.getLsbD 1⟩
  debugReset := EdgeDetector.step hpsDebugResetPulse r.debugReset
    ⟨soc.h2fResetLevels, soc.h2fResetN, p.hpsResetReq.getLsbD 2⟩

end Regs

/-! ## The closed loop -/

variable (hps : SocSystem) (nv : NiosvSystem)

/-- The whole FPGA with both systems. -/
structure State where
  regs : Regs
  soc : hps.State
  niosv : nv.State

namespace State

/-- After configuration. -/
def init : State hps nv := ⟨Regs.init, hps.init, nv.init⟩

variable {hps nv} (s : State hps nv)

/-- The outputs of `HPS_SOPC_INST`: `hps_fpga_reset_n` and
    `fpga_led_internal`. -/
def socOut : SocOut := hps.out s.soc s.regs.socFreeIn

/-- The outputs of `NIOSV_INST`: `niosv_pll_locked` and `niosv_led`. -/
def niosvOut : NiosvOut := nv.out s.niosv s.regs.niosvFreeIn

/-- `stm_hw_events` (.sv:118). -/
def stmHwEvents : BitVec 28 :=
  0#21 ++ s.regs.dipswSync ++ BitVec.ofBool s.socOut.ledPio ++ s.regs.debouncedButtons

/-- The inputs of `HPS_SOPC_INST` (.sv:124-216). Its reset is its own output. -/
def socIn : SocIn where
  toSocFreeIn := s.regs.socFreeIn
  inResetN := s.socOut.h2fResetN
  stmHwEvents := s.stmHwEvents

/-- `niosv_reset_n` (.sv:238). -/
def niosvResetN : Bool := s.regs.fpgaResetN && s.niosvOut.locked

/-- The inputs of `NIOSV_INST` (.sv:240-248). -/
def niosvIn : NiosvIn where
  toNiosvFreeIn := s.regs.niosvFreeIn
  rstN := s.niosvResetN

/-- `LED` (.sv:116). -/
def led : Bool := s.niosvOut.led

/-- A rising edge of `fpga_clk_50`. -/
def step (s : State hps nv) (p : Pins) : State hps nv where
  regs := s.regs.next s.socOut p
  soc := hps.next s.soc s.socIn
  niosv := nv.next s.niosv s.niosvIn

end State

/-- The state after `n` edges. -/
def run (pins : ℕ → Pins) (n : ℕ) : State hps nv :=
  Clocked.run State.step (State.init hps nv) pins n

/-! ## What the registers hold -/

section Run

variable (pins : ℕ → Pins)

theorem run_zero : run hps nv pins 0 = State.init hps nv := rfl

theorem run_succ (n : ℕ) : run hps nv pins (n + 1) = (run hps nv pins n).step (pins (n + 1)) := rfl

theorem run_regs_succ (n : ℕ) : (run hps nv pins (n + 1)).regs =
    (run hps nv pins n).regs.next (run hps nv pins n).socOut (pins (n + 1)) := rfl

theorem run_fpgaPorSr (n j : ℕ) :
    (run hps nv pins n).regs.fpgaPorSr.getLsbD j = decide (j < 4 ∧ j < n) := by
  induction n generalizing j with
  | zero =>
    rw [decide_eq_false (by omega)]
    exact BitVec.getLsbD_zero
  | succ n ih =>
    rw [run_regs_succ]
    simp only [Regs.next, BitVec.getLsbD_shiftConcat]
    cases j with
    | zero => simp
    | succ j =>
      rw [if_neg (Nat.succ_ne_zero j), Nat.add_sub_cancel, ih, ← Bool.decide_and, decide_eq_decide]
      omega

/-- The power-on reset holds for four edges and is never asserted again. -/
theorem run_fpgaResetN (n : ℕ) : (run hps nv pins n).regs.fpgaResetN = decide (4 ≤ n) := by
  rw [Regs.fpgaResetN, run_fpgaPorSr, decide_eq_decide]
  omega

/-- The synchronizer delays `KEY` by two edges; it starts in the released
    state. -/
theorem run_keySync (n : ℕ) : (run hps nv pins n).regs.keySync =
    if 2 ≤ n then (pins (n - 1)).key else 0b11#2 := by
  cases n with
  | zero => rfl
  | succ n =>
    cases n with
    | zero => rfl
    | succ n => exact (if_pos (by omega)).symm

/-- What edge `m` of `DEBOUNCE_INST` samples. -/
def debounceIn (m : ℕ) : Debounce.Input debounceInst where
  resetN := decide (5 ≤ m)
  dataIn := if 3 ≤ m then (pins (m - 2)).key else 0b11#2

theorem debounceIn_succ (n : ℕ) : debounceIn pins (n + 1) =
    ⟨(run hps nv pins n).regs.fpgaResetN, (run hps nv pins n).regs.keySync⟩ := by
  have hreset : decide (5 ≤ n + 1) = decide (4 ≤ n) := decide_eq_decide.mpr (by omega)
  have hkey : (if 3 ≤ n + 1 then (pins (n + 1 - 2)).key else 0b11#2) =
      if 2 ≤ n then (pins (n - 1)).key else 0b11#2 := if_congr (by omega) rfl rfl
  rw [run_fpgaResetN, run_keySync, ← hreset, ← hkey]
  rfl

/-- The counters are a run of the debouncer on its own. -/
theorem run_counter (n : ℕ) : (run hps nv pins n).regs.counter =
    Clocked.run (Debounce.clock debounceInst) (fun _ => 0) (debounceIn pins) n := by
  induction n with
  | zero => rfl
  | succ n ih =>
    rw [Clocked.run_succ, ← ih, debounceIn_succ hps nv, run_regs_succ]
    apply Debounce.asyncReset_clock
    intro h
    have hrel := run_fpgaPorSr hps nv pins (n + 1) 3
    rw [run_regs_succ] at hrel
    rw [run_fpgaResetN, decide_eq_true_iff] at h
    exact hrel.trans (decide_eq_true (by omega))

end Run

/-! ## The reset pulse generators -/

/-- The three reset requests. -/
inductive ResetLine
  | cold
  | warm
  | debug
deriving DecidableEq

namespace ResetLine

/-- The instance that serves the request. -/
def inst : ResetLine → EdgeDetector.Params
  | cold => hpsColdResetPulse
  | warm => hpsWarmResetPulse
  | debug => hpsDebugResetPulse

/-- Its bit in `hps_reset_req` (.sv:109). -/
def bit : ResetLine → ℕ
  | cold => 0
  | warm => 1
  | debug => 2

/-- Its registers. -/
def regs (r : Regs) : (l : ResetLine) → EdgeDetector.Regs l.inst
  | cold => r.coldReset
  | warm => r.warmReset
  | debug => r.debugReset

end ResetLine

/-- What edge `m` of the instance that serves `l` samples. -/
def resetPulseIn (pins : ℕ → Pins) (l : ResetLine) (m : ℕ) : EdgeDetector.Input where
  levels := (run hps nv pins (m - 1)).socOut.h2fResetLevels
  rstN := (run hps nv pins (m - 1)).socOut.h2fResetN
  signalIn := (pins m).hpsResetReq.getLsbD l.bit

/-- In the closed loop each generator runs on its request bit and on the reset
    output of the HPS, whatever the HPS makes of the pulses. -/
theorem run_resetPulse (pins : ℕ → Pins) (l : ResetLine) (n : ℕ) :
    l.regs (run hps nv pins n).regs =
      EdgeDetector.run l.inst (resetPulseIn hps nv pins l) n := by
  induction n with
  | zero => cases l <;> rfl
  | succ n ih =>
    rw [EdgeDetector.run, Clocked.run_succ, ← EdgeDetector.run, ← ih, run_regs_succ]
    cases l <;> rfl

end NiosvCodesign.Top

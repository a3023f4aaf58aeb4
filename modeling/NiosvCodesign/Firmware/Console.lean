import NiosvCodesign.Firmware.Driver

/-!
# The firmware as a system

`alt_sys_init` and `main` step by step, on top of the driver: `printf` hands its
characters to `altera_avalon_jtag_uart_write`, and while a call of `write` is
under way the steps of the program are the steps of this call. Between any two
of them the interrupt routine of the UART, the timer interrupt and the JTAG host
may act.

`stdout` is opened without `O_NONBLOCK`, and the BSP is built without an RTOS,
so `write` waits by spinning.

* `step_port`: the firmware moves processor, driver and core only by events of the
  driver.
-/

namespace NiosvCodesign.Firmware

/-! ## Where the program is -/

/-- What `main` does after a `printf` (main.c:52, 53, 62). -/
inductive Resume
  | banner (st : MainState)
  | startReport (st : MainState)
  | loopReport (st : MainState)

/-- The control points of the program. -/
inductive Pc
  /-- `ALTERA_AVALON_JTAG_UART_INIT` (alt_sys_init.c:94). -/
  | sysInitUart
  /-- `INTEL_NIOSV_G_INIT` (alt_sys_init.c:95). -/
  | sysInitCpu
  /-- The start of `main` (main.c:47-52). -/
  | mainStart
  /-- `printf` with characters still to pass on. -/
  | print (text : Text) (next : Resume)
  /-- `printf` in its call of `write` with the characters `data`, and what it has
      still to pass on. -/
  | write (data rest : Text) (next : Resume)
  /-- The top of the loop of `main` (main.c:56-63). -/
  | loopTop (st : MainState)
  /-- main.c:65-74. -/
  | toggle (st : MainState)
  /-- The LED write (main.c:76-82). -/
  | ledWrite (st : MainState)
  /-- `usleep` (main.c:84). -/
  | sleep (st : MainState)

/-- Processor, driver and core, and the program. `led` is the last word written to
    `pio_led`. -/
structure Sys extends Driver.Port where
  led : BitVec 32
  pc : Pc

/-- The state when `alt_sys_init` is entered. -/
def Sys.init : Sys := ⟨Driver.Port.reset Hal.init, 0#32, .sysInitUart⟩

/-- Where the program goes when a `printf` has returned. -/
def Resume.pc : Resume → Pc
  | banner st => .print (reportInputs st.dipsw st.keys) (.startReport st)
  | startReport st => .loopTop st
  | loopReport st => .toggle st

/-- What `printf` passes on after a call of `write`: a short count makes it go on,
    an error makes it give up. -/
def printfRest (data rest : Text) : Except Driver.Errno ℕ → Text
  | .ok n => data.drop n ++ rest
  | .error _ => []

/-! ## Events -/

/-- What can happen next. A step of the program comes with the PIO words it
    would read and the number of characters `printf` would pass on in its next
    call of `write`. -/
inductive Event
  | cpu (dipsw button : BitVec 32) (chunk : ℕ)
  | uartIrq
  | timerIrq
  | hostRead
  | hostWrite (ch : Char)

variable (c : Core) (s : Sys)

/-- An event of the driver that takes the program to `pc`. -/
def Sys.drive (e : Driver.Event) (pc : Pc) : Option Sys :=
  (Driver.step c s.toPort e).map fun port => ⟨port, s.led, pc⟩

/-- A step of the program. -/
def cpuStep (dipsw button : BitVec 32) (chunk : ℕ) : Option Sys :=
  match s.pc with
  | .sysInitUart => s.drive c .init .sysInitCpu
  | .sysInitCpu => s.drive c (.clockInit altCpuTicksPerSec) .mainStart
  | .mainStart =>
    some { s with pc := .print banner (.banner (mainInit ⟨dipsw, button, s.hal.nticks⟩)) }
  | .print text next =>
    if text = [] then some { s with pc := next.pc }
    else if 1 ≤ chunk ∧ chunk ≤ text.length then
      s.drive c (.call (.write (text.take chunk) false))
        (.write (text.take chunk) (text.drop chunk) next)
    else none
  | .write data rest next =>
    match s.call with
    | .writeRet w => s.drive c .cpu (.print (printfRest data rest w.result) next)
    | _ => s.drive c .cpu s.pc
  | .loopTop st =>
    match detectChange st ⟨dipsw, button, s.hal.nticks⟩ with
    | (st, some report) => some { s with pc := .print report.line (.loopReport st) }
    | (st, none) => some { s with pc := .toggle st }
  | .toggle st => some { s with pc := .ledWrite (toggleBlink s.hal.tickRate st s.hal.nticks) }
  | .ledWrite st => some { s with led := ledValue st.keys st.blink, pc := .sleep st }
  | .sleep st => some { s with pc := .loopTop st }

/-- One event; `none` if it cannot happen now. The timer interrupt is
    `alt_niosv_timer_sc_isr` (mtimer.c:93-113). -/
def step : Event → Option Sys
  | .cpu dipsw button chunk => cpuStep c s dipsw button chunk
  | .uartIrq => s.drive c .uartIrq s.pc
  | .timerIrq => s.drive c .timerIrq s.pc
  | .hostRead => s.drive c .hostRead s.pc
  | .hostWrite ch => s.drive c (.hostWrite ch) s.pc

/-- What a step of the program does, by control point. `p` is what it would read of
    its inputs. -/
inductive CpuStep (port : Driver.Port) (led : BitVec 32) (p : Poll) : Pc → Sys → Prop
  | initUart {port' : Driver.Port} : Driver.step c port .init = some port' →
      CpuStep port led p .sysInitUart ⟨port', led, .sysInitCpu⟩
  | initCpu {port' : Driver.Port} :
      Driver.step c port (.clockInit altCpuTicksPerSec) = some port' →
      CpuStep port led p .sysInitCpu ⟨port', led, .mainStart⟩
  | start : CpuStep port led p .mainStart
      ⟨port, led, .print banner (.banner (mainInit p))⟩
  | printed {next : Resume} : CpuStep port led p (.print [] next) ⟨port, led, next.pc⟩
  | passOn {text : Text} {next : Resume} {n : ℕ} {port' : Driver.Port} :
      1 ≤ n → n ≤ text.length →
      Driver.step c port (.call (.write (text.take n) false)) = some port' →
      CpuStep port led p (.print text next) ⟨port', led, .write (text.take n) (text.drop n) next⟩
  | write {data rest : Text} {next : Resume} {port' : Driver.Port} :
      (∀ w, port.call ≠ .writeRet w) → Driver.cpuStep port = some port' →
      CpuStep port led p (.write data rest next) ⟨port', led, .write data rest next⟩
  | ret {data rest : Text} {next : Resume} {w : Driver.WriteCall} {port' : Driver.Port} :
      port.call = .writeRet w → Driver.cpuStep port = some port' →
      CpuStep port led p (.write data rest next)
        ⟨port', led, .print (printfRest data rest w.result) next⟩
  | changed {st st' : MainState} {r : Report} : detectChange st p = (st', some r) →
      CpuStep port led p (.loopTop st) ⟨port, led, .print r.line (.loopReport st')⟩
  | unchanged {st st' : MainState} : detectChange st p = (st', none) →
      CpuStep port led p (.loopTop st) ⟨port, led, .toggle st'⟩
  | toggle {st : MainState} : CpuStep port led p (.toggle st)
      ⟨port, led, .ledWrite (toggleBlink port.hal.tickRate st port.hal.nticks)⟩
  | writeLed {st : MainState} : CpuStep port led p (.ledWrite st)
      ⟨port, ledValue st.keys st.blink, .sleep st⟩
  | wake {st : MainState} : CpuStep port led p (.sleep st) ⟨port, led, .loopTop st⟩

variable {c s} {t : Sys}

theorem drive_eq_some_iff {e : Driver.Event} {pc : Pc} : s.drive c e pc = some t ↔
    ∃ port, Driver.step c s.toPort e = some port ∧ ⟨port, s.led, pc⟩ = t :=
  Option.map_eq_some_iff

/-- `cpuStep` does nothing else. -/
theorem CpuStep.of_cpuStep {dipsw button : BitVec 32} {chunk : ℕ}
    (h : cpuStep c s dipsw button chunk = some t) :
    CpuStep c s.toPort s.led ⟨dipsw, button, s.hal.nticks⟩ s.pc t := by
  obtain ⟨port, led, pc⟩ := s
  cases pc with
  | sysInitUart =>
    obtain ⟨port', hport, rfl⟩ := drive_eq_some_iff.mp h
    exact .initUart hport
  | sysInitCpu =>
    obtain ⟨port', hport, rfl⟩ := drive_eq_some_iff.mp h
    exact .initCpu hport
  | mainStart => exact Option.some.inj h ▸ .start
  | print text next =>
    simp only [cpuStep] at h
    split_ifs at h with htext hchunk
    · subst htext
      exact Option.some.inj h ▸ .printed
    · obtain ⟨port', hport, rfl⟩ := drive_eq_some_iff.mp h
      exact .passOn hchunk.1 hchunk.2 hport
  | write data rest next =>
    simp only [cpuStep] at h
    split at h
    next w hcall =>
      obtain ⟨port', hport, rfl⟩ := drive_eq_some_iff.mp h
      exact .ret hcall hport
    next hret =>
      obtain ⟨port', hport, rfl⟩ := drive_eq_some_iff.mp h
      exact .write hret hport
  | loopTop st =>
    simp only [cpuStep] at h
    split at h
    next hchange => exact Option.some.inj h ▸ .changed hchange
    next hchange => exact Option.some.inj h ▸ .unchanged hchange
  | toggle st => exact Option.some.inj h ▸ .toggle
  | ledWrite st => exact Option.some.inj h ▸ .writeLed
  | sleep st => exact Option.some.inj h ▸ .wake

/-- Every event is one of the driver or leaves processor, driver and core alone.
    Only `alt_sys_init` starts the clock. -/
theorem step_port {e : Event} (h : step c s e = some t) : t.toPort = s.toPort ∨
    ∃ f, Driver.step c s.toPort f = some t.toPort ∧
      ∀ rate, f = .clockInit rate → s.pc = .sysInitCpu := by
  have hdrive : ∀ {f : Driver.Event} {pc : Pc}, (∀ rate, f ≠ .clockInit rate) →
      s.drive c f pc = some t → ∃ f, Driver.step c s.toPort f = some t.toPort ∧
        ∀ rate, f = .clockInit rate → s.pc = .sysInitCpu := by
    intro f pc hclock hdrive
    obtain ⟨port, hport, rfl⟩ := drive_eq_some_iff.mp hdrive
    exact ⟨f, hport, fun rate hrate => absurd hrate (hclock rate)⟩
  cases e with
  | cpu dipsw button chunk =>
    have hstep := CpuStep.of_cpuStep h
    obtain ⟨port, led, pc⟩ := s
    cases hstep with
    | initUart hport => exact Or.inr ⟨_, hport, fun _ he => Driver.Event.noConfusion he⟩
    | initCpu hport => exact Or.inr ⟨_, hport, fun _ _ => rfl⟩
    | passOn _ _ hport => exact Or.inr ⟨_, hport, fun _ he => Driver.Event.noConfusion he⟩
    | write _ hport => exact Or.inr ⟨.cpu, hport, fun _ he => Driver.Event.noConfusion he⟩
    | ret _ hport => exact Or.inr ⟨.cpu, hport, fun _ he => Driver.Event.noConfusion he⟩
    | _ => exact Or.inl rfl
  | uartIrq => exact Or.inr (hdrive (fun _ he => Driver.Event.noConfusion he) h)
  | timerIrq => exact Or.inr (hdrive (fun _ he => Driver.Event.noConfusion he) h)
  | hostRead => exact Or.inr (hdrive (fun _ he => Driver.Event.noConfusion he) h)
  | hostWrite ch => exact Or.inr (hdrive (fun _ he => Driver.Event.noConfusion he) h)

/-- Interrupts and the host leave the program and its call where they are. -/
theorem step_outside {e : Event} (he : ∀ dipsw button chunk, e ≠ .cpu dipsw button chunk)
    (h : step c s e = some t) : t.pc = s.pc ∧ t.led = s.led ∧ t.call = s.call := by
  cases e with
  | cpu dipsw button chunk => exact absurd rfl (he dipsw button chunk)
  | uartIrq =>
    obtain ⟨port, hport, rfl⟩ := drive_eq_some_iff.mp h
    simp only [Driver.step] at hport
    split_ifs at hport
    obtain rfl := Option.some.inj hport
    exact ⟨rfl, rfl, rfl⟩
  | timerIrq =>
    obtain ⟨port, hport, rfl⟩ := drive_eq_some_iff.mp h
    simp only [Driver.step] at hport
    split_ifs at hport
    obtain rfl := Option.some.inj hport
    exact ⟨rfl, rfl, rfl⟩
  | hostRead =>
    obtain ⟨port, hport, rfl⟩ := drive_eq_some_iff.mp h
    obtain rfl := Option.some.inj hport
    exact ⟨rfl, rfl, rfl⟩
  | hostWrite ch =>
    obtain ⟨port, hport, rfl⟩ := drive_eq_some_iff.mp h
    simp only [Driver.step] at hport
    split_ifs at hport
    obtain rfl := Option.some.inj hport
    exact ⟨rfl, rfl, rfl⟩

/-! ## Waiting -/

/-- The state after `n` alarm callbacks without activity of the host. -/
def Sys.afterCallbacks (c : Core) (s : Sys) (n : ℕ) : Sys :=
  let (uart, device) := (fun a => (uartTimeout c s.hal.tickRate a).2)^[n]
    (s.uart, { s.device with active := false })
  { s with uart := uart, device := device }

/-- The program gets to its next LED write by its own steps. -/
def Sys.GetsToLed (c : Core) (s : Sys) : Prop :=
  ∃ es t, (∀ e ∈ es, ∃ dipsw button chunk, e = Event.cpu dipsw button chunk) ∧
    Transitions.exec (step c) s es = some t ∧ ∃ st, t.pc = .ledWrite st

/-- The wait in `s`, if there is one, is bounded by the host detection: the
    alarm is registered, the timeout is the default, and ten callbacks without
    host activity end the wait and let the program go on to its LED write. -/
def Sys.WaitBounded (c : Core) (s : Sys) : Prop :=
  s.Spinning → s.hal.alarms ≠ [] ∧ s.uart.timeout = defaultTimeout ∧
    ¬ (s.afterCallbacks c 10).Spinning ∧ (s.afterCallbacks c 10).GetsToLed c

/-- The next step finds characters left over and the transmit ring full, and
    goes to wait. -/
def WaitsOnFullRing (s : Sys) (e : Event) : Prop :=
  (∃ dipsw button chunk, e = .cpu dipsw button chunk) ∧
    ∃ w, s.call = .test w ∧ w.data ≠ [] ∧ s.uart.RingFull

end NiosvCodesign.Firmware

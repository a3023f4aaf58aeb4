import NiosvCodesign.Lib.RingBuffer
import NiosvCodesign.Lib.Transitions
import NiosvCodesign.Firmware.JtagUart
import NiosvCodesign.Firmware.Main

/-!
# The calls of the JTAG UART driver

`altera_avalon_jtag_uart_read`, `_write`, `_ioctl` and `_close` as an application
without an RTOS may call them, one after the other, in any order and with any
arguments. Every load and store of a variable shared with the interrupt routine
is a step of its own, so the interrupts and the host may act between any two.
Only where the source disables interrupts is a group of accesses one step.

* `CallStep.of_cpuStep`: what a step of a call does, by control point.
-/

namespace NiosvCodesign.Firmware.Driver

open UartState

/-! ## Requests -/

/-- The error numbers that the driver returns, negated. -/
inductive Errno
  | ewouldblock
  | eio
  | enotty

/-- The requests of `altera_avalon_jtag_uart_ioctl`, with what `arg` points to. -/
inductive IoctlRequest
  | tiocstimeout (timeout : ℤ)
  | tiocgconnected
  | other

/-- A call by the application. `space` and `data.length` are what is positive of
    the C arguments `space` and `count`; `nonblock` is the flag `O_NONBLOCK`. -/
inductive Request
  | read (space : ℕ) (nonblock : Bool)
  | write (data : Text) (nonblock : Bool)
  | ioctl (req : IoctlRequest)
  | close (nonblock : Bool)

/-- `altera_avalon_jtag_uart_ioctl` (altera_avalon_jtag_uart_ioctl.c:53-84): the
    new state and, on success, what is stored through `arg`. -/
def uartIoctl (sp : UartState) : IoctlRequest → UartState × Except Errno (Option ℕ)
  | .tiocstimeout timeout =>
    if sp.timeout ≠ intMax then
      ({ sp with timeout :=
          if 2 ≤ timeout ∧ timeout < intMax then timeout.toNat else intMax - 1 }, .ok none)
    else (sp, .error .enotty)
  | .tiocgconnected =>
    if sp.timeout ≠ intMax then
      (sp, .ok (some (if sp.hostInactive < sp.timeout then 1 else 0)))
    else (sp, .error .enotty)
  | .other => (sp, .error .enotty)

/-! ## Calls under way -/

/-- The local variables of `read`: what is between `buffer` and `ptr`, the space
    left, and the last value loaded into `in`. -/
structure ReadCall where
  got : Text
  space : ℕ
  nonblock : Bool
  inn : ℕ

/-- The local variables of `write`: what is between `start` and `ptr`, what is
    left, and the last value loaded into `out`. -/
structure WriteCall where
  sent : Text
  data : Text
  nonblock : Bool
  out : ℕ

/-- What `read` returns (altera_avalon_jtag_uart_read.c:193-198). -/
def ReadCall.result (r : ReadCall) : Except Errno ℕ :=
  if r.got ≠ [] then .ok r.got.length
  else if r.nonblock then .error .ewouldblock
  else .error .eio

/-- What `write` returns (altera_avalon_jtag_uart_write.c:195-210). -/
def WriteCall.result (w : WriteCall) : Except Errno ℕ :=
  if w.sent ≠ [] then .ok w.sent.length
  else if w.nonblock then .error .ewouldblock
  else .error .eio

/-- Where the application is. -/
inductive Call
  /-- Before `altera_avalon_jtag_uart_init`. -/
  | off
  /-- In no call of the driver. -/
  | idle
  /-- `while (space > 0)` (altera_avalon_jtag_uart_read.c:111). -/
  | readLoop (r : ReadCall)
  /-- The loads of `rx_in` and `rx_out` (altera_avalon_jtag_uart_read.c:118-119). -/
  | readLoad (r : ReadCall)
  /-- `n` and the `memcpy` (altera_avalon_jtag_uart_read.c:121-132). -/
  | readCopy (r : ReadCall) (out : ℕ)
  /-- The update of `rx_out` and the inner loop test
      (altera_avalon_jtag_uart_read.c:136-138), with the characters just copied. -/
  | readAdvance (r : ReadCall) (out : ℕ) (chars : Text)
  /-- altera_avalon_jtag_uart_read.c:141-146. -/
  | readCheck (r : ReadCall)
  /-- The wait (altera_avalon_jtag_uart_read.c:169). -/
  | readWait (r : ReadCall)
  /-- `if (in == sp->rx_in) break;` (altera_avalon_jtag_uart_read.c:173). -/
  | readAgain (r : ReadCall)
  /-- altera_avalon_jtag_uart_read.c:184-191. -/
  | readEnable (r : ReadCall)
  | readRet (r : ReadCall)
  /-- The loop test and the loads of `tx_in` and `tx_out`
      (altera_avalon_jtag_uart_write.c:99-103). -/
  | copy (w : WriteCall)
  /-- `n` and the `memcpy` (altera_avalon_jtag_uart_write.c:105-118). -/
  | store (w : WriteCall) (inn : ℕ)
  /-- The update of `tx_in` (altera_avalon_jtag_uart_write.c:119-122), with the
      characters just copied. -/
  | advance (w : WriteCall) (inn : ℕ) (chars : Text)
  /-- altera_avalon_jtag_uart_write.c:132-135. -/
  | kick (w : WriteCall)
  /-- `if (count > 0)` and the test of `O_NONBLOCK`
      (altera_avalon_jtag_uart_write.c:142-145). -/
  | test (w : WriteCall)
  /-- The wait (altera_avalon_jtag_uart_write.c:179-180). -/
  | wait (w : WriteCall)
  /-- `if (sp->host_inactive) break;` (altera_avalon_jtag_uart_write.c:183). -/
  | after (w : WriteCall)
  | writeRet (w : WriteCall)
  /-- The loop of `close` (altera_avalon_jtag_uart_init.c:254-258). -/
  | closing (nonblock : Bool)
  | closeRet (result : Except Errno ℕ)

/-- Processor, driver and core. -/
structure Port where
  hal : Hal
  uart : UartState
  device : Device
  call : Call

/-- Before the initialisation of the driver, whatever the HAL has done so far. -/
def Port.reset (hal : Hal) : Port := ⟨hal, UartState.init, Device.init, .off⟩

/-- How many characters `read` finds in one block
    (altera_avalon_jtag_uart_read.c:121-124). -/
def rxBlock (inn out : ℕ) : ℕ := if out ≤ inn then inn - out else bufLen - out

/-- Entering a call. -/
def Request.entry : Request → Option Call
  | .read space nonblock => some (.readLoop ⟨[], space, nonblock, 0⟩)
  | .write data nonblock => some (.copy ⟨[], data, nonblock, 0⟩)
  | .ioctl _ => none
  | .close nonblock => some (.closing nonblock)

/-- A step of the call under way. -/
def cpuStep (s : Port) : Option Port :=
  match s.call with
  | .off | .idle => none
  | .readLoop r =>
    -- with `space` 0 nothing has been read
    some { s with call := if 0 < r.space then .readLoad r else .readRet r }
  | .readLoad r => some { s with call := .readCopy { r with inn := s.uart.rxIn } s.uart.rxOut }
  | .readCopy r out =>
    let n := rxBlock r.inn out
    if n = 0 then some { s with call := .readCheck r }
    else
      let n := min n r.space
      let chars := RingBuffer.block s.uart.rxBuf out n
      some { s with call := .readAdvance { r with space := r.space - n } out chars }
  | .readAdvance r out chars =>
    let r := { r with got := r.got ++ chars }
    some { s with
      uart := { s.uart with rxOut := (out + chars.length) % bufLen }
      call := if 0 < r.space then .readLoad r else .readCheck r }
  | .readCheck r =>
    some { s with call :=
      if r.got ≠ [] then .readEnable r else if r.nonblock then .readRet r else .readWait r }
  | .readWait r =>
    if r.inn = s.uart.rxIn ∧ s.uart.hostInactive < s.uart.timeout then some s
    else some { s with call := .readAgain r }
  | .readAgain r =>
    some { s with call := if r.inn = s.uart.rxIn then .readRet r else .readLoop r }
  | .readEnable r =>
    let uart := { s.uart with irqEnable := ⟨true, s.uart.irqEnable.we⟩ }
    some { s with
      uart := uart, device := { s.device with irqEnable := uart.irqEnable }, call := .readRet r }
  | .readRet _ => some { s with call := .idle }
  | .copy w =>
    if w.data = [] then some { s with call := .kick w }
    else some { s with call := .store { w with out := s.uart.txOut } s.uart.txIn }
  | .store w inn =>
    let n := txSpace inn w.out
    if n = 0 then some { s with call := .kick w }
    else
      let chars := w.data.take n
      some { s with
        uart := { s.uart with txBuf := copyIn s.uart.txBuf inn chars }
        call := .advance { w with data := w.data.drop n } inn chars }
  | .advance w inn chars =>
    some { s with
      uart := { s.uart with txIn := (inn + chars.length) % bufLen }
      call := .copy { w with sent := w.sent ++ chars } }
  | .kick w =>
    let (uart, device) := kick s.uart s.device
    some { s with uart := uart, device := device, call := .test w }
  | .test w =>
    some { s with call := if w.data = [] ∨ w.nonblock then .writeRet w else .wait w }
  | .wait w =>
    if w.out = s.uart.txOut ∧ s.uart.hostInactive < s.uart.timeout then some s
    else some { s with call := .after w }
  | .after w => some { s with call := if s.uart.hostInactive ≠ 0 then .writeRet w else .copy w }
  | .writeRet _ => some { s with call := .idle }
  | .closing nonblock =>
    if s.uart.txOut ≠ s.uart.txIn ∧ s.uart.hostInactive < s.uart.timeout then
      some { s with call := if nonblock then .closeRet (.error .ewouldblock) else .closing nonblock }
    else some { s with call := .closeRet (.ok 0) }
  | .closeRet _ => some { s with call := .idle }

/-- `write` spins: the condition of its wait holds. -/
def Port.Spinning (s : Port) : Prop :=
  ∃ w, s.call = .wait w ∧ w.out = s.uart.txOut ∧ s.uart.hostInactive < s.uart.timeout

/-! ## Events -/

/-- What can happen next. -/
inductive Event
  /-- `altera_avalon_jtag_uart_init`. -/
  | init
  /-- `INTEL_NIOSV_G_INIT`. -/
  | clockInit (ticksPerSec : BitVec 32)
  | call (r : Request)
  | cpu
  | uartIrq
  | timerIrq
  | hostRead
  | hostWrite (ch : Char)

/-- Does the core request an interrupt? -/
def Port.irqPending (c : Core) (s : Port) : Bool :=
  (s.device.control c).ri || (s.device.control c).wi

/-- One event; `none` if it cannot happen now. -/
def step (c : Core) (s : Port) : Event → Option Port
  | .init =>
    match s.call with
    | .off =>
      let (hal, uart, device) := uartInit s.hal s.uart s.device
      some ⟨hal, uart, device, .idle⟩
    | _ => none
  | .clockInit ticksPerSec =>
    some { s with hal := { altSysclkInit s.hal ticksPerSec with timerEnabled := true } }
  | .call r =>
    match s.call with
    | .idle =>
      match r with
      | .ioctl req => some { s with uart := (uartIoctl s.uart req).1 }
      | r => r.entry.map fun call => { s with call := call }
    | _ => none
  | .cpu => cpuStep s
  | .uartIrq =>
    if s.irqPending c then
      let (uart, device) := irqPass c s.uart s.device
      some { s with uart := uart, device := device }
    else none
  | .timerIrq =>
    if s.hal.timerEnabled then
      let (hal, uart, device) := altTick (uartTimeout c s.hal.tickRate) s.hal (s.uart, s.device)
      some { s with hal := hal, uart := uart, device := device }
    else none
  | .hostRead =>
    some { s with device := { s.device with txFifo := s.device.txFifo.tail, active := true } }
  | .hostWrite ch =>
    if s.device.rxFifo.length < c.readDepth then
      some { s with
        device := { s.device with rxFifo := s.device.rxFifo ++ [ch], active := true } }
    else none

/-! ## Steps of a call -/

/-- What a step of a call does, by control point. -/
inductive CallStep (hal : Hal) (uart : UartState) (device : Device) : Call → Port → Prop
  | readMore {r : ReadCall} : 0 < r.space →
      CallStep hal uart device (.readLoop r) ⟨hal, uart, device, .readLoad r⟩
  | readNone {r : ReadCall} : r.space = 0 →
      CallStep hal uart device (.readLoop r) ⟨hal, uart, device, .readRet r⟩
  | readLoad {r : ReadCall} : CallStep hal uart device (.readLoad r)
      ⟨hal, uart, device, .readCopy { r with inn := uart.rxIn } uart.rxOut⟩
  | readEmpty {r : ReadCall} {out : ℕ} : rxBlock r.inn out = 0 →
      CallStep hal uart device (.readCopy r out) ⟨hal, uart, device, .readCheck r⟩
  | readCopy {r : ReadCall} {out n : ℕ} : rxBlock r.inn out ≠ 0 → n = min (rxBlock r.inn out) r.space →
      CallStep hal uart device (.readCopy r out) ⟨hal, uart, device,
        .readAdvance { r with space := r.space - n } out (RingBuffer.block uart.rxBuf out n)⟩
  | readAdvance {r r' : ReadCall} {out : ℕ} {chars : Text} :
      r' = { r with got := r.got ++ chars } →
      CallStep hal uart device (.readAdvance r out chars)
        ⟨hal, { uart with rxOut := (out + chars.length) % bufLen }, device,
          if 0 < r'.space then .readLoad r' else .readCheck r'⟩
  | readSome {r : ReadCall} : r.got ≠ [] →
      CallStep hal uart device (.readCheck r) ⟨hal, uart, device, .readEnable r⟩
  | readNonblock {r : ReadCall} : r.got = [] → r.nonblock = true →
      CallStep hal uart device (.readCheck r) ⟨hal, uart, device, .readRet r⟩
  | readBlock {r : ReadCall} : r.got = [] → r.nonblock = false →
      CallStep hal uart device (.readCheck r) ⟨hal, uart, device, .readWait r⟩
  | readSpin {r : ReadCall} : r.inn = uart.rxIn → uart.hostInactive < uart.timeout →
      CallStep hal uart device (.readWait r) ⟨hal, uart, device, .readWait r⟩
  | readGoOn {r : ReadCall} : ¬ (r.inn = uart.rxIn ∧ uart.hostInactive < uart.timeout) →
      CallStep hal uart device (.readWait r) ⟨hal, uart, device, .readAgain r⟩
  | readGiveUp {r : ReadCall} : r.inn = uart.rxIn →
      CallStep hal uart device (.readAgain r) ⟨hal, uart, device, .readRet r⟩
  | readAgain {r : ReadCall} : r.inn ≠ uart.rxIn →
      CallStep hal uart device (.readAgain r) ⟨hal, uart, device, .readLoop r⟩
  | readEnable {r : ReadCall} : CallStep hal uart device (.readEnable r)
      ⟨hal, { uart with irqEnable := ⟨true, uart.irqEnable.we⟩ },
        { device with irqEnable := ⟨true, uart.irqEnable.we⟩ }, .readRet r⟩
  | readRet {r : ReadCall} : CallStep hal uart device (.readRet r) ⟨hal, uart, device, .idle⟩
  | copied {w : WriteCall} : w.data = [] →
      CallStep hal uart device (.copy w) ⟨hal, uart, device, .kick w⟩
  | load {w : WriteCall} : w.data ≠ [] →
      CallStep hal uart device (.copy w)
        ⟨hal, uart, device, .store { w with out := uart.txOut } uart.txIn⟩
  | noSpace {w : WriteCall} {inn : ℕ} : txSpace inn w.out = 0 →
      CallStep hal uart device (.store w inn) ⟨hal, uart, device, .kick w⟩
  | store {w : WriteCall} {inn n : ℕ} : n = txSpace inn w.out → n ≠ 0 →
      CallStep hal uart device (.store w inn)
        ⟨hal, { uart with txBuf := copyIn uart.txBuf inn (w.data.take n) }, device,
          .advance { w with data := w.data.drop n } inn (w.data.take n)⟩
  | advance {w : WriteCall} {inn : ℕ} {chars : Text} :
      CallStep hal uart device (.advance w inn chars)
        ⟨hal, { uart with txIn := (inn + chars.length) % bufLen }, device,
          .copy { w with sent := w.sent ++ chars }⟩
  | kick {w : WriteCall} : CallStep hal uart device (.kick w)
      ⟨hal, (kick uart device).1, (kick uart device).2, .test w⟩
  | done {w : WriteCall} : w.data = [] ∨ w.nonblock = true →
      CallStep hal uart device (.test w) ⟨hal, uart, device, .writeRet w⟩
  | block {w : WriteCall} : w.data ≠ [] → w.nonblock = false →
      CallStep hal uart device (.test w) ⟨hal, uart, device, .wait w⟩
  | spin {w : WriteCall} : w.out = uart.txOut → uart.hostInactive < uart.timeout →
      CallStep hal uart device (.wait w) ⟨hal, uart, device, .wait w⟩
  | goOn {w : WriteCall} : ¬ (w.out = uart.txOut ∧ uart.hostInactive < uart.timeout) →
      CallStep hal uart device (.wait w) ⟨hal, uart, device, .after w⟩
  | giveUp {w : WriteCall} : uart.hostInactive ≠ 0 →
      CallStep hal uart device (.after w) ⟨hal, uart, device, .writeRet w⟩
  | again {w : WriteCall} : uart.hostInactive = 0 →
      CallStep hal uart device (.after w) ⟨hal, uart, device, .copy w⟩
  | writeRet {w : WriteCall} : CallStep hal uart device (.writeRet w) ⟨hal, uart, device, .idle⟩
  | closeSpin {nonblock : Bool} : uart.txOut ≠ uart.txIn → uart.hostInactive < uart.timeout →
      nonblock = false →
      CallStep hal uart device (.closing nonblock) ⟨hal, uart, device, .closing nonblock⟩
  | closeNonblock {nonblock : Bool} : uart.txOut ≠ uart.txIn → nonblock = true →
      CallStep hal uart device (.closing nonblock)
        ⟨hal, uart, device, .closeRet (.error .ewouldblock)⟩
  | closed {nonblock : Bool} : ¬ (uart.txOut ≠ uart.txIn ∧ uart.hostInactive < uart.timeout) →
      CallStep hal uart device (.closing nonblock) ⟨hal, uart, device, .closeRet (.ok 0)⟩
  | closeRet {result : Except Errno ℕ} : CallStep hal uart device (.closeRet result)
      ⟨hal, uart, device, .idle⟩

/-- `cpuStep` does nothing else. -/
theorem CallStep.of_cpuStep {s t : Port} (h : cpuStep s = some t) :
    CallStep s.hal s.uart s.device s.call t := by
  obtain ⟨hal, uart, device, call⟩ := s
  cases call with
  | off => exact absurd h (Option.some_ne_none t).symm
  | idle => exact absurd h (Option.some_ne_none t).symm
  | readLoop r =>
    obtain rfl := Option.some.inj h
    simp only
    split_ifs with hspace
    · exact .readMore hspace
    · exact .readNone (Nat.eq_zero_of_not_pos hspace)
  | readLoad r => exact Option.some.inj h ▸ .readLoad
  | readCopy r out =>
    simp only [cpuStep] at h
    split_ifs at h with hblock
    · exact Option.some.inj h ▸ .readEmpty hblock
    · exact Option.some.inj h ▸ .readCopy hblock rfl
  | readAdvance r out chars => exact Option.some.inj h ▸ .readAdvance rfl
  | readCheck r =>
    obtain rfl := Option.some.inj h
    simp only
    split_ifs with hgot hnonblock
    · exact .readSome hgot
    · exact .readNonblock (not_not.mp hgot) hnonblock
    · exact .readBlock (not_not.mp hgot) (Bool.eq_false_iff.mpr hnonblock)
  | readWait r =>
    simp only [cpuStep] at h
    split_ifs at h with hspin
    · exact Option.some.inj h ▸ .readSpin hspin.1 hspin.2
    · exact Option.some.inj h ▸ .readGoOn hspin
  | readAgain r =>
    obtain rfl := Option.some.inj h
    simp only
    split_ifs with hin
    · exact .readGiveUp hin
    · exact .readAgain hin
  | readEnable r => exact Option.some.inj h ▸ .readEnable
  | readRet r => exact Option.some.inj h ▸ .readRet
  | copy w =>
    simp only [cpuStep] at h
    split_ifs at h with hdata
    · exact Option.some.inj h ▸ .copied hdata
    · exact Option.some.inj h ▸ .load hdata
  | store w inn =>
    simp only [cpuStep] at h
    split_ifs at h with hspace
    · exact Option.some.inj h ▸ .noSpace hspace
    · exact Option.some.inj h ▸ .store rfl hspace
  | advance w inn chars => exact Option.some.inj h ▸ .advance
  | kick w => exact Option.some.inj h ▸ .kick
  | test w =>
    obtain rfl := Option.some.inj h
    simp only
    split_ifs with hstop
    · exact .done hstop
    · exact .block (fun hd => hstop (Or.inl hd)) (Bool.eq_false_iff.mpr fun hn => hstop (Or.inr hn))
  | wait w =>
    simp only [cpuStep] at h
    split_ifs at h with hspin
    · exact Option.some.inj h ▸ .spin hspin.1 hspin.2
    · exact Option.some.inj h ▸ .goOn hspin
  | after w =>
    obtain rfl := Option.some.inj h
    simp only
    split_ifs with hinactive
    · exact .giveUp hinactive
    · exact .again (not_not.mp hinactive)
  | writeRet w => exact Option.some.inj h ▸ .writeRet
  | closing nonblock =>
    simp only [cpuStep] at h
    split_ifs at h with hwait hnonblock
    · exact Option.some.inj h ▸ .closeNonblock hwait.1 hnonblock
    · exact Option.some.inj h ▸ .closeSpin hwait.1 hwait.2 (Bool.eq_false_iff.mpr hnonblock)
    · exact Option.some.inj h ▸ .closed hwait
  | closeRet result => exact Option.some.inj h ▸ .closeRet

end NiosvCodesign.Firmware.Driver

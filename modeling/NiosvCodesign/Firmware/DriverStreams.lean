import NiosvCodesign.Firmware.Driver

/-!
# What the driver does with characters

The rings are shared with the interrupt routine without critical sections.
Whatever the calls, the interrupts and the host do in between:

* `Balanced.step`, `streams_conserved`: what `write` took over is what the host
  has read, what is in the transmit FIFO and what is in the transmit ring, in
  this order; and what the host wrote is what `read` has returned, what is in
  the receive ring and what is in the read FIFO. Nothing is lost, duplicated or
  reordered.
* `results_truthful`: the results of the calls say how many characters these
  are.
-/

namespace NiosvCodesign.Firmware.Driver

open Transitions UartState

/-! ## The receive ring -/

/-- Both indices of the receive ring are in range. -/
def RxOk (sp : UartState) : Prop := sp.rxIn < bufLen ∧ sp.rxOut < bufLen

/-- The characters in the receive ring, oldest first. -/
def rxRing (sp : UartState) : Text := RingBuffer.contents bufLen sp.rxBuf sp.rxOut sp.rxIn

/-- The receive ring has no room. -/
def RxFull (sp : UartState) : Prop := (sp.rxIn + 1) % bufLen = sp.rxOut

theorem rxFull_iff {sp : UartState} (h : RxOk sp) : RxFull sp ↔ (rxRing sp).length = bufLen - 1 := by
  rw [rxRing, RingBuffer.length_contents]
  exact RingBuffer.full_iff h.1 h.2

theorem rxRing_length_lt (sp : UartState) : (rxRing sp).length < bufLen := by
  rw [rxRing, RingBuffer.length_contents]
  exact RingBuffer.dist_lt (by unfold bufLen; norm_num)

/-- What the interrupt routine may do to the receive side: characters move from
    the front of the read FIFO to the end of the ring, and the read interrupt is
    only turned off at a full ring. -/
structure RxEffect (sp sp' : UartState) (d d' : Device) : Prop where
  ok : RxOk sp'
  out : sp'.rxOut = sp.rxOut
  queue : ∃ moved, rxRing sp' = rxRing sp ++ moved ∧ d.rxFifo = moved ++ d'.rxFifo
  re : sp'.irqEnable.re = sp.irqEnable.re ∨ RxFull sp'
  txBuf : sp'.txBuf = sp.txBuf

/-- The loop of the read interrupt stops when the FIFO is empty or the ring full;
    `RAVAIL` tells which. -/
theorem rxLoop_queue {sp : UartState} (h : RxOk sp) {avail : ℕ} {chars : Text}
    (havail : avail = 0 → chars = []) :
    ∃ moved left avail' rxIn rxBuf,
      rxLoop sp avail chars = ({ sp with rxIn := rxIn, rxBuf := rxBuf }, avail', left) ∧
      chars = moved ++ left ∧
      rxRing { sp with rxIn := rxIn, rxBuf := rxBuf } = rxRing sp ++ moved ∧
      rxIn < bufLen ∧ (avail' = 0 → left = []) ∧
      (avail' ≠ 0 → RxFull { sp with rxIn := rxIn, rxBuf := rxBuf }) := by
  induction chars generalizing sp avail with
  | nil =>
    unfold rxLoop
    split_ifs with hfull
    · exact ⟨[], [], avail, sp.rxIn, sp.rxBuf, rfl, rfl, (List.append_nil _).symm, h.1,
        fun _ => rfl, fun _ => hfull⟩
    · exact ⟨[], [], 0, sp.rxIn, sp.rxBuf, rfl, rfl, (List.append_nil _).symm, h.1,
        fun _ => rfl, fun hne => absurd rfl hne⟩
  | cons ch chars ih =>
    unfold rxLoop
    split_ifs with hfull
    · exact ⟨[], ch :: chars, avail, sp.rxIn, sp.rxBuf, rfl, rfl, (List.append_nil _).symm, h.1,
        havail, fun _ => hfull⟩
    · have hnext : RxOk { sp with
          rxBuf := Function.update sp.rxBuf sp.rxIn ch
          rxIn := (sp.rxIn + 1) % bufLen } :=
        ⟨Nat.mod_lt _ (by unfold bufLen; norm_num), h.2⟩
      have hleft : chars.length = 0 → chars = [] := List.eq_nil_of_length_eq_zero
      obtain ⟨moved, left, avail', rxIn, rxBuf, heq, hchars, hring, hin, hleft, hfull'⟩ :=
        ih hnext hleft
      have hpush : rxRing { sp with
          rxBuf := Function.update sp.rxBuf sp.rxIn ch
          rxIn := (sp.rxIn + 1) % bufLen } = rxRing sp ++ [ch] :=
        RingBuffer.contents_push h.1 h.2 hfull ch
      refine ⟨ch :: moved, left, avail', rxIn, rxBuf, heq, ?_, ?_, hin, hleft, hfull'⟩
      · rw [hchars, List.cons_append]
      · rw [hpush] at hring
        rw [List.append_cons]
        exact hring

theorem rxIrq_queue {sp : UartState} (h : RxOk sp) (d : Device) :
    RxEffect sp (rxIrq sp d).1 d (rxIrq sp d).2 ∧
      ((rxIrq sp d).1.irqEnable.re = false ∨ (rxIrq sp d).2.rxFifo = []) := by
  obtain ⟨moved, left, avail, rxIn, rxBuf, heq, hchars, hring, hin, hleft, hfull⟩ :=
    rxLoop_queue h fun h10 : 1 = 0 => (absurd h10 one_ne_zero : d.rxFifo = [])
  unfold rxIrq
  simp only [heq]
  split_ifs with hmore
  · exact ⟨⟨⟨hin, h.2⟩, rfl, ⟨moved, hring, hchars⟩, Or.inr (hfull hmore), rfl⟩, Or.inl rfl⟩
  · exact ⟨⟨⟨hin, h.2⟩, rfl, ⟨moved, hring, hchars⟩, Or.inl rfl, rfl⟩,
      Or.inr (hleft (not_not.mp hmore))⟩

/-- A full ring stays full. -/
theorem RxEffect.full {sp sp' : UartState} {d d' : Device} (h : RxEffect sp sp' d d')
    (hok : RxOk sp) (hfull : RxFull sp) : RxFull sp' := by
  obtain ⟨moved, hmoved, -⟩ := h.queue
  have hlt := rxRing_length_lt sp'
  rw [rxFull_iff hok] at hfull
  rw [rxFull_iff h.ok, hmoved, List.length_append]
  rw [hmoved, List.length_append] at hlt
  omega

theorem RxEffect.refl {sp : UartState} (h : RxOk sp) (d : Device) : RxEffect sp sp d d :=
  ⟨h, rfl, ⟨[], (List.append_nil _).symm, rfl⟩, Or.inl rfl, rfl⟩

/-- The write interrupt leaves the receive side alone. -/
theorem txIrq_queue {sp : UartState} (hring : sp.RingOk) (h : RxOk sp) (space : ℕ) (d : Device) :
    RxEffect sp (txIrq space sp d).1 d (txIrq space sp d).2 ∧
      (txIrq space sp d).1.irqEnable.re = sp.irqEnable.re ∧
      (txIrq space sp d).2.rxFifo = d.rxFifo := by
  obtain ⟨moved, out, heq, -⟩ := txLoop_spec hring space d
  unfold txIrq
  simp only [heq]
  split_ifs
  · exact ⟨⟨h, rfl, ⟨[], (List.append_nil _).symm, rfl⟩, Or.inl rfl, rfl⟩, rfl, rfl⟩
  · exact ⟨⟨h, rfl, ⟨[], (List.append_nil _).symm, rfl⟩, Or.inl rfl, rfl⟩, rfl, rfl⟩

/-- One turn of the interrupt routine. -/
theorem irqPass_queue {c : Core} {sp : UartState} {d : Device} (hok : UartOk c sp d)
    (h : RxOk sp) : RxEffect sp (irqPass c sp d).1 d (irqPass c sp d).2 := by
  have hrx : ∃ r, (if (d.control c).ri then rxIrq sp d else (sp, d)) = r ∧
      RxEffect sp r.1 d r.2 ∧ r.1.RingOk := by
    split_ifs
    · exact ⟨_, rfl, (rxIrq_queue h d).1, (rxIrq_spec hok).1.ring⟩
    · exact ⟨_, rfl, RxEffect.refl h d, hok.ring⟩
  obtain ⟨⟨sp', d'⟩, hr, heff, hring⟩ := hrx
  unfold irqPass
  simp only [hr]
  split_ifs
  · obtain ⟨htx, hre, hfifo⟩ := txIrq_queue hring heff.ok (d.control c).wspace d'
    obtain ⟨moved, hmoved, hsplit⟩ := heff.queue
    obtain ⟨none, hnone, hrest⟩ := htx.queue
    refine ⟨htx.ok, htx.out.trans heff.out, ⟨moved ++ none, ?_, ?_⟩, ?_, htx.txBuf.trans heff.txBuf⟩
    · rw [hnone, hmoved, List.append_assoc]
    · rw [hsplit, hrest, List.append_assoc]
    · rw [hre]
      rcases heff.re with hsame | hfull
      · exact Or.inl hsame
      · exact Or.inr (htx.full heff.ok hfull)
  · exact heff

/-! ## The other events -/

/-- What the alarm callback may do to driver and core. -/
def TimeoutEffect (sp sp' : UartState) (d d' : Device) : Prop :=
  ∃ hostInactive active, sp' = { sp with hostInactive := hostInactive } ∧
    d' = { d with active := active }

theorem uartTimeout_effect (c : Core) (tickRate : BitVec 32) {sp : UartState} {d : Device}
    (hsynced : d.irqEnable = sp.irqEnable) : TimeoutEffect sp
      (uartTimeout c tickRate (sp, d)).2.1 d (uartTimeout c tickRate (sp, d)).2.2 := by
  unfold uartTimeout
  simp only
  split_ifs
  · exact ⟨0, false, rfl, by rw [← hsynced]⟩
  · exact ⟨sp.hostInactive + 1, d.active, rfl, rfl⟩
  · exact ⟨sp.hostInactive, d.active, rfl, rfl⟩

/-- A tick, whatever alarms are registered. -/
theorem altTick_effect {c : Core} {hal : Hal} {sp : UartState} {d : Device}
    (hsynced : d.irqEnable = sp.irqEnable) : TimeoutEffect sp
      (altTick (uartTimeout c hal.tickRate) hal (sp, d)).2.1 d
      (altTick (uartTimeout c hal.tickRate) hal (sp, d)).2.2 := by
  have hkeeps : ∀ a : UartState × Device, TimeoutEffect sp a.1 d a.2 →
      TimeoutEffect sp (uartTimeout c hal.tickRate a).2.1 d (uartTimeout c hal.tickRate a).2.2 := by
    intro a ha
    obtain ⟨sp', d'⟩ := a
    obtain ⟨inactive, active, rfl, rfl⟩ := ha
    have hnext : ({ d with active := active } : Device).irqEnable =
        ({ sp with hostInactive := inactive } : UartState).irqEnable := hsynced
    obtain ⟨inactive', active', hsp, hd⟩ := uartTimeout_effect c hal.tickRate hnext
    exact ⟨inactive', active', hsp, hd⟩
  exact altTick_keeps hkeeps hal ⟨_, _, rfl, rfl⟩

/-! ## Invariants of all runs -/

/-- What the local variables of a call say about the rings. The value loaded
    into `out` (`in` for `read`) may be old, but then there is only more room
    (more to read). -/
def Port.CallOk (s : Port) : Prop :=
  match s.call with
  | .readLoad r => 0 < r.space
  | .readCopy r out => 0 < r.space ∧ r.inn < bufLen ∧ out = s.uart.rxOut ∧
      RingBuffer.dist bufLen r.inn out ≤ (rxRing s.uart).length
  | .readAdvance _ out chars => out = s.uart.rxOut ∧ chars ≠ [] ∧ chars <+: rxRing s.uart
  | .store w inn => inn = s.uart.txIn ∧ w.out < bufLen ∧ w.data ≠ [] ∧
      s.uart.ring.length ≤ RingBuffer.dist bufLen inn w.out
  | .advance _ inn chars => inn = s.uart.txIn ∧ chars ≠ [] ∧
      s.uart.ring.length + chars.length < bufLen ∧ inn + chars.length ≤ bufLen ∧
      copyIn s.uart.txBuf inn chars = s.uart.txBuf
  | _ => True

/-- What holds in every reachable state. -/
structure Inv (c : Core) (s : Port) : Prop where
  ok : UartOk c s.uart s.device
  rx : RxOk s.uart
  call : s.CallOk

theorem inv_reset (c : Core) (hal : Hal) : Inv c (Port.reset hal) where
  ok := ⟨⟨(show 0 < 2048 by norm_num), (show 0 < 2048 by norm_num)⟩, rfl, Nat.zero_le _⟩
  rx := ⟨(show 0 < 2048 by norm_num), (show 0 < 2048 by norm_num)⟩
  call := trivial

/-- What `read` finds in one block is in the ring, and does not wrap. -/
theorem rxBlock_le {inn out : ℕ} (hin : inn < bufLen) (hout : out < bufLen) :
    rxBlock inn out ≤ RingBuffer.dist bufLen inn out ∧ out + rxBlock inn out ≤ bufLen := by
  rw [RingBuffer.dist_eq hin hout]
  unfold rxBlock
  split_ifs <;> omega

/-- Copying the same characters again changes nothing. -/
theorem copyIn_copyIn (buf : ℕ → Char) (inn : ℕ) (chars : Text) :
    copyIn (copyIn buf inn chars) inn chars = copyIn buf inn chars := by
  funext k
  by_cases hk : k < inn ∨ inn + chars.length ≤ k
  · exact copyIn_outside hk
  · obtain ⟨j, rfl⟩ := Nat.exists_eq_add_of_le (show inn ≤ k by omega)
    rw [copyIn_inside _ _ (by omega), copyIn_inside _ _ (by omega)]

variable {c : Core} {s t : Port}

/-- The interrupt routine leaves the calls' bookkeeping right. -/
theorem CallOk.of_irqEffect (hcall : s.CallOk) {uart : UartState} {device : Device}
    (heff : IrqEffect s.uart uart s.device device) (hrx : RxEffect s.uart uart s.device device) :
    Port.CallOk { s with uart := uart, device := device } := by
  obtain ⟨moved, hmoved, -⟩ := hrx.queue
  obtain ⟨hal, uart₀, device₀, call⟩ := s
  replace hmoved : rxRing uart = rxRing uart₀ ++ moved := hmoved
  cases call with
  | readLoad r => exact hcall
  | readCopy r out =>
    obtain ⟨hspace, hin, hout, hold⟩ := hcall
    refine ⟨hspace, hin, hout.trans hrx.out.symm, hold.trans ?_⟩
    show (rxRing uart₀).length ≤ (rxRing uart).length
    rw [hmoved, List.length_append]
    exact Nat.le_add_right _ _
  | readAdvance r out chars =>
    obtain ⟨hout, hne, hchars⟩ := hcall
    refine ⟨hout.trans hrx.out.symm, hne, ?_⟩
    show chars <+: rxRing uart
    rw [hmoved]
    exact hchars.trans (List.prefix_append _ _)
  | store w inn =>
    obtain ⟨hin, hout, hdata, hold⟩ := hcall
    exact ⟨hin.trans heff.txIn.symm, hout, hdata, heff.shrinks.trans hold⟩
  | advance w inn chars =>
    obtain ⟨hin, hne, hroom, hblock, hcopied⟩ := hcall
    refine ⟨hin.trans heff.txIn.symm, hne, ?_, hblock, ?_⟩
    · exact (Nat.add_le_add_right heff.shrinks _).trans_lt hroom
    · show copyIn uart.txBuf inn chars = uart.txBuf
      rw [hrx.txBuf]
      exact hcopied
  | _ => trivial

/-- A step of a call that leaves driver and core alone. -/
theorem Inv.of_call (h : Inv c s) {call : Call} (hcall : Port.CallOk { s with call := call }) :
    Inv c { s with call := call } :=
  ⟨h.ok, h.rx, hcall⟩

theorem Inv.cpuStep (h : Inv c s) (hst : cpuStep s = some t) : Inv c t := by
  have hstep := CallStep.of_cpuStep hst
  have hcall := h.call
  have hring := h.ok.ring
  have hrx := h.rx
  obtain ⟨hal, uart, device, call⟩ := s
  replace hring : uart.RingOk := hring
  replace hrx : RxOk uart := hrx
  cases hstep with
  | readMore hspace => exact h.of_call hspace
  | readLoad =>
    have hlen : (rxRing uart).length = RingBuffer.dist bufLen uart.rxIn uart.rxOut :=
      RingBuffer.length_contents
    exact h.of_call ⟨hcall, hrx.1, rfl, hlen.ge⟩
  | @readCopy r out n hblock hn =>
    obtain ⟨hspace, hin, hout, hold⟩ := hcall
    replace hout : out = uart.rxOut := hout
    subst hout
    replace hold : RingBuffer.dist bufLen r.inn uart.rxOut ≤ (rxRing uart).length := hold
    obtain ⟨hle, hend⟩ := rxBlock_le hin hrx.2
    have hlen : n ≤ RingBuffer.dist bufLen uart.rxIn uart.rxOut := by
      rw [rxRing, RingBuffer.length_contents] at hold
      omega
    refine h.of_call ⟨rfl, ?_, ?_⟩
    · rw [← List.length_pos_iff, RingBuffer.length_block]
      replace hspace : 0 < r.space := hspace
      omega
    · rw [RingBuffer.block_eq_take hlen (by omega)]
      exact List.take_prefix _ _
  | @readAdvance r r' out chars hr =>
    refine ⟨⟨hring, h.ok.synced, h.ok.fits⟩, ⟨hrx.1, Nat.mod_lt _ (by unfold bufLen; norm_num)⟩, ?_⟩
    split_ifs with hspace
    · exact hspace
    · trivial
  | readEnable => exact ⟨⟨hring, rfl, h.ok.fits⟩, hrx, trivial⟩
  | load hdata => exact h.of_call ⟨rfl, hring.2, hdata, (ring_length uart).le⟩
  | @store w inn n hn hne =>
    obtain ⟨hin, hout, hdata, hold⟩ := hcall
    replace hin : inn = uart.txIn := hin
    subst hin
    obtain ⟨hroom, hblock⟩ := txSpace_le hring.1 hout
    have hlen : (w.data.take n).length ≤ n := List.length_take_le _ _
    replace hold : uart.ring.length ≤ RingBuffer.dist bufLen uart.txIn w.out := hold
    have hroom' : uart.ring.length + (w.data.take n).length < bufLen := by omega
    have hblock' : uart.txIn + (w.data.take n).length ≤ bufLen := by omega
    refine ⟨⟨hring, h.ok.synced, h.ok.fits⟩, hrx, rfl, ?_, ?_, hblock', copyIn_copyIn _ _ _⟩
    · rw [← List.length_pos_iff, List.length_take]
      have hpos := List.length_pos_iff.mpr hdata
      omega
    · rw [ring_copyIn hring hroom']
      exact hroom'
  | advance =>
    exact ⟨⟨⟨Nat.mod_lt _ (by unfold bufLen; norm_num), hring.2⟩, h.ok.synced, h.ok.fits⟩, hrx,
      trivial⟩
  | kick => exact ⟨⟨hring, rfl, h.ok.fits⟩, hrx, trivial⟩
  | _ => exact h.of_call trivial

/-- What the timer interrupt does. -/
theorem step_timerIrq (hsynced : s.device.irqEnable = s.uart.irqEnable)
    (hst : step c s .timerIrq = some t) : ∃ hal uart device,
      t = { s with hal := hal, uart := uart, device := device } ∧
        TimeoutEffect s.uart uart s.device device := by
  simp only [step] at hst
  split_ifs at hst
  exact ⟨_, _, _, (Option.some.inj hst).symm, altTick_effect hsynced⟩

theorem step_uartIrq (hst : step c s .uartIrq = some t) : s.irqPending c = true ∧ t = { s with
    uart := (irqPass c s.uart s.device).1, device := (irqPass c s.uart s.device).2 } := by
  simp only [step] at hst
  split_ifs at hst with hp
  exact ⟨hp, (Option.some.inj hst).symm⟩

theorem step_hostWrite {ch : Char} (hst : step c s (.hostWrite ch) = some t) :
    s.device.rxFifo.length < c.readDepth ∧ t = { s with
      device := { s.device with rxFifo := s.device.rxFifo ++ [ch], active := true } } := by
  simp only [step] at hst
  split_ifs at hst with hr
  exact ⟨hr, (Option.some.inj hst).symm⟩

/-- Initialisation is the first thing that happens to the driver. -/
theorem step_init (hst : step c s .init = some t) : s.call = .off ∧
    t = ⟨(uartInit s.hal s.uart s.device).1, (uartInit s.hal s.uart s.device).2.1,
      (uartInit s.hal s.uart s.device).2.2, .idle⟩ := by
  obtain ⟨hal, uart, device, call⟩ := s
  cases call with
  | off => exact ⟨rfl, (Option.some.inj hst).symm⟩
  | _ => exact absurd hst (Option.some_ne_none t).symm

/-- A request is only taken up between calls. -/
theorem step_call {r : Request} (hst : step c s (.call r) = some t) : s.call = .idle ∧
    ((∃ req, r = .ioctl req ∧ t = { s with uart := (uartIoctl s.uart req).1 }) ∨
      ∃ call, r.entry = some call ∧ t = { s with call := call }) := by
  obtain ⟨hal, uart, device, call⟩ := s
  cases call with
  | idle =>
    cases r with
    | ioctl req => exact ⟨rfl, Or.inl ⟨req, rfl, (Option.some.inj hst).symm⟩⟩
    | _ => exact ⟨rfl, Or.inr ⟨_, rfl, (Option.some.inj hst).symm⟩⟩
  | _ => exact absurd hst (Option.some_ne_none t).symm

/-- `ioctl` changes nothing but the timeout. -/
theorem uartIoctl_fst (sp : UartState) (req : IoctlRequest) :
    ∃ timeout, (uartIoctl sp req).1 = { sp with timeout := timeout } := by
  cases req with
  | tiocstimeout n =>
    unfold uartIoctl
    split_ifs <;> exact ⟨_, rfl⟩
  | tiocgconnected =>
    unfold uartIoctl
    split_ifs <;> exact ⟨sp.timeout, rfl⟩
  | other => exact ⟨sp.timeout, rfl⟩

/-- What the initialisation of the driver changes. -/
theorem uartInit_effect (h : Hal) (sp : UartState) (d : Device) : ∃ hal timeout,
    uartInit h sp d = (hal, { sp with
      irqEnable := ⟨true, false⟩, hostInactive := 0, timeout := timeout },
      { d with irqEnable := ⟨true, false⟩ }) := by
  unfold uartInit
  cases altAlarmStart h h.tickRate with
  | some hal => exact ⟨hal, sp.timeout, rfl⟩
  | none => exact ⟨h, intMax, rfl⟩

theorem Request.entry_callOk {r : Request} {call : Call} (h : r.entry = some call) (s : Port) :
    Port.CallOk { s with call := call } := by
  cases r with
  | ioctl req => exact absurd h (Option.some_ne_none call).symm
  | _ =>
    obtain rfl := Option.some.inj h
    trivial

/-- One event keeps the invariant. -/
theorem Inv.step (h : Inv c s) {e : Event} (hst : step c s e = some t) : Inv c t := by
  cases e with
  | init =>
    obtain ⟨-, rfl⟩ := step_init hst
    obtain ⟨hal, timeout, heq⟩ := uartInit_effect s.hal s.uart s.device
    rw [heq]
    exact ⟨⟨h.ok.ring, rfl, h.ok.fits⟩, h.rx, trivial⟩
  | clockInit ticksPerSec =>
    obtain rfl := Option.some.inj hst
    exact ⟨h.ok, h.rx, h.call⟩
  | call r =>
    obtain ⟨hidle, ⟨req, -, rfl⟩ | ⟨call, hentry, rfl⟩⟩ := step_call hst
    · obtain ⟨timeout, heq⟩ := uartIoctl_fst s.uart req
      obtain ⟨hal, uart, device, call⟩ := s
      obtain rfl : call = .idle := hidle
      simp only [heq]
      exact ⟨⟨h.ok.ring, h.ok.synced, h.ok.fits⟩, h.rx, trivial⟩
    · exact h.of_call (Request.entry_callOk hentry s)
  | cpu => exact h.cpuStep hst
  | uartIrq =>
    obtain ⟨-, rfl⟩ := step_uartIrq hst
    obtain ⟨hok, heff⟩ := irqPass_spec h.ok
    have hrx := irqPass_queue h.ok h.rx
    exact ⟨hok, hrx.ok, CallOk.of_irqEffect h.call heff hrx⟩
  | timerIrq =>
    obtain ⟨hal, uart, device, rfl, inactive, active, rfl, rfl⟩ := step_timerIrq h.ok.synced hst
    exact ⟨⟨h.ok.ring, h.ok.synced, h.ok.fits⟩, h.rx, h.call⟩
  | hostRead =>
    obtain rfl := Option.some.inj hst
    refine ⟨⟨h.ok.ring, h.ok.synced, ?_⟩, h.rx, h.call⟩
    show s.device.txFifo.tail.length ≤ c.writeDepth
    rw [List.length_tail]
    exact (Nat.sub_le _ 1).trans h.ok.fits
  | hostWrite ch =>
    obtain ⟨-, rfl⟩ := step_hostWrite hst
    exact ⟨⟨h.ok.ring, h.ok.synced, h.ok.fits⟩, h.rx, h.call⟩

/-! ## The streams -/

/-- The history of a run: what completed calls of `write` have taken over, what
    the host has read, what completed calls of `read` have returned and what the
    host has written; and the arguments `ptr`, `count` of the last call of
    `write` and `space` of the last call of `read`. -/
structure Traffic where
  accepted : Text
  delivered : Text
  received : Text
  written : Text
  offered : Text
  asked : ℕ

/-- At the start of a run. -/
def Traffic.none : Traffic := ⟨[], [], [], [], [], 0⟩

/-- How an event changes the history. -/
def observe (h : Traffic) (s : Port) : Event → Traffic
  | .call (.read space _) => { h with asked := space }
  | .call (.write data _) => { h with offered := data }
  | .cpu =>
    match s.call with
    | .readRet r => { h with received := h.received ++ r.got }
    | .writeRet w => { h with accepted := h.accepted ++ w.sent }
    | _ => h
  | .hostRead => { h with delivered := h.delivered ++ s.device.txFifo.take 1 }
  | .hostWrite ch => { h with written := h.written ++ [ch] }
  | _ => h

/-- What the call under way has stored at its `buffer`. -/
def Call.got : Call → Text
  | .readLoop r | .readLoad r | .readCopy r _ | .readAdvance r _ _ | .readCheck r | .readWait r
  | .readAgain r | .readEnable r | .readRet r => r.got
  | _ => []

/-- What the call under way has put into the ring. -/
def Call.sent : Call → Text
  | .copy w | .store w _ | .advance w _ _ | .kick w | .test w | .wait w | .after w
  | .writeRet w => w.sent
  | _ => []

/-- A call of `write` works through `offered`, a call of `read` stores at most
    `asked` characters. -/
def Call.Within (offered : Text) (asked : ℕ) : Call → Prop
  | .readLoop r | .readLoad r | .readCopy r _ | .readCheck r | .readWait r | .readAgain r
  | .readEnable r | .readRet r => r.got.length + r.space = asked
  | .readAdvance r _ chars => r.got.length + chars.length + r.space = asked
  | .copy w | .store w _ | .kick w | .test w | .wait w | .after w | .writeRet w =>
    w.sent ++ w.data = offered
  | .advance w _ chars => w.sent ++ chars ++ w.data = offered
  | _ => True

/-- Every character is in exactly one place, in order, and the call under way
    keeps to its arguments. -/
structure Balanced (s : Port) (h : Traffic) : Prop where
  tx : h.delivered ++ s.device.txFifo ++ s.uart.ring = h.accepted ++ s.call.sent
  rx : h.received ++ s.call.got ++ rxRing s.uart ++ s.device.rxFifo = h.written
  args : s.call.Within h.offered h.asked

/-- A change of place within a call. -/
theorem Balanced.of_call {h : Traffic} (hb : Balanced s h) {call : Call}
    (hsent : call.sent = s.call.sent) (hgot : call.got = s.call.got)
    (hargs : call.Within h.offered h.asked) : Balanced { s with call := call } h :=
  ⟨hsent ▸ hb.tx, hgot ▸ hb.rx, hargs⟩

theorem Balanced.cpuStep {h : Traffic} (hb : Balanced s h) (hinv : Inv c s)
    (hst : cpuStep s = some t) : Balanced t (observe h s .cpu) := by
  have hstep := CallStep.of_cpuStep hst
  have hcall := hinv.call
  have hring := hinv.ok.ring
  have hrxOk := hinv.rx
  obtain ⟨htx, hrx, hargs⟩ := hb
  have hb : Balanced s h := ⟨htx, hrx, hargs⟩
  obtain ⟨hal, uart, device, call⟩ := s
  replace hring : uart.RingOk := hring
  replace hrxOk : RxOk uart := hrxOk
  cases hstep with
  | @readCopy r out n hblock hn =>
    refine hb.of_call rfl rfl ?_
    replace hargs : r.got.length + r.space = h.asked := hargs
    show r.got.length + (RingBuffer.block uart.rxBuf out n).length + (r.space - n) = h.asked
    rw [RingBuffer.length_block]
    omega
  | @readAdvance r r' out chars hr =>
    obtain ⟨hout, -, hchars⟩ := hcall
    replace hout : out = uart.rxOut := hout
    subst hout
    replace hchars : chars <+: rxRing uart := hchars
    replace hrx : h.received ++ r.got ++ rxRing uart ++ device.rxFifo = h.written := hrx
    -- what is stored at `ptr` leaves the ring
    have hdrop : rxRing { uart with rxOut := (uart.rxOut + chars.length) % bufLen } =
        (rxRing uart).drop chars.length := by
      refine RingBuffer.contents_advance hrxOk.1 hrxOk.2 ?_
      have hlen := hchars.length_le
      rw [rxRing, RingBuffer.length_contents] at hlen
      exact hlen
    have hsplit : chars ++ (rxRing uart).drop chars.length = rxRing uart := by
      nth_rewrite 1 [List.prefix_iff_eq_take.mp hchars]
      exact List.take_append_drop _ _
    have hgot : (if 0 < r'.space then Call.readLoad r' else Call.readCheck r').got = r'.got := by
      split_ifs <;> rfl
    have hsent : (if 0 < r'.space then Call.readLoad r' else Call.readCheck r').sent = [] := by
      split_ifs <;> rfl
    have hwithin : r'.got.length + r'.space = h.asked := by
      rw [hr, ← hargs, List.length_append]
    refine ⟨?_, ?_, ?_⟩
    · show h.delivered ++ device.txFifo ++ uart.ring = h.accepted ++ Call.sent _
      rw [hsent]
      exact htx
    · show h.received ++ Call.got _ ++ rxRing _ ++ device.rxFifo = h.written
      rw [hgot, hdrop, hr, ← hrx]
      show h.received ++ (r.got ++ chars) ++ (rxRing uart).drop chars.length ++ device.rxFifo = _
      nth_rewrite 2 [← hsplit]
      simp only [List.append_assoc]
    · show Call.Within h.offered h.asked (if 0 < r'.space then .readLoad r' else .readCheck r')
      split_ifs <;> exact hwithin
  | readRet =>
    refine ⟨htx, ?_, trivial⟩
    show h.received ++ _ ++ [] ++ rxRing uart ++ device.rxFifo = h.written
    rw [List.append_nil]
    exact hrx
  | @store w inn n hn hne =>
    obtain ⟨hin, hout, hdata, hold⟩ := hcall
    replace hin : inn = uart.txIn := hin
    subst hin
    obtain ⟨hroom, -⟩ := txSpace_le hring.1 hout
    have hlen : (w.data.take n).length ≤ n := List.length_take_le _ _
    replace hold : uart.ring.length ≤ RingBuffer.dist bufLen uart.txIn w.out := hold
    refine ⟨?_, hrx, ?_⟩
    · show h.delivered ++ device.txFifo ++ UartState.ring _ = h.accepted ++ w.sent
      rw [ring_copyIn hring (by omega)]
      exact htx
    · show w.sent ++ w.data.take n ++ w.data.drop n = h.offered
      rw [List.append_assoc, List.take_append_drop]
      exact hargs
  | @advance w inn chars =>
    obtain ⟨hin, -, hroom, hblock, hcopied⟩ := hcall
    replace hin : inn = uart.txIn := hin
    subst hin
    refine ⟨?_, hrx, hargs⟩
    show h.delivered ++ device.txFifo ++ UartState.ring _ = h.accepted ++ (w.sent ++ chars)
    rw [advance_ring hring hroom hblock hcopied, ← List.append_assoc, ← List.append_assoc]
    exact congrArg (· ++ chars) htx
  | kick => exact ⟨htx, hrx, hargs⟩
  | readEnable => exact ⟨htx, hrx, hargs⟩
  | writeRet =>
    refine ⟨?_, hrx, trivial⟩
    show h.delivered ++ device.txFifo ++ uart.ring = h.accepted ++ _ ++ []
    rw [List.append_nil]
    exact htx
  | closeSpin => exact hb
  | closeNonblock => exact hb.of_call rfl rfl trivial
  | closed => exact hb.of_call rfl rfl trivial
  | closeRet => exact hb.of_call rfl rfl trivial
  | _ => exact hb.of_call rfl rfl hargs

/-- One event keeps the balance. -/
theorem Balanced.step {h : Traffic} (hb : Balanced s h) (hinv : Inv c s) {e : Event}
    (hst : step c s e = some t) : Balanced t (observe h s e) := by
  cases e with
  | init =>
    obtain ⟨hoff, rfl⟩ := step_init hst
    obtain ⟨hal, timeout, heq⟩ := uartInit_effect s.hal s.uart s.device
    obtain ⟨htx, hrx, -⟩ := hb
    rw [hoff] at htx hrx
    rw [heq]
    exact ⟨htx, hrx, trivial⟩
  | clockInit ticksPerSec =>
    obtain rfl := Option.some.inj hst
    exact ⟨hb.tx, hb.rx, hb.args⟩
  | call r =>
    obtain ⟨hidle, ⟨req, rfl, rfl⟩ | ⟨call, hentry, rfl⟩⟩ := step_call hst
    · obtain ⟨timeout, heq⟩ := uartIoctl_fst s.uart req
      rw [heq]
      exact ⟨hb.tx, hb.rx, hb.args⟩
    · obtain ⟨htx, hrx, -⟩ := hb
      rw [hidle] at htx hrx
      cases r with
      | ioctl req => exact absurd hentry (Option.some_ne_none call).symm
      | read space nonblock =>
        obtain rfl := Option.some.inj hentry
        exact ⟨htx, hrx, Nat.zero_add space⟩
      | write data nonblock =>
        obtain rfl := Option.some.inj hentry
        exact ⟨htx, hrx, List.nil_append data⟩
      | close nonblock =>
        obtain rfl := Option.some.inj hentry
        exact ⟨htx, hrx, trivial⟩
  | cpu => exact hb.cpuStep hinv hst
  | uartIrq =>
    obtain ⟨-, rfl⟩ := step_uartIrq hst
    obtain ⟨-, heff⟩ := irqPass_spec hinv.ok
    obtain ⟨moved, hmoved, hfifo⟩ := (irqPass_queue hinv.ok hinv.rx).queue
    refine ⟨?_, ?_, hb.args⟩
    · show h.delivered ++ (irqPass c s.uart s.device).2.txFifo ++
        (irqPass c s.uart s.device).1.ring = h.accepted ++ s.call.sent
      rw [List.append_assoc, heff.queue, ← List.append_assoc]
      exact hb.tx
    · show h.received ++ s.call.got ++ rxRing (irqPass c s.uart s.device).1 ++
        (irqPass c s.uart s.device).2.rxFifo = h.written
      rw [hmoved, ← hb.rx, hfifo]
      simp only [List.append_assoc]
  | timerIrq =>
    obtain ⟨hal, uart, device, rfl, inactive, active, rfl, rfl⟩ := step_timerIrq hinv.ok.synced hst
    exact ⟨hb.tx, hb.rx, hb.args⟩
  | hostRead =>
    obtain rfl := Option.some.inj hst
    refine ⟨?_, hb.rx, hb.args⟩
    show h.delivered ++ s.device.txFifo.take 1 ++ s.device.txFifo.tail ++ s.uart.ring = _
    rw [← List.drop_one, List.append_assoc h.delivered, List.take_append_drop]
    exact hb.tx
  | hostWrite ch =>
    obtain ⟨-, rfl⟩ := step_hostWrite hst
    refine ⟨hb.tx, ?_, hb.args⟩
    show h.received ++ s.call.got ++ rxRing s.uart ++ (s.device.rxFifo ++ [ch]) = h.written ++ [ch]
    rw [← List.append_assoc, hb.rx]

theorem balanced_reset (hal : Hal) : Balanced (Port.reset hal) Traffic.none := by
  have hpos : 0 < bufLen := by unfold bufLen; norm_num
  have hring : UartState.init.ring = [] := (ring_eq_nil_iff ⟨hpos, hpos⟩).mpr rfl
  have hrx : rxRing UartState.init = [] := (RingBuffer.contents_eq_nil_iff hpos hpos).mpr rfl
  refine ⟨?_, ?_, trivial⟩
  · show [] ++ [] ++ UartState.init.ring = [] ++ []
    rw [hring, List.append_nil]
  · show [] ++ [] ++ rxRing UartState.init ++ [] = []
    rw [hrx]
    rfl

/-- The invariants of a run and its history. -/
theorem watched {hal : Hal} {es : List Event} {p : Port × Traffic}
    (h : exec (watch (step c) observe) (Port.reset hal, Traffic.none) es = some p) :
    Inv c p.1 ∧ Balanced p.1 p.2 := by
  have hinit : Inv c (Port.reset hal, Traffic.none).1 ∧
      Balanced (Port.reset hal, Traffic.none).1 (Port.reset hal, Traffic.none).2 :=
    ⟨inv_reset c hal, balanced_reset hal⟩
  refine exec_invariant (I := fun p => Inv c p.1 ∧ Balanced p.1 p.2) ?_ hinit h
  intro p e q hp hq
  obtain ⟨t, ht, rfl⟩ := Option.map_eq_some_iff.mp hq
  exact ⟨hp.1.step ht, hp.2.step hp.1 ht⟩

/-- In every state of every run, whatever the application calls, the interrupts
    and the host do, the characters the host has read, those in the transmit
    FIFO and those in the transmit ring are together what `write` has taken
    over, and the characters `read` has delivered, those in the receive ring and
    those in the read FIFO are together what the host has written. -/
theorem streams_conserved (c : Core) (hal : Hal) (es : List Event) :
    StatesHave (watch (step c) observe) (Port.reset hal, Traffic.none)
      (fun p => Balanced p.1 p.2) es :=
  fun _ _ _ hp => (watched hp).2

/-! ## The results of the calls -/

theorem WriteCall.result_eq_ok_iff {w : WriteCall} {n : ℕ} :
    w.result = .ok n ↔ w.sent ≠ [] ∧ n = w.sent.length := by
  unfold WriteCall.result
  split_ifs with hsent hnonblock
  · simp [hsent, eq_comm]
  · simp [hsent]
  · simp [hsent]

theorem ReadCall.result_eq_ok_iff {r : ReadCall} {n : ℕ} :
    r.result = .ok n ↔ r.got ≠ [] ∧ n = r.got.length := by
  unfold ReadCall.result
  split_ifs with hgot hnonblock
  · simp [hgot, eq_comm]
  · simp [hgot]
  · simp [hgot]

theorem WriteCall.result_eq_error_iff {w : WriteCall} {e : Errno} :
    w.result = .error e ↔ w.sent = [] ∧ e = if w.nonblock then .ewouldblock else .eio := by
  unfold WriteCall.result
  by_cases hsent : w.sent = []
  · rw [if_neg (not_not.mpr hsent)]
    cases w.nonblock <;> simp [hsent, eq_comm]
  · simp [hsent]

theorem ReadCall.result_eq_error_iff {r : ReadCall} {e : Errno} :
    r.result = .error e ↔ r.got = [] ∧ e = if r.nonblock then .ewouldblock else .eio := by
  unfold ReadCall.result
  by_cases hgot : r.got = []
  · rw [if_neg (not_not.mpr hgot)]
    cases r.nonblock <;> simp [hgot, eq_comm]
  · simp [hgot]

/-- The results of the calls can be relied on: `write` returns how many of the
    first characters of its buffer it has taken over, `read` how many it has
    stored, which never exceeds the space it was given, and an error means that
    nothing has been transferred. -/
theorem results_truthful (c : Core) (hal : Hal) (es : List Event) :
    StatesHave (watch (step c) observe) (Port.reset hal, Traffic.none) (fun p =>
      (∀ w, p.1.call = .writeRet w →
        (∀ n, w.result = .ok n ↔ 0 < n ∧ n = w.sent.length ∧ w.sent = p.2.offered.take n) ∧
        ∀ e, w.result = .error e → w.sent = []) ∧
      (∀ r, p.1.call = .readRet r →
        (∀ n, r.result = .ok n ↔ 0 < n ∧ n = r.got.length ∧ n ≤ p.2.asked) ∧
        ∀ e, r.result = .error e → r.got = [])) es := by
  intro es' p _ hp
  have hargs := (watched hp).2.args
  refine ⟨?_, ?_⟩
  · intro w hw
    refine ⟨fun n => ?_, fun e he => (WriteCall.result_eq_error_iff.mp he).1⟩
    rw [hw] at hargs
    replace hargs : w.sent ++ w.data = p.2.offered := hargs
    rw [WriteCall.result_eq_ok_iff, ← List.length_pos_iff]
    constructor
    · rintro ⟨hpos, rfl⟩
      refine ⟨hpos, rfl, ?_⟩
      rw [← hargs, List.take_left']
      rfl
    · rintro ⟨hpos, rfl, -⟩
      exact ⟨hpos, rfl⟩
  · intro r hr
    refine ⟨fun n => ?_, fun e he => (ReadCall.result_eq_error_iff.mp he).1⟩
    rw [hr] at hargs
    replace hargs : r.got.length + r.space = p.2.asked := hargs
    rw [ReadCall.result_eq_ok_iff, ← List.length_pos_iff]
    constructor
    · rintro ⟨hpos, rfl⟩
      exact ⟨hpos, rfl, by omega⟩
    · rintro ⟨hpos, rfl, -⟩
      exact ⟨hpos, rfl⟩

end NiosvCodesign.Firmware.Driver

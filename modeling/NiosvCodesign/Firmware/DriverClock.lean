import NiosvCodesign.Firmware.DriverWakeup

/-!
# The driver with and without a system clock

`altera_avalon_jtag_uart_init` asks for an alarm that calls
`altera_avalon_jtag_uart_timeout` once a second. Whether it gets one depends on
whether the system clock has been initialised before.

* `Refused.step`, `blocking_calls_complete`: without a clock at that time the host
  is taken to be there for good. Blocking calls never fall short.
* `wait_bounded`: with a clock, `timeout + 1` seconds of ticks without the host
  end every wait.
-/

namespace NiosvCodesign.Firmware.Driver

open Transitions UartState

variable {c : Core} {s t : Port}

/-! ## Without a clock -/

/-- No wait has ended early. -/
def Call.Complete (sp : UartState) : Call → Prop
  | .readEnable r => r.got ≠ []
  | .readAgain _ => rxRing sp ≠ []
  | .readRet r => r.nonblock = false → r.got = [] → r.space = 0
  | .after w => w.data ≠ [] ∧ ¬ sp.RingFull
  | .writeRet w => w.nonblock = false → w.data = []
  | _ => True

/-- What holds when the driver has been initialised without a clock. -/
structure Unclocked (s : Port) : Prop where
  live : s.call.live = true
  alarms : s.hal.alarms = []
  timeout : s.uart.timeout = intMax
  present : s.uart.hostInactive = 0
  complete : s.call.Complete s.uart

/-- The initialisation without a clock. -/
theorem unclocked_init (hrate : s.hal.tickRate = 0#32) (halarms : s.hal.alarms = [])
    (hst : step c s .init = some t) : Unclocked t := by
  obtain ⟨-, rfl⟩ := step_init hst
  rw [uartInit_of_no_clock hrate]
  exact ⟨rfl, halarms, rfl, rfl, trivial⟩

theorem Unclocked.not_inactive (h : Unclocked s) : s.uart.hostInactive < s.uart.timeout := by
  rw [h.timeout, h.present]
  unfold intMax
  norm_num

theorem Unclocked.cpuStep (h : Unclocked s) (hinv : Inv c s) (harmed : Armed s)
    (hst : cpuStep s = some t) : Unclocked t := by
  have hstep := CallStep.of_cpuStep hst
  have hlt := h.not_inactive
  have hcomplete := h.complete
  have hrxOk := hinv.rx
  have hstuck := harmed.stuck
  obtain ⟨hal, uart, device, call⟩ := s
  replace hlt : uart.hostInactive < uart.timeout := hlt
  replace hrxOk : RxOk uart := hrxOk
  obtain ⟨-, halarms, htimeout, hpresent, -⟩ := h
  cases hstep with
  | readNone hspace => exact ⟨rfl, halarms, htimeout, hpresent, fun _ _ => hspace⟩
  | @readAdvance r r' out chars hr =>
    refine ⟨?_, halarms, htimeout, hpresent, ?_⟩
    · show Call.live (if 0 < r'.space then .readLoad r' else .readCheck r') = true
      split_ifs <;> rfl
    · show Call.Complete _ (if 0 < r'.space then .readLoad r' else .readCheck r')
      split_ifs <;> trivial
  | readSome hgot => exact ⟨rfl, halarms, htimeout, hpresent, hgot⟩
  | readNonblock hgot hnonblock =>
    exact ⟨rfl, halarms, htimeout, hpresent,
      fun hblock => absurd (hblock.symm.trans hnonblock) Bool.false_ne_true⟩
  | @readGoOn r hstop =>
    -- the timeout cannot have ended the wait
    refine ⟨rfl, halarms, htimeout, hpresent, fun hnil => ?_⟩
    have hin : uart.rxIn = uart.rxOut := (RingBuffer.contents_eq_nil_iff hrxOk.1 hrxOk.2).mp hnil
    exact hstop ⟨Eq.trans hstuck hin.symm, hlt⟩
  | @readGiveUp r hin =>
    -- `rx_in` cannot come round to where it was
    have hnil : rxRing uart = [] :=
      (RingBuffer.contents_eq_nil_iff hrxOk.1 hrxOk.2).mpr (hin.symm.trans hstuck)
    exact absurd hnil hcomplete
  | readEnable =>
    exact ⟨rfl, halarms, htimeout, hpresent, fun _ hgot => absurd hgot hcomplete⟩
  | done hstop =>
    refine ⟨rfl, halarms, htimeout, hpresent, fun hblock => ?_⟩
    exact hstop.resolve_right fun hnonblock => Bool.false_ne_true (hblock.symm.trans hnonblock)
  | goOn hstop =>
    -- so the interrupt routine has made room
    obtain ⟨hdata, hout⟩ := hstuck
    exact ⟨rfl, halarms, htimeout, hpresent, hdata,
      fun hfull => hstop ⟨Eq.trans hout.symm hfull, hlt⟩⟩
  | giveUp hinactive => exact absurd hpresent hinactive
  | _ => exact ⟨rfl, halarms, htimeout, hpresent, trivial⟩

theorem Unclocked.step (h : Unclocked s) (hinv : Inv c s) (harmed : Armed s) {e : Event}
    (hst : step c s e = some t) : Unclocked t := by
  cases e with
  | init =>
    obtain ⟨hoff, -⟩ := step_init hst
    have hlive := h.live
    rw [hoff] at hlive
    exact absurd hlive Bool.false_ne_true
  | clockInit ticksPerSec =>
    obtain rfl := Option.some.inj hst
    refine ⟨h.live, ?_, h.timeout, h.present, h.complete⟩
    show (altSysclkInit s.hal ticksPerSec).alarms = []
    unfold altSysclkInit
    split_ifs <;> exact h.alarms
  | call r =>
    obtain ⟨hidle, ⟨req, -, rfl⟩ | ⟨call, hentry, rfl⟩⟩ := step_call hst
    · -- the timeout cannot be set
      have hsame : (uartIoctl s.uart req).1 = s.uart := by
        cases req with
        | tiocstimeout n => exact congrArg Prod.fst (if_neg (not_not.mpr h.timeout))
        | tiocgconnected => exact congrArg Prod.fst (if_neg (not_not.mpr h.timeout))
        | other => rfl
      rw [hsame]
      exact h
    · cases r with
      | ioctl req => exact absurd hentry (Option.some_ne_none call).symm
      | _ =>
        obtain rfl := Option.some.inj hentry
        exact ⟨rfl, h.alarms, h.timeout, h.present, trivial⟩
  | cpu => exact h.cpuStep hinv harmed hst
  | uartIrq =>
    obtain ⟨-, rfl⟩ := step_uartIrq hst
    obtain ⟨hok, heff⟩ := irqPass_spec hinv.ok
    obtain ⟨moved, hmoved, -⟩ := (irqPass_queue hinv.ok hinv.rx).queue
    refine ⟨h.live, h.alarms, heff.timeout.trans h.timeout, heff.hostInactive.trans h.present, ?_⟩
    have hcomplete := h.complete
    show s.call.Complete _
    cases hcall : s.call with
    | readAgain r =>
      rw [hcall] at hcomplete
      show rxRing (irqPass c s.uart s.device).1 ≠ []
      rw [hmoved]
      exact List.append_ne_nil_of_left_ne_nil hcomplete _
    | after w =>
      rw [hcall] at hcomplete
      exact ⟨hcomplete.1, heff.not_ringFull hinv.ok.ring hok.ring hcomplete.2⟩
    | _ =>
      rw [hcall] at hcomplete
      exact hcomplete
  | timerIrq =>
    simp only [Driver.step, altTick_of_no_alarms _ h.alarms] at hst
    split_ifs at hst
    obtain rfl := Option.some.inj hst
    exact ⟨h.live, h.alarms, h.timeout, h.present, h.complete⟩
  | hostRead =>
    obtain rfl := Option.some.inj hst
    exact ⟨h.live, h.alarms, h.timeout, h.present, h.complete⟩
  | hostWrite ch =>
    obtain ⟨-, rfl⟩ := step_hostWrite hst
    exact ⟨h.live, h.alarms, h.timeout, h.present, h.complete⟩

/-- A run that starts with the initialisation of the driver, before any clock. -/
theorem unclocked {hal : Hal} (hrate : hal.tickRate = 0#32) (halarms : hal.alarms = [])
    {es : List Event} (hs : exec (step c) (Port.reset hal) (.init :: es) = some s) :
    Unclocked s := by
  rw [exec] at hs
  obtain ⟨r, hr, hs⟩ := Option.bind_eq_some_iff.mp hs
  have hinit : Inv c r ∧ Armed r ∧ Unclocked r :=
    ⟨(inv_reset c hal).step hr, (armed_reset hal).step (inv_reset c hal) hr,
      unclocked_init hrate halarms hr⟩
  refine (exec_invariant (I := fun s => Inv c s ∧ Armed s ∧ Unclocked s) ?_ hinit hs).2.2
  exact fun r e t h hr => ⟨h.1.step hr, h.2.1.step h.1 hr, h.2.2.step h.1 h.2.1 hr⟩

/-- What holds in a run in which the driver comes before the clock. -/
structure Refused (c : Core) (s : Port) : Prop where
  inv : Inv c s
  armed : Armed s
  unclocked : s.call.live = true → Unclocked s
  off : s.call.live = false → s.hal.alarms = [] ∧ s.hal.tickRate = 0#32

theorem refused_reset (c : Core) {hal : Hal} (hrate : hal.tickRate = 0#32)
    (halarms : hal.alarms = []) : Refused c (Port.reset hal) where
  inv := inv_reset c hal
  armed := armed_reset hal
  unclocked := fun hlive => absurd hlive Bool.false_ne_true
  off := fun _ => ⟨halarms, hrate⟩

theorem Refused.alarms (h : Refused c s) : s.hal.alarms = [] := by
  cases hlive : s.call.live with
  | false => exact (h.off hlive).1
  | true => exact (h.unclocked hlive).alarms

/-- Before its initialisation the driver can only be initialised. -/
theorem Refused.step_off (h : Refused c s) (hoff : s.call.live = false) {e : Event}
    (hclock : ∀ rate, e ≠ .clockInit rate) (hst : step c s e = some t) :
    Unclocked t ∨ t.call.live = false ∧ t.hal.alarms = [] ∧ t.hal.tickRate = 0#32 := by
  obtain ⟨halarms, hrate⟩ := h.off hoff
  have hsynced := h.inv.ok.synced
  obtain ⟨hal, uart, device, call⟩ := s
  obtain rfl : call = .off := by
    cases call with
    | off => rfl
    | _ => exact absurd hoff.symm Bool.false_ne_true
  cases e with
  | init => exact Or.inl (unclocked_init hrate halarms hst)
  | clockInit rate => exact absurd rfl (hclock rate)
  | call r => exact absurd hst (Option.some_ne_none t).symm
  | cpu => exact absurd hst (Option.some_ne_none t).symm
  | uartIrq =>
    obtain ⟨-, rfl⟩ := step_uartIrq hst
    exact Or.inr ⟨rfl, halarms, hrate⟩
  | timerIrq =>
    replace halarms : hal.alarms = [] := halarms
    simp only [Driver.step, altTick_of_no_alarms _ halarms] at hst
    split_ifs at hst
    obtain rfl := Option.some.inj hst
    exact Or.inr ⟨rfl, halarms, hrate⟩
  | hostRead =>
    obtain rfl := Option.some.inj hst
    exact Or.inr ⟨rfl, halarms, hrate⟩
  | hostWrite ch =>
    obtain ⟨-, rfl⟩ := step_hostWrite hst
    exact Or.inr ⟨rfl, halarms, hrate⟩

theorem Refused.step (h : Refused c s) {e : Event}
    (hclock : s.call.live = false → ∀ rate, e ≠ .clockInit rate) (hst : step c s e = some t) :
    Refused c t := by
  have hnext : Unclocked t ∨
      t.call.live = false ∧ t.hal.alarms = [] ∧ t.hal.tickRate = 0#32 := by
    cases hlive : s.call.live with
    | false => exact h.step_off hlive (hclock hlive) hst
    | true => exact Or.inl ((h.unclocked hlive).step h.inv h.armed hst)
  refine ⟨h.inv.step hst, h.armed.step h.inv hst, ?_, ?_⟩
  · intro hlive
    exact hnext.resolve_right fun hoff => Bool.false_ne_true (hoff.1.symm.trans hlive)
  · intro hoff
    rcases hnext with hunclocked | ⟨-, hrest⟩
    · exact absurd (hoff.symm.trans hunclocked.live) Bool.false_ne_true
    · exact hrest

/-- When the driver is initialised before the clock, as `alt_sys_init` does it,
    a blocking `write` returns only when it has taken over everything it was
    given, and a blocking `read` only when it has stored something. `-EIO` is
    what they return when they were given nothing to do. -/
theorem blocking_calls_complete (c : Core) {hal : Hal} (hrate : hal.tickRate = 0#32)
    (halarms : hal.alarms = []) (es : List Event) :
    StatesHave (watch (step c) observe) (Port.reset hal, Traffic.none) (fun p =>
      (∀ w, p.1.call = .writeRet w → w.nonblock = false → w.sent = p.2.offered ∧
        (p.2.offered ≠ [] → w.result = .ok p.2.offered.length) ∧
        (p.2.offered = [] → w.result = .error .eio)) ∧
      (∀ r, p.1.call = .readRet r → r.nonblock = false →
        (0 < p.2.asked → ∃ n, 0 < n ∧ n ≤ p.2.asked ∧ r.result = .ok n) ∧
        (p.2.asked = 0 → r.result = .error .eio))) (.init :: es) := by
  intro es' p hpre hp
  cases es' with
  | nil =>
    obtain rfl := Option.some.inj hp
    exact ⟨fun w hw => Call.noConfusion hw, fun r hr => Call.noConfusion hr⟩
  | cons e es' =>
    obtain ⟨rfl, -⟩ := List.cons_prefix_cons.mp hpre
    have hargs := (watched hp).2.args
    have hfst : (exec (watch (step c) observe) (Port.reset hal, Traffic.none)
        (.init :: es')).map Prod.fst = exec (step c) (Port.reset hal) (.init :: es') :=
      exec_watch observe Traffic.none
    rw [hp] at hfst
    have hcomplete := (unclocked hrate halarms hfst.symm).complete
    refine ⟨?_, ?_⟩
    · intro w hw hblock
      rw [hw] at hargs hcomplete
      have hsent : w.sent = p.2.offered := by
        rw [← hargs, hcomplete hblock, List.append_nil]
      refine ⟨hsent, fun hne => ?_, fun hnil => ?_⟩
      · exact WriteCall.result_eq_ok_iff.mpr ⟨hsent ▸ hne, congrArg List.length hsent.symm⟩
      · exact WriteCall.result_eq_error_iff.mpr ⟨hsent.trans hnil, by rw [hblock]; rfl⟩
    · intro r hr hblock
      rw [hr] at hargs hcomplete
      replace hargs : r.got.length + r.space = p.2.asked := hargs
      refine ⟨fun hpos => ?_, fun hzero => ?_⟩
      · have hgot : r.got ≠ [] := by
          intro hnil
          have hspace := hcomplete hblock hnil
          rw [hnil, hspace] at hargs
          exact absurd hargs.symm hpos.ne'
        exact ⟨r.got.length, List.length_pos_iff.mpr hgot, by omega,
          ReadCall.result_eq_ok_iff.mpr ⟨hgot, rfl⟩⟩
      · have hgot : r.got = [] := List.eq_nil_of_length_eq_zero (by omega)
        exact ReadCall.result_eq_error_iff.mpr ⟨hgot, by rw [hblock]; rfl⟩

theorem blocking_calls_complete_init :
    StatesHave (watch (step jtagUart) observe) (Port.reset Hal.init, Traffic.none) (fun p =>
      (∀ w, p.1.call = .writeRet w → w.nonblock = false → w.sent = p.2.offered ∧
        (p.2.offered ≠ [] → w.result = .ok p.2.offered.length) ∧
        (p.2.offered = [] → w.result = .error .eio)) ∧
      (∀ r, p.1.call = .readRet r → r.nonblock = false →
        (0 < p.2.asked → ∃ n, 0 < n ∧ n ≤ p.2.asked ∧ r.result = .ok n) ∧
        (p.2.asked = 0 → r.result = .error .eio)))
      [.init, .clockInit altCpuTicksPerSec, .call (.write ['o', 'k'] false), .cpu, .cpu, .cpu,
        .cpu, .cpu, .cpu] :=
  blocking_calls_complete jtagUart rfl rfl _

/-! ## With a clock -/

/-- Is this event a tick? -/
def Event.isTick : Event → Bool
  | .timerIrq => true
  | _ => false

/-- The tick at which the alarm is due next. -/
def Port.nextAlarm (s : Port) : ℕ := (s.hal.alarms.headD 0#64).toNat

/-- What holds when the driver has been initialised with a clock of `rate` ticks
    a second: its alarm is registered and due within a second. -/
structure Clocked (rate : BitVec 32) (s : Port) : Prop where
  live : s.call.live = true
  tickRate : s.hal.tickRate = rate
  alarms : ∃ time, s.hal.alarms = [time]
  ahead : s.hal.nticks.toNat < s.nextAlarm
  soon : s.nextAlarm ≤ s.hal.nticks.toNat + rate.toNat + 1

theorem clocked_init {hal : Hal} (hrate : hal.tickRate ≠ 0#32) (halarms : hal.alarms = [])
    (hwrap : hal.nticks.toNat + 2 ^ 32 < 2 ^ 64)
    (hst : step c (Port.reset hal) .init = some t) : Clocked hal.tickRate t := by
  obtain ⟨-, rfl⟩ := step_init hst
  have hlt := hal.tickRate.isLt
  have htime : (hal.tickRate.zeroExtend 64 + hal.nticks + 1#64).toNat =
      hal.tickRate.toNat + hal.nticks.toNat + 1 := by
    rw [BitVec.toNat_add, BitVec.toNat_add, BitVec.toNat_setWidth]
    simp only [BitVec.toNat_ofNat]
    omega
  have hstart : altAlarmStart hal hal.tickRate = some { hal with
      alarms := [hal.tickRate.zeroExtend 64 + hal.nticks + 1#64] } := by
    rw [altAlarmStart, if_pos hrate, halarms]
  have heq : uartInit hal UartState.init Device.init = ({ hal with
      alarms := [hal.tickRate.zeroExtend 64 + hal.nticks + 1#64] },
      { UartState.init with irqEnable := ⟨true, false⟩, hostInactive := 0 },
      { Device.init with irqEnable := ⟨true, false⟩ }) := by
    unfold uartInit
    rw [hstart]
  show Clocked _ ⟨(uartInit hal UartState.init Device.init).1,
    (uartInit hal UartState.init Device.init).2.1,
    (uartInit hal UartState.init Device.init).2.2, .idle⟩
  rw [heq]
  refine ⟨rfl, rfl, ⟨_, rfl⟩, ?_, ?_⟩
  · show hal.nticks.toNat < (hal.tickRate.zeroExtend 64 + hal.nticks + 1#64).toNat
    omega
  · show (hal.tickRate.zeroExtend 64 + hal.nticks + 1#64).toNat ≤
      hal.nticks.toNat + hal.tickRate.toNat + 1
    omega

variable {rate : BitVec 32}

/-- A tick either brings the alarm closer, or it is due: then the callback is
    made and the next one is due after a second. -/
theorem Clocked.timerIrq (h : Clocked rate s) (hrate : rate ≠ 0#32)
    (hwrap : s.hal.nticks.toNat + 2 ^ 33 < 2 ^ 64) (hst : step c s .timerIrq = some t) :
    Clocked rate t ∧ t.hal.nticks.toNat = s.hal.nticks.toNat + 1 ∧ t.call = s.call ∧
      (t.nextAlarm = s.nextAlarm ∧ t.uart = s.uart ∧ t.device = s.device ∨
        s.hal.nticks.toNat + 1 = s.nextAlarm ∧ t.nextAlarm = s.nextAlarm + rate.toNat ∧
          (t.uart, t.device) = (uartTimeout c rate (s.uart, s.device)).2) := by
  obtain ⟨hlive, htick, ⟨time, htime⟩, hahead, hsoon⟩ := h
  have hlt := rate.isLt
  have hnext : s.nextAlarm = time.toNat := by rw [Port.nextAlarm, htime]; rfl
  rw [hnext] at hahead hsoon
  have hnow : (s.hal.nticks + 1#64).toNat = s.hal.nticks.toNat + 1 := by
    rw [BitVec.toNat_add, BitVec.toNat_ofNat]
    omega
  have hret : (uartTimeout c rate (s.uart, s.device)).1 = rate := by
    unfold uartTimeout
    simp only
    split_ifs <;> rfl
  simp only [step, altTick, htime, htick, processAlarms] at hst
  split_ifs at hst with henabled hdue hzero
  · exact absurd (hret.symm.trans hzero) hrate
  · obtain rfl := Option.some.inj hst
    replace hdue : time.toNat ≤ (s.hal.nticks + 1#64).toNat := hdue
    have hnew : (time + (uartTimeout c rate (s.uart, s.device)).1.zeroExtend 64).toNat =
        time.toNat + rate.toNat := by
      rw [hret, BitVec.toNat_add, BitVec.toNat_setWidth]
      omega
    have hpos : 0 < rate.toNat := by
      rw [Nat.pos_iff_ne_zero]
      exact fun hz => hrate (BitVec.eq_of_toNat_eq hz)
    refine ⟨⟨hlive, rfl, ⟨_, rfl⟩, ?_, ?_⟩, hnow, rfl, Or.inr ⟨?_, ?_, rfl⟩⟩
    · show (s.hal.nticks + 1#64).toNat <
        (time + (uartTimeout c rate (s.uart, s.device)).1.zeroExtend 64).toNat
      omega
    · show (time + (uartTimeout c rate (s.uart, s.device)).1.zeroExtend 64).toNat ≤
        (s.hal.nticks + 1#64).toNat + rate.toNat + 1
      omega
    · rw [hnext]
      omega
    · rw [hnext]
      exact hnew
  · obtain rfl := Option.some.inj hst
    replace hdue : ¬ time.toNat ≤ (s.hal.nticks + 1#64).toNat := hdue
    refine ⟨⟨hlive, rfl, ⟨_, rfl⟩, ?_, ?_⟩, hnow, rfl, Or.inl ⟨hnext.symm, rfl, rfl⟩⟩
    · show (s.hal.nticks + 1#64).toNat < time.toNat
      omega
    · show time.toNat ≤ (s.hal.nticks + 1#64).toNat + rate.toNat + 1
      omega

/-- What a step of a call leaves alone. -/
theorem cpuStep_frame (hst : cpuStep s = some t) : t.hal = s.hal ∧
    t.uart.timeout = s.uart.timeout ∧ t.uart.hostInactive = s.uart.hostInactive ∧
    t.device.active = s.device.active ∧ t.call.live = true := by
  have hstep := CallStep.of_cpuStep hst
  obtain ⟨hal, uart, device, call⟩ := s
  cases hstep with
  | @readAdvance r r' out chars hr =>
    refine ⟨rfl, rfl, rfl, rfl, ?_⟩
    show Call.live (if 0 < r'.space then .readLoad r' else .readCheck r') = true
    split_ifs <;> rfl
  | _ => exact ⟨rfl, rfl, rfl, rfl, rfl⟩

/-- An event that leaves the clock alone. -/
theorem Clocked.of_hal (h : Clocked rate s) (hhal : t.hal = s.hal) (hlive : t.call.live = true) :
    Clocked rate t := by
  refine ⟨hlive, hhal ▸ h.tickRate, hhal ▸ h.alarms, ?_, ?_⟩
  · rw [Port.nextAlarm, hhal]
    exact h.ahead
  · rw [Port.nextAlarm, hhal]
    exact h.soon

theorem Clocked.step (h : Clocked rate s) (hrate : rate ≠ 0#32)
    (hwrap : s.hal.nticks.toNat + 2 ^ 33 < 2 ^ 64) {e : Event} (hst : step c s e = some t) :
    Clocked rate t ∧
      t.hal.nticks.toNat = s.hal.nticks.toNat + if e.isTick then 1 else 0 := by
  have hkeep : e.isTick = false → t.hal = s.hal → t.call.live = true → Clocked rate t ∧
      t.hal.nticks.toNat = s.hal.nticks.toNat + if e.isTick then 1 else 0 := by
    intro htick hhal hlive
    rw [htick, hhal]
    exact ⟨h.of_hal hhal hlive, rfl⟩
  cases e with
  | init =>
    obtain ⟨hoff, -⟩ := step_init hst
    have hlive := h.live
    rw [hoff] at hlive
    exact absurd hlive Bool.false_ne_true
  | clockInit ticksPerSec =>
    -- the rate is only set once
    have hsame : altSysclkInit s.hal ticksPerSec = s.hal := if_neg (h.tickRate ▸ hrate)
    rw [Driver.step, hsame] at hst
    obtain rfl := Option.some.inj hst
    exact ⟨⟨h.live, h.tickRate, h.alarms, h.ahead, h.soon⟩, rfl⟩
  | call r =>
    obtain ⟨-, ⟨req, -, rfl⟩ | ⟨call, hentry, rfl⟩⟩ := step_call hst
    · exact hkeep rfl rfl h.live
    · refine hkeep rfl rfl ?_
      cases r with
      | ioctl req => exact absurd hentry (Option.some_ne_none call).symm
      | _ => exact Option.some.inj hentry ▸ rfl
  | cpu =>
    obtain ⟨hhal, -, -, -, hlive⟩ := cpuStep_frame hst
    exact hkeep rfl hhal hlive
  | uartIrq =>
    obtain ⟨-, rfl⟩ := step_uartIrq hst
    exact hkeep rfl rfl h.live
  | timerIrq =>
    obtain ⟨hclocked, hnow, -⟩ := h.timerIrq hrate hwrap hst
    exact ⟨hclocked, hnow⟩
  | hostRead =>
    obtain rfl := Option.some.inj hst
    exact hkeep rfl rfl h.live
  | hostWrite ch =>
    obtain ⟨-, rfl⟩ := step_hostWrite hst
    exact hkeep rfl rfl h.live

/-- A run that starts with the initialisation of the driver, after the clock. -/
theorem clocked {hal : Hal} (hrate : hal.tickRate ≠ 0#32) (halarms : hal.alarms = [])
    {es : List Event} (hwrap : hal.nticks.toNat + es.countP Event.isTick + 2 ^ 33 < 2 ^ 64)
    (hs : exec (step c) (Port.reset hal) (.init :: es) = some s) :
    Clocked hal.tickRate s ∧ s.hal.nticks.toNat = hal.nticks.toNat + es.countP Event.isTick := by
  rw [exec] at hs
  obtain ⟨r, hr, hrun⟩ := Option.bind_eq_some_iff.mp hs
  clear hs
  induction es using List.reverseRecOn generalizing s with
  | nil =>
    obtain rfl := Option.some.inj hrun
    refine ⟨clocked_init hrate halarms (by omega) hr, ?_⟩
    obtain ⟨-, rfl⟩ := step_init hr
    show (uartInit hal UartState.init Device.init).1.nticks.toNat = hal.nticks.toNat + 0
    rw [uartInit, altAlarmStart, if_pos hrate]
    rfl
  | append_singleton es e ih =>
    rw [List.countP_append, List.countP_singleton] at hwrap ⊢
    obtain ⟨q, hq, hqs⟩ := exec_concat_eq_some_iff.mp hrun
    obtain ⟨hclocked, hnow⟩ := ih (by omega) hq
    obtain ⟨hclocked', hnow'⟩ := hclocked.step hrate (by omega) hqs
    rw [hnow', hnow, Nat.add_assoc]
    exact ⟨hclocked', rfl⟩

/-! ## The host goes away -/

/-- Neither the host nor the application does anything new. -/
def Event.Silent : Event → Prop
  | .cpu | .uartIrq | .timerIrq => True
  | _ => False

/-- What `n` callbacks without the host have done since the state `s`. -/
structure Counted (s t : Port) (n : ℕ) : Prop where
  timeout : t.uart.timeout = s.uart.timeout
  counted : n = 0 ∨ t.device.active = false ∧ min (n - 1) (intMax - 2) ≤ t.uart.hostInactive

/-- A callback: the first may still find the activity bit set. -/
theorem Counted.uartTimeout {n : ℕ} {r : Port} (h : Counted s r n)
    (ht : (t.uart, t.device) = (Firmware.uartTimeout c rate (r.uart, r.device)).2) :
    Counted s t (n + 1) := by
  obtain ⟨htimeout, hcounted⟩ := h
  have huart := congrArg Prod.fst ht
  have hdevice := congrArg Prod.snd ht
  simp only [Firmware.uartTimeout] at huart hdevice
  split_ifs at huart hdevice with hactive hmax
  · refine ⟨?_, Or.inr ⟨?_, ?_⟩⟩
    · rw [huart]
      exact htimeout
    · rw [hdevice]
    · have hzero : n = 0 := hcounted.resolve_right fun h => by
        rw [Device.control, h.1] at hactive
        exact Bool.false_ne_true hactive
      subst hzero
      exact Nat.zero_le _
  · refine ⟨?_, Or.inr ⟨?_, ?_⟩⟩
    · rw [huart]
      exact htimeout
    · rw [hdevice]
      exact Bool.eq_false_iff.mpr hactive
    · rw [huart]
      show min (n + 1 - 1) (intMax - 2) ≤ r.uart.hostInactive + 1
      rcases hcounted with rfl | ⟨-, hle⟩
      · exact Nat.zero_le _
      · omega
  · refine ⟨?_, Or.inr ⟨?_, ?_⟩⟩
    · rw [huart]
      exact htimeout
    · rw [hdevice]
      exact Bool.eq_false_iff.mpr hactive
    · rw [huart]
      show min (n + 1 - 1) (intMax - 2) ≤ r.uart.hostInactive
      omega

/-- After any number of ticks without the host, `n` callbacks have been made:
    one each `rate` ticks. -/
theorem Clocked.silent (h : Clocked rate s) (hrate : rate ≠ 0#32) {es : List Event}
    (hwrap : s.hal.nticks.toNat + es.countP Event.isTick + 2 ^ 33 < 2 ^ 64) (hsilent : ∀ e ∈ es, e.Silent)
    (hinv : Inv c s) (ht : exec (Driver.step c) s es = some t) :
    ∃ n, Inv c t ∧ Clocked rate t ∧ Counted s t n ∧
      t.hal.nticks.toNat = s.hal.nticks.toNat + es.countP Event.isTick ∧
      t.nextAlarm = s.nextAlarm + n * rate.toNat := by
  induction es using List.reverseRecOn generalizing t with
  | nil =>
    obtain rfl := Option.some.inj ht
    exact ⟨0, hinv, h, ⟨rfl, Or.inl rfl⟩, rfl, by omega⟩
  | append_singleton es e ih =>
    obtain ⟨r, hr, hrt⟩ := exec_concat_eq_some_iff.mp ht
    rw [List.countP_append, List.countP_singleton] at hwrap
    obtain ⟨n, hinv', hclocked, hcounted, hnow, hnext⟩ :=
      ih (by omega) (fun e he => hsilent e (List.mem_append_left _ he)) hr
    have he : e.Silent := hsilent e (by simp)
    have hother : e.isTick = false → t.hal = r.hal → t.uart.timeout = r.uart.timeout →
        t.uart.hostInactive = r.uart.hostInactive → t.device.active = r.device.active →
        t.call.live = true → ∃ n, Inv c t ∧ Clocked rate t ∧ Counted s t n ∧
          t.hal.nticks.toNat = s.hal.nticks.toNat + (es ++ [e]).countP Event.isTick ∧
          t.nextAlarm = s.nextAlarm + n * rate.toNat := by
      intro htick hhal htimeout hinactive hactive hlive
      refine ⟨n, hinv'.step hrt, hclocked.of_hal hhal hlive, ⟨htimeout.trans hcounted.timeout, ?_⟩,
        ?_, ?_⟩
      · rw [hactive, hinactive]
        exact hcounted.counted
      · rw [List.countP_append, List.countP_singleton, htick, hhal, hnow]
        rfl
      · rw [Port.nextAlarm, hhal]
        exact hnext
    cases e with
    | cpu =>
      obtain ⟨hhal, htimeout, hinactive, hactive, hlive⟩ := cpuStep_frame hrt
      exact hother rfl hhal htimeout hinactive hactive hlive
    | uartIrq =>
      obtain ⟨-, rfl⟩ := step_uartIrq hrt
      obtain ⟨-, heff⟩ := irqPass_spec hinv'.ok
      exact hother rfl rfl heff.timeout heff.hostInactive heff.active hclocked.live
    | timerIrq =>
      obtain ⟨hclocked', hnow', -, hdue⟩ := hclocked.timerIrq hrate (by omega) hrt
      have hcount : (es ++ [Event.timerIrq]).countP Event.isTick = es.countP Event.isTick + 1 := by
        rw [List.countP_append]
        rfl
      rcases hdue with ⟨hnext', huart, hdevice⟩ | ⟨-, hnext', htimeout⟩
      · refine ⟨n, hinv'.step hrt, hclocked', ⟨huart ▸ hcounted.timeout, ?_⟩, by omega,
          hnext'.trans hnext⟩
        rw [huart, hdevice]
        exact hcounted.counted
      · refine ⟨n + 1, hinv'.step hrt, hclocked', hcounted.uartTimeout htimeout, by omega, ?_⟩
        rw [hnext', hnext, Nat.succ_mul]
        omega
    | _ => exact he.elim

/-- A step of a call that changes nothing is a turn of a wait loop, and the host
    is taken to be there. -/
theorem hostInactive_lt_of_spin (hspin : cpuStep s = some s) :
    s.uart.hostInactive < s.uart.timeout := by
  have hstep := CallStep.of_cpuStep hspin
  obtain ⟨hal, uart, device, call⟩ := s
  replace hstep : CallStep hal uart device call ⟨hal, uart, device, call⟩ := hstep
  generalize ht : (⟨hal, uart, device, call⟩ : Port) = t at hstep
  have hcall := congrArg Port.call ht
  cases hstep with
  | readSpin _ hlt => exact hlt
  | spin _ hlt => exact hlt
  | closeSpin _ hlt => exact hlt
  | @readAdvance r r' out chars hr =>
    replace hcall : Call.readAdvance r out chars =
      if 0 < r'.space then .readLoad r' else .readCheck r' := hcall
    split_ifs at hcall
  | _ => exact Call.noConfusion hcall

/-- No wait outlasts `timeout + 1` seconds of ticks in which the host does
    nothing: by then the driver takes the host to be away, and the call under
    way, if there is one, goes on. -/
theorem wait_bounded {hal : Hal} (hrate : hal.tickRate ≠ 0#32) (halarms : hal.alarms = [])
    {es es' : List Event} {s t : Port}
    (hs : exec (step c) (Port.reset hal) (.init :: es) = some s)
    (ht : exec (step c) s es' = some t) (hsilent : ∀ e ∈ es', e.Silent)
    (hticks : (s.uart.timeout + 1) * hal.tickRate.toNat < es'.countP Event.isTick)
    (hmax : s.uart.timeout ≤ intMax - 2)
    (hwrap : hal.nticks.toNat + es.countP Event.isTick + es'.countP Event.isTick + 2 ^ 33 < 2 ^ 64) :
    t.uart.timeout ≤ t.uart.hostInactive ∧ cpuStep t ≠ some t := by
  obtain ⟨hclocked, hnow⟩ := clocked hrate halarms (by omega) hs
  have hinv : Inv c s := exec_invariant (fun _ _ _ h hr => h.step hr) (inv_reset c hal) hs
  obtain ⟨n, -, hclocked', hcounted, hnow', hnext⟩ :=
    hclocked.silent hrate (by omega) hsilent hinv ht
  have hsoon := hclocked.soon
  have hahead := hclocked'.ahead
  have hn : s.uart.timeout + 1 < n + 1 := by
    refine Nat.lt_of_mul_lt_mul_right (a := hal.tickRate.toNat) ?_
    rw [Nat.add_mul n, Nat.one_mul]
    omega
  have haway : t.uart.timeout ≤ t.uart.hostInactive := by
    rw [hcounted.timeout]
    rcases hcounted.counted with hzero | ⟨-, hle⟩
    · omega
    · omega
  exact ⟨haway, fun hspin => absurd (hostInactive_lt_of_spin hspin) (not_lt.mpr haway)⟩

/-- A `read` that waits for the first character, at one tick a second. -/
theorem wait_bounded_read : ∃ s t,
    exec (step jtagUart) (Port.reset ⟨1#32, 0#64, [], true⟩)
      (.init :: .call (.read 1 false) :: List.replicate 4 .cpu) = some s ∧
    s.call = .readWait ⟨[], 1, false, 0⟩ ∧
    exec (step jtagUart) s (List.replicate 12 .timerIrq) = some t ∧
    t.uart.timeout ≤ t.uart.hostInactive ∧ cpuStep t ≠ some t := by
  have hrun : (exec (step jtagUart) (Port.reset ⟨1#32, 0#64, [], true⟩)
      (.init :: .call (.read 1 false) :: List.replicate 4 .cpu)).map (fun s =>
        (s.call, s.uart.timeout)) = some (.readWait ⟨[], 1, false, 0⟩, 10) := rfl
  have hgo : ((exec (step jtagUart) (Port.reset ⟨1#32, 0#64, [], true⟩)
      (.init :: .call (.read 1 false) :: List.replicate 4 .cpu)).bind fun s =>
        exec (step jtagUart) s (List.replicate 12 .timerIrq)).isSome = true := rfl
  obtain ⟨s, hs, hcall⟩ := Option.map_eq_some_iff.mp hrun
  obtain ⟨hcall, htimeout⟩ := Prod.mk.inj hcall
  rw [hs, Option.bind_some] at hgo
  obtain ⟨t, ht⟩ := Option.isSome_iff_exists.mp hgo
  have hend := wait_bounded (by decide) rfl hs ht (fun e he => List.eq_of_mem_replicate he ▸ trivial)
    (by rw [htimeout]; decide) (by rw [htimeout]; decide) (by decide)
  exact ⟨s, t, hs, hcall, ht, hend⟩

end NiosvCodesign.Firmware.Driver

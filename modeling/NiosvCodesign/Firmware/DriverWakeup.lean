import NiosvCodesign.Firmware.DriverStreams

/-!
# The driver's interrupts

The interrupt routine turns an interrupt off when it has nothing to do, and the
calls turn it on again. A call that spins relies on this.

* `irqPass_quiet`, `no_two_passes`: a turn of the interrupt routine deals with
  everything that was pending, so its loop never turns twice without the host or
  the program having done something in between.
* `armed`, `spinning_armed`: no wake-up is lost. Outside `write` up to its kick,
  characters in the ring have the write interrupt on; unless a `read` is about
  to turn it on, the read interrupt is on or the ring is full.
* `host_gets_all`: so from any reachable state a host that reads gets everything
  `write` has taken over.
-/

namespace NiosvCodesign.Firmware.Driver

open Transitions UartState

/-! ## The interrupt routine -/

/-- The core requests no read interrupt on an empty read FIFO, no write interrupt
    on a full write FIFO and one on an empty write FIFO. -/
structure CoreOk (c : Core) : Prop where
  readEmpty : c.readIrq 0 = false
  writeFull : c.writeIrq c.writeDepth = false
  writeEmpty : c.writeIrq 0 = true

theorem coreOk_jtagUart : CoreOk jtagUart := ⟨rfl, rfl, rfl⟩

variable {c : Core} {s t : Port} {sp : UartState} {d : Device}

/-- What is left of `write` interrupts after one: the ring is empty and the
    interrupt off, or the FIFO is full. -/
theorem txIrq_end (hring : sp.RingOk) (hfits : d.txFifo.length ≤ c.writeDepth) :
    ((txIrq (c.writeDepth - d.txFifo.length) sp d).1.irqEnable.we = false ∧
        (txIrq (c.writeDepth - d.txFifo.length) sp d).1.ring = []) ∨
      ((txIrq (c.writeDepth - d.txFifo.length) sp d).1.irqEnable.we = sp.irqEnable.we ∧
        (txIrq (c.writeDepth - d.txFifo.length) sp d).2.txFifo.length = c.writeDepth) := by
  obtain ⟨moved, out, heq, -, -, hlen, hend⟩ :=
    txLoop_spec hring (c.writeDepth - d.txFifo.length) d
  unfold txIrq
  simp only [heq]
  split_ifs with hleft
  · exact Or.inl ⟨rfl, hend.resolve_left (by omega)⟩
  · refine Or.inr ⟨rfl, ?_⟩
    show (d.txFifo ++ moved).length = c.writeDepth
    rw [List.length_append]
    omega

/-- A turn of the interrupt routine ends with the write interrupt as it was or
    with nothing to send. -/
theorem irqPass_we (hok : UartOk c sp d) : (irqPass c sp d).1.irqEnable.we = sp.irqEnable.we ∨
    (irqPass c sp d).1.ring = [] := by
  have hrx : ∃ r, (if (d.control c).ri then rxIrq sp d else (sp, d)) = r ∧ r.1.RingOk ∧
      r.2.txFifo = d.txFifo ∧ r.1.irqEnable.we = sp.irqEnable.we := by
    split_ifs
    · obtain ⟨hok', -, hfifo, hwe⟩ := rxIrq_spec hok
      exact ⟨_, rfl, hok'.ring, hfifo, hwe⟩
    · exact ⟨_, rfl, hok.ring, rfl, rfl⟩
  obtain ⟨⟨sp', d'⟩, hr, hring, hfifo, hwe⟩ := hrx
  replace hfifo : d'.txFifo = d.txFifo := hfifo
  have hspace : (d.control c).wspace = c.writeDepth - d'.txFifo.length := by
    rw [hfifo]
    rfl
  unfold irqPass
  simp only [hr, hspace]
  split_ifs
  · rcases txIrq_end hring (hfifo ▸ hok.fits) with ⟨-, hempty⟩ | ⟨hsame, -⟩
    · exact Or.inr hempty
    · exact Or.inl (hsame.trans hwe)
  · exact Or.inl hwe

/-- After a turn of the interrupt routine nothing is pending. -/
theorem irqPass_quiet (hcore : CoreOk c) (hok : UartOk c sp d) (hrx : RxOk sp) :
    ((irqPass c sp d).2.control c).ri = false ∧ ((irqPass c sp d).2.control c).wi = false := by
  have hfirst : ∃ r, (if (d.control c).ri then rxIrq sp d else (sp, d)) = r ∧ UartOk c r.1 r.2 ∧
      RxOk r.1 ∧ r.2.txFifo = d.txFifo ∧ (r.2.control c).wi = (d.control c).wi ∧
      (r.2.control c).ri = false := by
    split_ifs with hri
    · obtain ⟨hok', -, hfifo, hwe⟩ := rxIrq_spec hok
      obtain ⟨heff, hdone⟩ := rxIrq_queue hrx d
      refine ⟨_, rfl, hok', heff.ok, hfifo, ?_, ?_⟩
      · simp only [Device.control, hok'.synced, hok.synced, hwe, hfifo]
      · simp only [Device.control, hok'.synced]
        rcases hdone with hre | hempty
        · rw [hre, Bool.false_and]
        · rw [hempty, List.length_nil, hcore.readEmpty, Bool.and_false]
    · exact ⟨_, rfl, hok, hrx, rfl, rfl, Bool.eq_false_iff.mpr hri⟩
  obtain ⟨⟨sp', d'⟩, hr, hok', hrx', hfifo, hwi, hri⟩ := hfirst
  replace hfifo : d'.txFifo = d.txFifo := hfifo
  replace hwi : (d'.control c).wi = (d.control c).wi := hwi
  replace hri : (d'.control c).ri = false := hri
  have hspace : (d.control c).wspace = c.writeDepth - d'.txFifo.length := by
    rw [hfifo]
    rfl
  unfold irqPass
  simp only [hr, hspace]
  split_ifs with hpending
  · obtain ⟨hok'', -⟩ := txIrq_spec hok'
    obtain ⟨-, hre, hrxFifo⟩ := txIrq_queue hok'.ring hrx' (c.writeDepth - d'.txFifo.length) d'
    refine ⟨?_, ?_⟩
    · simp only [Device.control, hok''.synced, hre, hrxFifo]
      rw [← hok'.synced]
      exact hri
    · simp only [Device.control, hok''.synced]
      rcases txIrq_end hok'.ring hok'.fits with ⟨hwe, -⟩ | ⟨-, hfull⟩
      · rw [hwe, Bool.false_and]
      · rw [hfull, hcore.writeFull, Bool.and_false]
  · exact ⟨hri, hwi.trans (Bool.eq_false_iff.mpr hpending)⟩

/-- On an empty FIFO the write interrupt sends something. -/
theorem irqPass_moves (hcore : CoreOk c) (hok : UartOk c sp d) (hrx : RxOk sp)
    (hwe : sp.irqEnable.we = true) (hfifo : d.txFifo = []) (hring : sp.ring ≠ []) :
    (irqPass c sp d).2.txFifo ≠ [] := by
  intro hnil
  obtain ⟨hok', heff⟩ := irqPass_spec hok
  obtain ⟨-, hwi⟩ := irqPass_quiet hcore hok hrx
  have hqueue := heff.queue
  rw [hnil, hfifo, List.nil_append, List.nil_append] at hqueue
  rcases irqPass_we hok with hsame | hempty
  · -- the interrupt would still be pending
    simp only [Device.control, hok'.synced, hsame, hwe, hnil, List.length_nil, hcore.writeEmpty,
      Bool.and_true] at hwi
    exact Bool.false_ne_true hwi.symm
  · rw [hempty] at hqueue
    exact hring hqueue.symm

/-- The interrupt routine never turns twice in a row: once it has dealt with
    what was pending, only the host or the program can make it turn again. -/
theorem no_two_passes (hcore : CoreOk c) (hal : Hal) (es es' : List Event) :
    exec (step c) (Port.reset hal) (es ++ .uartIrq :: .uartIrq :: es') = none := by
  rw [exec_append]
  cases hs : exec (step c) (Port.reset hal) es with
  | none => rfl
  | some s =>
    have hinv : Inv c s := exec_invariant (fun _ _ _ h hr => h.step hr) (inv_reset c hal) hs
    show exec (step c) s (.uartIrq :: .uartIrq :: es') = none
    rw [exec]
    cases ht : step c s .uartIrq with
    | none => rfl
    | some t =>
      obtain ⟨-, rfl⟩ := step_uartIrq ht
      obtain ⟨hri, hwi⟩ := irqPass_quiet hcore hinv.ok hinv.rx
      have hquiet : ¬ Port.irqPending c { s with
          uart := (irqPass c s.uart s.device).1
          device := (irqPass c s.uart s.device).2 } = true := by
        unfold Port.irqPending
        rw [hri, hwi]
        exact Bool.false_ne_true
      show exec (step c) _ (.uartIrq :: es') = none
      rw [exec, step, if_neg hquiet]
      rfl

/-- The core of the board. -/
theorem no_two_passes_jtagUart :
    exec (step jtagUart) (Port.reset Hal.init)
      ([.init, .hostWrite 'a'] ++ .uartIrq :: .uartIrq :: []) = none :=
  no_two_passes coreOk_jtagUart Hal.init [.init, .hostWrite 'a'] []

/-! ## No wake-up is lost -/

/-- `write` on its way to its kick. -/
def Call.sending : Call → Bool
  | .copy _ | .store _ _ | .advance _ _ _ | .kick _ => true
  | _ => false

/-- `read` on its way to turning its interrupt on. -/
def Call.fetched : Call → Bool
  | .readLoad r | .readCopy r _ | .readAdvance r _ _ | .readCheck r => r.got ≠ []
  | .readEnable _ => true
  | _ => false

/-- What the last value loaded before a wait says about the rings. -/
def Call.Stuck (sp : UartState) : Call → Prop
  | .readCheck r => r.got = [] → r.inn = sp.rxOut
  | .readWait r | .readAgain r => r.inn = sp.rxOut
  | .kick w | .test w => w.data ≠ [] → (sp.txIn + 1) % bufLen = w.out
  | .wait w => w.data ≠ [] ∧ (sp.txIn + 1) % bufLen = w.out
  | _ => True

theorem Call.stuck_congr {sp sp' : UartState} (hout : sp'.rxOut = sp.rxOut)
    (hin : sp'.txIn = sp.txIn) {call : Call} (h : call.Stuck sp) : call.Stuck sp' := by
  unfold Call.Stuck at *
  rw [hout, hin]
  exact h

/-- Has the driver been initialised? -/
def Call.live : Call → Bool
  | .off => false
  | _ => true

/-- Whatever has to go on has its interrupt on. -/
structure Armed (s : Port) : Prop where
  off : s.call.live = false → s.uart.ring = []
  tx : s.uart.irqEnable.we = true ∨ s.uart.ring = [] ∨ s.call.sending = true
  rx : s.call.live = false ∨ s.uart.irqEnable.re = true ∨ RxFull s.uart ∨ s.call.fetched = true
  stuck : s.call.Stuck s.uart

theorem armed_reset (hal : Hal) : Armed (Port.reset hal) := by
  have hpos : 0 < bufLen := by unfold bufLen; norm_num
  have hring : UartState.init.ring = [] := (ring_eq_nil_iff ⟨hpos, hpos⟩).mpr rfl
  exact ⟨fun _ => hring, Or.inr (Or.inl hring), Or.inl rfl, trivial⟩

/-- A step of a call that leaves driver and core alone. -/
theorem Armed.of_call (h : Armed s) {call : Call} (hlive : s.call.live = true)
    (hlive' : call.live = true) (hsending : s.call.sending = true → call.sending = true)
    (hfetched : s.call.fetched = true → call.fetched = true) (hstuck : call.Stuck s.uart) :
    Armed { s with call := call } where
  off := fun hoff => absurd (hoff.symm.trans hlive') Bool.false_ne_true
  tx := h.tx.imp_right fun h => h.imp_right hsending
  rx := by
    refine Or.inr ((h.rx.resolve_left ?_).imp_right fun h => h.imp_right hfetched)
    rw [hlive]
    exact fun hoff => absurd hoff.symm Bool.false_ne_true
  stuck := hstuck

theorem Armed.cpuStep (h : Armed s) (hinv : Inv c s) (hst : cpuStep s = some t) : Armed t := by
  have hstep := CallStep.of_cpuStep hst
  have hcall := hinv.call
  have hring := hinv.ok.ring
  have hrxOk := hinv.rx
  have hstuck := h.stuck
  obtain ⟨hal, uart, device, call⟩ := s
  replace hring : uart.RingOk := hring
  replace hrxOk : RxOk uart := hrxOk
  cases hstep with
  | readMore => exact h.of_call rfl rfl id (fun hne => absurd hne Bool.false_ne_true) trivial
  | @readEmpty r out hblock =>
    obtain ⟨-, hin, hout, -⟩ := hcall
    replace hout : out = uart.rxOut := hout
    subst hout
    refine h.of_call rfl rfl id id fun _ => ?_
    show r.inn = uart.rxOut
    have hlt := hrxOk.2
    unfold rxBlock at hblock
    split_ifs at hblock <;> omega
  | @readAdvance r r' out chars hr =>
    obtain ⟨-, hne, -⟩ := hcall
    have hgot : r'.got ≠ [] := by
      rw [hr]
      exact List.append_ne_nil_of_right_ne_nil _ hne
    refine ⟨?_, h.tx.imp_right fun h => h.imp_right fun h => absurd h Bool.false_ne_true, ?_, ?_⟩
    · show Call.live (if 0 < r'.space then .readLoad r' else .readCheck r') = false → _
      split_ifs <;> exact fun hoff => absurd hoff.symm Bool.false_ne_true
    · refine Or.inr (Or.inr (Or.inr ?_))
      show Call.fetched (if 0 < r'.space then .readLoad r' else .readCheck r') = true
      split_ifs <;> exact decide_eq_true hgot
    · show Call.Stuck _ (if 0 < r'.space then .readLoad r' else .readCheck r')
      split_ifs
      · trivial
      · exact fun hnil => absurd hnil hgot
  | readSome hgot => exact h.of_call rfl rfl id (fun _ => rfl) trivial
  | readNonblock hgot =>
    exact h.of_call rfl rfl id (fun hne => absurd hgot (of_decide_eq_true hne)) trivial
  | readBlock hgot =>
    exact h.of_call rfl rfl id (fun hne => absurd hgot (of_decide_eq_true hne)) (hstuck hgot)
  | readSpin => exact h
  | readGoOn => exact h.of_call rfl rfl id id hstuck
  | readEnable =>
    exact ⟨fun hoff => absurd hoff.symm Bool.false_ne_true, h.tx, Or.inr (Or.inl rfl), trivial⟩
  | copied hdata => exact h.of_call rfl rfl id id fun hne => absurd hdata hne
  | @noSpace w inn hspace =>
    obtain ⟨hin, hout, -⟩ := hcall
    replace hin : inn = uart.txIn := hin
    subst hin
    exact h.of_call rfl rfl id id fun _ => (txSpace_eq_zero_iff hring.1 hout).mp hspace
  | store =>
    exact ⟨fun hoff => absurd hoff.symm Bool.false_ne_true, Or.inr (Or.inr rfl), h.rx, trivial⟩
  | advance =>
    exact ⟨fun hoff => absurd hoff.symm Bool.false_ne_true, Or.inr (Or.inr rfl), h.rx, trivial⟩
  | kick =>
    exact ⟨fun hoff => absurd hoff.symm Bool.false_ne_true, Or.inl rfl, h.rx, hstuck⟩
  | block hdata => exact h.of_call rfl rfl id id ⟨hdata, hstuck hdata⟩
  | spin => exact h
  | again => exact h.of_call rfl rfl (fun _ => rfl) id trivial
  | closeSpin => exact h
  | _ => exact h.of_call rfl rfl id id trivial

/-- One event keeps the interrupts armed. -/
theorem Armed.step (h : Armed s) (hinv : Inv c s) {e : Event} (hst : step c s e = some t) :
    Armed t := by
  cases e with
  | init =>
    obtain ⟨hoff, rfl⟩ := step_init hst
    obtain ⟨hal, timeout, heq⟩ := uartInit_effect s.hal s.uart s.device
    have hring : s.uart.ring = [] := h.off (hoff ▸ rfl)
    rw [heq]
    exact ⟨fun hlive => absurd hlive.symm Bool.false_ne_true, Or.inr (Or.inl hring),
      Or.inr (Or.inl rfl), trivial⟩
  | clockInit ticksPerSec =>
    obtain rfl := Option.some.inj hst
    exact ⟨h.off, h.tx, h.rx, h.stuck⟩
  | call r =>
    obtain ⟨hidle, ⟨req, -, rfl⟩ | ⟨call, hentry, rfl⟩⟩ := step_call hst
    · obtain ⟨timeout, heq⟩ := uartIoctl_fst s.uart req
      have hstuck := h.stuck
      rw [hidle] at hstuck
      rw [heq]
      refine ⟨h.off, h.tx, h.rx, ?_⟩
      show s.call.Stuck _
      rw [hidle]
      trivial
    · have hlive : s.call.live = true := hidle ▸ rfl
      have hsending : s.call.sending = false := hidle ▸ rfl
      have hfetched : s.call.fetched = false := hidle ▸ rfl
      refine h.of_call hlive ?_ (fun h => absurd (hsending.symm.trans h) Bool.false_ne_true)
        (fun h => absurd (hfetched.symm.trans h) Bool.false_ne_true) ?_
      · cases r with
        | ioctl req => exact absurd hentry (Option.some_ne_none call).symm
        | _ => exact Option.some.inj hentry ▸ rfl
      · cases r with
        | ioctl req => exact absurd hentry (Option.some_ne_none call).symm
        | _ =>
          obtain rfl := Option.some.inj hentry
          trivial
  | cpu => exact h.cpuStep hinv hst
  | uartIrq =>
    obtain ⟨-, rfl⟩ := step_uartIrq hst
    obtain ⟨-, heff⟩ := irqPass_spec hinv.ok
    have hrx := irqPass_queue hinv.ok hinv.rx
    refine ⟨?_, ?_, ?_, ?_⟩
    · intro hoff
      have hlen := heff.shrinks
      rw [h.off hoff] at hlen
      exact List.eq_nil_of_length_eq_zero (Nat.le_zero.mp hlen)
    · rcases irqPass_we hinv.ok with hwe | hempty
      · rcases h.tx with hold | hold | hold
        · exact Or.inl (hwe.trans hold)
        · have hlen := heff.shrinks
          rw [hold] at hlen
          exact Or.inr (Or.inl (List.eq_nil_of_length_eq_zero (Nat.le_zero.mp hlen)))
        · exact Or.inr (Or.inr hold)
      · exact Or.inr (Or.inl hempty)
    · rcases hrx.re with hre | hfull
      · rcases h.rx with hold | hold | hold | hold
        · exact Or.inl hold
        · exact Or.inr (Or.inl (hre.trans hold))
        · exact Or.inr (Or.inr (Or.inl (hrx.full hinv.rx hold)))
        · exact Or.inr (Or.inr (Or.inr hold))
      · exact Or.inr (Or.inr (Or.inl hfull))
    · exact Call.stuck_congr hrx.out heff.txIn h.stuck
  | timerIrq =>
    obtain ⟨hal, uart, device, rfl, inactive, active, rfl, rfl⟩ := step_timerIrq hinv.ok.synced hst
    exact ⟨h.off, h.tx, h.rx, h.stuck⟩
  | hostRead =>
    obtain rfl := Option.some.inj hst
    exact ⟨h.off, h.tx, h.rx, h.stuck⟩
  | hostWrite ch =>
    obtain ⟨-, rfl⟩ := step_hostWrite hst
    exact ⟨h.off, h.tx, h.rx, h.stuck⟩

/-- In every state of every run, characters in the transmit ring have the write
    interrupt on, unless `write` is on its way to turning it on; and the read
    interrupt is on, unless the receive ring is full or `read` is on its way to
    turning it on. -/
theorem armed (c : Core) (hal : Hal) (es : List Event) :
    StatesHave (step c) (Port.reset hal) Armed es := by
  intro es' s _ hs
  have hinit : Inv c (Port.reset hal) ∧ Armed (Port.reset hal) :=
    ⟨inv_reset c hal, armed_reset hal⟩
  refine (exec_invariant (I := fun s => Inv c s ∧ Armed s) ?_ hinit hs).2
  exact fun r e t h hr => ⟨h.1.step hr, h.2.step h.1 hr⟩

/-- A call that spins has its interrupt on: `read` spins on an empty ring with
    the read interrupt on in the core, `write` on a full ring and `close` on one
    that is not empty with the write interrupt on. -/
theorem spinning_armed (c : Core) (hal : Hal) (es : List Event) :
    StatesHave (step c) (Port.reset hal) (fun s =>
      (∀ r, s.call = .readWait r → r.inn = s.uart.rxIn →
        rxRing s.uart = [] ∧ s.device.irqEnable.re = true) ∧
      (∀ w, s.call = .wait w → w.out = s.uart.txOut →
        s.uart.RingFull ∧ s.device.irqEnable.we = true) ∧
      (∀ nonblock, s.call = .closing nonblock → s.uart.txOut ≠ s.uart.txIn →
        s.device.irqEnable.we = true)) es := by
  intro es' s hpre hs
  have harmed := armed c hal es es' s hpre hs
  have hinv : Inv c s := exec_invariant (fun _ _ _ h hr => h.step hr) (inv_reset c hal) hs
  have hsynced := hinv.ok.synced
  refine ⟨?_, ?_, ?_⟩
  · intro r hcall hin
    have hstuck := harmed.stuck
    rw [hcall] at hstuck
    have hempty : rxRing s.uart = [] :=
      (RingBuffer.contents_eq_nil_iff hinv.rx.1 hinv.rx.2).mpr (hin.symm.trans hstuck)
    refine ⟨hempty, hsynced ▸ ?_⟩
    rcases harmed.rx with h | h | h | h
    · rw [hcall] at h
      exact absurd h.symm Bool.false_ne_true
    · exact h
    · rw [rxFull_iff hinv.rx, hempty] at h
      exact absurd h (by unfold bufLen; norm_num)
    · rw [hcall] at h
      exact absurd h Bool.false_ne_true
  · intro w hcall hout
    have hstuck := harmed.stuck
    rw [hcall] at hstuck
    have hfull : s.uart.RingFull := hstuck.2.trans hout
    refine ⟨hfull, hsynced ▸ ?_⟩
    rcases harmed.tx with h | h | h
    · exact h
    · rw [ringFull_iff hinv.ok.ring, h] at hfull
      exact absurd hfull (by unfold bufLen; norm_num)
    · rw [hcall] at h
      exact absurd h Bool.false_ne_true
  · intro nonblock hcall hne
    refine hsynced ▸ ?_
    rcases harmed.tx with h | h | h
    · exact h
    · exact absurd ((ring_eq_nil_iff hinv.ok.ring).mp h) hne
    · rw [hcall] at h
      exact absurd h Bool.false_ne_true

/-! ## What is sent arrives -/

/-- The host reads as long as there is something to read, else the interrupt
    routine refills. -/
def drainNext (p : Port × Traffic) : Event :=
  if p.1.device.txFifo ≠ [] then .hostRead else .uartIrq

/-- `write` has put characters into the ring and has still to turn the write
    interrupt on. -/
def Port.Unkicked (s : Port) : Prop :=
  s.call.sending = true ∧ s.uart.ring ≠ [] ∧ s.uart.irqEnable.we = false

theorem Armed.kicked (h : Armed s) (hkicked : ¬ s.Unkicked) :
    s.uart.irqEnable.we = true ∨ s.uart.ring = [] := by
  rcases h.tx with hwe | hnil | hsending
  · exact Or.inl hwe
  · exact Or.inr hnil
  · by_contra hneither
    rw [not_or, Bool.not_eq_true] at hneither
    exact hkicked ⟨hsending, hneither.2, hneither.1⟩

/-- What holds while a state is drained. -/
structure Draining (c : Core) (p q : Port × Traffic) : Prop where
  inv : Inv c q.1
  balanced : Balanced q.1 q.2
  kicked : q.1.uart.irqEnable.we = true ∨ q.1.uart.ring = []
  call : q.1.call = p.1.call
  accepted : q.2.accepted = p.2.accepted

/-- A read by the host. -/
theorem Draining.hostRead {p q : Port × Traffic} (h : Draining c p q) :
    Draining c p ({ q.1 with device := { q.1.device with
      txFifo := q.1.device.txFifo.tail, active := true } }, observe q.2 q.1 .hostRead) where
  inv := h.inv.step (e := .hostRead) rfl
  balanced := h.balanced.step (e := .hostRead) h.inv rfl
  kicked := h.kicked
  call := h.call
  accepted := h.accepted

/-- A turn of the interrupt routine with characters in the ring and none in the
    FIFO. -/
theorem Draining.uartIrq (hcore : CoreOk c) {p q : Port × Traffic} (h : Draining c p q)
    (hfifo : q.1.device.txFifo = []) (hring : q.1.uart.ring ≠ []) :
    ∃ t, Driver.step c q.1 .uartIrq = some t ∧ Draining c p (t, observe q.2 q.1 .uartIrq) ∧
      t.uart.ring.length + t.device.txFifo.length = q.1.uart.ring.length ∧
      t.device.txFifo ≠ [] := by
  have hwe := h.kicked.resolve_right hring
  have hpending : q.1.irqPending c = true := by
    have hwi : (q.1.device.control c).wi = true := by
      simp only [Device.control, h.inv.ok.synced, hwe, hfifo, List.length_nil, hcore.writeEmpty,
        Bool.and_true]
    unfold Port.irqPending
    rw [hwi, Bool.or_true]
  have hst : Driver.step c q.1 .uartIrq = some { q.1 with
      uart := (irqPass c q.1.uart q.1.device).1, device := (irqPass c q.1.uart q.1.device).2 } := by
    rw [Driver.step, if_pos hpending]
  obtain ⟨-, heff⟩ := irqPass_spec h.inv.ok
  refine ⟨_, hst, ⟨h.inv.step hst, h.balanced.step h.inv hst, ?_, h.call, h.accepted⟩, ?_, ?_⟩
  · exact (irqPass_we h.inv.ok).imp_left fun hsame => hsame.trans hwe
  · have hqueue := congrArg List.length heff.queue
    rw [List.length_append, List.length_append, hfifo, List.length_nil, Nat.zero_add] at hqueue
    rw [Nat.add_comm]
    exact hqueue
  · exact irqPass_moves hcore h.inv.ok h.inv.rx hwe hfifo hring

theorem Draining.step (hcore : CoreOk c) {p q : Port × Traffic} (h : Draining c p q)
    (hleft : ¬ (q.1.uart.ring = [] ∧ q.1.device.txFifo = [])) :
    ∃ q', watch (step c) observe q (drainNext q) = some q' ∧ Draining c p q' ∧
      2 * q'.1.uart.ring.length + q'.1.device.txFifo.length <
        2 * q.1.uart.ring.length + q.1.device.txFifo.length := by
  by_cases hfifo : q.1.device.txFifo = []
  · obtain ⟨t, hst, ht, hqueue, hmoved⟩ := h.uartIrq hcore hfifo fun hnil => hleft ⟨hnil, hfifo⟩
    refine ⟨_, ?_, ht, ?_⟩
    · rw [drainNext, if_neg (not_not.mpr hfifo), watch, hst]
      rfl
    · show 2 * t.uart.ring.length + t.device.txFifo.length <
        2 * q.1.uart.ring.length + q.1.device.txFifo.length
      have hpos := List.length_pos_iff.mpr hmoved
      rw [hfifo, List.length_nil]
      omega
  · refine ⟨_, ?_, h.hostRead, ?_⟩
    · rw [drainNext, if_pos hfifo]
      rfl
    · show 2 * q.1.uart.ring.length + q.1.device.txFifo.tail.length <
        2 * q.1.uart.ring.length + q.1.device.txFifo.length
      have hpos := List.length_pos_iff.mpr hfifo
      rw [List.length_tail]
      omega

/-- From every reachable state in which `write` has not left characters in the
    ring that it has still to kick, a host that keeps reading, served by the
    interrupt routine alone, gets everything that `write` has taken over, and
    nothing is left under way. -/
theorem host_gets_all (hcore : CoreOk c) {hal : Hal} {es : List Event} {p : Port × Traffic}
    (hp : exec (watch (step c) observe) (Port.reset hal, Traffic.none) es = some p)
    (hkicked : ¬ p.1.Unkicked) :
    ∃ es' q, exec (watch (step c) observe) p es' = some q ∧
      (∀ e ∈ es', e = .hostRead ∨ e = .uartIrq) ∧
      q.2.delivered = p.2.accepted ++ p.1.call.sent ∧
      q.1.uart.ring = [] ∧ q.1.device.txFifo = [] := by
  have hs : exec (step c) (Port.reset hal) es = some p.1 := by
    have hfst : (exec (watch (step c) observe) (Port.reset hal, Traffic.none) es).map Prod.fst =
        exec (step c) (Port.reset hal) es := exec_watch observe Traffic.none
    rw [hp] at hfst
    exact hfst.symm
  obtain ⟨hinv, hbal⟩ := watched hp
  have harmed := armed c hal es es p.1 List.prefix_rfl hs
  have h0 : Draining c p p := ⟨hinv, hbal, harmed.kicked hkicked, rfl, rfl⟩
  obtain ⟨es', q, hq, hdr, ⟨hring, hfifo⟩, hall⟩ := exists_exec_of_measure
    (T := fun q : Port × Traffic => q.1.uart.ring = [] ∧ q.1.device.txFifo = []) drainNext
    (fun q => 2 * q.1.uart.ring.length + q.1.device.txFifo.length)
    (fun q (h : Draining c p q) hleft => h.step hcore hleft) h0
  refine ⟨es', q, hq, ?_, ?_, hring, hfifo⟩
  · intro e he
    obtain ⟨r, rfl⟩ := hall e he
    unfold drainNext
    split_ifs
    · exact Or.inl rfl
    · exact Or.inr rfl
  · have htx := hdr.balanced.tx
    rw [hring, hfifo, List.append_nil, List.append_nil, hdr.call, hdr.accepted] at htx
    exact htx

/-- In particular when `write` is about to return. -/
theorem host_gets_all_jtagUart : ∃ p,
    exec (watch (step jtagUart) observe) (Port.reset Hal.init, Traffic.none)
      ([.init, .call (.write ['o', 'k'] false)] ++ List.replicate 6 .cpu) = some p ∧
    p.1.call = .writeRet ⟨['o', 'k'], [], false, 0⟩ ∧
    ∃ es' q, exec (watch (step jtagUart) observe) p es' = some q ∧
      (∀ e ∈ es', e = .hostRead ∨ e = .uartIrq) ∧
      q.2.delivered = p.2.accepted ++ p.1.call.sent ∧
      q.1.uart.ring = [] ∧ q.1.device.txFifo = [] := by
  have hrun : (exec (watch (step jtagUart) observe) (Port.reset Hal.init, Traffic.none)
      ([.init, .call (.write ['o', 'k'] false)] ++ List.replicate 6 .cpu)).map (fun p => p.1.call) =
        some (.writeRet ⟨['o', 'k'], [], false, 0⟩) := rfl
  obtain ⟨p, hp, hcall⟩ := Option.map_eq_some_iff.mp hrun
  refine ⟨p, hp, hcall, host_gets_all coreOk_jtagUart hp ?_⟩
  rintro ⟨hsending, -⟩
  rw [hcall] at hsending
  exact Bool.false_ne_true hsending

end NiosvCodesign.Firmware.Driver

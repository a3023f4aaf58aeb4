import NiosvCodesign.Firmware.Progress

/-!
# A silent host wedges the firmware

The console core of the board (`JTAG_UART`, system.h), no JTAG host at all, and
switches that differ from poll to poll, so that every iteration prints a line.
The interrupt routine runs whenever the core asks for it. After at most
`1024 + 2047` characters `write` waits for room that never comes.

* `Sys.Wedged.step`: nothing but the host ends such a wait.
* `quiet_step`: until then every step makes progress: the transmit queue grows,
  or the program moves on without it.
* `silent_host_wedges`: the wedge is reached.
-/

namespace NiosvCodesign.Firmware

open Transitions UartState

/-- The host does nothing. -/
def Event.Quiet : Event → Prop
  | .hostRead => False
  | .hostWrite _ => False
  | _ => True

/-! ## The wedge -/

/-- `write` spins, no interrupt of the core is pending, and no alarm will come. -/
structure Sys.Wedged (s : Sys) : Prop where
  inv : Inv jtagUart s
  spinning : s.Spinning
  silent : s.irqPending jtagUart = false

/-- Without the host, the processor stays where it is and writes no LED. -/
theorem Sys.Wedged.step {s t : Sys} (h : s.Wedged) {e : Event} (he : e.Quiet)
    (hst : step jtagUart s e = some t) : t.Wedged ∧ t.led = s.led := by
  cases e with
  | cpu dipsw button chunk =>
    obtain rfl := h.inv.cpu_of_spinning h.spinning hst
    exact ⟨h, rfl⟩
  | uartIrq =>
    obtain ⟨hirq, -⟩ := step_uartIrq hst
    rw [h.silent] at hirq
    contradiction
  | timerIrq =>
    have hinv := h.inv.step hst
    obtain rfl := h.inv.step_timerIrq hst
    exact ⟨⟨hinv, h.spinning, h.silent⟩, rfl⟩
  | hostRead => exact he.elim
  | hostWrite ch => exact he.elim

theorem Sys.Wedged.exec {s t : Sys} (h : s.Wedged) {es : List Event} (hes : ∀ e ∈ es, e.Quiet)
    (ht : exec (Firmware.step jtagUart) s es = some t) : t.Wedged ∧ t.led = s.led := by
  induction es using List.reverseRecOn generalizing t with
  | nil => exact Option.some.inj ht ▸ ⟨h, rfl⟩
  | append_singleton es e ih =>
    obtain ⟨r, hr, hrt⟩ := exec_concat_eq_some_iff.mp ht
    obtain ⟨hwedged, hled⟩ := ih (fun e he => hes e (List.mem_append_left _ he)) hr
    obtain ⟨hwedged', hled'⟩ := hwedged.step (hes e (by simp)) hrt
    exact ⟨hwedged', hled'.trans hled⟩

/-! ## The silent run -/

/-- The switches that the program reads in the silent run: they differ from the
    cached ones. -/
def quietDipsw (s : Sys) : BitVec 32 :=
  match s.pc with
  | .loopTop st => ~~~st.dipsw
  | _ => 0#32

/-- The next step of the program in the silent run. -/
def quietCpu (s : Sys) : Event := .cpu (quietDipsw s) 0#32 s.chunk

/-- The next event of the silent run: the interrupt if it is pending. -/
def quietNext (s : Sys) : Event := if s.irqPending jtagUart then .uartIrq else quietCpu s

theorem quietNext_quiet (s : Sys) : (quietNext s).Quiet := by
  unfold quietNext quietCpu
  split_ifs <;> trivial

/-- What holds along the silent run. -/
structure QuietInv (s : Sys) : Prop where
  inv : Inv jtagUart s
  rx : s.device.rxFifo = []

theorem QuietInv.irqPass_eq {s : Sys} (h : QuietInv s) (hirq : s.irqPending jtagUart = true) :
    s.uart.irqEnable.we = true ∧ s.device.txFifo.length ≤ 8 ∧
      irqPass jtagUart s.uart s.device = txIrq (1024 - s.device.txFifo.length) s.uart s.device := by
  have hri : (s.device.control jtagUart).ri = false := by
    simp [Device.control, jtagUart, h.rx]
  have hwi : (s.device.control jtagUart).wi = true := by
    unfold Driver.Port.irqPending at hirq
    rwa [hri, Bool.false_or] at hirq
  have hsplit : s.device.irqEnable.we = true ∧ s.device.txFifo.length ≤ 8 := by
    simpa [Device.control, jtagUart] using hwi
  refine ⟨h.inv.ok.synced ▸ hsplit.1, hsplit.2, ?_⟩
  unfold irqPass
  simp only [hri, hwi, if_true]
  rfl

theorem QuietInv.step {s t : Sys} (h : QuietInv s) {e : Event} (he : e.Quiet)
    (hst : step jtagUart s e = some t) : QuietInv t := by
  refine ⟨h.inv.step hst, ?_⟩
  cases e with
  | cpu dipsw button chunk => exact (cpuStep_fifos hst).2.trans h.rx
  | uartIrq =>
    obtain ⟨hirq, rfl⟩ := step_uartIrq hst
    obtain ⟨-, hlen, heq⟩ := h.irqPass_eq hirq
    simp only [heq]
    exact (txIrq_progress h.inv.ok.ring (by omega) s.device).1.trans h.rx
  | timerIrq =>
    obtain rfl := h.inv.step_timerIrq hst
    exact h.rx
  | hostRead => exact he.elim
  | hostWrite ch => exact he.elim

/-! ## Progress -/

/-- The characters handed to the UART. -/
def Sys.queue (s : Sys) : List Char := s.device.txFifo ++ s.uart.ring

/-- What an interrupt still has to do. -/
def Sys.irqWork (s : Sys) : ℕ := 2 * s.uart.ring.length + s.uart.irqEnable.we.toNat

/-- The measure of the silent run: first the room left in the queue, then the
    program, then the interrupt routine. -/
def Sys.measure (s : Sys) : ℕ :=
  (3071 - s.queue.length) * 131072 + s.rank * 4096 + s.irqWork

theorem irqWork_lt (s : Sys) : s.irqWork < 4096 := by
  have hlt := ring_length_lt s.uart
  have hwe := Bool.toNat_le s.uart.irqEnable.we
  unfold Sys.irqWork
  unfold bufLen at hlt
  omega

theorem QuietInv.queue_le {s : Sys} (h : QuietInv s) : s.queue.length ≤ 3071 := by
  have hlt := ring_length_lt s.uart
  have hfits : s.device.txFifo.length ≤ 1024 := h.inv.ok.fits
  unfold Sys.queue
  rw [List.length_append]
  unfold bufLen at hlt
  omega

variable {s t : Sys}

theorem measure_lt_of_queue (ht : QuietInv t) (h : s.queue.length < t.queue.length) :
    t.measure < s.measure := by
  have h1 := ht.queue_le
  have h2 := rank_le t
  have h3 := irqWork_lt t
  unfold Sys.measure
  omega

theorem measure_lt_of_rank (hqueue : t.queue.length = s.queue.length) (h : t.rank < s.rank) :
    t.measure < s.measure := by
  have h3 := irqWork_lt t
  unfold Sys.measure
  omega

theorem measure_lt_of_irqWork (hqueue : t.queue.length = s.queue.length) (hrank : t.rank ≤ s.rank)
    (h : t.irqWork < s.irqWork) : t.measure < s.measure := by
  unfold Sys.measure
  omega

/-- Inverting the switches always shows as a change. -/
theorem detectChange_flip (st : MainState) (nticks : BitVec 64) :
    ∃ st' r, detectChange st ⟨~~~st.dipsw, 0#32, nticks⟩ = (st', some r) := by
  have hne : readDipsw (~~~st.dipsw) ≠ st.dipsw := by
    intro h
    have hbit := congrArg (fun x : BitVec 32 => x.getLsbD 0) h
    simp [readDipsw, dipswMask] at hbit
  unfold detectChange
  simp only [if_pos (Or.inl hne : readDipsw (~~~st.dipsw) ≠ st.dipsw ∨
    readKeysPressed 0#32 ≠ st.keys)]
  exact ⟨_, _, rfl⟩

/-- A step of the program hands characters to the UART, or brings it closer to
    doing so, or spins. -/
theorem quiet_cpu (h : QuietInv s) (hspin : ¬ s.Spinning) :
    ∃ t, step jtagUart s (quietCpu s) = some t ∧
      ((t.queue.length = s.queue.length ∧ t.rank < s.rank) ∨
        s.queue.length < t.queue.length) := by
  obtain ⟨t, ht⟩ := Option.isSome_iff_exists.mp (cpuStep_isSome h.inv (quietDipsw s) 0#32)
  refine ⟨t, ht, ?_⟩
  have hqueue : ∀ r : Sys, r.queue.length = r.device.txFifo.length + r.uart.ring.length :=
    fun r => List.length_append
  rw [hqueue t, hqueue s, (cpuStep_fifos ht).1]
  cases cpu_progress h.inv hspin ht with
  | closer hring hrank => exact Or.inl ⟨by rw [hring], hrank⟩
  | puts k hpos hring => exact Or.inr (by omega)
  | @quiet st st' hpc hport hpc' =>
    -- there is a change to print
    obtain ⟨st₁, r, hchange⟩ := detectChange_flip st s.hal.nticks
    have hdipsw : quietDipsw s = ~~~st.dipsw := by
      unfold quietDipsw
      rw [hpc]
    unfold cpuStep at ht
    rw [hdipsw] at ht
    simp only [hpc, hchange] at ht
    obtain rfl := Option.some.inj ht
    exact Pc.noConfusion hpc'

/-- The interrupt makes progress. -/
theorem quiet_irq (h : QuietInv s) (hirq : s.irqPending jtagUart = true) :
    ∃ t, step jtagUart s .uartIrq = some t ∧ t.measure < s.measure := by
  obtain ⟨hwe, hlen, heq⟩ := h.irqPass_eq hirq
  obtain ⟨hok, heff⟩ := irqPass_spec h.inv.ok
  have hprogress := (txIrq_progress h.inv.ok.ring (by omega : 0 < 1024 - s.device.txFifo.length)
    s.device).2
  rw [← heq] at hprogress
  generalize hres : irqPass jtagUart s.uart s.device = r at hok heff hprogress
  refine ⟨{ s with uart := r.1, device := r.2 }, ?_, ?_⟩
  · refine drive_eq_some_iff.mpr ⟨{ s.toPort with uart := r.1, device := r.2 }, ?_, rfl⟩
    simp only [Driver.step, hirq, if_true, hres]
  · apply measure_lt_of_irqWork
    · exact congrArg List.length heff.queue
    · exact rank_le_of_irqEffect h.inv.ok.ring hok.ring heff
    · have hshrinks := heff.shrinks
      have hle := Bool.toNat_le r.1.irqEnable.we
      unfold Sys.irqWork
      rw [hwe]
      simp only [Bool.toNat_true]
      rcases hprogress with hlt | hoff
      · omega
      · rw [hoff]
        simp only [Bool.toNat_false]
        omega

/-- Until `write` spins with no interrupt pending, the silent run goes on. -/
theorem quiet_step (h : QuietInv s) (hgo : ¬ (s.Spinning ∧ s.irqPending jtagUart = false)) :
    ∃ t, step jtagUart s (quietNext s) = some t ∧ QuietInv t ∧ t.measure < s.measure := by
  by_cases hirq : s.irqPending jtagUart = true
  · obtain ⟨t, ht, hlt⟩ := quiet_irq h hirq
    have hnext : quietNext s = .uartIrq := if_pos hirq
    rw [hnext]
    exact ⟨t, ht, h.step (hnext ▸ quietNext_quiet s) ht, hlt⟩
  · have hspin : ¬ s.Spinning := fun hspin => hgo ⟨hspin, Bool.eq_false_iff.mpr hirq⟩
    obtain ⟨t, ht, hprogress⟩ := quiet_cpu h hspin
    have hnext : quietNext s = quietCpu s := if_neg hirq
    have hinv : QuietInv t := h.step (hnext ▸ quietNext_quiet s) ht
    rw [hnext]
    refine ⟨t, ht, hinv, ?_⟩
    rcases hprogress with ⟨hqueue, hrank⟩ | hqueue
    · exact measure_lt_of_rank hqueue hrank
    · exact measure_lt_of_queue hinv hqueue

theorem quietInv_init : QuietInv Sys.init := ⟨inv_init jtagUart, rfl⟩

/-- Without a host and with switches that change at every poll, the firmware
    comes to a wait that is not bounded, and as long as no host turns up it stays
    there and writes no LED. -/
theorem silent_host_wedges :
    ¬ (∀ es, StatesHave (step jtagUart) Sys.init (Sys.WaitBounded jtagUart) es) ∧
      ∃ es s, (∀ e ∈ es, e.Quiet) ∧ exec (step jtagUart) Sys.init es = some s ∧ s.Spinning ∧
        ∀ es' t, (∀ e ∈ es', e.Quiet) → exec (step jtagUart) s es' = some t →
          t.Spinning ∧ t.led = s.led := by
  obtain ⟨es, s, hs, hinv, ⟨hspin, hirq⟩, hall⟩ :=
    exists_exec_of_measure quietNext Sys.measure (fun r => quiet_step) quietInv_init
  have hquiet : ∀ e ∈ es, e.Quiet := by
    intro e he
    obtain ⟨r, rfl⟩ := hall e he
    exact quietNext_quiet r
  constructor
  · intro hbounded
    exact hinv.inv.not_waitBounded hspin (hbounded es es s (List.prefix_refl es) hs)
  · refine ⟨es, s, hquiet, hs, hspin, ?_⟩
    intro es' t hes' ht
    have hwedged : s.Wedged := ⟨hinv.inv, hspin, hirq⟩
    obtain ⟨hwedged', hled⟩ := hwedged.exec hes' ht
    exact ⟨hwedged'.spinning, hled⟩

end NiosvCodesign.Firmware

import NiosvCodesign.Lib.FairRuns
import NiosvCodesign.Firmware.Progress
import NiosvCodesign.Firmware.Transcript

/-!
# A host that keeps reading

The counterpart of `Wedge`: infinite runs in which the program keeps stepping,
the UART interrupt is taken when it stays pending, and the host keeps reading.
Timer interrupts, characters from the host and the inputs are arbitrary.

* `distance`, `cpu_closer`: how far the program is from its next LED write. A
  step of it gets there or closer, unless `write` waits on a full ring.
* `led_lives`: the LED is written again and again.
* `host_hears_all`: every change of the inputs reaches the host.
-/

namespace NiosvCodesign.Firmware

open Transitions UartState

/-! ## Fairness -/

/-- Who must not be kept from acting. -/
inductive Party
  | program
  | interrupt
  | host
deriving DecidableEq

def Party.Acts : Party → Event → Prop
  | .program, .cpu _ _ _ => True
  | .interrupt, .uartIrq => True
  | .host, .hostRead => True
  | _, _ => False

/-- Only the interrupt may be unable to act. -/
def Party.Enabled (c : Core) : Party → Sys × Log → Prop
  | .interrupt, p => p.1.irqPending c = true
  | _, _ => True

/-! ## What is known of each state -/

/-- What the results about the driver and its client say of a reachable state. -/
structure Live (c : Core) (p : Sys × Log) : Prop where
  inv : Inv c p.1
  stream : p.2.delivered ++ p.1.device.txFifo ++ p.1.uart.ring ++ p.1.unprinted =
    transcript p.2.polls

variable {c : Core} {s t : Sys}

theorem live_run {es : List Event} {p : Sys × Log}
    (hp : exec (watch (step c) record) (Sys.init, ⟨[], []⟩) es = some p) : Live c p := by
  obtain ⟨fs, q, -, hserves⟩ := firmware_served c hp
  exact ⟨hserves.inv, console_stream c es es p List.prefix_rfl hp⟩

/-! ## The way to the LED write -/

/-- How far the program is from its next LED write. -/
def Sys.distance (s : Sys) : ℕ :=
  32 * s.toPrint + s.rank + 2 * s.uart.ring.length + s.device.txFifo.length

/-- The wait of `write`. -/
def Driver.Call.waiting : Driver.Call → Bool
  | .wait _ => true
  | _ => false

/-- `write` waits, and the ring is full. -/
def Sys.Stuck (s : Sys) : Prop := s.call.waiting = true ∧ s.uart.RingFull

instance (s : Sys) : Decidable s.Stuck := inferInstanceAs (Decidable (_ ∧ _))

theorem Inv.stuck_iff (h : Inv c s) : s.Stuck ↔ s.Spinning := by
  constructor
  · rintro ⟨hwaiting, hfull⟩
    cases hcall : s.call with
    | wait w => exact h.spinning_of_full hcall hfull
    | _ =>
      rw [hcall] at hwaiting
      exact absurd hwaiting Bool.false_ne_true
  · intro hspin
    by_contra hfree
    refine h.not_spinning (fun w hcall hfull => hfree ⟨?_, hfull⟩) hspin
    rw [hcall]
    rfl

/-- A step of the program. -/
theorem cpu_closer (h : Inv c s) (hfree : ¬ s.Stuck) (hled : ∀ st, s.pc ≠ .ledWrite st)
    {dipsw button : BitVec 32} {chunk : ℕ} (hst : cpuStep c s dipsw button chunk = some t) :
    t.distance < s.distance := by
  have hspin : ¬ s.Spinning := fun hspin => hfree (h.stuck_iff.mpr hspin)
  unfold Sys.distance
  rw [(cpuStep_fifos hst).1]
  cases cpu_progress h hspin hst with
  | closer hring hrank hprint =>
    have hle := hprint.resolve_right fun ⟨st, hpc⟩ => hled st hpc
    rw [hring]
    omega
  | puts k hpos hring hprint =>
    -- each character counts for more than the rank can grow
    have hrank := rank_le t
    omega
  | @quiet st st' hpc hport hpc' =>
    have hprint : s.toPrint = lineMax ∧ t.toPrint = 0 := by
      unfold Sys.toPrint
      rw [hpc, hpc']
      exact ⟨rfl, rfl⟩
    have hrank : s.rank = 15 ∧ t.rank = 19 := by
      unfold Sys.rank
      rw [hpc, hpc']
      exact ⟨rfl, rfl⟩
    rw [hport, hprint.1, hprint.2, hrank.1, hrank.2]
    unfold lineMax
    omega

/-- A turn of the interrupt routine takes the program no further away. -/
theorem irq_keeps (h : Inv c s) (hst : step c s .uartIrq = some t) :
    t.call = s.call ∧ t.toPrint = s.toPrint ∧ t.distance ≤ s.distance ∧
      t.device.txFifo.length + t.uart.ring.length =
        s.device.txFifo.length + s.uart.ring.length ∧
      t.uart.ring.length ≤ s.uart.ring.length ∧ t.uart.RingOk := by
  obtain ⟨-, rfl⟩ := step_uartIrq hst
  obtain ⟨hok, heff⟩ := irqPass_spec h.ok
  have hrank := rank_le_of_irqEffect h.ok.ring hok.ring heff
  have hshrinks := heff.shrinks
  have hqueue := congrArg List.length heff.queue
  rw [List.length_append, List.length_append] at hqueue
  refine ⟨rfl, rfl, ?_, hqueue, hshrinks, hok.ring⟩
  show 32 * s.toPrint + _ + 2 * (irqPass c s.uart s.device).1.ring.length +
      (irqPass c s.uart s.device).2.txFifo.length ≤
    32 * s.toPrint + s.rank + 2 * s.uart.ring.length + s.device.txFifo.length
  omega

/-- What is left of `Stuck` and of the FIFO when the lengths have not changed. -/
theorem stuck_congr (hs : s.uart.RingOk) (ht : t.uart.RingOk)
    (hcall : t.call = s.call) (hring : t.uart.ring.length = s.uart.ring.length) : t.Stuck ↔ s.Stuck := by
  unfold Sys.Stuck
  rw [hcall, ringFull_iff hs, ringFull_iff ht, hring]

/-- The write interrupt is pending when it is on and the FIFO empty. -/
theorem irqPending_of_we (hcore : Driver.CoreOk c) (h : Inv c s)
    (hwe : s.uart.irqEnable.we = true) (hfifo : s.device.txFifo = []) :
    s.irqPending c = true := by
  have hwi : (s.device.control c).wi = true := by
    simp only [Device.control, h.ok.synced, hwe, hfifo, List.length_nil, hcore.writeEmpty,
      Bool.and_true]
  unfold Driver.Port.irqPending
  rw [hwi, Bool.or_true]

/-- It then moves characters to the FIFO. -/
theorem irq_moves (hcore : Driver.CoreOk c) (h : Inv c s) (hwe : s.uart.irqEnable.we = true)
    (hfifo : s.device.txFifo = []) (hring : s.uart.ring ≠ [])
    (hst : step c s .uartIrq = some t) : t.device.txFifo ≠ [] := by
  obtain ⟨-, rfl⟩ := step_uartIrq hst
  exact Driver.irqPass_moves hcore h.ok h.refused.inv.rx hwe hfifo hring

theorem ring_ne_nil_of_full (h : s.uart.RingOk) (hfull : s.uart.RingFull) : s.uart.ring ≠ [] := by
  intro hnil
  rw [ringFull_iff h, hnil] at hfull
  exact absurd hfull (by unfold bufLen; norm_num)

theorem Inv.armed_of_stuck (h : Inv c s) (hstuck : s.Stuck) : s.uart.irqEnable.we = true := by
  obtain ⟨hwaiting, hfull⟩ := hstuck
  rcases h.refused.armed.tx with hwe | hnil | hsending
  · exact hwe
  · exact absurd hnil (ring_ne_nil_of_full h.ok.ring hfull)
  · cases hcall : s.call <;> rw [hcall] at hwaiting hsending
    case wait => exact absurd hsending Bool.false_ne_true
    all_goals exact absurd hwaiting Bool.false_ne_true

/-- While `write` waits on a full ring, the program stays where it is. -/
theorem Inv.cpu_of_stuck (h : Inv c s) (hstuck : s.Stuck) {dipsw button : BitVec 32} {chunk : ℕ}
    (hst : cpuStep c s dipsw button chunk = some t) : t = s :=
  h.cpu_of_spinning (h.stuck_iff.mp hstuck) hst

/-! ## Taking turns -/

/-- The program, the interrupt routine and the host take turns. `inputs k` is what
    `main` reads for its sample `k`. -/
def turn (c : Core) (inputs : ℕ → BitVec 32 × BitVec 32) (n : ℕ) (p : Sys × Log) : Event :=
  match n % 3 with
  | 0 => .cpu (inputs p.2.polls.length).1 (inputs p.2.polls.length).2 p.1.chunk
  | 1 => if p.1.irqPending c then .uartIrq else .hostRead
  | _ => .hostRead

theorem turn_isSome (inputs : ℕ → BitVec 32 × BitVec 32) (n : ℕ) (p : Sys × Log)
    (h : Inv c p.1) : (watch (step c) record p (turn c inputs n p)).isSome = true := by
  rw [watch, Option.isSome_map]
  unfold turn
  split
  · exact cpuStep_isSome h _ _
  · split_ifs with hirq
    · show (Option.map _ (Driver.step c p.1.toPort .uartIrq)).isSome = true
      rw [Option.isSome_map]
      simp only [Driver.step, hirq, if_true, Option.isSome_some]
    · rfl
  · rfl

def takingTurns (c : Core) (inputs : ℕ → BitVec 32 × BitVec 32) : Run (watch (step c) record) :=
  Run.ofScheduler (watch (step c) record) (turn c inputs) (s := (Sys.init, ⟨[], []⟩))
    (I := fun p => Inv c p.1) (inv_init c) (by
      intro p e q h hst
      obtain ⟨t, ht, rfl⟩ := Option.map_eq_some_iff.mp hst
      exact h.step ht)
    (turn_isSome inputs)

theorem takingTurns_fair (c : Core) (inputs : ℕ → BitVec 32 × BitVec 32) :
    (takingTurns c inputs).Fair Party.Acts (Party.Enabled c) := by
  have hevent : ∀ n, (takingTurns c inputs).event n =
      turn c inputs n ((takingTurns c inputs).state n) := fun _ => rfl
  intro k n
  cases k with
  | program =>
    refine ⟨3 * n, by omega, Or.inl ?_⟩
    rw [hevent, turn, Nat.mul_mod_right]
    trivial
  | interrupt =>
    refine ⟨3 * n + 1, by omega, ?_⟩
    rw [hevent, turn, Nat.mul_add_mod]
    by_cases hirq : ((takingTurns c inputs).state (3 * n + 1)).1.irqPending c = true
    · left
      simp only [hirq]
      trivial
    · exact Or.inr hirq
  | host =>
    refine ⟨3 * n + 2, by omega, Or.inl ?_⟩
    rw [hevent, turn, Nat.mul_add_mod]
    trivial

/-- The switches count the samples, and `KEY0` is held. -/
def countingInputs (k : ℕ) : BitVec 32 × BitVec 32 := (BitVec.ofNat 32 k, 0b10#32)

/-! ## The LED is written -/

/-- Who brings the program closer to its LED write. -/
def Sys.ledParty (s : Sys) : Party :=
  if s.Stuck then if s.device.txFifo = [] then .interrupt else .host else .program

theorem ledParty_congr (hstuck : t.Stuck ↔ s.Stuck)
    (hfifo : t.device.txFifo = [] ↔ s.device.txFifo = []) : t.ledParty = s.ledParty := by
  unfold Sys.ledParty
  by_cases h : s.Stuck
  · rw [if_pos h, if_pos (hstuck.mpr h)]
    by_cases h' : s.device.txFifo = []
    · rw [if_pos h', if_pos (hfifo.mpr h')]
    · rw [if_neg h', if_neg (mt hfifo.mp h')]
  · rw [if_neg h, if_neg (mt hstuck.mp h)]

/-- Every step brings the LED write closer, or leaves the way as it was to the
    party that can. -/
theorem Live.led_step (hcore : Driver.CoreOk c) {p q : Sys × Log} (h : Live c p)
    (hled : ∀ st, p.1.pc ≠ .ledWrite st) {e : Event} (hst : watch (step c) record p e = some q) :
    q.1.distance < p.1.distance ∨ (q.1.distance = p.1.distance ∧
      q.1.ledParty = p.1.ledParty ∧ ¬ p.1.ledParty.Acts e) := by
  obtain ⟨t, ht, rfl⟩ := Option.map_eq_some_iff.mp hst
  have hinv := h.inv
  cases e with
  | cpu dipsw button chunk =>
    by_cases hstuck : p.1.Stuck
    · obtain rfl := hinv.cpu_of_stuck hstuck ht
      refine Or.inr ⟨rfl, rfl, ?_⟩
      unfold Sys.ledParty
      rw [if_pos hstuck]
      split_ifs <;> exact id
    · exact Or.inl (cpu_closer hinv hstuck hled ht)
  | uartIrq =>
    obtain ⟨hcall, hprint, hle, hqueue, hshrinks, hring⟩ := irq_keeps hinv ht
    rcases hle.lt_or_eq with hlt | heq
    · exact Or.inl hlt
    · have hrank : t.rank ≤ p.1.rank := by
        obtain ⟨-, rfl⟩ := step_uartIrq ht
        exact rank_le_of_irqEffect hinv.ok.ring hring (irqPass_spec hinv.ok).2
      have hlen : t.uart.ring.length = p.1.uart.ring.length := by
        have hdist := heq
        unfold Sys.distance at hdist
        omega
      have hfifo : t.device.txFifo = [] ↔ p.1.device.txFifo = [] := by
        rw [← List.length_eq_zero_iff, ← List.length_eq_zero_iff]
        omega
      have hstuck := stuck_congr hinv.ok.ring hring hcall hlen
      refine Or.inr ⟨heq, ledParty_congr hstuck hfifo, ?_⟩
      unfold Sys.ledParty
      split_ifs with hs hempty
      · -- the interrupt would have moved something
        exact fun _ => irq_moves hcore hinv (hinv.armed_of_stuck hs) hempty
          (ring_ne_nil_of_full hinv.ok.ring hs.2) ht (hfifo.mpr hempty)
      · exact id
      · exact id
  | timerIrq =>
    obtain rfl := hinv.step_timerIrq ht
    refine Or.inr ⟨rfl, rfl, ?_⟩
    cases p.1.ledParty <;> exact id
  | hostRead =>
    obtain rfl := Option.some.inj ht
    by_cases hempty : p.1.device.txFifo = []
    · have htail : p.1.device.txFifo.tail = p.1.device.txFifo := by rw [hempty, List.tail_nil]
      refine Or.inr ⟨?_, ?_, ?_⟩
      · show 32 * _ + Sys.rank p.1 + _ + p.1.device.txFifo.tail.length = p.1.distance
        rw [htail]
        rfl
      · exact ledParty_congr Iff.rfl (by rw [htail])
      · unfold Sys.ledParty
        split_ifs <;> exact id
    · have hpos := List.length_pos_iff.mpr hempty
      refine Or.inl ?_
      show 32 * p.1.toPrint + Sys.rank p.1 + 2 * p.1.uart.ring.length +
          p.1.device.txFifo.tail.length <
        32 * p.1.toPrint + Sys.rank p.1 + 2 * p.1.uart.ring.length + p.1.device.txFifo.length
      rw [List.length_tail]
      omega
  | hostWrite ch =>
    obtain rfl := step_hostWrite ht
    refine Or.inr ⟨rfl, rfl, ?_⟩
    cases p.1.ledParty <;> exact id

/-- Whatever the inputs, the timer and the host otherwise do: with a host that
    keeps reading, the LED is written again and again. -/
theorem led_lives (hcore : Driver.CoreOk c) {r : Run (watch (step c) record)}
    (h0 : r.state 0 = (Sys.init, ⟨[], []⟩)) (hfair : r.Fair Party.Acts (Party.Enabled c)) (n : ℕ) :
    ∃ m, n ≤ m ∧ ∃ st, (r.state m).1.pc = .ledWrite st ∧ (r.state (m + 1)).1 =
      { (r.state m).1 with led := ledValue st.keys st.blink, pc := .sleep st } := by
  have hlive : ∀ m, Live c (r.state m) := fun m => live_run (h0 ▸ r.exec m)
  have hreaches : ∃ m, n ≤ m ∧ ∃ st, (r.state m).1.pc = .ledWrite st := by
    refine hfair.reaches (I := Live c) (T := fun p => ∃ st, p.1.pc = .ledWrite st)
      (fun p => p.1.distance) (fun p => p.1.ledParty) (fun m _ => hlive m) ?_ ?_
    · intro p e q h hled hst
      exact h.led_step hcore (fun st hpc => hled ⟨st, hpc⟩) hst
    · intro p h _
      unfold Sys.ledParty
      split_ifs with hs hempty
      · exact irqPending_of_we hcore h.inv (h.inv.armed_of_stuck hs) hempty
      · trivial
      · trivial
  obtain ⟨m, hm, st, hpc⟩ := hreaches
  obtain ⟨k, hk, hpc, hacts⟩ := hfair.acts_while (k := .program)
    (T := fun p => p.1.pc = .ledWrite st) (by
      intro p e q hpc he hst
      obtain ⟨t, ht, rfl⟩ := Option.map_eq_some_iff.mp hst
      have hcpu : ∀ dipsw button chunk, e ≠ .cpu dipsw button chunk :=
        fun dipsw button chunk heq => he (heq ▸ trivial)
      exact (step_outside hcpu ht).1.trans hpc)
    (fun _ _ => trivial) hpc
  refine ⟨k, hm.trans hk, st, hpc, ?_⟩
  obtain ⟨t, ht, hnext⟩ := Option.map_eq_some_iff.mp (r.next k)
  rw [← hnext]
  cases he : r.event k with
  | cpu dipsw button chunk =>
    rw [he] at ht
    generalize (r.state k).1 = s at ht hpc
    obtain ⟨port, led, pc⟩ := s
    obtain rfl : pc = .ledWrite st := hpc
    exact (Option.some.inj ht).symm
  | _ =>
    rw [he] at hacts
    exact hacts.elim

theorem led_lives_takingTurns : ∃ m, 1000 ≤ m ∧ ∃ st,
    ((takingTurns jtagUart countingInputs).state m).1.pc = .ledWrite st ∧
    ((takingTurns jtagUart countingInputs).state (m + 1)).1 =
      { ((takingTurns jtagUart countingInputs).state m).1 with
        led := ledValue st.keys st.blink, pc := .sleep st } :=
  led_lives Driver.coreOk_jtagUart rfl (takingTurns_fair jtagUart countingInputs) 1000

/-! ## The log arrives -/

theorem transcript_mono {polls polls' : List Poll} (h : polls <+: polls') :
    transcript polls <+: transcript polls' := by
  obtain ⟨more, rfl⟩ := h
  induction more using List.reverseRecOn with
  | nil => rw [List.append_nil]
  | append_singleton more p ih =>
    refine ih.trans ?_
    rw [← List.append_assoc]
    cases hlast : (polls ++ more).getLast? with
    | none =>
      rw [List.getLast?_eq_none_iff.mp hlast]
      exact List.nil_prefix
    | some q =>
      have hreport : (polls ++ more).getLast?.map Poll.report = some q.report := by
        rw [hlast, Option.map_some]
      rw [transcript_concat hreport p]
      exact List.prefix_append _ _

/-- Samples are only added. -/
theorem record_polls (log : Log) (s : Sys) (e : Event) :
    log.polls <+: (record log s e).polls := by
  unfold record
  split
  · split
    · exact List.prefix_append _ _
    · exact List.prefix_append _ _
    · exact List.prefix_rfl
  · exact List.prefix_rfl
  · exact List.prefix_rfl

/-- Does the interrupt routine have something to send? -/
def Sys.ToSend (s : Sys) : Prop := s.uart.ring ≠ [] ∧ s.uart.irqEnable.we = true

instance (s : Sys) : Decidable s.ToSend := inferInstanceAs (Decidable (_ ∧ _))

/-- The program does not take it away. -/
theorem Inv.cpu_toSend (h : Inv c s) (hsend : s.ToSend) {dipsw button : BitVec 32} {chunk : ℕ}
    (hst : cpuStep c s dipsw button chunk = some t) : t.ToSend := by
  obtain ⟨hne, hwe⟩ := hsend
  constructor
  · by_cases hspin : s.Spinning
    · obtain rfl := h.cpu_of_spinning hspin hst
      exact hne
    · cases cpu_progress h hspin hst with
      | closer hring => exact hring ▸ hne
      | puts k hpos hring => exact List.length_pos_iff.mp (by omega)
      | quiet hpc hport => exact hport ▸ hne
  · have hstep := CpuStep.of_cpuStep hst
    obtain ⟨port, led, pc⟩ := s
    cases hstep with
    | initUart hport =>
      obtain ⟨hoff, -⟩ := Driver.step_init hport
      exact absurd (h.refused.armed.off (congrArg Driver.Call.live hoff)) hne
    | initCpu hport =>
      obtain rfl := Option.some.inj hport
      exact hwe
    | passOn _ _ hport =>
      obtain ⟨-, ⟨req, hreq, -⟩ | ⟨call, -, rfl⟩⟩ := Driver.step_call hport
      · exact Driver.Request.noConfusion hreq
      · exact hwe
    | write _ hport => exact Driver.cpuStep_we hwe hport
    | ret _ hport => exact Driver.cpuStep_we hwe hport
    | _ => exact hwe

/-- Who brings the next character closer to the host. -/
def Sys.logParty (s : Sys) : Party :=
  if s.device.txFifo ≠ [] then .host else if s.ToSend then .interrupt else .program

/-- How far the next character is from the FIFO. -/
def Sys.backlog (s : Sys) : ℕ :=
  if s.device.txFifo ≠ [] then 0 else if s.ToSend then 1 else s.distance + 2

theorem backlog_le (s : Sys) : s.backlog ≤ s.distance + 2 := by
  unfold Sys.backlog
  split_ifs <;> omega

theorem logParty_of_backlog (h : 2 ≤ s.backlog) : s.logParty = .program := by
  unfold Sys.backlog at h
  unfold Sys.logParty
  split_ifs at h ⊢ with hfifo hsend
  · omega
  · omega
  · rfl

theorem log_congr (hfifo : t.device.txFifo = [] ↔ s.device.txFifo = []) (hsend : t.ToSend ↔ s.ToSend)
    (hdist : t.distance = s.distance) : t.backlog = s.backlog ∧ t.logParty = s.logParty := by
  unfold Sys.backlog Sys.logParty
  simp only [ne_eq, hfifo, hsend, hdist, and_self]

/-- Only the host takes characters out of the FIFO. -/
theorem Live.step_fifo {p : Sys × Log} (h : Live c p) {e : Event} (hst : step c p.1 e = some t) :
    e = .hostRead ∨ (record p.2 p.1 e).delivered = p.2.delivered ∧
      p.1.device.txFifo.length ≤ t.device.txFifo.length := by
  cases e with
  | cpu dipsw button chunk =>
    refine Or.inr ⟨?_, (congrArg List.length ((cpuStep_fifos hst).1)).ge⟩
    unfold record
    simp only
    split <;> rfl
  | uartIrq =>
    obtain ⟨-, -, -, hqueue, hshrinks, -⟩ := irq_keeps h.inv hst
    exact Or.inr ⟨rfl, by omega⟩
  | timerIrq =>
    obtain rfl := h.inv.step_timerIrq hst
    exact Or.inr ⟨rfl, le_rfl⟩
  | hostRead => exact Or.inl rfl
  | hostWrite ch =>
    obtain rfl := step_hostWrite hst
    exact Or.inr ⟨rfl, le_rfl⟩

/-- With an empty FIFO and nothing for the interrupt routine to do, the program
    has something to print. -/
theorem Live.prints {p : Sys × Log} (h : Live c p)
    (hbehind : p.2.delivered.length < (transcript p.2.polls).length)
    (hfifo : p.1.device.txFifo = []) (hsend : ¬ p.1.ToSend) :
    ¬ p.1.Stuck ∧ ∀ st, p.1.pc ≠ .ledWrite st := by
  have hring : p.1.uart.ring ≠ [] → p.1.call.sending = true := by
    intro hne
    rcases h.inv.refused.armed.tx with hwe | hnil | hsending
    · exact absurd ⟨hne, hwe⟩ hsend
    · exact absurd hnil hne
    · exact hsending
  refine ⟨fun hstuck => hsend ⟨ring_ne_nil_of_full h.inv.ok.ring hstuck.2,
    h.inv.armed_of_stuck hstuck⟩, fun st hpc => ?_⟩
  have hstream := h.stream
  have hclient := h.inv.client
  unfold Sys.unprinted at hstream
  unfold Sys.Client at hclient
  rw [hfifo, hpc] at hstream
  rw [hpc] at hclient
  have hne : p.1.uart.ring ≠ [] := by
    intro hnil
    rw [hnil, List.append_nil, List.append_nil] at hstream
    replace hstream : p.2.delivered ++ [] = transcript p.2.polls := hstream
    rw [← hstream, List.append_nil] at hbehind
    exact lt_irrefl _ hbehind
  have hsending := hring hne
  replace hclient : p.1.call = .idle := hclient
  rw [hclient] at hsending
  exact absurd hsending Bool.false_ne_true

/-- While there is something in the FIFO, it is for the host to read it. -/
theorem Live.log_step_host {p : Sys × Log} (h : Live c p) (hfifo : p.1.device.txFifo ≠ [])
    {e : Event} (hst : step c p.1 e = some t) :
    p.2.delivered.length < (record p.2 p.1 e).delivered.length ∨
      (record p.2 p.1 e).delivered = p.2.delivered ∧ t.backlog = p.1.backlog ∧
        t.logParty = p.1.logParty ∧ ¬ p.1.logParty.Acts e := by
  have hpos := List.length_pos_iff.mpr hfifo
  by_cases he : e = .hostRead
  · subst he
    left
    show _ < (p.2.delivered ++ p.1.device.txFifo.take 1).length
    rw [List.length_append, List.length_take]
    omega
  · obtain ⟨hdelivered, hle⟩ := (h.step_fifo hst).resolve_left he
    have hfifo' : t.device.txFifo ≠ [] := List.length_pos_iff.mp (hpos.trans_le hle)
    have hparty : p.1.logParty = .host := if_pos hfifo
    refine Or.inr ⟨hdelivered, (if_pos hfifo').trans (if_pos hfifo).symm,
      (if_pos hfifo').trans hparty.symm, ?_⟩
    rw [hparty]
    cases e with
    | hostRead => exact absurd rfl he
    | _ => exact id

/-- Every step gets the host a character or brings the next one closer to it, or
    leaves the way as it was to the party that can. -/
theorem Live.log_step (hcore : Driver.CoreOk c) {p q : Sys × Log} (h : Live c p)
    (hbehind : p.2.delivered.length < (transcript p.2.polls).length) {e : Event}
    (hst : watch (step c) record p e = some q) :
    p.2.delivered.length < q.2.delivered.length ∨
      q.2.delivered = p.2.delivered ∧ (q.1.backlog < p.1.backlog ∨
        (q.1.backlog = p.1.backlog ∧ q.1.logParty = p.1.logParty ∧ ¬ p.1.logParty.Acts e)) := by
  obtain ⟨t, ht, rfl⟩ := Option.map_eq_some_iff.mp hst
  show _ ∨ (record p.2 p.1 e).delivered = _ ∧ (t.backlog < _ ∨ (t.backlog = _ ∧ t.logParty = _ ∧ _))
  have hinv := h.inv
  by_cases hfifo : p.1.device.txFifo = []
  case neg => exact (h.log_step_host hfifo ht).imp_right fun h => ⟨h.1, Or.inr h.2⟩
  case pos =>
    have hbacklog : p.1.backlog = if p.1.ToSend then 1 else p.1.distance + 2 :=
      if_neg (not_not.mpr hfifo)
    have hparty : p.1.logParty = if p.1.ToSend then .interrupt else .program :=
      if_neg (not_not.mpr hfifo)
    have hother : ∀ {e}, e ≠ .uartIrq → (∀ dipsw button chunk, e ≠ .cpu dipsw button chunk) →
        ¬ p.1.logParty.Acts e := by
      intro e hirq hcpu
      rw [hparty]
      cases e with
      | cpu dipsw button chunk => exact absurd rfl (hcpu dipsw button chunk)
      | uartIrq => exact absurd rfl hirq
      | _ => split_ifs <;> exact id
    cases e with
    | cpu dipsw button chunk =>
      obtain ⟨hdelivered, -⟩ := (h.step_fifo ht).resolve_left Event.noConfusion
      refine Or.inr ⟨hdelivered, ?_⟩
      by_cases hsend : p.1.ToSend
      · have hfifo' : t.device.txFifo = [] := (cpuStep_fifos ht).1.trans hfifo
        have hsend' := hinv.cpu_toSend hsend ht
        rw [if_pos hsend] at hbacklog hparty
        refine Or.inr ⟨?_, ?_, hparty ▸ id⟩
        · exact ((if_neg (not_not.mpr hfifo')).trans (if_pos hsend')).trans hbacklog.symm
        · exact ((if_neg (not_not.mpr hfifo')).trans (if_pos hsend')).trans hparty.symm
      · obtain ⟨hfree, hled⟩ := h.prints hbehind hfifo hsend
        have hlt := cpu_closer hinv hfree hled ht
        have hle := backlog_le t
        rw [if_neg hsend] at hbacklog
        exact Or.inl (by omega)
    | uartIrq =>
      refine Or.inr ⟨rfl, ?_⟩
      by_cases hsend : p.1.ToSend
      · have hmoved := irq_moves hcore hinv hsend.2 hfifo hsend.1 ht
        rw [if_pos hsend] at hbacklog
        have hzero : t.backlog = 0 := if_pos hmoved
        exact Or.inl (by omega)
      · obtain ⟨-, -, hdist, -⟩ := irq_keeps hinv ht
        have hle := backlog_le t
        rw [if_neg hsend] at hbacklog hparty
        rcases (hle.trans (Nat.add_le_add_right hdist 2)).lt_or_eq with hlt | heq
        · exact Or.inl (hbacklog ▸ hlt)
        · refine Or.inr ⟨heq.trans hbacklog.symm, ?_, hparty ▸ id⟩
          exact (logParty_of_backlog (by omega)).trans hparty.symm
    | timerIrq =>
      obtain rfl := hinv.step_timerIrq ht
      exact Or.inr ⟨rfl, Or.inr ⟨rfl, rfl, hother Event.noConfusion fun _ _ _ => Event.noConfusion⟩⟩
    | hostRead =>
      obtain rfl := Option.some.inj ht
      have htail : p.1.device.txFifo.tail = p.1.device.txFifo := by rw [hfifo, List.tail_nil]
      obtain ⟨hb, hp⟩ := log_congr (t := { p.1 with device := { p.1.device with
        txFifo := p.1.device.txFifo.tail, active := true } }) (s := p.1) (by rw [htail]) Iff.rfl
        (by unfold Sys.distance; simp only [htail]; rfl)
      refine Or.inr ⟨?_, Or.inr ⟨hb, hp, hother Event.noConfusion fun _ _ _ => Event.noConfusion⟩⟩
      show p.2.delivered ++ p.1.device.txFifo.take 1 = p.2.delivered
      rw [hfifo, List.take_nil, List.append_nil]
    | hostWrite ch =>
      obtain rfl := step_hostWrite ht
      exact Or.inr ⟨rfl, Or.inr ⟨rfl, rfl, hother Event.noConfusion fun _ _ _ => Event.noConfusion⟩⟩

/-- Every change of the inputs that `main` has seen is read off the console by a
    host that keeps reading. -/
theorem host_hears_all (hcore : Driver.CoreOk c) {r : Run (watch (step c) record)}
    (h0 : r.state 0 = (Sys.init, ⟨[], []⟩)) (hfair : r.Fair Party.Acts (Party.Enabled c)) (n : ℕ) :
    ∃ m, n ≤ m ∧ inputChanges (r.state n).2.polls <+: readLog (r.state m).2.delivered := by
  have hlive : ∀ m, Live c (r.state m) := fun m => live_run (h0 ▸ r.exec m)
  have hpolls : ∀ m, n ≤ m → (r.state n).2.polls <+: (r.state m).2.polls := by
    intro m hm
    refine r.invariant_from (I := fun p => (r.state n).2.polls <+: p.2.polls) ?_ hm List.prefix_rfl
    intro p e q hpre hst
    obtain ⟨t, -, rfl⟩ := Option.map_eq_some_iff.mp hst
    exact hpre.trans (record_polls p.2 p.1 e)
  have hreaches : ∃ m, n ≤ m ∧
      (transcript (r.state n).2.polls).length ≤ (r.state m).2.delivered.length := by
    refine hfair.reaches (I := fun p => Live c p ∧ (r.state n).2.polls <+: p.2.polls)
      (T := fun p => (transcript (r.state n).2.polls).length ≤ p.2.delivered.length)
      (fun p => toLex ((transcript (r.state n).2.polls).length - p.2.delivered.length,
        p.1.backlog)) (fun p => p.1.logParty) (fun m hm => ⟨hlive m, hpolls m hm⟩) ?_ ?_
    · rintro p e q ⟨h, hpre⟩ hbehind hst
      have hlen := (transcript_mono hpre).length_le
      rcases h.log_step hcore (by omega) hst with hlt | ⟨hsame, hlt | ⟨hb, hp, hacts⟩⟩
      · refine Or.inl (Prod.Lex.toLex_lt_toLex.mpr (Or.inl ?_))
        show _ - _ < _ - _
        omega
      · exact Or.inl (Prod.Lex.toLex_lt_toLex.mpr (Or.inr ⟨by rw [hsame], hlt⟩))
      · exact Or.inr ⟨by rw [hsame, hb], hp, hacts⟩
    · rintro p ⟨h, -⟩ -
      unfold Sys.logParty
      split_ifs with hfifo hsend
      · trivial
      · exact irqPending_of_we hcore h.inv hsend.2 (not_not.mp hfifo)
      · trivial
  obtain ⟨m, hm, hreached⟩ := hreaches
  have hdelivered : (r.state m).2.delivered <+: transcript (r.state m).2.polls := by
    rw [← (hlive m).stream, List.append_assoc, List.append_assoc]
    exact List.prefix_append _ _
  refine ⟨m, hm, ?_⟩
  rw [← readLog_transcript]
  exact readLog_mono (List.prefix_of_prefix_length_le (transcript_mono (hpolls m hm)) hdelivered
    hreached)

theorem host_hears_all_takingTurns : ∃ m, 1000 ≤ m ∧
    inputChanges ((takingTurns jtagUart countingInputs).state 1000).2.polls <+:
      readLog ((takingTurns jtagUart countingInputs).state m).2.delivered :=
  host_hears_all Driver.coreOk_jtagUart rfl (takingTurns_fair jtagUart countingInputs) 1000

end NiosvCodesign.Firmware

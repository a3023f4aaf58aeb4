import NiosvCodesign.Firmware.Console
import NiosvCodesign.Firmware.DriverWrites

/-!
# The host detection never starts

`alt_sys_init` initialises the UART before the system clock, so the driver asks
for its alarm while the tick rate is still 0, is refused, and sets its timeout
to `INT_MAX`. From then on nothing counts `host_inactive`.

* `Inv.step`: the firmware keeps the driver in the state of one that comes before
  its clock, and is in a call of `write` exactly where `printf` is.
* `waitBounded_iff`: so a run keeps all its waits bounded exactly if it never
  comes to a wait with the ring full.
-/

namespace NiosvCodesign.Firmware

open Transitions UartState

/-! ## Invariants of all runs -/

/-- The call of the driver that the program is in. -/
def Sys.Client (s : Sys) : Prop :=
  match s.pc with
  | .sysInitUart => s.call = .off
  | .write data _ _ => s.call.writes = true ∧ s.call.sent ++ s.call.unsent = data ∧ data ≠ []
  | _ => s.call = .idle

/-- What holds in every reachable state. -/
structure Inv (c : Core) (s : Sys) : Prop where
  refused : Driver.Refused c s.toPort
  client : s.Client

theorem inv_init (c : Core) : Inv c Sys.init where
  refused := Driver.refused_reset c rfl rfl
  client := rfl

variable {c : Core} {s t : Sys}

theorem Inv.ok (h : Inv c s) : UartOk c s.uart s.device := h.refused.inv.ok

theorem Inv.alarms (h : Inv c s) : s.hal.alarms = [] := h.refused.alarms

/-- Once the driver is initialised. -/
theorem Inv.unclocked (h : Inv c s) (hpc : s.pc ≠ .sysInitUart) :
    Driver.Unclocked s.toPort := by
  apply h.refused.unclocked
  have hclient := h.client
  obtain ⟨port, led, pc⟩ := s
  cases pc with
  | sysInitUart => exact absurd rfl hpc
  | write data rest next => exact Driver.writes_live hclient.1
  | _ => exact congrArg Driver.Call.live hclient

/-- A step of the program. -/
theorem Sys.Client.cpuStep (hclient : s.Client) {dipsw button : BitVec 32} {chunk : ℕ}
    (hst : Firmware.cpuStep c s dipsw button chunk = some t) : t.Client := by
  have hstep := CpuStep.of_cpuStep hst
  obtain ⟨port, led, pc⟩ := s
  cases hstep with
  | initUart hport =>
    obtain ⟨-, rfl⟩ := Driver.step_init hport
    rfl
  | initCpu hport =>
    obtain rfl := Option.some.inj hport
    exact hclient
  | @printed next => cases next <;> exact hclient
  | @passOn text next n port' hpos hle hport =>
    obtain ⟨-, ⟨req, hreq, -⟩ | ⟨call, hentry, rfl⟩⟩ := Driver.step_call hport
    · exact Driver.Request.noConfusion hreq
    · obtain rfl := Option.some.inj hentry
      refine ⟨rfl, rfl, List.length_pos_iff.mp ?_⟩
      rw [List.length_take]
      omega
  | write hret hport =>
    obtain ⟨hwrites, hdata, hne⟩ := hclient
    obtain ⟨hwrites', hdata'⟩ := Driver.writes_step hwrites hret hport
    exact ⟨hwrites', hdata'.trans hdata, hne⟩
  | ret hret hport =>
    obtain ⟨hal, uart, device, call⟩ := port
    obtain rfl : call = .writeRet _ := hret
    exact congrArg Driver.Port.call (Option.some.inj hport).symm
  | _ => exact hclient

/-- One event keeps the invariant. -/
theorem Inv.step (h : Inv c s) {e : Event} (hst : step c s e = some t) : Inv c t := by
  constructor
  · rcases step_port hst with hsame | ⟨f, hport, hclock⟩
    · rw [hsame]
      exact h.refused
    · refine h.refused.step (fun hoff rate hrate => ?_) hport
      have hlive := (h.unclocked (by rw [hclock rate hrate]; exact Pc.noConfusion)).live
      exact Bool.false_ne_true (hoff.symm.trans hlive)
  · by_cases he : ∀ dipsw button chunk, e ≠ .cpu dipsw button chunk
    · obtain ⟨hpc, -, hcall⟩ := step_outside he hst
      have hclient := h.client
      unfold Sys.Client at hclient ⊢
      rw [hpc, hcall]
      exact hclient
    · push Not at he
      obtain ⟨dipsw, button, chunk, rfl⟩ := he
      exact h.client.cpuStep hst

/-- A call of `write` returns when it has handed over all it was given, and `printf`
    goes on with the rest. -/
theorem Inv.printfRest (h : Inv c s) {data rest : Text} {next : Resume}
    (hpc : s.pc = .write data rest next) {w : Driver.WriteCall} (hret : s.call = .writeRet w) :
    w.data = [] ∧ data = w.sent ∧ printfRest data rest w.result = rest := by
  have hclient := h.client
  unfold Sys.Client at hclient
  rw [hpc] at hclient
  obtain ⟨hwrites, hdata, hne⟩ := hclient
  have hunclocked := h.unclocked (by rw [hpc]; exact Pc.noConfusion)
  obtain ⟨hnil, hresult⟩ := hunclocked.result hret hwrites (hdata ▸ hne)
  rw [hret] at hdata
  replace hdata : w.sent ++ w.data = data := hdata
  rw [hnil, List.append_nil] at hdata
  refine ⟨hnil, hdata.symm, ?_⟩
  rw [hresult, ← hdata]
  show w.sent.drop w.sent.length ++ rest = rest
  rw [List.drop_length, List.nil_append]

/-- Where `write` spins, the program stays. -/
theorem Inv.cpu_of_spinning (h : Inv c s) (hspin : s.Spinning) {dipsw button : BitVec 32}
    {chunk : ℕ} (hst : cpuStep c s dipsw button chunk = some t) : t = s := by
  obtain ⟨w, hcall, hout, hlt⟩ := hspin
  have hclient := h.client
  have hstep := CpuStep.of_cpuStep hst
  obtain ⟨⟨hal, uart, device, call⟩, led, pc⟩ := s
  obtain rfl : call = .wait w := hcall
  cases hstep with
  | write _ hport =>
    have hsame : Driver.cpuStep ⟨hal, uart, device, .wait w⟩ = some ⟨hal, uart, device, .wait w⟩ :=
      if_pos ⟨hout, hlt⟩
    obtain rfl := Option.some.inj (hsame.symm.trans hport)
    rfl
  | ret hret => exact Driver.Call.noConfusion hret
  | _ => exact Driver.Call.noConfusion hclient

/-! ## Interrupts and the host -/

theorem step_uartIrq (hst : step c s .uartIrq = some t) : s.irqPending c = true ∧ t = { s with
    uart := (irqPass c s.uart s.device).1, device := (irqPass c s.uart s.device).2 } := by
  obtain ⟨port, hport, rfl⟩ := drive_eq_some_iff.mp hst
  obtain ⟨hirq, rfl⟩ := Driver.step_uartIrq hport
  exact ⟨hirq, rfl⟩

/-- Without registered alarms the timer interrupt only counts. -/
theorem Inv.step_timerIrq (h : Inv c s) (hst : Firmware.step c s .timerIrq = some t) :
    t = { s with hal := { s.hal with nticks := s.hal.nticks + 1#64 } } := by
  obtain ⟨port, hport, rfl⟩ := drive_eq_some_iff.mp hst
  simp only [Driver.step, altTick_of_no_alarms _ h.alarms] at hport
  split_ifs at hport
  obtain rfl := Option.some.inj hport
  rfl

theorem step_hostWrite {ch : Char} (hst : step c s (.hostWrite ch) = some t) : t = { s with
    device := { s.device with rxFifo := s.device.rxFifo ++ [ch], active := true } } := by
  obtain ⟨port, hport, rfl⟩ := drive_eq_some_iff.mp hst
  obtain ⟨-, rfl⟩ := Driver.step_hostWrite hport
  rfl

/-! ## Runs that never wait on a full ring -/

/-- Where the program waits, the ring has got room since the copy loop. -/
def Sys.WaitHasRoom (s : Sys) : Prop := ∀ w, s.call = .wait w → ¬ s.uart.RingFull

/-- A wait with the ring full spins. -/
theorem Inv.spinning_of_full (h : Inv c s) {w : Driver.WriteCall} (hcall : s.call = .wait w)
    (hfull : s.uart.RingFull) : s.Spinning := by
  have hstuck := h.refused.armed.stuck
  rw [hcall] at hstuck
  have hpc : s.pc ≠ .sysInitUart := by
    intro hpc
    have hclient := h.client
    unfold Sys.Client at hclient
    rw [hpc] at hclient
    exact Driver.Call.noConfusion (hcall.symm.trans hclient)
  exact ⟨w, hcall, hstuck.2.symm.trans hfull, (h.unclocked hpc).not_inactive⟩

theorem Inv.not_spinning (h : Inv c s) (hroom : s.WaitHasRoom) : ¬ s.Spinning := by
  rintro ⟨w, hcall, hout, -⟩
  have hstuck := h.refused.armed.stuck
  rw [hcall] at hstuck
  exact hroom w hcall (hstuck.2.trans hout)

/-- Where `write` spins, nothing bounds the wait. -/
theorem Inv.not_waitBounded (h : Inv c s) (hspin : s.Spinning) : ¬ s.WaitBounded c := by
  intro hbounded
  exact (hbounded hspin).1 h.alarms

/-- The program comes to a wait from the test with characters left over, or has been
    waiting. -/
theorem cpuStep_wait {dipsw button : BitVec 32} {chunk : ℕ} {w : Driver.WriteCall}
    (hst : cpuStep c s dipsw button chunk = some t) (hcall : t.call = .wait w) :
    t.uart = s.uart ∧ ((s.call = .test w ∧ w.data ≠ []) ∨ s.call = .wait w) := by
  have hstep := CpuStep.of_cpuStep hst
  obtain ⟨port, led, pc⟩ := s
  have hwait : ∀ {port' : Driver.Port}, Driver.cpuStep port = some port' → port'.call = .wait w →
      port'.uart = port.uart ∧ ((port.call = .test w ∧ w.data ≠ []) ∨ port.call = .wait w) := by
    intro port' hport hcall
    rcases Driver.cpuStep_wait hport hcall with ⟨htest, hdata, rfl⟩ | ⟨hwait, rfl⟩
    · exact ⟨rfl, Or.inl ⟨htest, hdata⟩⟩
    · exact ⟨rfl, Or.inr hwait⟩
  cases hstep with
  | initUart hport =>
    obtain ⟨-, rfl⟩ := Driver.step_init hport
    exact Driver.Call.noConfusion hcall
  | initCpu hport =>
    obtain rfl := Option.some.inj hport
    exact ⟨rfl, Or.inr hcall⟩
  | passOn _ _ hport =>
    obtain ⟨-, ⟨req, hreq, -⟩ | ⟨call, hentry, rfl⟩⟩ := Driver.step_call hport
    · exact Driver.Request.noConfusion hreq
    · obtain rfl := Option.some.inj hentry
      exact Driver.Call.noConfusion hcall
  | write _ hport => exact hwait hport hcall
  | ret _ hport => exact hwait hport hcall
  | _ => exact ⟨rfl, Or.inr hcall⟩

theorem Sys.WaitHasRoom.step (h : Inv c s) (hroom : s.WaitHasRoom) {e : Event}
    (hgood : ¬ WaitsOnFullRing s e) (hst : Firmware.step c s e = some t) : t.WaitHasRoom := by
  cases e with
  | cpu dipsw button chunk =>
    intro w hcall
    obtain ⟨huart, ⟨htest, hdata⟩ | hwait⟩ := cpuStep_wait hst hcall
    · rw [huart]
      exact fun hfull => hgood ⟨⟨dipsw, button, chunk, rfl⟩, w, htest, hdata, hfull⟩
    · rw [huart]
      exact hroom w hwait
  | uartIrq =>
    obtain ⟨-, rfl⟩ := step_uartIrq hst
    obtain ⟨hok, heff⟩ := irqPass_spec h.ok
    intro w hcall
    exact heff.not_ringFull h.ok.ring hok.ring (hroom w hcall)
  | timerIrq =>
    obtain rfl := h.step_timerIrq hst
    exact hroom
  | hostRead =>
    obtain rfl := Option.some.inj hst
    exact hroom
  | hostWrite ch =>
    obtain rfl := step_hostWrite hst
    exact hroom

/-- A wait entered with the ring full spins, and nothing bounds it. -/
theorem WaitsOnFullRing.unbounded (h : Inv c s) {e : Event} (hbad : WaitsOnFullRing s e)
    (hst : step c s e = some t) : ¬ t.WaitBounded c := by
  have hinv : Inv c t := h.step hst
  obtain ⟨⟨dipsw, button, chunk, rfl⟩, w, hcall, hdata, hfull⟩ := hbad
  suffices hwait : t.call = .wait w ∧ t.uart = s.uart by
    apply hinv.not_waitBounded
    exact hinv.spinning_of_full hwait.1 (hwait.2 ▸ hfull)
  have hstep := CpuStep.of_cpuStep hst
  have hclient := h.client
  obtain ⟨⟨hal, uart, device, call⟩, led, pc⟩ := s
  obtain rfl : call = .test w := hcall
  cases hstep with
  | write _ hport =>
    have hblock : (!w.nonblock) = true := hclient.1
    cases Driver.CallStep.of_cpuStep hport with
    | done hstop =>
      rcases hstop with hnil | hnonblock
      · exact absurd hnil hdata
      · rw [hnonblock] at hblock
        exact absurd hblock Bool.false_ne_true
    | block => exact ⟨rfl, rfl⟩
  | ret hret => exact Driver.Call.noConfusion hret
  | _ => exact Driver.Call.noConfusion hclient

/-- A run of the firmware, whatever the host, the inputs and the interrupts do,
    keeps every wait of `write` bounded by the host detection if and only if no
    step of it goes to wait with characters left over and the ring full. -/
theorem waitBounded_iff (c : Core) (es : List Event) :
    StatesHave (step c) Sys.init (Sys.WaitBounded c) es ↔
      StepsHave (step c) Sys.init (fun s e => ¬ WaitsOnFullRing s e) es := by
  constructor
  · intro hbounded es' e s t hpre hs hst hbad
    have hinv : Inv c s := exec_invariant (fun _ _ _ h hr => h.step hr) (inv_init c) hs
    have ht : exec (step c) Sys.init (es' ++ [e]) = some t :=
      exec_concat_eq_some_iff.mpr ⟨s, hs, hst⟩
    exact hbad.unbounded hinv hst (hbounded _ t hpre ht)
  · intro hgood
    have hrun : StatesHave (step c) Sys.init (fun s => Inv c s ∧ s.WaitHasRoom) es := by
      refine hgood.statesHave ?_ ⟨inv_init c, fun w hcall => Driver.Call.noConfusion hcall⟩
      intro s e t h hs hst
      exact ⟨h.1.step hst, h.2.step h.1 hs hst⟩
    intro es' t hpre ht hspin
    obtain ⟨hinv, hroom⟩ := hrun es' t hpre ht
    exact absurd hspin (hinv.not_spinning hroom)

end NiosvCodesign.Firmware

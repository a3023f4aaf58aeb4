import NiosvCodesign.Firmware.ChangeReports
import NiosvCodesign.Firmware.HostPresence

/-!
# How the program gets on

The steps of the program between two LED writes, with a driver that comes before
its clock.

* `cpuStep_isSome`: the program never gets stuck.
* `cpu_progress`: unless `write` spins, a step of it puts characters into the ring or
  comes closer to doing so, and `main` prints a bounded amount of text.
-/

namespace NiosvCodesign.Firmware

open UartState

variable {c : Core} {s t : Sys}

/-! ## The program never gets stuck -/

/-- What `printf` would pass on: all it has. -/
def Sys.chunk (s : Sys) : ℕ :=
  match s.pc with
  | .print text _ => text.length
  | _ => 0

/-- A step within a call of `write` is a step of the driver. -/
theorem cpuStep_write {data rest : Text} {next : Resume} (hpc : s.pc = .write data rest next)
    (dipsw button : BitVec 32) (chunk : ℕ) :
    (cpuStep c s dipsw button chunk).isSome = (Driver.cpuStep s.toPort).isSome := by
  unfold cpuStep
  rw [hpc]
  simp only
  split <;> exact Option.isSome_map

theorem cpuStep_isSome (h : Inv c s) (dipsw button : BitVec 32) :
    (cpuStep c s dipsw button s.chunk).isSome = true := by
  have hclient := h.client
  cases hpc : s.pc with
  | write data rest next =>
    unfold Sys.Client at hclient
    rw [hpc] at hclient
    rw [cpuStep_write hpc]
    exact Driver.writes_isSome hclient.1
  | print text next =>
    unfold Sys.Client at hclient
    rw [hpc] at hclient
    unfold cpuStep Sys.chunk
    simp only [hpc]
    split_ifs with hnil hchunk
    · rfl
    · rw [Sys.drive, Option.isSome_map]
      obtain ⟨⟨hal, uart, device, call⟩, led, pc⟩ := s
      obtain rfl : call = .idle := hclient
      rfl
    · exact absurd ⟨List.length_pos_iff.mpr hnil, le_rfl⟩ hchunk
  | sysInitUart =>
    unfold Sys.Client at hclient
    rw [hpc] at hclient
    obtain ⟨⟨hal, uart, device, call⟩, led, pc⟩ := s
    obtain rfl : call = .off := hclient
    obtain rfl : pc = .sysInitUart := hpc
    rfl
  | loopTop st =>
    unfold cpuStep
    simp only [hpc]
    split <;> rfl
  | _ =>
    unfold cpuStep
    simp only [hpc]
    rfl

/-- Only the interrupt routine and the host move the FIFOs of the core. -/
theorem cpuStep_fifos {dipsw button : BitVec 32} {chunk : ℕ}
    (hst : cpuStep c s dipsw button chunk = some t) :
    t.device.txFifo = s.device.txFifo ∧ t.device.rxFifo = s.device.rxFifo := by
  have hstep := CpuStep.of_cpuStep hst
  obtain ⟨port, led, pc⟩ := s
  cases hstep with
  | initUart hport =>
    obtain ⟨-, rfl⟩ := Driver.step_init hport
    show (uartInit port.hal port.uart port.device).2.2.txFifo = _ ∧
      (uartInit port.hal port.uart port.device).2.2.rxFifo = _
    unfold uartInit
    simp only
    split <;> exact ⟨rfl, rfl⟩
  | initCpu hport =>
    obtain rfl := Option.some.inj hport
    exact ⟨rfl, rfl⟩
  | passOn _ _ hport =>
    obtain ⟨-, ⟨req, -, rfl⟩ | ⟨call, -, rfl⟩⟩ := Driver.step_call hport <;> exact ⟨rfl, rfl⟩
  | write _ hport => exact Driver.cpuStep_fifos hport
  | ret _ hport => exact Driver.cpuStep_fifos hport
  | _ => exact ⟨rfl, rfl⟩

/-! ## How much `main` prints -/

/-- The length of the longest line that `main` prints. -/
def lineMax : ℕ := 38

theorem line_length_le (p : Poll) : p.report.line.length ≤ lineMax := by
  have hkey : ∀ b, (keyText b).length ≤ 8 := by decide
  have hkey0 := hkey p.report.shown.key0
  have hkey1 := hkey p.report.shown.key1
  rw [line_eq (report_masked p)]
  simp only [List.length_append, List.length_cons]
  have hdipsw : "DIPSW=0x".toList.length = 8 := rfl
  have htext0 : " KEY0=".toList.length = 6 := rfl
  have htext1 : " KEY1=".toList.length = 6 := rfl
  have hnewline : "\n".toList.length = 1 := rfl
  unfold lineMax
  omega

theorem reportInputs_ne_nil (dipsw keys : BitVec 32) : reportInputs dipsw keys ≠ [] := by
  unfold reportInputs
  simp

/-- How much `main` may print before its next LED write, once a `printf` has
    returned. -/
def Resume.toPrint : Resume → ℕ
  | .banner st => (reportInputs st.dipsw st.keys).length + lineMax
  | .startReport _ => lineMax
  | .loopReport _ => 0

/-- How much `main` may print before its next LED write. -/
def Sys.toPrint (s : Sys) : ℕ :=
  match s.pc with
  | .sysInitUart | .sysInitCpu | .mainStart => banner.length + (lineMax + lineMax)
  | .print text next => text.length + next.toPrint
  | .write _ rest next => s.call.unsent.length + rest.length + next.toPrint
  | .loopTop _ | .sleep _ => lineMax
  | .toggle _ | .ledWrite _ => 0

/-! ## How far the next character is -/

/-- How far `printf` is from handing over its next character. -/
def printRank : Text → Resume → ℕ
  | _ :: _, _ => 14
  | [], .startReport _ => 16
  | [], _ => 20

/-- How far the program is from copying more characters into the ring. -/
def Sys.rank (s : Sys) : ℕ :=
  match s.pc with
  | .sysInitUart => 29
  | .sysInitCpu => 28
  | .mainStart => 27
  | .write _ _ _ => Driver.Port.rank s.toPort
  | .print text next => printRank text next
  | .toggle _ => 19
  | .ledWrite _ => 18
  | .sleep _ => 17
  | .loopTop _ => 15

theorem printRank_le (text : Text) (next : Resume) : printRank text next ≤ 20 := by
  cases text <;> cases next <;> norm_num [printRank]

theorem printRank_of_ne_nil {text : Text} (h : text ≠ []) (next : Resume) :
    printRank text next = 14 := by
  cases text with
  | nil => contradiction
  | cons ch text => rfl

theorem rank_le (s : Sys) : s.rank ≤ 29 := by
  unfold Sys.rank
  split
  case h_4 => exact (Driver.rank_le s.toPort).trans (by norm_num)
  case h_5 text next _ => exact (printRank_le text next).trans (by norm_num)
  all_goals norm_num

/-- The interrupt routine does not take the program away from copying. -/
theorem rank_le_of_irqEffect (hring : s.uart.RingOk) {uart : UartState} {device : Device}
    (hring' : uart.RingOk) (heff : IrqEffect s.uart uart s.device device) :
    Sys.rank { s with uart := uart, device := device } ≤ s.rank := by
  obtain ⟨port, led, pc⟩ := s
  cases pc with
  | write data rest next => exact Driver.rank_le_of_irqEffect hring hring' heff
  | _ => exact Nat.le_refl _

/-! ## Progress -/

/-- What a step of the program gets done. -/
inductive Progress (s t : Sys) : Prop
  /-- It comes closer to the next character, or to the LED write. -/
  | closer : t.uart.ring = s.uart.ring → t.rank < s.rank →
      (t.toPrint ≤ s.toPrint ∨ ∃ st, s.pc = .ledWrite st) → Progress s t
  /-- `write` puts `k` characters into the ring. -/
  | puts (k : ℕ) : 0 < k → t.uart.ring.length = s.uart.ring.length + k →
      t.toPrint + k = s.toPrint → Progress s t
  /-- `main` finds nothing to print. -/
  | quiet {st st' : MainState} : s.pc = .loopTop st → t.toPort = s.toPort →
      t.pc = .toggle st' → Progress s t

/-- Within a call of `write`. -/
theorem Progress.of_write {port port' : Driver.Port} {led : BitVec 32} {data rest : Text}
    {next : Resume} (h : Inv c ⟨port, led, .write data rest next⟩) (hspin : ¬ port.Spinning)
    (hret : ∀ w, port.call ≠ .writeRet w) (hport : Driver.cpuStep port = some port') :
    Progress ⟨port, led, .write data rest next⟩ ⟨port', led, .write data rest next⟩ := by
  have hunclocked := h.unclocked Pc.noConfusion
  rcases Driver.write_progress h.refused.inv hunclocked h.client.1 hret hspin hport with
    ⟨hunsent, hring, hrank⟩ | ⟨k, hpos, hunsent, hring⟩
  · refine .closer hring hrank (Or.inl ?_)
    show port'.call.unsent.length + _ + _ ≤ port.call.unsent.length + _ + _
    rw [hunsent]
  · replace hunsent : port'.call.unsent.length + k = port.call.unsent.length := hunsent
    refine .puts k hpos hring ?_
    show port'.call.unsent.length + _ + _ + k = port.call.unsent.length + _ + _
    omega

/-- A step of the program. -/
theorem cpu_progress (h : Inv c s) (hspin : ¬ s.Spinning) {dipsw button : BitVec 32} {chunk : ℕ}
    (hst : cpuStep c s dipsw button chunk = some t) : Progress s t := by
  have hstep := CpuStep.of_cpuStep hst
  obtain ⟨port, led, pc⟩ := s
  cases hstep with
  | initUart hport =>
    obtain ⟨hoff, rfl⟩ := Driver.step_init hport
    have hclock := (h.refused.off (congrArg Driver.Call.live hoff)).2
    refine .closer ?_ (show 28 < 29 by norm_num) (Or.inl le_rfl)
    show (uartInit port.hal port.uart port.device).2.1.ring = port.uart.ring
    rw [uartInit_of_no_clock hclock]
    rfl
  | initCpu hport =>
    obtain rfl := Option.some.inj hport
    exact .closer rfl (show 27 < 28 by norm_num) (Or.inl le_rfl)
  | start =>
    generalize (⟨dipsw, button, _⟩ : Poll) = p
    have hline : (reportInputs (mainInit p).dipsw (mainInit p).keys).length ≤ lineMax :=
      line_length_le p
    refine .closer rfl ((printRank_le banner (.banner (mainInit p))).trans_lt ?_) (Or.inl ?_)
    · show 20 < 27
      norm_num
    · show banner.length + ((reportInputs (mainInit p).dipsw (mainInit p).keys).length + lineMax) ≤
        banner.length + (lineMax + lineMax)
      omega
  | @printed next =>
    cases next with
    | banner st =>
      refine .closer rfl ?_ (Or.inl (Nat.zero_add _).ge)
      show printRank (reportInputs st.dipsw st.keys) (.startReport st) < 20
      rw [printRank_of_ne_nil (reportInputs_ne_nil st.dipsw st.keys)]
      norm_num
    | startReport st => exact .closer rfl (show 15 < 16 by norm_num) (Or.inl (Nat.zero_add _).ge)
    | loopReport st => exact .closer rfl (show 19 < 20 by norm_num) (Or.inl (Nat.zero_le _))
  | @passOn text next n port' hpos hle hport =>
    obtain ⟨-, ⟨req, hreq, -⟩ | ⟨call, hentry, rfl⟩⟩ := Driver.step_call hport
    · exact Driver.Request.noConfusion hreq
    · obtain rfl := Option.some.inj hentry
      have htext : text ≠ [] := List.length_pos_iff.mp (by omega)
      have hdata : text.take n ≠ [] := by
        apply List.length_pos_iff.mp
        rw [List.length_take]
        omega
      refine .closer rfl ?_ (Or.inl ?_)
      · show (if text.take n = [] then 24 else if port.uart.RingFull then 13 else 7) <
          printRank text next
        rw [printRank_of_ne_nil htext, if_neg hdata]
        split_ifs <;> norm_num
      · show (text.take n).length + (text.drop n).length + next.toPrint ≤
          text.length + next.toPrint
        rw [← List.length_append, List.take_append_drop]
  | write hret hport => exact .of_write h hspin hret hport
  | @ret data rest next w port' hret hport =>
    obtain ⟨hnil, -, hrest⟩ := h.printfRest rfl hret
    obtain ⟨hal, uart, device, call⟩ := port
    obtain rfl : call = .writeRet w := hret
    obtain rfl := Option.some.inj hport
    rw [hrest]
    refine .closer rfl ((printRank_le rest next).trans_lt (show 20 < 21 by norm_num)) (Or.inl ?_)
    show rest.length + next.toPrint ≤ w.data.length + rest.length + next.toPrint
    omega
  | @changed st st' r hchange =>
    generalize (⟨dipsw, button, _⟩ : Poll) = p at hchange
    have hr : r = p.report := by
      have hsnd := detectChange_snd st p
      rw [hchange] at hsnd
      split_ifs at hsnd
      exact Option.some.inj hsnd
    have hline := line_length_le p
    rw [← hr] at hline
    refine .closer rfl ?_ (Or.inl hline)
    show printRank (reportInputs r.dipsw r.keys) (.loopReport st') < 15
    rw [printRank_of_ne_nil (reportInputs_ne_nil r.dipsw r.keys)]
    norm_num
  | unchanged => exact .quiet rfl rfl rfl
  | toggle => exact .closer rfl (show 18 < 19 by norm_num) (Or.inl le_rfl)
  | writeLed => exact .closer rfl (show 17 < 18 by norm_num) (Or.inr ⟨_, rfl⟩)
  | wake => exact .closer rfl (show 15 < 17 by norm_num) (Or.inl le_rfl)

end NiosvCodesign.Firmware

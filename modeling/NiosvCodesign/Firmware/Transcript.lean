import NiosvCodesign.Lib.Framing
import NiosvCodesign.Firmware.ChangeReports
import NiosvCodesign.Firmware.HostPresence

/-!
# What the host reads

The firmware is a client of the UART driver: `printf` calls `write` with pieces
of its text. The history of the driver says what happens to this text.

* `Serves.step`, `firmware_served`: every run of the firmware is one of the driver,
  in which `printf` passes on all that `main` prints.
* `console_stream`: the host has read a prefix of the transcript of the inputs
  sampled so far, and the rest of it is under way.
* `host_log_sound`: cut into lines and parsed, what the host has read gives the
  first changes of the inputs.
-/

namespace NiosvCodesign.Firmware

open Transitions UartState

/-! ## The transcript -/

/-- What `main` prints while it takes the samples `polls`: the banner and a line
    for the first sample and for each that differs from the one before. -/
def transcript (polls : List Poll) : Text :=
  if polls = [] then []
  else banner ++ ((polls.map Poll.report).destutter (· ≠ ·)).flatMap Report.line

theorem transcript_singleton (p : Poll) : transcript [p] = banner ++ p.report.line := by
  simp [transcript]

/-- A further sample. -/
theorem transcript_concat {polls : List Poll} {r : Report}
    (hlast : polls.getLast?.map Poll.report = some r) (p : Poll) :
    transcript (polls ++ [p]) =
      transcript polls ++ if p.report = r then [] else p.report.line := by
  have hne : polls ≠ [] := by
    rintro rfl
    exact absurd hlast.symm (Option.some_ne_none _)
  have hreport : (polls.map Poll.report).getLast? = some r := by
    rw [List.getLast?_map, hlast]
  unfold transcript
  rw [if_neg hne, if_neg (by simp), List.map_append, List.map_singleton,
    ChangeLog.destutter_concat, hreport]
  by_cases hsame : p.report = r
  · rw [if_pos hsame, if_pos (congrArg some hsame.symm), List.append_nil]
  · rw [if_neg hsame, if_neg fun h => hsame (Option.some.inj h).symm, List.flatMap_append,
      List.flatMap_singleton, List.append_assoc]

/-! ## The history of a run -/

/-- What the host has read, and the samples that `main` has taken. -/
structure Log where
  delivered : Text
  polls : List Poll

/-- How an event changes the history. -/
def record (h : Log) (s : Sys) : Event → Log
  | .cpu dipsw button _ =>
    match s.pc with
    | .mainStart | .loopTop _ => { h with polls := h.polls ++ [⟨dipsw, button, s.hal.nticks⟩] }
    | _ => h
  | .hostRead => { h with delivered := h.delivered ++ s.device.txFifo.take 1 }
  | _ => h

/-- What `main` prints of what it has sampled once a `printf` has returned. -/
def Resume.unprinted : Resume → Text
  | .banner st => reportInputs st.dipsw st.keys
  | _ => []

/-- What no completed call of `write` has taken over. -/
def Pc.pending : Pc → Text
  | .print text next => text ++ next.unprinted
  | .write data rest next => data ++ rest ++ next.unprinted
  | _ => []

/-- What `main` has still to print of what it has sampled. -/
def Sys.unprinted (s : Sys) : Text :=
  match s.pc with
  | .print text next => text ++ next.unprinted
  | .write _ rest next => s.call.unsent ++ rest ++ next.unprinted
  | _ => []

/-- The inputs cached by `main`. -/
def Resume.cached : Resume → Report
  | .banner st | .startReport st | .loopReport st => ⟨st.dipsw, st.keys⟩

def Pc.cached : Pc → Option Report
  | .sysInitUart | .sysInitCpu | .mainStart => none
  | .print _ next | .write _ _ next => some next.cached
  | .loopTop st | .toggle st | .ledWrite st | .sleep st => some ⟨st.dipsw, st.keys⟩

/-! ## The firmware as a client of the driver -/

variable {c : Core} {s t : Sys}

/-- The call of `write` under way has put part of it into the ring. -/
theorem Inv.pending_eq (h : Inv c s) : s.pc.pending = s.call.sent ++ s.unprinted := by
  have hclient := h.client
  obtain ⟨port, led, pc⟩ := s
  cases pc with
  | write data rest next =>
    obtain ⟨-, hdata, -⟩ := hclient
    rw [Pc.pending, ← hdata]
    simp only [Sys.unprinted, List.append_assoc]
  | sysInitUart =>
    replace hclient : port.call = .off := hclient
    rw [hclient]
    rfl
  | _ =>
    replace hclient : port.call = .idle := hclient
    rw [hclient]
    rfl

/-- The run `q` of the driver, with its history, is the one in the run `p` of the
    firmware: all that `main` prints is taken over or pending. -/
structure Serves (c : Core) (p : Sys × Log) (q : Driver.Port × Driver.Traffic) : Prop where
  port : q.1 = p.1.toPort
  inv : Inv c p.1
  balanced : Driver.Balanced q.1 q.2
  delivered : q.2.delivered = p.2.delivered
  stream : q.2.accepted ++ p.1.pc.pending = transcript p.2.polls
  cached : p.2.polls.getLast?.map Poll.report = p.1.pc.cached

theorem serves_init (c : Core) :
    Serves c (Sys.init, ⟨[], []⟩) (Driver.Port.reset Hal.init, Driver.Traffic.none) where
  port := rfl
  inv := inv_init c
  balanced := Driver.balanced_reset Hal.init
  delivered := rfl
  stream := rfl
  cached := rfl

section Follow

variable {log log' : Log} {q : Driver.Port × Driver.Traffic}

/-- What the driver can follow. -/
def Followed (c : Core) (p : Sys × Log) (q : Driver.Port × Driver.Traffic) : Prop :=
  ∃ fs q', exec (watch (Driver.step c) Driver.observe) q fs = some q' ∧ Serves c p q'

theorem Serves.history (h : Serves c (s, log) q) {pc : Pc} (hpc : s.pc = pc) :
    q.2.accepted ++ pc.pending = transcript log.polls ∧
      log.polls.getLast?.map Poll.report = pc.cached := by
  subst hpc
  exact ⟨h.stream, h.cached⟩

/-- The program goes on without the driver. -/
theorem Serves.idle (h : Serves c (s, log) q) (hinv : Inv c t) (hport : t.toPort = s.toPort)
    (hdelivered : log'.delivered = log.delivered)
    (hstream : q.2.accepted ++ t.pc.pending = transcript log'.polls)
    (hcached : log'.polls.getLast?.map Poll.report = t.pc.cached) : Followed c (t, log') q :=
  ⟨[], q, rfl, h.port.trans hport.symm, hinv, h.balanced, h.delivered.trans hdelivered.symm,
    hstream, hcached⟩

/-- An event of the driver. -/
theorem Serves.event (h : Serves c (s, log) q) (hinv : Inv c t) {f : Driver.Event}
    (hst : Driver.step c s.toPort f = some t.toPort)
    (hdelivered : (Driver.observe q.2 s.toPort f).delivered = log'.delivered)
    (hstream : (Driver.observe q.2 s.toPort f).accepted ++ t.pc.pending = transcript log'.polls)
    (hcached : log'.polls.getLast?.map Poll.report = t.pc.cached) : Followed c (t, log') q := by
  have hport : q.1 = s.toPort := h.port
  have hbalanced := h.balanced
  rw [hport] at hbalanced
  refine ⟨[f], (t.toPort, Driver.observe q.2 s.toPort f), ?_, rfl, hinv,
    hbalanced.step h.inv.refused.inv hst, hdelivered, hstream, hcached⟩
  rw [exec, watch, hport, hst]
  rfl

/-- `main` takes its first sample. -/
theorem Serves.start (h : Serves c (s, log) q) (hpc : s.pc = .mainStart) (p : Poll) :
    q.2.accepted ++ (banner ++ p.report.line) = transcript (log.polls ++ [p]) := by
  obtain ⟨hstream, hcached⟩ := h.history hpc
  have hnone : log.polls = [] :=
    List.getLast?_eq_none_iff.mp (Option.map_eq_none_iff.mp hcached)
  rw [hnone] at hstream ⊢
  replace hstream : q.2.accepted ++ [] = [] := hstream
  rw [List.append_nil] at hstream
  rw [hstream, List.nil_append, List.nil_append, transcript_singleton]

/-- It takes a sample that differs from the one before. -/
theorem Serves.changed (h : Serves c (s, log) q) {st : MainState} (hpc : s.pc = .loopTop st)
    {p : Poll} (hne : (⟨st.dipsw, st.keys⟩ : Report) ≠ p.report) :
    q.2.accepted ++ p.report.line = transcript (log.polls ++ [p]) := by
  obtain ⟨hstream, hcached⟩ := h.history hpc
  have hnil : q.2.accepted ++ (Pc.loopTop st).pending = q.2.accepted := List.append_nil _
  rw [transcript_concat hcached p, if_neg hne.symm, ← hstream, hnil]

/-- It takes one that does not. -/
theorem Serves.unchanged (h : Serves c (s, log) q) {st : MainState} (hpc : s.pc = .loopTop st)
    {p : Poll} (heq : (⟨st.dipsw, st.keys⟩ : Report) = p.report) :
    q.2.accepted ++ [] = transcript (log.polls ++ [p]) := by
  obtain ⟨hstream, hcached⟩ := h.history hpc
  rw [transcript_concat hcached p, if_pos heq.symm, List.append_nil (transcript _)]
  exact hstream

theorem cached_concat (polls : List Poll) (p : Poll) :
    (polls ++ [p]).getLast?.map Poll.report = some p.report := by
  rw [List.getLast?_concat]
  rfl

theorem Serves.cpuStep (h : Serves c (s, log) q) {dipsw button : BitVec 32} {chunk : ℕ}
    (hst : cpuStep c s dipsw button chunk = some t) (hinv : Inv c t) :
    Followed c (t, record log s (.cpu dipsw button chunk)) q := by
  have hstep := CpuStep.of_cpuStep hst
  have hstream := h.stream
  have hcached := h.cached
  obtain ⟨port, led, pc⟩ := s
  cases hstep with
  | initUart hport => exact h.event hinv hport h.delivered h.stream h.cached
  | initCpu hport => exact h.event hinv hport h.delivered h.stream h.cached
  | start => exact h.idle hinv rfl rfl (h.start rfl _) (cached_concat _ _)
  | @printed next =>
    cases next with
    | banner st =>
      refine h.idle hinv rfl rfl ?_ h.cached
      show q.2.accepted ++ (reportInputs st.dipsw st.keys ++ []) = _
      rw [List.append_nil]
      exact hstream
    | startReport st => exact h.idle hinv rfl rfl h.stream h.cached
    | loopReport st => exact h.idle hinv rfl rfl h.stream h.cached
  | @passOn text next n port' hpos hle hport =>
    refine h.event hinv hport h.delivered ?_ h.cached
    show q.2.accepted ++ (text.take n ++ text.drop n ++ next.unprinted) = _
    rw [List.take_append_drop]
    exact hstream
  | write hret hport =>
    have hsame := Driver.observe_of_writes h.inv.client.1 hret q.2
    refine h.event hinv (f := .cpu) hport ?_ ?_ h.cached
    · rw [hsame]
      exact h.delivered
    · rw [hsame]
      exact hstream
  | @ret data rest next w port' hret hport =>
    obtain ⟨-, hdata, hrest⟩ := h.inv.printfRest rfl hret
    have htaken := Driver.observe_writeRet hret q.2
    refine h.event hinv (f := .cpu) hport ?_ ?_ h.cached
    · rw [htaken]
      exact h.delivered
    · rw [htaken, hrest]
      show q.2.accepted ++ w.sent ++ (rest ++ next.unprinted) = _
      rw [← hdata, List.append_assoc, ← List.append_assoc data]
      exact hstream
  | @changed st st' r hchange =>
    have hfst := detectChange_fst st ⟨dipsw, button, port.hal.nticks⟩
    have hsnd := detectChange_snd st ⟨dipsw, button, port.hal.nticks⟩
    rw [hchange] at hfst hsnd
    split_ifs at hsnd with hne
    obtain rfl := Option.some.inj hsnd
    replace hfst : st' = _ := hfst
    subst hfst
    refine h.idle hinv rfl rfl ?_ (cached_concat _ _)
    show q.2.accepted ++ (Report.line _ ++ []) = _
    rw [List.append_nil]
    exact h.changed rfl hne
  | @unchanged st st' hchange =>
    have hfst := detectChange_fst st ⟨dipsw, button, port.hal.nticks⟩
    have hsnd := detectChange_snd st ⟨dipsw, button, port.hal.nticks⟩
    rw [hchange] at hfst hsnd
    split_ifs at hsnd with hne
    replace hfst : st' = _ := hfst
    subst hfst
    exact h.idle hinv rfl rfl (h.unchanged rfl (not_not.mp hne)) (cached_concat _ _)
  | @toggle st =>
    refine h.idle hinv rfl rfl h.stream ?_
    show _ = some (⟨(toggleBlink port.hal.tickRate st port.hal.nticks).dipsw,
      (toggleBlink port.hal.tickRate st port.hal.nticks).keys⟩ : Report)
    unfold toggleBlink
    split_ifs <;> exact hcached
  | writeLed => exact h.idle hinv rfl rfl h.stream h.cached
  | wake => exact h.idle hinv rfl rfl h.stream h.cached

/-- The driver follows every step of the firmware. -/
theorem Serves.step (h : Serves c (s, log) q) {e : Event} (hst : step c s e = some t) :
    Followed c (t, record log s e) q := by
  have hinv : Inv c t := h.inv.step hst
  cases e with
  | cpu dipsw button chunk => exact h.cpuStep hst hinv
  | uartIrq =>
    obtain ⟨port, hport, rfl⟩ := drive_eq_some_iff.mp hst
    exact h.event hinv (f := .uartIrq) hport h.delivered h.stream h.cached
  | timerIrq =>
    obtain ⟨port, hport, rfl⟩ := drive_eq_some_iff.mp hst
    exact h.event hinv (f := .timerIrq) hport h.delivered h.stream h.cached
  | hostRead =>
    obtain ⟨port, hport, rfl⟩ := drive_eq_some_iff.mp hst
    refine h.event hinv (f := .hostRead) hport ?_ h.stream h.cached
    exact congrArg (· ++ s.device.txFifo.take 1) h.delivered
  | hostWrite ch =>
    obtain ⟨port, hport, rfl⟩ := drive_eq_some_iff.mp hst
    exact h.event hinv (f := .hostWrite ch) hport h.delivered h.stream h.cached

end Follow

/-- Every run of the firmware, with its history, is followed by a run of the
    driver. -/
theorem firmware_served (c : Core) {es : List Event} {p : Sys × Log}
    (h : exec (watch (step c) record) (Sys.init, ⟨[], []⟩) es = some p) :
    Followed c p (Driver.Port.reset Hal.init, Driver.Traffic.none) := by
  refine exec_simulation ?_ (serves_init c) h
  intro p e p' q hserves hstep
  obtain ⟨t, ht, rfl⟩ := Option.map_eq_some_iff.mp hstep
  exact hserves.step ht

/-- At any time the characters the host has read, those in the transmit FIFO,
    those in the transmit ring and those that `main` has still to print are
    together the transcript of the inputs sampled so far: `printf` never gives
    up, and nothing is lost, duplicated or reordered on the way. -/
theorem console_stream (c : Core) (es : List Event) :
    StatesHave (watch (step c) record) (Sys.init, ⟨[], []⟩) (fun p =>
      p.2.delivered ++ p.1.device.txFifo ++ p.1.uart.ring ++ p.1.unprinted =
        transcript p.2.polls) es := by
  intro es' p _ hp
  obtain ⟨fs, q, -, hserves⟩ := firmware_served c hp
  have htx := hserves.balanced.tx
  rw [hserves.port] at htx
  rw [← hserves.stream, hserves.inv.pending_eq, ← List.append_assoc, ← htx, hserves.delivered]

/-! ## Reading the log -/

section ReadLog

open Framing

/-- What the host makes of the text it has read: it cuts it into lines, skips the
    two of the banner and reads the inputs off each of the others. -/
def readLog (text : Text) : List Sample := ((frames '\n' [] text).drop 2).filterMap parseLine

/-- The samples that differ from the one before. -/
def inputChanges (polls : List Poll) : List Sample := (polls.map Poll.sample).destutter (· ≠ ·)

theorem newline_notMem_keyText (pressed : Bool) : '\n' ∉ keyText pressed := by
  cases pressed <;> decide

theorem newline_ne_hexDigit : ∀ a < 16, '\n' ≠ (Nat.digitChar a).toUpper := by decide

theorem line_terminated {r : Report} (hr : r.Masked) : Terminated '\n' r.line := by
  refine ⟨"DIPSW=0x".toList ++ ((Nat.digitChar r.dipsw.toNat).toUpper :: (" KEY0=".toList ++
    (keyText r.shown.key0 ++ (" KEY1=".toList ++ keyText r.shown.key1)))), ?_, ?_⟩
  · rw [line_eq hr]
    simp only [List.append_assoc, List.cons_append]
    rfl
  · have hprefix : '\n' ∉ "DIPSW=0x".toList := by decide
    have hkey0 : '\n' ∉ " KEY0=".toList := by decide
    have hkey1 : '\n' ∉ " KEY1=".toList := by decide
    simp only [List.mem_append, List.mem_cons, hprefix, newline_ne_hexDigit _ hr.1, hkey0,
      newline_notMem_keyText, hkey1, or_self, not_false_eq_true]

/-- The lines for the samples `polls`. -/
theorem inputChanges_eq (polls : List Poll) :
    (((polls.map Poll.report).destutter (· ≠ ·)).map Report.line).filterMap parseLine =
      inputChanges polls := by
  have hreport : ∀ r ∈ (polls.map Poll.report).destutter (· ≠ ·), ∃ p : Poll, p.report = r := by
    intro r hr
    obtain ⟨p, -, hp⟩ := List.mem_map.mp ((List.destutter_sublist _ _).subset hr)
    exact ⟨p, hp⟩
  have hinj : ∀ a ∈ polls.map Poll.report, ∀ b ∈ polls.map Poll.report,
      a ≠ b ↔ a.shown ≠ b.shown := by
    intro a ha b hb
    obtain ⟨p, -, rfl⟩ := List.mem_map.mp ha
    obtain ⟨q, -, rfl⟩ := List.mem_map.mp hb
    rw [shown_report, shown_report, not_iff_not, report_eq_iff]
  have hparse : ∀ r ∈ (polls.map Poll.report).destutter (· ≠ ·),
      (parseLine ∘ Report.line) r = (some ∘ Report.shown) r := by
    intro r hr
    obtain ⟨p, rfl⟩ := hreport r hr
    show parseLine p.report.line = some p.report.shown
    rw [parseLine_line, shown_report]
  have hshown : (Report.shown ∘ Poll.report) = Poll.sample := by
    funext p
    exact shown_report p
  rw [List.filterMap_map, List.filterMap_congr hparse, List.filterMap_eq_map,
    List.map_destutter hinj, List.map_map, hshown]
  rfl

/-- Reading the whole transcript gives the changes. -/
theorem readLog_transcript (polls : List Poll) : readLog (transcript polls) = inputChanges polls := by
  by_cases hnil : polls = []
  · subst hnil
    rfl
  · have hbanner : banner = [['\n'], banner.tail].flatten := rfl
    have hterminated : ∀ f ∈ [['\n'], banner.tail] ++
        ((polls.map Poll.report).destutter (· ≠ ·)).map Report.line, Terminated '\n' f := by
      intro f hf
      rcases List.mem_append.mp hf with hf | hf
      · rcases List.mem_pair.mp hf with rfl | rfl
        · exact ⟨[], rfl, List.not_mem_nil⟩
        · exact ⟨banner.tail.dropLast, rfl, by decide⟩
      · obtain ⟨r, hr, rfl⟩ := List.mem_map.mp hf
        obtain ⟨p, -, rfl⟩ := List.mem_map.mp ((List.destutter_sublist _ _).subset hr)
        exact line_terminated (report_masked p)
    have hframes := frames_flatten hterminated []
    rw [frames, List.append_nil, List.append_nil, List.flatten_append, ← hbanner,
      ← List.flatMap_def] at hframes
    unfold readLog transcript
    rw [if_neg hnil, hframes]
    exact inputChanges_eq polls

theorem readLog_mono {text text' : Text} (h : text <+: text') : readLog text <+: readLog text' :=
  ((frames_mono h []).drop 2).filterMap parseLine

/-- The log is a record of the inputs: at any time, whatever the interrupts and
    the host do, what the host reads off the text it has got so far are the
    first changes of the inputs sampled by `main`, and all of them when no
    character is under way. -/
theorem host_log_sound (c : Core) (es : List Event) :
    StatesHave (watch (step c) record) (Sys.init, ⟨[], []⟩) (fun p =>
      readLog p.2.delivered <+: inputChanges p.2.polls ∧
        (p.1.device.txFifo = [] → p.1.uart.ring = [] → p.1.unprinted = [] →
          readLog p.2.delivered = inputChanges p.2.polls)) es := by
  intro es' p hpre hp
  have hstream : p.2.delivered ++ p.1.device.txFifo ++ p.1.uart.ring ++ p.1.unprinted =
    transcript p.2.polls := console_stream c es es' p hpre hp
  refine ⟨?_, ?_⟩
  · rw [← readLog_transcript, ← hstream, List.append_assoc, List.append_assoc]
    exact readLog_mono (List.prefix_append _ _)
  · intro hfifo hring hunprinted
    rw [hfifo, hring, hunprinted, List.append_nil, List.append_nil, List.append_nil] at hstream
    rw [hstream, readLog_transcript]

end ReadLog

end NiosvCodesign.Firmware

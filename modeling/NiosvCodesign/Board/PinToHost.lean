import NiosvCodesign.Board.PinToLog
import NiosvCodesign.Firmware.ReadingHost

/-!
# From the pin to the host

The whole way of a key press: debounced and read as in `PinToLog`, printed by
`main`, carried through the ring and the FIFO of the UART under any interleaving
with the interrupts, and read off the console by the host.

* `presses_inputChanges`: the host's list of changes has the presses of the
  button words that `main` has read.
* `host_presses`: what the host counts are the long presses met so far.
* `press_arrives`: a host that keeps reading counts each of them.
-/

namespace NiosvCodesign.Board

open NiosvCodesign.Firmware NiosvCodesign.Top ChangeLog Transitions

/-- `KEYi` in a line of the console. -/
def keyShown (x : Sample) : Fin 2 → Bool
  | 0 => x.key0
  | 1 => x.key1

/-- `KEYi` goes from released to pressed between two lines of the console. -/
def pressShown (i : Fin 2) (x y : Sample) : Bool := !keyShown x i && keyShown y i

/-- The presses of `KEYi` that the host finds in the text it has read. -/
def hostPresses (i : Fin 2) (text : Text) : ℕ := steps (pressShown i) (readLog text)

theorem keyShown_sample (p : Poll) (i : Fin 2) : keyShown p.sample i = !p.button.getLsbD i := by
  fin_cases i <;> rfl

theorem pressShown_self (i : Fin 2) (x : Sample) : pressShown i x x = false :=
  Bool.not_and_self (keyShown x i)

/-- The changes of the inputs and the reports of `main` agree on the presses. -/
theorem presses_inputChanges (tps : BitVec 32) (poll : ℕ → Poll) (i : Fin 2) (n : ℕ) :
    steps (pressShown i) (inputChanges ((List.range (n + 1)).map poll)) = presses tps poll i n := by
  have hstep : ∀ p q : Poll,
      pressShown i p.sample q.sample = pressStep i p.report q.report := by
    intro p q
    rw [pressShown, pressStep, keyShown_sample, keyShown_sample, report_keyPressed,
      report_keyPressed]
  rw [inputChanges, steps_destutter (pressShown_self i), presses_eq, List.map_map, steps_map,
    steps_map]
  congr 1
  funext j k
  apply hstep

variable {hps : SocSystem} {nv : NiosvSystem} {pins : ℕ → Pins} {poll : ℕ → Poll} {c : ℕ → ℕ}
  {i : Fin 2}

/-- From pin to host, in every state of every run: the presses of a key that the
    host reads off the console are at most the long presses of the pin that the
    reads of `main` have met, and exactly these once no character is under way. No
    press is lost, doubled or invented by the debouncer, the change detection, the
    interrupts or the UART. -/
theorem host_presses (h : PolledRun hps nv pins poll c i) (core : Core) (es : List Event) (n : ℕ) :
    StatesHave (watch (step core) record) (Sys.init, ⟨[], []⟩) (fun p =>
      p.2.polls = (List.range (n + 1)).map poll →
        hostPresses i p.2.delivered ≤ (seenRuns hps nv pins c i n).encard ∧
        (p.1.device.txFifo = [] → p.1.uart.ring = [] → p.1.unprinted = [] →
          hostPresses i p.2.delivered = (seenRuns hps nv pins c i n).encard)) es := by
  intro es' p _ hp hpolls
  have hstream : p.2.delivered ++ p.1.device.txFifo ++ p.1.uart.ring ++ p.1.unprinted =
    transcript p.2.polls := console_stream core es' es' p List.prefix_rfl hp
  have hlog : readLog (transcript p.2.polls) = inputChanges p.2.polls := readLog_transcript _
  have hcount := presses_inputChanges 1000#32 poll i n
  rw [← hpolls, ← hlog] at hcount
  rw [h.encard_seenRuns 1000#32, ← hcount]
  constructor
  · have hpre : p.2.delivered <+: transcript p.2.polls := by
      rw [← hstream, List.append_assoc, List.append_assoc]
      apply List.prefix_append
    exact_mod_cast steps_mono (pressShown i) (readLog_mono hpre)
  · intro hfifo hring hunprinted
    rw [hfifo, hring, hunprinted, List.append_nil, List.append_nil, List.append_nil] at hstream
    rw [hostPresses, hstream]

/-- The read that meets the press has met all there are. -/
theorem encard_seenRuns_onePress :
    (seenRuns default default onePressPins (fun k => 60005 * k) 0 1).encard = 1 := by
  have hone : seenRuns default default onePressPins (fun k => 60005 * k) 0 1 = {10} := by
    ext a
    constructor
    · rintro ⟨hrun, -⟩
      exact (longRun_onePressPins a).mp hrun
    · rintro rfl
      exact ⟨(longRun_onePressPins 10).mpr rfl, 1, le_rfl, assertedBy_onePress default default⟩
  rw [hone, Set.encard_singleton]

/-- The firmware up to the report of the press; then the interrupt routine sends
    all there is and the host reads it. -/
def onePressEvents : List Event :=
  List.replicate 12 (.cpu 0#32 0b11#32 54) ++ List.replicate 9 (.cpu 0#32 0b11#32 38) ++
    List.replicate 10 (.cpu 0#32 0b10#32 37) ++ [.uartIrq] ++ List.replicate 129 .hostRead

/-- The host counts one press. -/
theorem host_presses_one_press : ∃ p,
    exec (watch (step jtagUart) record) (Sys.init, ⟨[], []⟩) onePressEvents = some p ∧
      hostPresses 0 p.2.delivered = 1 := by
  have hrun : (exec (watch (step jtagUart) record) (Sys.init, ⟨[], []⟩) onePressEvents).map
      (fun p => (p.2.polls, p.1.device.txFifo, p.1.uart.txIn, p.1.uart.txOut, p.1.unprinted)) =
        some ([onePressPoll 0, onePressPoll 1], [], 129, 129, []) := by
    decide +kernel
  obtain ⟨p, hp, hend⟩ := Option.map_eq_some_iff.mp hrun
  simp only [Prod.mk.injEq] at hend
  obtain ⟨hpolls, hfifo, hin, hout, hunprinted⟩ := hend
  have hring : p.1.uart.ring = [] := by
    rw [UartState.ring, hin, hout]
    rfl
  have hcount := (host_presses polledRun_onePress jtagUart onePressEvents 1 onePressEvents p
    List.prefix_rfl hp hpolls).2 hfifo hring hunprinted
  rw [encard_seenRuns_onePress] at hcount
  exact ⟨p, hp, by exact_mod_cast hcount⟩

/-- A host that keeps reading gets to know of every long press that the reads of
    `main` have met. -/
theorem press_arrives (h : PolledRun hps nv pins poll c i) {core : Core}
    (hcore : Driver.CoreOk core) {r : Run (watch (step core) record)}
    (h0 : r.state 0 = (Sys.init, ⟨[], []⟩)) (hfair : r.Fair Party.Acts (Party.Enabled core))
    {n k : ℕ} (hpolls : (r.state k).2.polls = (List.range (n + 1)).map poll) :
    ∃ m, k ≤ m ∧
      (seenRuns hps nv pins c i n).encard ≤ hostPresses i (r.state m).2.delivered := by
  obtain ⟨m, hm, hlog⟩ := host_hears_all hcore h0 hfair k
  have hcount := presses_inputChanges 1000#32 poll i n
  rw [← hpolls] at hcount
  refine ⟨m, hm, ?_⟩
  rw [h.encard_seenRuns 1000#32, ← hcount]
  exact_mod_cast steps_mono (pressShown i) hlog

/-- What `main` reads in this run. -/
def onePressInputs (k : ℕ) : BitVec 32 × BitVec 32 :=
  ((onePressPoll k).dipsw, (onePressPoll k).button)

/-- At step 64 the press has been sampled. -/
theorem press_arrives_one_press : ∃ m, 64 ≤ m ∧
    1 ≤ hostPresses 0 ((takingTurns jtagUart onePressInputs).state m).2.delivered := by
  have hpolls : ((takingTurns jtagUart onePressInputs).state 64).2.polls =
      [onePressPoll 0, onePressPoll 1] := by
    decide +kernel
  obtain ⟨m, hm, hcount⟩ := press_arrives (n := 1) polledRun_onePress Driver.coreOk_jtagUart rfl
    (takingTurns_fair jtagUart onePressInputs) hpolls
  rw [encard_seenRuns_onePress] at hcount
  exact ⟨m, hm, by exact_mod_cast hcount⟩

end NiosvCodesign.Board

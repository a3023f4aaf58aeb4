import NiosvCodesign.Lib.SplitRead
import NiosvCodesign.Lib.Transitions
import NiosvCodesign.Firmware.Main

/-!
# The loop of `main` under timer interrupts

`_alt_nticks` has 64 bits and the core 32, so a call of `alt_nticks()` is two
loads, and the timer interrupt increments the counter between any two steps of
the program. The console takes time but does not touch this state.

* `secondLoad_toNat`: a call returns what its two loads put together.
* `trace_fst`: the history kept for the proofs does not change the runs.
* `trace_mainRun`: whatever the interrupts do, the program computes `mainRun` on
  what its reads returned.
-/

namespace NiosvCodesign.Firmware.TickRead

open Transitions SplitRead

/-! ## Two loads -/

/-- The word at the lower address of a 64-bit variable. -/
def lowWord (x : BitVec 64) : BitVec 32 := x.extractLsb' 0 32

/-- The word at the higher address. -/
def highWord (x : BitVec 64) : BitVec 32 := x.extractLsb' 32 32

/-- What the first load of `alt_nticks()` (alt_alarm.h:110-113) finds. -/
def firstLoad (o : Order) (nticks : BitVec 64) : BitVec 32 :=
  match o with
  | .lowFirst => lowWord nticks
  | .highFirst => highWord nticks

/-- What `alt_nticks()` returns when its second load finds the counter at
    `nticks`; `half` is what the first load found. -/
def secondLoad (o : Order) (half : BitVec 32) (nticks : BitVec 64) : BitVec 64 :=
  match o with
  | .lowFirst => highWord nticks ++ half
  | .highFirst => half ++ lowWord nticks

theorem lowWord_toNat (x : BitVec 64) : (lowWord x).toNat = x.toNat % 2 ^ 32 := by
  rw [lowWord, BitVec.extractLsb'_toNat, Nat.shiftRight_zero]

theorem highWord_toNat (x : BitVec 64) : (highWord x).toNat = x.toNat / 2 ^ 32 := by
  rw [highWord, BitVec.extractLsb'_toNat, Nat.shiftRight_eq_div_pow]
  exact Nat.mod_eq_of_lt (by omega)

theorem highWord_append_lowWord (x y : BitVec 64) :
    (highWord x ++ lowWord y).toNat = 2 ^ 32 * (x.toNat / 2 ^ 32) + y.toNat % 2 ^ 32 := by
  rw [BitVec.toNat_append, ← Nat.shiftLeft_add_eq_or_of_lt (lowWord y).isLt, Nat.shiftLeft_eq,
    highWord_toNat, lowWord_toNat, Nat.mul_comm]

/-- The value returned, for loads that find the counter at `x` and at `y`. -/
theorem secondLoad_toNat (o : Order) (x y : BitVec 64) :
    (secondLoad o (firstLoad o x) y).toNat = value (2 ^ 32) x.toNat y.toNat o := by
  cases o with
  | lowFirst => exact highWord_append_lowWord y x
  | highFirst => exact highWord_append_lowWord x y

/-! ## The program -/

/-- The control points of `main`. A call of `alt_nticks()` is between its loads
    at `initSecond` and `second`. -/
inductive Pc
  /-- `read_dipsw()` and `read_keys_pressed()` (main.c:47-48). -/
  | entry
  /-- The call at main.c:50, with the words read before. -/
  | initFirst (dipsw button : BitVec 32)
  | initSecond (dipsw button : BitVec 32) (o : Order) (half : BitVec 32)
  /-- The change detection and `half_period` (main.c:56-68). -/
  | loopTop (st : MainState)
  /-- The call at main.c:70. -/
  | first (st : MainState)
  | second (st : MainState) (o : Order) (half : BitVec 32)
  /-- main.c:71-74. -/
  | toggle (st : MainState) (now : BitVec 64)
  /-- The LED write (main.c:76-82). -/
  | ledWrite (st : MainState)
  /-- `usleep` (main.c:84). -/
  | sleep (st : MainState)

/-- `_alt_nticks`, the last word written to `pio_led`, and the program. -/
structure State where
  nticks : BitVec 64
  led : BitVec 32
  pc : Pc

/-- `main` is entered with the counter at `nticks`. -/
def init (nticks : BitVec 64) : State := ⟨nticks, 0#32, .entry⟩

/-- A step of the program, with the PIO words it would read and the order in
    which a call of `alt_nticks()` that starts here does its loads; or a timer
    interrupt. -/
inductive Event
  | cpu (dipsw button : BitVec 32) (o : Order)
  | timerIrq
deriving DecidableEq

/-- A step of the program. -/
def cpuStep (tps : BitVec 32) (s : State) (dipsw button : BitVec 32) (o : Order) : State :=
  match s.pc with
  | .entry => { s with pc := .initFirst dipsw button }
  | .initFirst dipsw button => { s with pc := .initSecond dipsw button o (firstLoad o s.nticks) }
  | .initSecond dipsw button o half =>
    { s with pc := .loopTop (mainInit ⟨dipsw, button, secondLoad o half s.nticks⟩) }
  | .loopTop st => { s with pc := .first (detectChange st ⟨dipsw, button, s.nticks⟩).1 }
  | .first st => { s with pc := .second st o (firstLoad o s.nticks) }
  | .second st o half => { s with pc := .toggle st (secondLoad o half s.nticks) }
  | .toggle st now => { s with pc := .ledWrite (toggleBlink tps st now) }
  | .ledWrite st => { s with led := ledValue st.keys st.blink, pc := .sleep st }
  | .sleep st => { s with pc := .loopTop st }

/-- One event. The timer interrupt is `_alt_nticks++` (alt_tick.c:96). -/
def step (tps : BitVec 32) (s : State) : Event → Option State
  | .cpu dipsw button o => some (cpuStep tps s dipsw button o)
  | .timerIrq => some { s with nticks := s.nticks + 1#64 }

/-! ## The history of a run -/

/-- A call of `alt_nticks()`: how many timer interrupts there had been at its
    first and at its second load. -/
structure Call where
  start : ℕ
  stop : ℕ

/-- What has happened in a run: the number of timer interrupts, the last call of
    `alt_nticks()`, the call whose value is in `last_toggle`, what the reads of
    the current iteration have returned, and the same for the start-up code and
    the iterations before. -/
structure History where
  ticks : ℕ
  call : Call
  toggleCall : Call
  poll : Poll
  polls : List Poll

/-- Nothing has happened. -/
def History.init : History := ⟨0, ⟨0, 0⟩, ⟨0, 0⟩, ⟨0#32, 0#32, 0#64⟩, []⟩

/-- What an event adds to the history. -/
def observe (tps : BitVec 32) (h : History) (s : State) : Event → History
  | .timerIrq => { h with ticks := h.ticks + 1 }
  | .cpu dipsw button _ =>
    match s.pc with
    | .initFirst _ _ | .first _ => { h with call := ⟨h.ticks, h.ticks⟩ }
    | .initSecond dipsw button o half =>
      let call := { h.call with stop := h.ticks }
      { h with
        call := call, toggleCall := call
        polls := [⟨dipsw, button, secondLoad o half s.nticks⟩] }
    | .loopTop _ => { h with poll := ⟨dipsw, button, s.nticks⟩ }
    | .second _ o half =>
      { h with
        call := { h.call with stop := h.ticks }
        poll := { h.poll with nticks := secondLoad o half s.nticks } }
    | .toggle st now =>
      { h with
        toggleCall := if (toggleBlink tps st now).blink ≠ st.blink then h.call else h.toggleCall
        polls := h.polls ++ [h.poll] }
    | _ => h

/-- The state after a run from counter value `c0`, with its history. -/
def trace (tps : BitVec 32) (c0 : BitVec 64) (es : List Event) : Option (State × History) :=
  exec (watch (step tps) (observe tps)) (init c0, History.init) es

/-- Every run of the program has its history. -/
theorem trace_fst (tps : BitVec 32) (c0 : BitVec 64) (es : List Event) :
    (trace tps c0 es).map Prod.fst = exec (step tps) (init c0) es :=
  exec_watch (observe tps) History.init

/-! ## The program refines `mainRun` -/

/-- The state of `mainRun` after the start-up code and one iteration for each
    further poll. -/
def mainRunOn (tps : BitVec 32) (polls : List Poll) : MainState :=
  mainRun tps (fun k => polls.getD k ⟨0#32, 0#32, 0#64⟩) (polls.length - 1)

theorem mainRunOn_concat (tps : BitVec 32) {polls : List Poll} (hne : polls ≠ []) (p : Poll) :
    mainRunOn tps (polls ++ [p]) = (loopBody tps (mainRunOn tps polls) p).1 := by
  have hpos := List.length_pos_iff.mpr hne
  have hlen : (polls ++ [p]).length - 1 = polls.length - 1 + 1 := by
    rw [List.length_append, List.length_singleton]
    omega
  have hlast : (polls ++ [p]).getD (polls.length - 1 + 1) ⟨0#32, 0#32, 0#64⟩ = p := by
    rw [Nat.sub_add_cancel hpos, List.getD_append_right _ _ _ _ le_rfl, Nat.sub_self]
    rfl
  unfold mainRunOn
  rw [hlen, mainRun_succ, hlast]
  congr 2
  apply mainRun_congr
  intro k hk
  exact List.getD_append _ _ _ _ (by omega)

/-- The program is where `mainRun` is after the polls made so far, or has already
    done the change detection of the next iteration. -/
def Simulates (tps : BitVec 32) (s : State × History) : Prop :=
  match s.1.pc with
  | .loopTop st | .ledWrite st | .sleep st => s.2.polls ≠ [] ∧ st = mainRunOn tps s.2.polls
  | .first st | .second st _ _ =>
    s.2.polls ≠ [] ∧ st = (detectChange (mainRunOn tps s.2.polls) s.2.poll).1
  | .toggle st now => s.2.polls ≠ [] ∧ s.2.poll.nticks = now ∧
      st = (detectChange (mainRunOn tps s.2.polls) s.2.poll).1
  | _ => True

variable {tps : BitVec 32} {c0 : BitVec 64} {s t : State × History}

theorem simulates_step (h : Simulates tps s) {e : Event}
    (hst : watch (step tps) (observe tps) s e = some t) : Simulates tps t := by
  obtain ⟨⟨nticks, led, pc⟩, hist⟩ := s
  cases e with
  | timerIrq =>
    obtain rfl := Option.some.inj hst
    exact h
  | cpu dipsw button o =>
    obtain rfl := Option.some.inj hst
    cases pc with
    | entry => trivial
    | initFirst d b => trivial
    | initSecond d b o' half => exact ⟨List.cons_ne_nil _ _, rfl⟩
    | loopTop st =>
      obtain ⟨hne, heq⟩ := h
      exact ⟨hne, congrArg (fun r => (detectChange r ⟨dipsw, button, nticks⟩).1) heq⟩
    | first st => exact h
    | second st o' half =>
      -- the change detection does not look at the tick reading
      obtain ⟨hne, heq⟩ := h
      exact ⟨hne, rfl, heq⟩
    | toggle st now =>
      obtain ⟨hne, hnow, heq⟩ := h
      replace hnow : hist.poll.nticks = now := hnow
      replace heq : st = (detectChange (mainRunOn tps hist.polls) hist.poll).1 := heq
      refine ⟨List.append_ne_nil_of_left_ne_nil hne _, ?_⟩
      show toggleBlink tps st now = mainRunOn tps (hist.polls ++ [hist.poll])
      rw [mainRunOn_concat tps hne, heq, ← hnow]
      rfl
    | ledWrite st => exact h
    | sleep st => exact h

/-- At the top of the loop, whatever the interrupts did, the state is that of
    `mainRun` on what the reads returned. -/
theorem trace_mainRun {es : List Event} {st : MainState} (h : trace tps c0 es = some s)
    (hpc : s.1.pc = .loopTop st) : st = mainRunOn tps s.2.polls := by
  have hinit : Simulates tps (init c0, History.init) := trivial
  have hsim : Simulates tps s := exec_invariant (fun _ _ _ hr hst => simulates_step hr hst) hinit h
  unfold Simulates at hsim
  rw [hpc] at hsim
  exact hsim.2

end NiosvCodesign.Firmware.TickRead

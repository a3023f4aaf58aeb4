import NiosvCodesign.Lib.Clocked
import NiosvCodesign.Lib.RunLength

/-!
# The debouncer

Model of `debounce` (`ip/debounce/debounce.v`) for arbitrary parameters. There
is one counter per input; it counts the clock cycles for which the input has
been at its active level, stops at `TIMEOUT` and is reset as soon as the input
is not active. The output shows the active level while the counter stands at
`TIMEOUT`.

* `run_counter`: with a counter wide enough for `TIMEOUT`, each counter is the
  saturating run length of "reset released and input active".
* `run_dataOut`: so the output is active iff this held at the last `TIMEOUT`
  edges.
-/

namespace NiosvCodesign.Debounce

open RunLength

/-! ## Model -/

/-- `POLARITY`: `"HIGH"`, or anything else, which the module treats as `"LOW"`. -/
inductive Polarity
  | high
  | low
deriving DecidableEq

/-- The parameters (debounce.v:20-23). -/
structure Params where
  width : ℕ
  polarity : Polarity
  timeout : ℕ
  timeoutWidth : ℕ

/-- `counter` (debounce.v:31). -/
abbrev Counters (P : Params) := Fin P.width → BitVec P.timeoutWidth

/-- What the module samples at a rising edge of `clk`. -/
structure Input (P : Params) where
  resetN : Bool
  dataIn : BitVec P.width

variable (P : Params)

/-- The level of an input, and of its output, that counts as active. -/
def activeLevel : Bool :=
  match P.polarity with
  | .high => true
  | .low => false

/-- `counter_reset[i]` (debounce.v:60, 66). -/
def counterReset (dataIn : BitVec P.width) (i : Fin P.width) : Bool :=
  match P.polarity with
  | .high => dataIn[i] == false
  | .low => dataIn[i] == true

/-- `counter_enable[i]` (debounce.v:61, 67). The comparison is with the
    unbounded parameter, so it is made on the value of the counter. -/
def counterEnable (dataIn : BitVec P.width) (c : Counters P) (i : Fin P.width) : Bool :=
  match P.polarity with
  | .high => dataIn[i] == true && decide ((c i).toNat < P.timeout)
  | .low => dataIn[i] == false && decide ((c i).toNat < P.timeout)

/-- `data_out` (debounce.v:62, 68). -/
def dataOut (c : Counters P) : BitVec P.width :=
  match P.polarity with
  | .high => BitVec.ofFnLE fun i => if (c i).toNat = P.timeout then true else false
  | .low => BitVec.ofFnLE fun i => if (c i).toNat = P.timeout then false else true

/-- The `always` block at a rising edge of `clk` (debounce.v:39-56). The
    addition wraps at `TIMEOUT_WIDTH` bits. -/
def clock (c : Counters P) (u : Input P) : Counters P := fun i =>
  if u.resetN = false then 0
  else if counterReset P u.dataIn i then 0
  else if counterEnable P u.dataIn c i then c i + 1
  else c i

/-- The `always` block at a falling edge of `reset_n` (debounce.v:39-44):
    `resetN` is the level reached. -/
def asyncReset (resetN : Bool) (c : Counters P) : Counters P := fun i =>
  if resetN = false then 0 else c i

/-! ## What one edge does -/

/-- Is input `i` counted at this edge? -/
def Input.active (u : Input P) (i : Fin P.width) : Bool :=
  u.resetN && u.dataIn[i] == activeLevel P

variable {P}

theorem counterReset_eq (d : BitVec P.width) (i : Fin P.width) :
    counterReset P d i = !(d[i] == activeLevel P) := by
  unfold counterReset activeLevel
  cases P.polarity <;> cases d[i] <;> rfl

theorem counterEnable_eq (d : BitVec P.width) (c : Counters P) (i : Fin P.width) :
    counterEnable P d c i = (d[i] == activeLevel P && decide ((c i).toNat < P.timeout)) := by
  unfold counterEnable activeLevel
  cases P.polarity <;> rfl

/-- Output `i` shows the active level iff its counter stands at `TIMEOUT`. -/
theorem dataOut_eq_active_iff (c : Counters P) (i : Fin P.width) :
    (dataOut P c)[i] = activeLevel P ↔ (c i).toNat = P.timeout := by
  unfold dataOut activeLevel
  cases P.polarity <;> simp

/-- `data_out[i]`. -/
def outputAt (P : Params) (c : Counters P) (i : Fin P.width) : Bool := (dataOut P c)[i]

theorem outputAt_eq_active_iff (c : Counters P) (i : Fin P.width) :
    outputAt P c i = activeLevel P ↔ (c i).toNat = P.timeout := dataOut_eq_active_iff c i

/-- One edge: restart, count or hold. -/
theorem clock_apply (c : Counters P) (u : Input P) (i : Fin P.width) :
    clock P c u i = if u.active P i then
      (if (c i).toNat < P.timeout then c i + 1 else c i) else 0 := by
  unfold clock Input.active
  rw [counterReset_eq, counterEnable_eq]
  cases u.resetN <;> cases (u.dataIn[i] == activeLevel P) <;> simp

/-- A counter that can represent `TIMEOUT` never wraps. -/
theorem clock_toNat (hT : P.timeout < 2 ^ P.timeoutWidth) {c : Counters P} {u : Input P}
    {i : Fin P.width} (hc : (c i).toNat ≤ P.timeout) : (clock P c u i).toNat =
      if u.active P i then min ((c i).toNat + 1) P.timeout else 0 := by
  rw [clock_apply]
  split_ifs with ha hlt
  · have hsum : (c i).toNat + (1#P.timeoutWidth).toNat = (c i).toNat + 1 := by
      rw [BitVec.toNat_ofNat, Nat.mod_eq_of_lt (by omega)]
    have hadd : (c i + 1#P.timeoutWidth).toNat = (c i).toNat + 1 := by
      rw [BitVec.toNat_add_of_lt (by omega), hsum]
    exact hadd.trans (by omega)
  · omega
  · exact BitVec.toNat_zero

/-- A reset that is only ever released after an edge clears nothing that the
    edge has not cleared. -/
theorem asyncReset_clock {resetN : Bool} (c : Counters P) {u : Input P}
    (h : u.resetN = true → resetN = true) :
    asyncReset P resetN (clock P c u) = clock P c u := by
  funext i
  unfold asyncReset
  split_ifs with hr
  · have hu : u.resetN = false := by
      rw [← Bool.not_eq_true]
      intro hu
      rw [h hu] at hr
      contradiction
    unfold clock
    rw [if_pos hu]
  · rfl

/-! ## Runs -/

section Run

variable (hT : P.timeout < 2 ^ P.timeoutWidth) (u : ℕ → Input P)
include hT

/-- Counter `i` is the length of the current run of active edges, up to
    `TIMEOUT`. -/
theorem run_counter (i : Fin P.width) (n : ℕ) :
    (Clocked.run (clock P) (fun _ => 0) u n i).toNat =
      count (fun m => (u m).active P i) P.timeout n := by
  induction n with
  | zero => rfl
  | succ n ih =>
    rw [Clocked.run_succ, clock_toNat hT (ih ▸ count_le n), ih]
    rfl

/-- Output `i` is active iff the input was active, and the reset released, at
    the last `TIMEOUT` edges. -/
theorem run_dataOut (i : Fin P.width) (n : ℕ) :
    (dataOut P (Clocked.run (clock P) (fun _ => 0) u n))[i] = activeLevel P ↔
      Held (fun m => (u m).active P i) P.timeout n := by
  rw [dataOut_eq_active_iff, run_counter hT, count_eq_limit_iff]

end Run

end NiosvCodesign.Debounce

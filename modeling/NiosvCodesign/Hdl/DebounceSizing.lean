import NiosvCodesign.Hdl.Debounce

/-!
# The sizing rule of the debouncer

The parameter list asks for `TIMEOUT_WIDTH = ceil(log2(TIMEOUT))`
(debounce.v:23), and the top level repeats it (.sv:274). Counters of that width
hold every value below `TIMEOUT`; the output compares them with `TIMEOUT`
itself.

* `timeout_lt_iff`: `TIMEOUT` fits into its counter unless it is a power of two.
* `never_active`: a counter it does not fit into wraps, and the output is never
  active.
* `detects_iff`: so a debouncer sized by the rule works for a power of two only
  as long as there is nothing to detect, and for every other `TIMEOUT` always.
* `wide_undetected`: `TIMEOUT = 65536`, 16 bits, both inputs held active.
-/

namespace NiosvCodesign.Debounce

open RunLength

/-- A debouncer with `TIMEOUT_WIDTH` set by the rule. -/
def sized (width : ℕ) (polarity : Polarity) (timeout : ℕ) : Params where
  width := width
  polarity := polarity
  timeout := timeout
  timeoutWidth := Nat.clog 2 timeout

/-! ## Runs with a reset -/

variable (P : Params)

/-- What the edges `1, 2, 3, …` sample. The first one finds the module in
    reset. -/
structure Stream where
  sample : ℕ → Input P
  reset : (sample 1).resetN = false

/-- From one rising edge to the next. `reset_n` changes right after an edge, so
    the level the next edge samples has already acted on the counters. -/
def step (c : Counters P) (u : Input P) : Counters P :=
  clock P (asyncReset P u.resetN c) u

/-- Output `i` right after edge `n`. `power` is what the counters hold at
    power-up. -/
def outAfter (power : Counters P) (u : Stream P) (i : Fin P.width) (n : ℕ) : Bool :=
  outputAt P (Clocked.run (step P) power u.sample n) i

/-- Input `i` has been active, and the reset released, at each of the last
    `TIMEOUT` edges. -/
def HeldActive (u : Stream P) (i : Fin P.width) (n : ℕ) : Prop :=
  Held (fun m => (u.sample m).active P i) P.timeout n

/-- What a debouncer is for: output `i` shows the active level after an edge iff
    the input has been held active until then; it does so until the input is
    released, and it depends on no other input and not on the power-up state. -/
structure Detects (power : Counters P) (u : Stream P) (i : Fin P.width) : Prop where
  exact : ∀ n, 1 ≤ n → (outAfter P power u i n = activeLevel P ↔ HeldActive P u i n)
  stays : ∀ n m, 1 ≤ n → n ≤ m → outAfter P power u i n = activeLevel P →
    (∀ k, n < k → k ≤ m → (u.sample k).active P i = true) →
      outAfter P power u i m = activeLevel P
  independent : ∀ (power' : Counters P) (v : Stream P),
    (∀ m, (v.sample m).active P i = (u.sample m).active P i) →
      ∀ n, 1 ≤ n → outAfter P power' v i n = outAfter P power u i n

variable {P}

theorem step_eq (c : Counters P) (u : Input P) : step P c u = clock P c u := by
  funext i
  unfold step clock asyncReset
  cases u.resetN <;> simp [counterEnable]

/-- The first edge clears the counters, whatever they hold at power-up. -/
theorem run_step_eq (power : Counters P) (u : Stream P) {n : ℕ} (hn : 1 ≤ n) :
    Clocked.run (step P) power u.sample n = Clocked.run (clock P) (fun _ => 0) u.sample n := by
  induction n, hn using Nat.le_induction with
  | base =>
    funext i
    simp [step_eq, clock, u.reset]
  | succ n hn ih => rw [Clocked.run_succ, Clocked.run_succ, ih, step_eq]

/-- When `reset_n` goes low right after the edge, the output goes inactive for
    the rest of the cycle. -/
theorem outputAt_asyncReset_iff (hT : P.timeout ≠ 0) (resetN : Bool) (c : Counters P)
    (i : Fin P.width) : outputAt P (asyncReset P resetN c) i = activeLevel P ↔
      resetN = true ∧ outputAt P c i = activeLevel P := by
  rw [outputAt_eq_active_iff, outputAt_eq_active_iff, asyncReset]
  cases resetN
  · simpa using hT.symm
  · simp

/-! ## Counters that are wide enough -/

theorem outAfter_iff (hT : P.timeout < 2 ^ P.timeoutWidth) (power : Counters P) (u : Stream P)
    (i : Fin P.width) {n : ℕ} (hn : 1 ≤ n) :
    outAfter P power u i n = activeLevel P ↔ HeldActive P u i n := by
  unfold outAfter
  rw [run_step_eq power u hn]
  exact run_dataOut hT u.sample i n

theorem detects_of_fits (hT : P.timeout < 2 ^ P.timeoutWidth) (power : Counters P) (u : Stream P)
    (i : Fin P.width) : Detects P power u i where
  exact := fun n hn => outAfter_iff hT power u i hn
  stays := by
    intro n m hn hnm hout hactive
    rw [outAfter_iff hT power u i hn] at hout
    rw [outAfter_iff hT power u i (hn.trans hnm)]
    exact hout.extend hnm hactive
  independent := by
    intro power' v hsame n hn
    have hheld : HeldActive P v i n ↔ HeldActive P u i n := by
      unfold HeldActive
      simp only [hsame]
    have hiff := (outAfter_iff hT power' v i hn).trans
      (hheld.trans (outAfter_iff hT power u i hn).symm)
    by_cases hout : outAfter P power' v i n = activeLevel P
    · rw [hout, hiff.mp hout]
    · rw [Bool.eq_not_of_ne hout, Bool.eq_not_of_ne (mt hiff.mpr hout)]

/-! ## Counters that are not -/

/-- A counter `TIMEOUT` does not fit into never stands at it. -/
theorem never_active (hT : 2 ^ P.timeoutWidth ≤ P.timeout) (c : Counters P) (i : Fin P.width) :
    outputAt P c i ≠ activeLevel P := by
  rw [ne_eq, outputAt_eq_active_iff]
  have hlt := (c i).isLt
  omega

theorem detects_iff_of_wraps (hT : 2 ^ P.timeoutWidth ≤ P.timeout) (power : Counters P)
    (u : Stream P) (i : Fin P.width) :
    Detects P power u i ↔ ∀ n, 1 ≤ n → ¬ HeldActive P u i n := by
  have hoff : ∀ c : Counters P, outputAt P c i ≠ activeLevel P := fun c => never_active hT c i
  constructor
  · intro h n hn hheld
    exact hoff _ ((h.exact n hn).mpr hheld)
  · intro hidle
    refine ⟨?_, ?_, ?_⟩
    · intro n hn
      exact iff_of_false (hoff _) (hidle n hn)
    · intro n m _ _ hout _
      exact absurd hout (hoff _)
    · intro power' v _ n _
      unfold outAfter
      rw [Bool.eq_not_of_ne (hoff _), Bool.eq_not_of_ne (hoff _)]

/-! ## The rule -/

/-- `ceil(log2(TIMEOUT))` bits are enough for `TIMEOUT` unless it is a power of
    two. -/
theorem timeout_lt_iff (timeout : ℕ) :
    timeout < 2 ^ Nat.clog 2 timeout ↔ ¬ ∃ k, timeout = 2 ^ k := by
  have hle := Nat.le_pow_clog Nat.one_lt_two timeout
  constructor
  · rintro hlt ⟨k, rfl⟩
    rw [Nat.clog_pow 2 k Nat.one_lt_two] at hlt
    exact lt_irrefl _ hlt
  · intro hpow
    exact lt_of_le_of_ne hle fun heq => hpow ⟨_, heq⟩

section Rule

variable (width : ℕ) (polarity : Polarity) (timeout : ℕ)

/-- A debouncer sized by the rule does what it is for iff `TIMEOUT` is not a
    power of two or the input is never held active for `TIMEOUT` edges. -/
theorem detects_iff (power : Counters (sized width polarity timeout))
    (u : Stream (sized width polarity timeout)) (i : Fin (sized width polarity timeout).width) :
    Detects (sized width polarity timeout) power u i ↔
      (¬ ∃ k, timeout = 2 ^ k) ∨
        ∀ n, 1 ≤ n → ¬ HeldActive (sized width polarity timeout) u i n := by
  rw [← timeout_lt_iff]
  by_cases hT : timeout < 2 ^ Nat.clog 2 timeout
  · exact iff_of_true (detects_of_fits hT power u i) (Or.inl hT)
  · rw [or_iff_right hT]
    exact detects_iff_of_wraps (not_lt.mp hT) power u i

end Rule

/-- The parameters of `DEBOUNCE_INST` follow the rule. -/
example : sized 2 .low 50000 = ⟨2, .low, 50000, 16⟩ := rfl

/-! ## A power of two -/

/-- Reset at the first edge, then both inputs of an active-low debouncer held
    down. -/
def heldLow (timeout : ℕ) : Stream (sized 2 .low timeout) where
  sample := fun m => ⟨decide (2 ≤ m), 0b00#2⟩
  reset := rfl

theorem heldLow_active (timeout : ℕ) {m : ℕ} (hm : 2 ≤ m) (i : Fin 2) :
    ((heldLow timeout).sample m).active (sized 2 .low timeout) i = true := by
  show (decide (2 ≤ m) && (0b00#2)[i] == false) = true
  rw [decide_eq_true hm]
  simp

/-- With `TIMEOUT = 65536` the rule gives 16 bits, and the output misses an
    input held active for any length of time: the rule is not sufficient. -/
theorem wide_undetected : ¬ ∀ (width : ℕ) (polarity : Polarity) (timeout : ℕ),
    1 ≤ width → 2 ≤ timeout → ∀ (power : Counters (sized width polarity timeout))
      (u : Stream (sized width polarity timeout)) (i : Fin (sized width polarity timeout).width),
        Detects (sized width polarity timeout) power u i := by
  intro hrule
  have hdetects := hrule 2 .low 65536 (by norm_num) (by norm_num) (fun _ => 0) (heldLow 65536)
    (0 : Fin 2)
  have hwraps : 2 ^ (sized 2 .low 65536).timeoutWidth ≤ (sized 2 .low 65536).timeout := by
    rw [← not_lt]
    exact fun hlt => (timeout_lt_iff 65536).mp hlt ⟨16, by norm_num⟩
  refine (detects_iff_of_wraps hwraps _ _ _).mp hdetects 65537 (by norm_num) ?_
  refine ⟨(by norm_num : 65536 ≤ 65537), ?_⟩
  intro m h1 h2
  replace h1 : 65537 < m + 65536 := h1
  exact heldLow_active 65536 (by omega) 0

end NiosvCodesign.Debounce

import NiosvCodesign.Hdl.Top
import NiosvCodesign.Lib.Stretch

/-!
# HPS reset requests

The HPS reset requested over JTAG comes back to the edge detector that asks for
it: `h2f_rst_n` drops while the pulse is being generated. The results hold for
every stream of resets, so in particular for one that reacts to the pulse.

* `resetRequest_pulse`: exactly when the request is active, and what follows:
  full pulses, no more pulses than requests, and no second pulse while the
  request level stays up.
* `run_resetRequest`: the request lines of the closed loop are such pulses.
-/

namespace NiosvCodesign.Top

open EdgeDetector Stretch

/-- The request pulse after edge `n`, for streams of samples `u`. -/
def resetPulse (l : ResetLine) (u : ℕ → Input) (n : ℕ) : Bool :=
  pulseOut l.inst (EdgeDetector.run l.inst u n)

/-- Edge `m` fires: the request went up between edges `m - 2` and `m - 1`, the
    HPS was out of reset at both, and at `m` it is out of reset or the pulse is
    already active. -/
def RequestFires (l : ResetLine) (u : ℕ → Input) (m : ℕ) : Prop :=
  3 ≤ m ∧ (u (m - 2)).signalIn = false ∧ (u (m - 1)).signalIn = true ∧
    (u (m - 2)).rstN = true ∧ (u (m - 1)).rstN = true ∧
    ((u m).rstN = true ∨ resetPulse l u (m - 1) = true)

/-- The request goes up at edge `m`. -/
def Requested (u : ℕ → Input) (m : ℕ) : Prop :=
  (u (m - 1)).signalIn = false ∧ (u m).signalIn = true

instance (u : ℕ → Input) : DecidablePred (Requested u) :=
  fun _ => inferInstanceAs (Decidable (_ ∧ _))

section Streams

variable (l : ResetLine) (u : ℕ → Input)

theorem fires_iff (m : ℕ) : Fires l.inst u m ↔ RequestFires l u m := by
  cases l <;> rfl

/-- The request pulse is the firing edges stretched to six cycles. -/
theorem resetPulse_stretches : Stretches 6 (RequestFires l u) (resetPulse l u) := by
  intro n
  have hignore : l.inst.ignoreRstWhileBusy ≠ 0 := by cases l <;> exact Nat.one_ne_zero
  have hwidth : pulseWidth l.inst = 6 := by cases l <;> rfl
  have hout := run_pulseOut hignore u n
  simp only [hwidth, fires_iff] at hout
  exact hout

/-- While the request level stays up after edge `a`, nothing fires. -/
theorem not_fires_of_held {a b m : ℕ} (hs : ∀ k, a ≤ k → k ≤ b → (u k).signalIn = true)
    (ha : a + 2 ≤ m) (hb : m ≤ b + 2) : ¬ RequestFires l u m := by
  rintro ⟨-, hlow, -⟩
  rw [hs (m - 2) (by omega) (by omega)] at hlow
  contradiction

/-- So a level that is held produces at most the pulse of its own edge, however
    often the HPS is reset meanwhile. -/
theorem held_rises {a b : ℕ} (hs : ∀ k, a ≤ k → k ≤ b → (u k).signalIn = true) (n : ℕ) :
    n ∈ rises (resetPulse l u) (b + 2) → a + 1 ≤ n → n = a + 1 := by
  intro hmem ha
  obtain ⟨hIcc, h0, h1⟩ := Finset.mem_filter.mp hmem
  rw [Finset.mem_Icc] at hIcc
  have hfire := (resetPulse_stretches l u).fire_of_rise h0 h1
  by_contra hne
  exact not_fires_of_held l u hs (by omega) (by omega) hfire

/-- And the request is inactive from seven edges later on. -/
theorem held_inactive {a b n : ℕ} (hs : ∀ k, a ≤ k → k ≤ b → (u k).signalIn = true)
    (ha : a + 7 ≤ n) (hb : n ≤ b + 2) : resetPulse l u n = false := by
  rw [← Bool.not_eq_true]
  intro hout
  obtain ⟨m, hm, hW, hf⟩ := (resetPulse_stretches l u n).mp hout
  exact not_fires_of_held l u hs (by omega) (by omega) hf

end Streams

/-- The wires `hps_cold_reset`, `hps_warm_reset` and `hps_debug_reset`. -/
def ResetLine.request (r : Regs) : ResetLine → Bool
  | .cold => r.hpsColdReset
  | .warm => r.hpsWarmReset
  | .debug => r.hpsDebugReset

/-- In the closed loop the request is this pulse, on the resets that the HPS
    makes of it. -/
theorem run_resetRequest (hps : SocSystem) (nv : NiosvSystem) (pins : ℕ → Pins) (l : ResetLine)
    (n : ℕ) : ResetLine.request (run hps nv pins n).regs l =
      resetPulse l (resetPulseIn hps nv pins l) n := by
  rw [resetPulse, ← run_resetPulse]
  cases l <;> rfl

/-- HPS reset requests: one full pulse per request and no reset loop. -/
theorem resetRequest_pulse (l : ResetLine) (u : ℕ → Input) :
    (∀ n, resetPulse l u n = true ↔ ∃ m, 3 ≤ m ∧ n ≤ m + 5 ∧ m ≤ n ∧ RequestFires l u m) ∧
    (∀ a b, Pulse (resetPulse l u) a b → a + 5 ≤ b ∧ ∃ m, a ≤ m ∧ m ≤ b ∧ RequestFires l u m ∧
      (∀ m', m < m' → m' ≤ b → ¬ RequestFires l u m') ∧ b + 1 = m + 6) ∧
    (∀ n, (rises (resetPulse l u) n).card ≤ ((Finset.Icc 2 n).filter (Requested u)).card) ∧
    (∀ a b, (∀ k, a ≤ k → k ≤ b → (u k).signalIn = true) →
      (∀ n ∈ rises (resetPulse l u) (b + 2), a + 1 ≤ n → n = a + 1) ∧
      ∀ n, a + 7 ≤ n → n ≤ b + 2 → resetPulse l u n = false) := by
  have hstretch := resetPulse_stretches l u
  refine ⟨?_, ?_, ?_, ?_⟩
  · intro n
    rw [hstretch n]
    constructor
    · rintro ⟨m, hm, hW, hf⟩
      exact ⟨m, hf.1, by omega, hm, hf⟩
    · rintro ⟨m, -, hW, hm, hf⟩
      exact ⟨m, hm, by omega, hf⟩
  · intro a b hp
    obtain ⟨m, ha, hb, hf, hlast, hend⟩ := hstretch.pulse hp
    exact ⟨by omega, m, ha, hb, hf, hlast, hend⟩
  · refine hstretch.card_rises_le ?_
    rintro m ⟨h3, hlow, hhigh, -⟩
    exact ⟨h3, hlow, hhigh⟩
  · intro a b hs
    exact ⟨fun n hn => held_rises l u hs n hn, fun n => held_inactive l u hs⟩

end NiosvCodesign.Top

import NiosvCodesign.Hdl.Top

/-!
# The button conditioning path

From `KEY` to `fpga_debounced_buttons`: power-on reset, synchronizer and
debounce counter together, on the runs of the top level. Both sides are
active-low, so a bit is `false` while the key is pressed.

* `pressed_iff`: a button reads pressed after edge `n` iff the samples
  `n - 50001, …, n - 2` of its key were all low.
* `counter_succ`: one edge of a counter; it never wraps.
* `short_run_ignored`, `long_run_seen`, `released_after_two`: what this means
  for runs of low samples.
* `button_path_exact`: all of it together.
-/

namespace NiosvCodesign.Top

open Debounce RunLength

/-- Sample `m` of `KEY[i]`. -/
def keyAt (pins : ℕ → Pins) (i : Fin 2) (m : ℕ) : Bool := (pins m).key.getLsbD i

/-- `KEY[i]` is low at the samples `a, …, b - 1`. -/
def KeyLow (pins : ℕ → Pins) (i : Fin 2) (a b : ℕ) : Prop :=
  ∀ m, a ≤ m → m < b → keyAt pins i m = false

variable (hps : SocSystem) (nv : NiosvSystem) (pins : ℕ → Pins)

/-- `fpga_debounced_buttons[i]` after edge `n`. -/
def buttonAt (i : Fin 2) (n : ℕ) : Bool :=
  (run hps nv pins n).regs.debouncedButtons.getLsbD i

/-- The counter of button `i` after edge `n`. -/
def counterAt (i : Fin 2) (n : ℕ) : ℕ := ((run hps nv pins n).regs.counter i).toNat

/-! ## The closed form -/

section ClosedForm

variable {i : Fin 2}

theorem timeout_lt : debounceInst.timeout < 2 ^ debounceInst.timeoutWidth := by
  unfold debounceInst
  norm_num

/-- Edge `m` is counted iff the reset has been released and the sample taken
    two edges before is low. -/
theorem debounceIn_active (m : ℕ) : (debounceIn pins m).active debounceInst i = true ↔
    5 ≤ m ∧ keyAt pins i (m - 2) = false := by
  have hdef : (debounceIn pins m).active debounceInst i = (decide (5 ≤ m) &&
      ((if 3 ≤ m then (pins (m - 2)).key else 0b11#2).getLsbD i == false)) := rfl
  rw [hdef, Bool.and_eq_true, decide_eq_true_iff, beq_iff_eq]
  refine and_congr_right fun hm => ?_
  rw [if_pos (by omega)]
  rfl

theorem buttonAt_eq_false_iff (n : ℕ) : buttonAt hps nv pins i n = false ↔
    Held (fun m => (debounceIn pins m).active debounceInst i) 50000 n := by
  have hout := run_dataOut timeout_lt (debounceIn pins) i n
  rw [← run_counter hps nv] at hout
  exact hout

/-- A button reads pressed iff its key was low at 50000 samples in a row, the
    last of them two edges ago. -/
theorem pressed_iff (n : ℕ) : buttonAt hps nv pins i n = false ↔
    50004 ≤ n ∧ KeyLow pins i (n - 50001) (n - 1) := by
  rw [buttonAt_eq_false_iff, Held]
  simp only [debounceIn_active]
  constructor
  · rintro ⟨hn, hwin⟩
    have hfirst := (hwin (n - 49999) (by omega) (by omega)).1
    refine ⟨by omega, ?_⟩
    intro m h1 h2
    have hm := (hwin (m + 2) (by omega) (by omega)).2
    rwa [Nat.add_sub_cancel] at hm
  · rintro ⟨hn, hlow⟩
    refine ⟨by omega, ?_⟩
    intro m h1 h2
    exact ⟨by omega, hlow (m - 2) (by omega) (by omega)⟩

theorem released_of_high {n m : ℕ} (hm : keyAt pins i m = true) (h1 : m + 2 ≤ n)
    (h2 : n ≤ m + 50001) : buttonAt hps nv pins i n = true := by
  rw [← Bool.not_eq_false, pressed_iff]
  rintro ⟨hn, hlow⟩
  rw [hlow m (by omega) (by omega)] at hm
  contradiction

/-! ## The counters -/

theorem counterAt_eq (n : ℕ) : counterAt hps nv pins i n =
    count (fun m => (debounceIn pins m).active debounceInst i) 50000 n := by
  unfold counterAt
  rw [run_counter]
  exact Debounce.run_counter timeout_lt (debounceIn pins) i n

theorem counterAt_le (n : ℕ) : counterAt hps nv pins i n ≤ 50000 := by
  rw [counterAt_eq]
  exact count_le n

/-- One edge: up to 50000, then hold, and back to zero when the key is not low
    or the reset is not released. -/
theorem counter_succ (n : ℕ) : counterAt hps nv pins i (n + 1) =
    if 4 ≤ n ∧ keyAt pins i (n - 1) = false then min (counterAt hps nv pins i n + 1) 50000
    else 0 := by
  have hactive : (debounceIn pins (n + 1)).active debounceInst i = true ↔
      4 ≤ n ∧ keyAt pins i (n - 1) = false := by
    rw [debounceIn_active, show n + 1 - 2 = n - 1 by omega, Nat.succ_le_succ_iff]
  rw [counterAt_eq, counterAt_eq, count_succ]
  simp only [hactive]

/-! ## Runs of low samples -/

/-- While the last sample seen belongs to a run of fewer than 50000 low
    samples, the button reads released. -/
theorem short_run_ignored {a b n : ℕ} (hfirst : a ≤ 1 ∨ keyAt pins i (a - 1) = true)
    (hlen : b < a + 50000) (h1 : a + 2 ≤ n) (h2 : n < b + 2) :
    buttonAt hps nv pins i n = true := by
  rcases hfirst with ha | ha
  · rw [← Bool.not_eq_false, pressed_iff]
    rintro ⟨hn, -⟩
    omega
  · by_cases ha0 : a ≤ 1
    · rw [← Bool.not_eq_false, pressed_iff]
      rintro ⟨hn, -⟩
      omega
    · exact released_of_high hps nv pins ha (by omega) (by omega)

/-- A run of 50000 low samples, from sample 3 on, is seen. -/
theorem long_run_seen {a : ℕ} (ha : 3 ≤ a) (hlow : KeyLow pins i a (a + 50000)) :
    buttonAt hps nv pins i (a + 50001) = false := by
  rw [pressed_iff]
  refine ⟨by omega, ?_⟩
  intro m h1 h2
  exact hlow m (by omega) (by omega)

/-- A button that reads pressed does so until two edges after the first high
    sample `b`. -/
theorem released_after_two {n b : ℕ} (hn : buttonAt hps nv pins i n = false)
    (hlow : KeyLow pins i (n - 1) b) (hhigh : keyAt pins i b = true) :
    (∀ m, n ≤ m → m ≤ b + 1 → buttonAt hps nv pins i m = false) ∧
      buttonAt hps nv pins i (b + 2) = true := by
  obtain ⟨hn', hwin⟩ := (pressed_iff hps nv pins n).mp hn
  constructor
  · intro m h1 h2
    rw [pressed_iff]
    refine ⟨by omega, ?_⟩
    intro k hk1 hk2
    rcases Nat.lt_or_ge k (n - 1) with hk | hk
    · have hk3 : n - 50001 ≤ k := (Nat.sub_le_sub_right h1 50001).trans hk1
      exact hwin k hk3 hk
    · exact hlow k hk (by omega)
  · exact released_of_high hps nv pins hhigh (by omega) (by omega)

end ClosedForm

/-- The button path at every cycle: the closed form, the range of the counters,
    the independence of the bits, and what follows for runs of low samples. -/
theorem button_path_exact (i : Fin 2) :
    (∀ n, buttonAt hps nv pins i n = false ↔
      50004 ≤ n ∧ ∀ m, n - 50001 ≤ m → m ≤ n - 2 → keyAt pins i m = false) ∧
    (∀ n, counterAt hps nv pins i n ≤ 50000 ∧ counterAt hps nv pins i (n + 1) =
      if 4 ≤ n ∧ keyAt pins i (n - 1) = false then min (counterAt hps nv pins i n + 1) 50000
      else 0) ∧
    (∀ (hps' : SocSystem) (nv' : NiosvSystem) (pins' : ℕ → Pins),
      (∀ m, keyAt pins' i m = keyAt pins i m) →
        ∀ n, buttonAt hps' nv' pins' i n = buttonAt hps nv pins i n) ∧
    (∀ a b, (a ≤ 1 ∨ keyAt pins i (a - 1) = true) → b < a + 50000 →
      ∀ n, a + 2 ≤ n → n < b + 2 → buttonAt hps nv pins i n = true) ∧
    (∀ a, 3 ≤ a → KeyLow pins i a (a + 50000) → buttonAt hps nv pins i (a + 50001) = false) ∧
    (∀ n b, buttonAt hps nv pins i n = false → KeyLow pins i (n - 1) b →
      keyAt pins i b = true → (∀ m, n ≤ m → m ≤ b + 1 → buttonAt hps nv pins i m = false) ∧
        buttonAt hps nv pins i (b + 2) = true) := by
  refine ⟨?_, ?_, ?_, ?_, ?_, ?_⟩
  · intro n
    rw [pressed_iff]
    refine and_congr_right fun hn => ?_
    unfold KeyLow
    refine forall_congr' fun m => ?_
    rw [show m < n - 1 ↔ m ≤ n - 2 by omega]
  · intro n
    exact ⟨counterAt_le hps nv pins n, counter_succ hps nv pins n⟩
  · intro hps' nv' pins' hsame n
    rw [Bool.eq_iff_iff, ← not_iff_not, Bool.not_eq_true, Bool.not_eq_true, pressed_iff,
      pressed_iff]
    unfold KeyLow
    simp only [hsame]
  · intro a b hfirst hlen n h1 h2
    exact short_run_ignored hps nv pins hfirst hlen h1 h2
  · intro a ha hlow
    exact long_run_seen hps nv pins ha hlow
  · intro n b hn hlow hhigh
    exact released_after_two hps nv pins hn hlow hhigh

end NiosvCodesign.Top

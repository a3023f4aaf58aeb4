import NiosvCodesign.Hdl.ButtonPath

/-!
# Glitches on the keys

A glitch is a short excursion from a level that the debounced button already
shows. The debouncer counts only the samples of the active level and its
counter starts again at the first sample that is not active (debounce.v:22,
47), so the two directions differ.

* `glitch_response`: a glitch on a released key never shows. A glitch on a
  pressed key shows at once, as a release that lasts until the key has been low
  for 50000 samples again.
* `glitch_response_spike`, `pressed_glitch_shows`: a single sample away from the
  level.
-/

namespace NiosvCodesign.Top

variable (hps : SocSystem) (nv : NiosvSystem) (pins : ℕ → Pins) (i : Fin 2)

/-- `KEY[i]` is at level `v` at the samples `a, …, b - 1`. -/
def KeySteady (v : Bool) (a b : ℕ) : Prop := ∀ m, a ≤ m → m < b → keyAt pins i m = v

/-- A glitch of `g` samples, fewer than 50000, from sample `a` on. The key is at
    `v` from sample `p` on, and the button shows this after edge `s`; then the
    key leaves `v` for `g` samples and is back for at least 50000. -/
structure Glitch (v : Bool) (p s a g : ℕ) : Prop where
  steady : KeySteady pins i v p a
  seen : p + 2 ≤ s
  before : s ≤ a + 1
  shown : buttonAt hps nv pins i s = v
  pos : 1 ≤ g
  short : g < 50000
  away : KeySteady pins i (!v) a (a + g)
  back : KeySteady pins i v (a + g) (a + g + 50000)

variable {hps nv pins i} {p s a g : ℕ}

/-- A glitch on a released key never reaches the button. -/
theorem Glitch.released (h : Glitch hps nv pins i true p s a g) {n : ℕ} (h1 : s ≤ n)
    (h2 : n ≤ a + g + 50001) : buttonAt hps nv pins i n = true := by
  have hs := h.seen
  have hb := h.before
  have hg := h.short
  rcases Nat.lt_or_ge n (a + 2) with hn | hn
  · -- the last sample seen is still before the glitch
    have hhigh := h.steady (n - 2) (by omega) (by omega)
    exact released_of_high hps nv pins hhigh (by omega) (by omega)
  · rcases Nat.lt_or_ge n (a + g + 2) with hn' | hn'
    · -- the window is longer than the glitch
      have hhigh := h.steady (a - 1) (by omega) (by omega)
      exact released_of_high hps nv pins hhigh (by omega) (by omega)
    · have hhigh := h.back (n - 2) (by omega) (by omega)
      exact released_of_high hps nv pins hhigh (by omega) (by omega)

/-- A glitch on a pressed key reaches the button two edges later, and the button
    reads pressed again only after the full debounce time. -/
theorem Glitch.pressed (h : Glitch hps nv pins i false p s a g) {n : ℕ} (h1 : s ≤ n)
    (h2 : n ≤ a + g + 50001) :
    buttonAt hps nv pins i n = false ↔ n < a + 2 ∨ n = a + g + 50001 := by
  have hb := h.before
  have hpos := h.pos
  obtain ⟨hs, hwin⟩ := (pressed_iff hps nv pins s).mp h.shown
  constructor
  · intro hn
    by_contra hne
    obtain ⟨m, hhigh, hm1, hm2⟩ : ∃ m, keyAt pins i m = true ∧ m + 2 ≤ n ∧ n ≤ m + 50001 := by
      rcases Nat.lt_or_ge n (a + g + 2) with hlt | hge
      · exact ⟨n - 2, h.away (n - 2) (by omega) (by omega), by omega, by omega⟩
      · exact ⟨a + g - 1, h.away (a + g - 1) (by omega) (by omega), by omega, by omega⟩
    rw [released_of_high hps nv pins hhigh hm1 hm2] at hn
    contradiction
  · rintro (hn | rfl)
    · have hlow : KeyLow pins i (s - 1) a := by
        intro m hm1 hm2
        have := h.seen
        exact h.steady m (by omega) hm2
      rw [pressed_iff]
      refine ⟨by omega, ?_⟩
      intro m hm1 hm2
      rcases Nat.lt_or_ge m (s - 1) with hm | hm
      · exact hwin m ((Nat.sub_le_sub_right h1 50001).trans hm1) hm
      · exact hlow m hm (by omega)
    · rw [pressed_iff]
      refine ⟨by omega, ?_⟩
      intro m hm1 hm2
      exact h.back m (by omega) (by omega)

variable (hps nv pins i)

/-- The answer of the button path to a glitch, in either direction. -/
theorem glitch_response :
    (∀ p s a g, Glitch hps nv pins i true p s a g →
      ∀ n, s ≤ n → n ≤ a + g + 50001 → buttonAt hps nv pins i n = true) ∧
    (∀ p s a g, Glitch hps nv pins i false p s a g →
      ∀ n, s ≤ n → n ≤ a + g + 50001 →
        (buttonAt hps nv pins i n = false ↔ n < a + 2 ∨ n = a + g + 50001)) := by
  constructor
  · intro p s a g h n h1 h2
    exact h.released h1 h2
  · intro p s a g h n h1 h2
    exact h.pressed h1 h2

/-! ## A single sample -/

/-- Both keys are at level `v` from the start, but for sample 60000. -/
def spikePins (v : Bool) (m : ℕ) : Pins where
  key := if (m = 60000) = (v = true) then 0b00#2 else 0b11#2
  dipsw := 0b0000#4
  hpsResetReq := 0b000#3

theorem keyAt_spikePins (v : Bool) (m : ℕ) :
    keyAt (spikePins v) i m = if m = 60000 then !v else v := by
  unfold keyAt spikePins
  by_cases hm : m = 60000
  · simp only [hm, if_true]
    revert i v
    decide
  · simp only [hm, if_false]
    revert i v
    decide

theorem spike_glitch (v : Bool) : Glitch hps nv (spikePins v) i v 1 60001 60000 1 where
  steady := by
    intro m h1 h2
    rw [keyAt_spikePins, if_neg (by omega)]
  seen := by norm_num
  before := by norm_num
  shown := by
    cases v with
    | false =>
      rw [pressed_iff]
      refine ⟨by norm_num, ?_⟩
      intro m h1 h2
      rw [keyAt_spikePins, if_neg (by omega)]
    | true =>
      have hhigh : keyAt (spikePins true) i 59999 = true := by
        rw [keyAt_spikePins, if_neg (by norm_num)]
      exact released_of_high hps nv _ hhigh (by norm_num) (by norm_num)
  pos := le_rfl
  short := by norm_num
  away := by
    intro m h1 h2
    rw [keyAt_spikePins, if_pos (by omega)]
  back := by
    intro m h1 h2
    rw [keyAt_spikePins, if_neg (by omega)]

/-- Hidden on a released key, and a release of 50000 edges on a pressed one. -/
theorem glitch_response_spike :
    (∀ n, 60001 ≤ n → n ≤ 110002 → buttonAt default default (spikePins true) 0 n = true) ∧
    (∀ n, 60001 ≤ n → n ≤ 110002 →
      (buttonAt default default (spikePins false) 0 n = false ↔ n < 60002 ∨ n = 110002)) :=
  ⟨(glitch_response default default (spikePins true) 0).1 1 60001 60000 1 (spike_glitch ..),
    (glitch_response default default (spikePins false) 0).2 1 60001 60000 1 (spike_glitch ..)⟩

/-- So the button path does not remove every short glitch. -/
theorem pressed_glitch_shows : ¬ ∀ (hps : SocSystem) (nv : NiosvSystem) (pins : ℕ → Pins)
    (i : Fin 2) (v : Bool) (p s a g : ℕ), Glitch hps nv pins i v p s a g →
      ∀ n, s ≤ n → n ≤ a + g + 50001 → buttonAt hps nv pins i n = v := by
  intro hhidden
  have hspike := spike_glitch default default 0 false
  have hpressed := hhidden default default (spikePins false) 0 false 1 60001 60000 1 hspike 60002
    (by norm_num) (by norm_num)
  rcases (hspike.pressed (by norm_num) (by norm_num)).mp hpressed with h | h
  · omega
  · omega

end NiosvCodesign.Top

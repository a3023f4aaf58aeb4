import NiosvCodesign.Hdl.ButtonPath

/-!
# Long runs of low samples

A maximal run of at least 50000 low samples of a key, named by its first
sample, and the edges after which the button reads pressed because of it.

* `LongRun.assertedBy_iff`: these edges are an interval.
* `exists_assertedBy`: a button only reads pressed because of a long run.
* `AssertedBy.lt_of_lt`: the intervals of two runs are ordered like the runs.
-/

namespace NiosvCodesign.Top

/-- A maximal run of low samples of `KEY[i]` starts at sample `a` and has at
    least 50000 samples. -/
structure LongRun (pins : ℕ → Pins) (i : Fin 2) (a : ℕ) : Prop where
  pos : 1 ≤ a
  first : a = 1 ∨ keyAt pins i (a - 1) = true
  low : KeyLow pins i a (a + 50000)

/-- After edge `n` the button reads pressed because of the run that starts at
    `a`: the last sample seen belongs to this run. -/
structure AssertedBy (hps : SocSystem) (nv : NiosvSystem) (pins : ℕ → Pins) (i : Fin 2)
    (a n : ℕ) : Prop where
  pressed : buttonAt hps nv pins i n = false
  seen : a + 2 ≤ n
  low : KeyLow pins i a (n - 1)

variable {hps : SocSystem} {nv : NiosvSystem} {pins : ℕ → Pins} {i : Fin 2} {a a' n n' : ℕ}

/-- The run is asserted from 50001 edges after its start (or after sample 3,
    when it starts earlier) until two edges after its end. -/
theorem LongRun.assertedBy_iff (h : LongRun pins i a) : AssertedBy hps nv pins i a n ↔
    max a 3 + 50001 ≤ n ∧ KeyLow pins i a (n - 1) := by
  have hpos := h.pos
  constructor
  · rintro ⟨hp, hs, hlow⟩
    obtain ⟨hn, hwin⟩ := (pressed_iff hps nv pins n).mp hp
    refine ⟨?_, hlow⟩
    by_contra hlt
    rcases h.first with ha | ha
    · omega
    · rw [hwin (a - 1) (by omega) (by omega)] at ha
      contradiction
  · rintro ⟨hn, hlow⟩
    refine ⟨?_, by omega, hlow⟩
    rw [pressed_iff]
    refine ⟨by omega, ?_⟩
    intro m h1 h2
    exact hlow m (by omega) h2

/-- A low stretch extends to the left up to the start of its run. -/
theorem exists_run_start {b c : ℕ} (hb : 1 ≤ b) (hlow : KeyLow pins i b c) :
    ∃ a, 1 ≤ a ∧ a ≤ b ∧ (a = 1 ∨ keyAt pins i (a - 1) = true) ∧ KeyLow pins i a c := by
  induction b with
  | zero => omega
  | succ b ih =>
    rcases Nat.eq_zero_or_pos b with rfl | hpos
    · exact ⟨1, le_rfl, le_rfl, Or.inl rfl, hlow⟩
    · cases hkey : keyAt pins i b with
      | true => exact ⟨b + 1, hb, le_rfl, Or.inr hkey, hlow⟩
      | false =>
        have hlow' : KeyLow pins i b c := by
          intro m h1 h2
          rcases Nat.lt_or_eq_of_le h1 with h1 | rfl
          · exact hlow m h1 h2
          · exact hkey
        obtain ⟨a, ha1, hab, hfirst, ha⟩ := ih hpos hlow'
        exact ⟨a, ha1, by omega, hfirst, ha⟩

/-- The next long run after `a`, when there is a later one. -/
theorem exists_next_longRun (hlt : a < a') (hrun : LongRun pins i a') :
    ∃ b, a < b ∧ b ≤ a' ∧ LongRun pins i b ∧ ∀ m, a < m → m < b → ¬ LongRun pins i m := by
  classical
  have hex : ∃ b, a < b ∧ LongRun pins i b := ⟨a', hlt, hrun⟩
  obtain ⟨hab, hb⟩ := Nat.find_spec hex
  refine ⟨Nat.find hex, hab, Nat.find_min' hex ⟨hlt, hrun⟩, hb, ?_⟩
  intro m h1 h2 hm
  exact Nat.find_min hex h2 ⟨h1, hm⟩

/-- Whenever the button reads pressed, a long run is the reason. -/
theorem exists_assertedBy (h : buttonAt hps nv pins i n = false) :
    ∃ a, LongRun pins i a ∧ AssertedBy hps nv pins i a n := by
  obtain ⟨hn, hwin⟩ := (pressed_iff hps nv pins n).mp h
  obtain ⟨a, ha1, hab, hfirst, hlow⟩ := exists_run_start (by omega) hwin
  refine ⟨a, ⟨ha1, hfirst, ?_⟩, ⟨h, by omega, hlow⟩⟩
  intro m h1 h2
  exact hlow m h1 (by omega)

namespace AssertedBy

/-- The edges at which one run is asserted form an interval. -/
theorem between (h : AssertedBy hps nv pins i a n) (h' : AssertedBy hps nv pins i a n')
    (hrun : LongRun pins i a) {m : ℕ} (h1 : n ≤ m) (h2 : m ≤ n') :
    AssertedBy hps nv pins i a m := by
  obtain ⟨hn, -⟩ := hrun.assertedBy_iff.mp h
  refine hrun.assertedBy_iff.mpr ⟨by omega, ?_⟩
  intro k hk1 hk2
  exact h'.low k hk1 (by omega)

/-- The earlier run is asserted first. -/
theorem lt_of_lt (h : AssertedBy hps nv pins i a n) (h' : AssertedBy hps nv pins i a' n')
    (hrun : LongRun pins i a) (hrun' : LongRun pins i a') (hlt : a < a') : n < n' := by
  have hpos := hrun.pos
  have hseen := h'.seen
  by_contra hle
  rcases hrun'.first with ha | ha
  · omega
  · rw [h.low (a' - 1) (by omega) (by omega)] at ha
    contradiction

/-- One reason at a time. -/
theorem unique (h : AssertedBy hps nv pins i a n) (h' : AssertedBy hps nv pins i a' n)
    (hrun : LongRun pins i a) (hrun' : LongRun pins i a') : a = a' := by
  rcases Nat.lt_trichotomy a a' with hlt | heq | hlt
  · exact absurd (h.lt_of_lt h' hrun hrun' hlt) (lt_irrefl n)
  · exact heq
  · exact absurd (h'.lt_of_lt h hrun' hrun hlt) (lt_irrefl n)

end AssertedBy

end NiosvCodesign.Top

import NiosvCodesign.Firmware.PressReports
import NiosvCodesign.Hdl.LongRun

/-!
# From the pin to the log

Hardware and firmware together: the key is sampled at every clock edge, the
firmware reads the debounced button at some increasing sequence of edges, and
prints what changed.

* `PolledRun.same_run`: two neighbouring reads that both find the button
  pressed find the same press.
* `PolledRun.encard_seenRuns`: after every read, the presses in the log are the
  long runs the reads have met.
* `press_reports_exactly_once`: every long press is reported exactly once.
-/

namespace NiosvCodesign.Board

open NiosvCodesign.Firmware NiosvCodesign.Top

/-- The button reads of a run of the firmware, seen from one key `i`: read `k`
    happens after edge `c k` and returns the button as it is there. The other
    bits of the words, the switches and the tick readings are arbitrary. Every
    long run of low samples is met by some read, and so is the gap between two
    consecutive ones; shorter runs are not restricted. -/
structure PolledRun (hps : SocSystem) (nv : NiosvSystem) (pins : ℕ → Pins) (poll : ℕ → Poll)
    (c : ℕ → ℕ) (i : Fin 2) : Prop where
  mono : StrictMono c
  read : ∀ k, (poll k).button.getLsbD i = buttonAt hps nv pins i (c k)
  start : buttonAt hps nv pins i (c 0) = true
  seen : ∀ a, LongRun pins i a → ∃ k, AssertedBy hps nv pins i a (c k)
  between : ∀ a a', LongRun pins i a → LongRun pins i a' → a < a' →
    (∀ b, a < b → b < a' → ¬ LongRun pins i b) →
    ∃ k, (∀ n, AssertedBy hps nv pins i a n → n < c k) ∧
      ∀ n, AssertedBy hps nv pins i a' n → c k < n

/-- The long runs met by the start-up read or one of the first `n` others. -/
def seenRuns (hps : SocSystem) (nv : NiosvSystem) (pins : ℕ → Pins) (c : ℕ → ℕ) (i : Fin 2)
    (n : ℕ) : Set ℕ :=
  {a | LongRun pins i a ∧ ∃ k ≤ n, AssertedBy hps nv pins i a (c k)}

variable {hps : SocSystem} {nv : NiosvSystem} {pins : ℕ → Pins} {poll : ℕ → Poll} {c : ℕ → ℕ}
  {i : Fin 2}

theorem mem_seenRuns_succ {n a : ℕ} : a ∈ seenRuns hps nv pins c i (n + 1) ↔
    a ∈ seenRuns hps nv pins c i n ∨ LongRun pins i a ∧ AssertedBy hps nv pins i a (c (n + 1)) := by
  constructor
  · rintro ⟨hrun, k, hk, ha⟩
    rcases Nat.lt_or_eq_of_le hk with hk | rfl
    · exact Or.inl ⟨hrun, k, by omega, ha⟩
    · exact Or.inr ⟨hrun, ha⟩
  · rintro (⟨hrun, k, hk, ha⟩ | ⟨hrun, ha⟩)
    · exact ⟨hrun, k, by omega, ha⟩
    · exact ⟨hrun, n + 1, le_rfl, ha⟩

theorem seenRuns_mono : Monotone (seenRuns hps nv pins c i) := by
  intro m n hmn a ha
  obtain ⟨hrun, k, hk, hka⟩ := ha
  exact ⟨hrun, k, hk.trans hmn, hka⟩

namespace PolledRun

variable (h : PolledRun hps nv pins poll c i)
include h

/-- Neighbouring reads that both find the button pressed find the same run:
    between two runs there is another read. -/
theorem same_run {n a a' : ℕ} (hrun : LongRun pins i a) (hrun' : LongRun pins i a')
    (ha : AssertedBy hps nv pins i a (c n)) (ha' : AssertedBy hps nv pins i a' (c (n + 1))) :
    a = a' := by
  have hc : c n < c (n + 1) := h.mono (Nat.lt_succ_self n)
  rcases Nat.lt_trichotomy a a' with hlt | heq | hlt
  · obtain ⟨b, hab, hle, hb, hmin⟩ := exists_next_longRun hlt hrun'
    obtain ⟨k, hk, hk'⟩ := h.between a b hrun hb hab hmin
    have hafter : c n < c k := hk _ ha
    have hbefore : c k < c (n + 1) := by
      rcases Nat.lt_or_eq_of_le hle with hba | rfl
      · obtain ⟨j, hj⟩ := h.seen b hb
        exact (hk' _ hj).trans (hj.lt_of_lt ha' hb hrun' hba)
      · exact hk' _ ha'
    have h1 := h.mono.lt_iff_lt.mp hafter
    have h2 := h.mono.lt_iff_lt.mp hbefore
    omega
  · exact heq
  · exact absurd (ha'.lt_of_lt ha hrun' hrun hlt) (by omega)

/-- A run met by an earlier read is not met again after a read that found the
    button released. -/
theorem not_seen_again {n a : ℕ} (hrun : LongRun pins i a)
    (hrel : buttonAt hps nv pins i (c n) = true) (ha : AssertedBy hps nv pins i a (c (n + 1))) :
    a ∉ seenRuns hps nv pins c i n := by
  rintro ⟨-, k, hk, hka⟩
  have hmid := hka.between ha hrun (h.mono.monotone hk) (h.mono.monotone (Nat.le_succ n))
  rw [hmid.pressed] at hrel
  contradiction

/-- After every read, the log reports as many presses as long runs were met. -/
theorem encard_seenRuns (tps : BitVec 32) (n : ℕ) :
    (seenRuns hps nv pins c i n).encard = presses tps poll i n := by
  induction n with
  | zero =>
    have hempty : seenRuns hps nv pins c i 0 = ∅ := by
      rw [Set.eq_empty_iff_forall_notMem]
      rintro a ⟨-, k, hk, ha⟩
      rw [Nat.le_zero.mp hk] at ha
      have hstart := h.start
      rw [ha.pressed] at hstart
      contradiction
    rw [hempty, Set.encard_empty, presses_zero]
    rfl
  | succ n ih =>
    rw [presses_succ, h.read, h.read]
    cases hnew : buttonAt hps nv pins i (c (n + 1)) with
    | true =>
      have hsame : seenRuns hps nv pins c i (n + 1) = seenRuns hps nv pins c i n := by
        ext a
        rw [mem_seenRuns_succ, or_iff_left]
        rintro ⟨-, ha⟩
        rw [ha.pressed] at hnew
        contradiction
      rw [hsame, ih]
      simp
    | false =>
      obtain ⟨a, hrun, ha⟩ := exists_assertedBy hnew
      have hinsert : seenRuns hps nv pins c i (n + 1) = insert a (seenRuns hps nv pins c i n) := by
        ext b
        rw [mem_seenRuns_succ, Set.mem_insert_iff, or_comm]
        refine or_congr_left ?_
        constructor
        · rintro ⟨hb, hba⟩
          exact hba.unique ha hb hrun
        · rintro rfl
          exact ⟨hrun, ha⟩
      rw [hinsert]
      cases hold : buttonAt hps nv pins i (c n) with
      | true =>
        rw [Set.encard_insert_of_notMem (h.not_seen_again hrun hold ha), ih]
        simp
      | false =>
        obtain ⟨b, hrunb, hb⟩ := exists_assertedBy hold
        have hmem : a ∈ seenRuns hps nv pins c i n := by
          rw [← h.same_run hrunb hrun hb ha]
          exact ⟨hrunb, n, le_rfl, hb⟩
        rw [Set.insert_eq_of_mem hmem, ih]
        simp

/-- Every long run is met at last. -/
theorem iUnion_seenRuns : ⋃ n, seenRuns hps nv pins c i n = {a | LongRun pins i a} := by
  ext a
  rw [Set.mem_iUnion]
  constructor
  · rintro ⟨n, hrun, -⟩
    exact hrun
  · intro hrun
    obtain ⟨k, hk⟩ := h.seen a hrun
    exact ⟨k, hrun, k, le_rfl, hk⟩

end PolledRun

/-- Every long press is reported exactly once, from pin to log: the printed
    reports go from released to pressed as often as there are long runs of low
    samples, after every read the presses reported are the long runs met so
    far, and reported releases never fall more than one behind. -/
theorem press_reports_exactly_once (tps : BitVec 32) (h : PolledRun hps nv pins poll c i) :
    (pressPositions tps poll i).encard = {a | LongRun pins i a}.encard ∧
    ∀ n, presses tps poll i n = (seenRuns hps nv pins c i n).encard ∧
      releases tps poll i n ≤ presses tps poll i n ∧
      presses tps poll i n ≤ releases tps poll i n + 1 := by
  constructor
  · rw [encard_pressPositions tps poll i seenRuns_mono (h.encard_seenRuns tps), h.iUnion_seenRuns]
  · intro n
    have hstart : (poll 0).button.getLsbD i = true := (h.read 0).trans h.start
    exact ⟨(h.encard_seenRuns tps n).symm, releases_le_presses tps poll i hstart n⟩

/-! ## One press -/

/-- `KEY[0]` is held down at the samples 10 to 60009. -/
def onePressPins (m : ℕ) : Pins where
  key := if 10 ≤ m ∧ m < 60010 then 0b10#2 else 0b11#2
  dipsw := 0b0000#4
  hpsResetReq := 0b000#3

/-- The reads after edges 0, 60005, 120010, … -/
def onePressPoll (k : ℕ) : Poll where
  dipsw := 0#32
  button := if k = 1 then 0b10#32 else 0b11#32
  nticks := 0#64

theorem keyAt_onePressPins (m : ℕ) :
    keyAt onePressPins 0 m = !decide (10 ≤ m ∧ m < 60010) := by
  unfold keyAt onePressPins
  by_cases hm : 10 ≤ m ∧ m < 60010
  · rw [if_pos hm, decide_eq_true hm]
    rfl
  · rw [if_neg hm, decide_eq_false hm]
    rfl

theorem longRun_onePressPins (a : ℕ) : LongRun onePressPins 0 a ↔ a = 10 := by
  constructor
  · rintro ⟨hpos, hfirst, hlow⟩
    have ha := hlow a le_rfl (by omega)
    rw [keyAt_onePressPins, Bool.not_eq_false', decide_eq_true_iff] at ha
    rcases hfirst with h1 | h1
    · omega
    · rw [keyAt_onePressPins, Bool.not_eq_true', decide_eq_false_iff_not] at h1
      omega
  · rintro rfl
    refine ⟨by norm_num, Or.inr ?_, ?_⟩
    · rw [keyAt_onePressPins]
      rfl
    · intro m h1 h2
      rw [keyAt_onePressPins, decide_eq_true ⟨h1, by omega⟩]
      rfl

theorem buttonAt_onePressPins (hps : SocSystem) (nv : NiosvSystem) (k : ℕ) :
    buttonAt hps nv onePressPins 0 (60005 * k) = decide (k ≠ 1) := by
  by_cases hk : k = 1
  · rw [hk, decide_eq_false (not_not.mpr rfl), pressed_iff]
    refine ⟨by norm_num, ?_⟩
    intro m h1 h2
    rw [keyAt_onePressPins, decide_eq_true ⟨by omega, by omega⟩]
    rfl
  · rw [decide_eq_true hk, ← Bool.not_eq_false, pressed_iff]
    rintro ⟨hn, hlow⟩
    have hlast := hlow (60005 * k - 2) (by omega) (by omega)
    rw [keyAt_onePressPins, Bool.not_eq_false', decide_eq_true_iff] at hlast
    omega

/-- The read after edge 60005 meets the press. -/
theorem assertedBy_onePress (hps : SocSystem) (nv : NiosvSystem) :
    AssertedBy hps nv onePressPins 0 10 60005 := by
  refine ⟨buttonAt_onePressPins hps nv 1, by norm_num, ?_⟩
  intro m h1 h2
  rw [keyAt_onePressPins, decide_eq_true ⟨h1, by omega⟩]
  rfl

theorem polledRun_onePress :
    PolledRun default default onePressPins onePressPoll (fun k => 60005 * k) 0 where
  mono := fun _ _ h => by
    show 60005 * _ < 60005 * _
    omega
  read := by
    intro k
    rw [buttonAt_onePressPins]
    unfold onePressPoll
    by_cases hk : k = 1
    · rw [if_pos hk, decide_eq_false (not_not.mpr hk)]
      rfl
    · rw [if_neg hk, decide_eq_true hk]
      rfl
  start := buttonAt_onePressPins default default 0
  seen := by
    intro a ha
    rw [longRun_onePressPins] at ha
    subst ha
    exact ⟨1, assertedBy_onePress default default⟩
  between := by
    intro a a' ha ha' hlt
    rw [longRun_onePressPins] at ha ha'
    omega

/-- The log of this run reports one press. -/
theorem press_reports_one_press : (pressPositions 1000#32 onePressPoll 0).encard = 1 := by
  have hcount := (press_reports_exactly_once 1000#32 polledRun_onePress).1
  have hone : {a | LongRun onePressPins 0 a} = {10} := by
    ext a
    exact longRun_onePressPins a
  rw [hcount, hone, Set.encard_singleton]

end NiosvCodesign.Board

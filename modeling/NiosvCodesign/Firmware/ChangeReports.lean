import NiosvCodesign.Lib.ChangeLog
import NiosvCodesign.Firmware.Main

/-!
# The console log is the change history of the inputs

`report_inputs` is called once before the loop and then in every iteration
whose combined comparison finds a change (main.c:53-63).

* `reports_eq_destutter`: the calls made are the sampled inputs with
  consecutive equal samples collapsed.
* `line_injective`: different inputs print different lines.
* `parseLine_line`: a line determines the inputs it reports.
* `replay_stampedLog`: the lines and the iterations in which they were printed
  determine every sample.
-/

namespace NiosvCodesign.Firmware

/-! ## Samples -/

/-- What one line of the log shows: the switch value and which keys are
    pressed. -/
structure Sample where
  switches : ℕ
  key0 : Bool
  key1 : Bool
deriving DecidableEq

/-- The inputs behind one pair of raw PIO words: the low 4 switch bits, and the
    low 2 button bits inverted. -/
def Poll.sample (p : Poll) : Sample where
  switches := p.dipsw.toNat % 16
  key0 := !p.button.getLsbD 0
  key1 := !p.button.getLsbD 1

/-- The triple a call of `report_inputs` shows. -/
def Report.shown (r : Report) : Sample where
  switches := r.dipsw.toNat
  key0 := r.keys &&& key0Pressed != 0
  key1 := r.keys &&& key1Pressed != 0

/-- The call `report_inputs` would get for the current inputs. -/
def Poll.report (p : Poll) : Report := ⟨readDipsw p.dipsw, readKeysPressed p.button⟩

theorem readDipsw_toNat (w : BitVec 32) : (readDipsw w).toNat = w.toNat % 16 := by
  rw [readDipsw, BitVec.toNat_and]
  exact Nat.and_two_pow_sub_one_eq_mod w.toNat 4

@[simp] theorem shown_report (p : Poll) : p.report.shown = p.sample := by
  simp only [Report.shown, Poll.report, Poll.sample, readDipsw_toNat,
    bne_pressed (key0_pressed_iff p.button), bne_pressed (key1_pressed_iff p.button)]

/-- The pressed mask is determined by its two bits. -/
theorem readKeysPressed_congr {w w' : BitVec 32} (h0 : w.getLsbD 0 = w'.getLsbD 0)
    (h1 : w.getLsbD 1 = w'.getLsbD 1) : readKeysPressed w = readKeysPressed w' := by
  have hmask : ∀ i, keyMask.getLsbD i = decide (i < 2) := by
    intro i
    by_cases hi : i < 32
    · interval_cases i <;> rfl
    · rw [BitVec.getLsbD_of_ge _ _ (by omega), decide_eq_false (by omega)]
  apply BitVec.eq_of_getLsbD_eq
  intro i hi
  simp only [readKeysPressed, BitVec.getLsbD_and, BitVec.getLsbD_not, hmask]
  by_cases h2 : i < 2
  · interval_cases i
    · rw [h0]
    · rw [h1]
  · simp [h2]

theorem report_eq_iff {p q : Poll} : p.report = q.report ↔ p.sample = q.sample := by
  constructor
  · intro h; rw [← shown_report, ← shown_report, h]
  · intro h
    obtain ⟨hs, h0, h1⟩ := Sample.mk.inj h
    have hd : readDipsw p.dipsw = readDipsw q.dipsw :=
      BitVec.eq_of_toNat_eq (by rw [readDipsw_toNat, readDipsw_toNat, hs])
    rw [Poll.report, Poll.report, hd,
      readKeysPressed_congr (Bool.not_inj h0) (Bool.not_inj h1)]

/-! ## The printed reports -/

section Reports

variable (tps : BitVec 32) (poll : ℕ → Poll)

/-- The calls of `report_inputs` made by the start-up code and the first `n`
    iterations, in order. -/
def reports (n : ℕ) : List Report := (List.range (n + 1)).filterMap (reportAt tps poll)

/-- The samples taken by the start-up code and the first `n` iterations. -/
def samples (n : ℕ) : List Sample := (List.range (n + 1)).map fun k => (poll k).sample

theorem reports_succ (n : ℕ) :
    reports tps poll (n + 1) = reports tps poll n ++ (reportAt tps poll (n + 1)).toList := by
  rw [reports, List.range_succ, List.filterMap_append]
  cases h : reportAt tps poll (n + 1) <;> simp [reports, h]

/-- Iteration `n + 1` prints iff its sample differs from the previous one. -/
theorem reportAt_succ (n : ℕ) : reportAt tps poll (n + 1) =
    if (poll n).report = (poll (n + 1)).report then none else some (poll (n + 1)).report := by
  have hcached : (⟨(mainRun tps poll n).dipsw, (mainRun tps poll n).keys⟩ : Report) =
      (poll n).report := by rw [mainRun_dipsw, mainRun_keys]; rfl
  rw [reportAt, loopBody]
  simp only [detectChange_snd, hcached]
  rw [← Poll.report, ite_not]

theorem reports_eq_destutter (n : ℕ) : reports tps poll n =
    ((List.range (n + 1)).map fun k => (poll k).report).destutter (· ≠ ·) := by
  induction n with
  | zero => rfl
  | succ n ih =>
    rw [reports_succ, ih, reportAt_succ, List.range_succ (n := n + 1), List.map_append,
      List.map_singleton, ChangeLog.destutter_concat, ChangeLog.getLast?_map_range]
    simp only [Option.some.injEq]
    split_ifs
    · exact List.append_nil _
    · rfl

/-- The printed triples are the samples with repetitions collapsed. -/
theorem reports_shown (n : ℕ) :
    (reports tps poll n).map Report.shown = (samples poll n).destutter (· ≠ ·) := by
  have hinj : ∀ a ∈ (List.range (n + 1)).map (fun k => (poll k).report),
      ∀ b ∈ (List.range (n + 1)).map (fun k => (poll k).report),
        a ≠ b ↔ a.shown ≠ b.shown := by
    intro a ha b hb
    obtain ⟨i, -, rfl⟩ := List.mem_map.mp ha
    obtain ⟨j, -, rfl⟩ := List.mem_map.mp hb
    rw [shown_report, shown_report, not_iff_not, report_eq_iff]
  rw [reports_eq_destutter, List.map_destutter hinj, List.map_map]
  simp only [samples, Function.comp_def, shown_report]

theorem reports_getLast? (n : ℕ) : (reports tps poll n).getLast? = some (poll n).report := by
  rw [reports_eq_destutter, ChangeLog.getLast?_destutter, ChangeLog.getLast?_map_range]

end Reports

/-! ## Lines -/

/-- A report the firmware can make: 4 switch bits, 2 key bits. -/
def Report.Masked (r : Report) : Prop := r.dipsw.toNat < 16 ∧ r.keys.toNat < 4

theorem report_masked (p : Poll) : p.report.Masked := by
  constructor
  · show (readDipsw p.dipsw).toNat < 16
    rw [readDipsw_toNat]
    exact Nat.mod_lt _ (by norm_num)
  · show (readKeysPressed p.button).toNat < 4
    rw [readKeysPressed, BitVec.toNat_and]
    exact lt_of_le_of_lt Nat.and_le_right (by decide)

theorem hexDigit_injective : ∀ a < 16, ∀ b < 16,
    (Nat.digitChar a).toUpper = (Nat.digitChar b).toUpper → a = b := by decide

theorem keyText_append_injective {a b : Bool} {s t : Text} (h : keyText a ++ s = keyText b ++ t) :
    a = b ∧ s = t := by
  cases a <;> cases b <;> simp [keyText] at h ⊢ <;> exact h

/-- A masked key word is determined by its two bits. -/
theorem masked_keys_injective : ∀ a < 4, ∀ b < 4,
    (BitVec.ofNat 32 a &&& key0Pressed != 0) = (BitVec.ofNat 32 b &&& key0Pressed != 0) →
    (BitVec.ofNat 32 a &&& key1Pressed != 0) = (BitVec.ofNat 32 b &&& key1Pressed != 0) →
    a = b := by decide

theorem line_eq {r : Report} (hr : r.Masked) : r.line =
    "DIPSW=0x".toList ++ ((Nat.digitChar r.dipsw.toNat).toUpper :: (" KEY0=".toList ++
      (keyText r.shown.key0 ++ (" KEY1=".toList ++ (keyText r.shown.key1 ++ "\n".toList))))) := by
  unfold Report.line reportInputs formatX Report.shown
  rw [Nat.toDigits_of_lt_base hr.1]
  simp only [List.map_singleton, List.append_assoc, List.cons_append, List.nil_append]

/-- Different inputs print different lines. -/
theorem line_injective {r r' : Report} (hr : r.Masked) (hr' : r'.Masked) (h : r.line = r'.line) :
    r = r' := by
  rw [line_eq hr, line_eq hr'] at h
  obtain ⟨hdigit, htail⟩ := List.cons.inj (List.append_cancel_left h)
  obtain ⟨h0, hrest⟩ := keyText_append_injective (List.append_cancel_left htail)
  obtain ⟨h1, -⟩ := keyText_append_injective (List.append_cancel_left hrest)
  have hd : r.dipsw = r'.dipsw :=
    BitVec.eq_of_toNat_eq (hexDigit_injective _ hr.1 _ hr'.1 hdigit)
  have hk : r.keys = r'.keys := by
    apply BitVec.eq_of_toNat_eq
    apply masked_keys_injective _ hr.2 _ hr'.2
    · rwa [BitVec.ofNat_toNat, BitVec.ofNat_toNat, BitVec.setWidth_eq, BitVec.setWidth_eq]
    · rwa [BitVec.ofNat_toNat, BitVec.ofNat_toNat, BitVec.setWidth_eq, BitVec.setWidth_eq]
  cases r
  cases r'
  rw [Report.mk.injEq]
  exact ⟨hd, hk⟩

/-- Every masked report. -/
def maskedReports : List Report :=
  (List.range 16).flatMap fun d => (List.range 4).map fun k => ⟨BitVec.ofNat 32 d, BitVec.ofNat 32 k⟩

theorem mem_maskedReports {r : Report} (hr : r.Masked) : r ∈ maskedReports := by
  simp only [maskedReports, List.mem_flatMap, List.mem_map, List.mem_range]
  exact ⟨r.dipsw.toNat, hr.1, r.keys.toNat, hr.2, by simp⟩

theorem masked_of_mem {r : Report} (h : r ∈ maskedReports) : r.Masked := by
  simp only [maskedReports, List.mem_flatMap, List.mem_map, List.mem_range] at h
  obtain ⟨d, hd, k, hk, rfl⟩ := h
  simp only [Report.Masked, BitVec.toNat_ofNat]
  omega

/-- The inputs a line reports. -/
def parseLine (line : Text) : Option Sample :=
  (maskedReports.find? fun r => r.line = line).map Report.shown

theorem parseLine_line (p : Poll) : parseLine p.report.line = some p.sample := by
  have hmem := mem_maskedReports (report_masked p)
  cases hfind : maskedReports.find? fun r => r.line = p.report.line with
  | none => simpa using List.find?_eq_none.mp hfind _ hmem
  | some r =>
    have hline : r.line = p.report.line := by simpa using List.find?_some hfind
    have hr := masked_of_mem (List.mem_of_find?_eq_some hfind)
    rw [parseLine, hfind, Option.map_some, line_injective hr (report_masked p) hline, shown_report]

/-! ## Replaying the log -/

section Replay

variable (tps : BitVec 32) (poll : ℕ → Poll)

/-- The lines printed by `report_inputs`, each with the iteration that printed
    it (`0` for the start-up code). -/
def stampedLog (n : ℕ) : List (ℕ × Text) :=
  (List.range (n + 1)).filterMap fun k => (reportAt tps poll k).map fun r => (k, r.line)

/-- The inputs of iteration `k` according to a log: those of the last line
    printed by then. -/
def replay (log : List (ℕ × Text)) (k : ℕ) : Option Sample :=
  (log.filter fun e => e.1 ≤ k).getLast?.bind fun e => parseLine e.2

theorem stampedLog_succ (n : ℕ) : stampedLog tps poll (n + 1) = stampedLog tps poll n ++
    ((reportAt tps poll (n + 1)).map fun r => (n + 1, r.line)).toList := by
  rw [stampedLog, List.range_succ, List.filterMap_append]
  cases h : reportAt tps poll (n + 1) <;> simp [stampedLog, h]

theorem stamp_le {n : ℕ} {e : ℕ × Text} (h : e ∈ stampedLog tps poll n) : e.1 ≤ n := by
  simp only [stampedLog, List.mem_filterMap, List.mem_range, Option.map_eq_some_iff] at h
  obtain ⟨k, hk, r, -, rfl⟩ := h
  show k ≤ n
  omega

/-- Cutting a longer log at iteration `k` gives the log as it was then. -/
theorem stampedLog_filter {k n : ℕ} (hk : k ≤ n) :
    ((stampedLog tps poll n).filter fun e => e.1 ≤ k) = stampedLog tps poll k := by
  induction n, hk using Nat.le_induction with
  | base =>
    rw [List.filter_eq_self]
    intro e he
    exact decide_eq_true (stamp_le tps poll he)
  | succ n hn ih =>
    rw [stampedLog_succ, List.filter_append, ih]
    cases reportAt tps poll (n + 1) with
    | none => exact List.append_nil _
    | some r => simp [show ¬ n + 1 ≤ k by omega]

theorem stampedLog_getLast? (n : ℕ) :
    ∃ j, (stampedLog tps poll n).getLast? = some (j, (poll n).report.line) := by
  induction n with
  | zero => exact ⟨0, rfl⟩
  | succ n ih =>
    rw [stampedLog_succ, reportAt_succ]
    split_ifs with h
    · rw [← h]
      simpa using ih
    · exact ⟨n + 1, by simp⟩

theorem replay_stampedLog {k n : ℕ} (hk : k ≤ n) :
    replay (stampedLog tps poll n) k = some (poll k).sample := by
  obtain ⟨j, hj⟩ := stampedLog_getLast? tps poll k
  rw [replay, stampedLog_filter tps poll hk, hj, Option.bind_some, parseLine_line]

/-- **The log is the change history.** After any number `n` of iterations:
    the printed triples are the samples (start-up first) with equal neighbours
    collapsed; the last one is the sample that decides the LED write and the
    half period of iteration `n`; no two consecutive lines are equal; different
    samples print different lines; and the lines with their iteration numbers
    give back every sample. -/
theorem reports_change_history (n : ℕ) :
    (reports tps poll n).map Report.shown = (samples poll n).destutter (· ≠ ·) ∧
    ((reports tps poll n).getLast?.map Report.shown = some (poll n).sample ∧
      (mainRun tps poll n).dipsw = BitVec.ofNat 32 (poll n).sample.switches ∧
      ledWrite tps poll n = if (poll n).sample.key0 then 1 else if (poll n).sample.key1 then 0
        else (mainRun tps poll n).blink) ∧
    ((reports tps poll n).map Report.line).IsChain (· ≠ ·) ∧
    (∀ p q : Poll, p.sample ≠ q.sample → p.report.line ≠ q.report.line) ∧
    ∀ k ≤ n, replay (stampedLog tps poll n) k = some (poll k).sample := by
  have hline : ∀ p q : Poll, p.report.line = q.report.line → p.sample = q.sample :=
    fun p q h => report_eq_iff.mp (line_injective (report_masked p) (report_masked q) h)
  refine ⟨reports_shown tps poll n, ⟨?_, ?_, ?_⟩, ?_, fun p q h => mt (hline p q) h,
    fun k hk => replay_stampedLog tps poll hk⟩
  · rw [reports_getLast?, Option.map_some, shown_report]
  · rw [mainRun_dipsw, Poll.sample, ← readDipsw_toNat, BitVec.ofNat_toNat, BitVec.setWidth_eq]
  · simp only [ledWrite, ledValue, mainRun_keys, key0_pressed_iff, key1_pressed_iff, Poll.sample,
      Bool.not_eq_true']
  · rw [reports_eq_destutter, List.isChain_map]
    refine (List.isChain_destutter _ _).imp_of_mem_imp ?_
    intro a b ha hb hab heq
    obtain ⟨i, -, rfl⟩ := List.mem_map.mp ((List.destutter_sublist _ _).subset ha)
    obtain ⟨j, -, rfl⟩ := List.mem_map.mp ((List.destutter_sublist _ _).subset hb)
    exact hab (report_eq_iff.mpr (hline _ _ heq))

end Replay

end NiosvCodesign.Firmware

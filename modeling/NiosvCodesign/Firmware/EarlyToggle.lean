import NiosvCodesign.Firmware.BlinkTimer
import NiosvCodesign.Firmware.TickRead

/-!
# Early toggles

`alt_nticks()` does nothing about an interrupt between its two loads. When the
interrupt carries out of the low word there, the value returned is one the
counter never held, off by `2 ^ 32` ticks, and the blink bit can toggle at once.

* `Base`: what holds in every run.
* `loopOk_step`: without such a carry every reading is a value the counter held
  during the call, and `last_toggle` keeps one.
* `toggleOk_iff`: a run is free of bad readings and early toggles iff no call in
  it is torn.
* `carry_toggles`: one carry between the loads is enough, in either order.
-/

namespace NiosvCodesign.Firmware.TickRead

open Transitions SplitRead

/-! ## What is promised -/

/-- What `_alt_nticks` holds after `n` timer interrupts. -/
def counterAt (c0 : BitVec 64) (n : ℕ) : BitVec 64 := c0 + BitVec.ofNat 64 n

/-- The counter held `v` at some moment of the call. -/
def Call.Held (c0 : BitVec 64) (k : Call) (v : BitVec 64) : Prop :=
  ∃ n, k.start ≤ n ∧ n ≤ k.stop ∧ v = counterAt c0 n

/-- No early toggle: `last_toggle` and `now` are values the counter held during
    the calls they come from, their difference does not wrap, and when the blink
    bit toggles, `half_period` ticks have occurred from the beginning of the
    earlier call to the end of the later one. -/
structure ToggleOk (tps : BitVec 32) (c0 : BitVec 64) (s : State × History) : Prop where
  last_held : ∀ st, s.1.pc = .loopTop st → s.2.toggleCall.Held c0 st.lastToggle
  now_held : ∀ st now, s.1.pc = .toggle st now → s.2.call.Held c0 now
  no_wrap : ∀ st now, s.1.pc = .toggle st now → st.lastToggle ≤ now
  no_early : ∀ st now, s.1.pc = .toggle st now → (toggleBlink tps st now).blink ≠ st.blink →
    s.2.toggleCall.start + (halfPeriod tps st.dipsw).toNat ≤ s.2.call.stop

/-- Is the program between the two loads of a call? -/
def Pc.BetweenLoads : Pc → Prop
  | .initSecond _ _ _ _ | .second _ _ _ => True
  | _ => False

/-- The next step is the second load of a call, and the low word of the counter
    is below what it was at the first: an interrupt has carried out of it. -/
def Torn (c0 : BitVec 64) (s : State × History) (e : Event) : Prop :=
  e ≠ .timerIrq ∧ s.1.pc.BetweenLoads ∧ lowWord s.1.nticks < lowWord (counterAt c0 s.2.call.start)

/-! ## Counter values -/

variable {tps : BitVec 32} {c0 : BitVec 64}

theorem counterAt_toNat {n : ℕ} (hfit : c0.toNat + n < 2 ^ 64) :
    (counterAt c0 n).toNat = c0.toNat + n := by
  rw [counterAt, BitVec.toNat_add, BitVec.toNat_ofNat]
  omega

theorem counterAt_succ (n : ℕ) : counterAt c0 (n + 1) = counterAt c0 n + 1#64 := by
  rw [counterAt, counterAt, BitVec.ofNat_add, BitVec.add_assoc]

theorem Call.held_iff {k : Call} (hfit : c0.toNat + k.stop < 2 ^ 64) (v : BitVec 64) :
    k.Held c0 v ↔ c0.toNat + k.start ≤ v.toNat ∧ v.toNat ≤ c0.toNat + k.stop := by
  constructor
  · rintro ⟨n, h1, h2, rfl⟩
    rw [counterAt_toNat (by omega)]
    omega
  · rintro ⟨h1, h2⟩
    refine ⟨v.toNat - c0.toNat, by omega, by omega, ?_⟩
    apply BitVec.eq_of_toNat_eq
    rw [counterAt_toNat (by omega)]
    omega

/-- A call returns a value the counter held iff the low word has not gone down
    between the loads. -/
theorem held_secondLoad_iff {k : Call} (hle : k.start ≤ k.stop)
    (hfit : c0.toNat + k.stop < 2 ^ 64) (o : Order) :
    k.Held c0 (secondLoad o (firstLoad o (counterAt c0 k.start)) (counterAt c0 k.stop)) ↔
      lowWord (counterAt c0 k.start) ≤ lowWord (counterAt c0 k.stop) := by
  rw [Call.held_iff hfit, secondLoad_toNat, BitVec.le_def, lowWord_toNat, lowWord_toNat,
    counterAt_toNat (by omega), counterAt_toNat hfit]
  exact value_held_iff (by omega) o

/-! ## What holds in every run -/

/-- The counter counts the interrupts, and between the loads of a call the first
    half is there. -/
structure Base (c0 : BitVec 64) (s : State × History) : Prop where
  counter : s.1.nticks = counterAt c0 s.2.ticks
  half : match s.1.pc with
    | .initSecond _ _ o half | .second _ o half =>
      half = firstLoad o (counterAt c0 s.2.call.start) ∧ s.2.call.start ≤ s.2.ticks
    | _ => True

variable {s t : State × History} {e : Event}

theorem base_init (c0 : BitVec 64) : Base c0 (init c0, History.init) :=
  ⟨(BitVec.add_zero c0).symm, trivial⟩

theorem base_step (h : Base c0 s) (hst : watch (step tps) (observe tps) s e = some t) :
    Base c0 t := by
  obtain ⟨hcounter, hhalf⟩ := h
  obtain ⟨⟨nticks, led, pc⟩, hist⟩ := s
  cases e with
  | timerIrq =>
    obtain rfl := Option.some.inj hst
    constructor
    · show nticks + 1#64 = counterAt c0 (hist.ticks + 1)
      rw [counterAt_succ, ← hcounter]
    · cases pc with
      | initSecond d b o half => exact ⟨hhalf.1, hhalf.2.trans (Nat.le_succ _)⟩
      | second st o half => exact ⟨hhalf.1, hhalf.2.trans (Nat.le_succ _)⟩
      | _ => trivial
  | cpu dipsw button o =>
    obtain rfl := Option.some.inj hst
    cases pc with
    | initFirst d b => exact ⟨hcounter, congrArg (firstLoad o) hcounter, le_rfl⟩
    | first st => exact ⟨hcounter, congrArg (firstLoad o) hcounter, le_rfl⟩
    | _ => exact ⟨hcounter, trivial⟩

theorem trace_base {es : List Event} (h : trace tps c0 es = some s) : Base c0 s :=
  exec_invariant (fun _ _ _ hr hst => base_step hr hst) (base_init c0) h

/-- The history counts the interrupts of the run. -/
theorem trace_ticks {es : List Event} (h : trace tps c0 es = some s) :
    s.2.ticks = es.count .timerIrq := by
  induction es using List.reverseRecOn generalizing s with
  | nil =>
    obtain rfl := Option.some.inj h
    rfl
  | append_singleton es e ih =>
    obtain ⟨r, hr, hst⟩ := exec_concat_eq_some_iff.mp h
    have hcount := ih hr
    obtain ⟨⟨nticks, led, pc⟩, hist⟩ := r
    rw [List.count_append, ← hcount]
    cases e with
    | timerIrq =>
      obtain rfl := Option.some.inj hst
      rfl
    | cpu dipsw button o =>
      obtain rfl := Option.some.inj hst
      cases pc <;> rfl

/-- What the second load of a call returns. -/
theorem Base.held_iff (h : Base c0 s) (hfit : c0.toNat + s.2.ticks < 2 ^ 64) {o : Order}
    {half : BitVec 32} (hhalf : half = firstLoad o (counterAt c0 s.2.call.start))
    (hle : s.2.call.start ≤ s.2.ticks) :
    Call.Held c0 { s.2.call with stop := s.2.ticks } (secondLoad o half s.1.nticks) ↔
      ¬ lowWord s.1.nticks < lowWord (counterAt c0 s.2.call.start) := by
  rw [hhalf, h.counter, BitVec.not_lt]
  exact held_secondLoad_iff (k := { s.2.call with stop := s.2.ticks }) hle hfit o

/-- Unless `2 ^ 32` interrupts fall into one call, the low word goes down exactly
    when one of them carries into the high word. -/
theorem Base.torn_iff_carry (h : Base c0 s) (hfit : c0.toNat + s.2.ticks < 2 ^ 64)
    (hle : s.2.call.start ≤ s.2.ticks) (hfew : s.2.ticks < s.2.call.start + 2 ^ 32) :
    lowWord s.1.nticks < lowWord (counterAt c0 s.2.call.start) ↔
      highWord s.1.nticks ≠ highWord (counterAt c0 s.2.call.start) := by
  rw [h.counter, BitVec.lt_def, lowWord_toNat, lowWord_toNat, ne_eq, ← BitVec.toNat_inj,
    highWord_toNat, highWord_toNat, counterAt_toNat hfit, counterAt_toNat (by omega)]
  omega

/-! ## What holds without torn calls -/

/-- `last_toggle` is a value the counter held during its call, and so is `now`;
    the calls do not overlap. -/
def LoopOk (c0 : BitVec 64) (s : State × History) : Prop :=
  match s.1.pc with
  | .loopTop st | .first st | .ledWrite st | .sleep st =>
    s.2.toggleCall.Held c0 st.lastToggle ∧ s.2.toggleCall.stop ≤ s.2.ticks
  | .second st _ _ =>
    s.2.toggleCall.Held c0 st.lastToggle ∧ s.2.toggleCall.stop ≤ s.2.call.start
  | .toggle st now =>
    s.2.toggleCall.Held c0 st.lastToggle ∧ s.2.toggleCall.stop ≤ s.2.call.start ∧
      s.2.call.Held c0 now ∧ s.2.call.stop ≤ s.2.ticks
  | _ => True

theorem toggleBlink_of_ne {st : MainState} {now : BitVec 64}
    (h : (toggleBlink tps st now).blink ≠ st.blink) :
    (toggleBlink tps st now).lastToggle = now ∧
      (halfPeriod tps st.dipsw).toNat ≤ (now - st.lastToggle).toNat := by
  unfold toggleBlink at h ⊢
  split_ifs at h ⊢ with hhalf
  · refine ⟨rfl, ?_⟩
    rw [BitVec.le_def] at hhalf
    exact (BitVec.toNat_setWidth_of_le (by norm_num)).symm.trans_le hhalf
  · exact absurd rfl h

theorem toggleBlink_of_eq {st : MainState} {now : BitVec 64}
    (h : (toggleBlink tps st now).blink = st.blink) : toggleBlink tps st now = st := by
  unfold toggleBlink at h ⊢
  split_ifs at h ⊢
  · exact absurd h (xor_one_ne st.blink)
  · rfl

/-- After the toggle `last_toggle` is the value of the call it is taken from. -/
theorem held_toggleBlink {st : MainState} {now : BitVec 64} {k k' : Call}
    (hlast : k.Held c0 st.lastToggle) (hnow : k'.Held c0 now) :
    Call.Held c0 (if (toggleBlink tps st now).blink ≠ st.blink then k' else k)
      (toggleBlink tps st now).lastToggle := by
  split_ifs with htoggle
  · rw [(toggleBlink_of_ne htoggle).1]
    exact hnow
  · rw [toggleBlink_of_eq (not_not.mp htoggle)]
    exact hlast

theorem loopOk_step (hbase : Base c0 s) (hfit : c0.toNat + s.2.ticks < 2 ^ 64) (h : LoopOk c0 s)
    (hwhole : ¬ Torn c0 s e) (hst : watch (step tps) (observe tps) s e = some t) :
    LoopOk c0 t := by
  have hhalf := hbase.half
  obtain ⟨⟨nticks, led, pc⟩, hist⟩ := s
  cases e with
  | timerIrq =>
    obtain rfl := Option.some.inj hst
    cases pc with
    | loopTop st => exact ⟨h.1, h.2.trans (Nat.le_succ _)⟩
    | first st => exact ⟨h.1, h.2.trans (Nat.le_succ _)⟩
    | ledWrite st => exact ⟨h.1, h.2.trans (Nat.le_succ _)⟩
    | sleep st => exact ⟨h.1, h.2.trans (Nat.le_succ _)⟩
    | second st o half => exact h
    | toggle st now =>
      obtain ⟨hlast, horder, hnow, hstop⟩ := h
      exact ⟨hlast, horder, hnow, hstop.trans (Nat.le_succ _)⟩
    | _ => trivial
  | cpu dipsw button o =>
    obtain rfl := Option.some.inj hst
    cases pc with
    | entry => trivial
    | initFirst d b => trivial
    | initSecond d b o' half =>
      have hheld := (hbase.held_iff hfit hhalf.1 hhalf.2).mpr fun hlt => hwhole ⟨nofun, trivial, hlt⟩
      exact ⟨hheld, le_rfl⟩
    | loopTop st =>
      have hlast : (detectChange st ⟨dipsw, button, nticks⟩).1.lastToggle = st.lastToggle := by
        rw [detectChange_fst]
      refine ⟨?_, h.2⟩
      show hist.toggleCall.Held c0 (detectChange st ⟨dipsw, button, nticks⟩).1.lastToggle
      rw [hlast]
      exact h.1
    | first st => exact h
    | second st o' half =>
      have hheld := (hbase.held_iff hfit hhalf.1 hhalf.2).mpr fun hlt => hwhole ⟨nofun, trivial, hlt⟩
      exact ⟨h.1, h.2, hheld, le_rfl⟩
    | toggle st now =>
      obtain ⟨hlast, horder, hnow, hstop⟩ := h
      have hspan : hist.call.start ≤ hist.call.stop := by
        obtain ⟨n, h1, h2, -⟩ := hnow
        exact h1.trans h2
      refine ⟨held_toggleBlink hlast hnow, ?_⟩
      show (if _ then hist.call else hist.toggleCall).stop ≤ hist.ticks
      split_ifs
      · exact hstop
      · exact horder.trans (hspan.trans hstop)
    | ledWrite st => exact h
    | sleep st => exact h

/-- Then no toggle is early. -/
theorem LoopOk.toggleOk (h : LoopOk c0 s) (hfit : c0.toNat + s.2.ticks < 2 ^ 64) :
    ToggleOk tps c0 s := by
  have hnums : ∀ st now, s.1.pc = .toggle st now → ∃ m n, s.2.toggleCall.start ≤ m ∧ m ≤ n ∧
      n ≤ s.2.call.stop ∧ st.lastToggle.toNat = c0.toNat + m ∧ now.toNat = c0.toNat + n := by
    intro st now hpc
    unfold LoopOk at h
    rw [hpc] at h
    obtain ⟨⟨m, hm1, hm2, hlast⟩, horder, ⟨n, hn1, hn2, hnow⟩, hstop⟩ := h
    refine ⟨m, n, hm1, hm2.trans (horder.trans hn1), hn2, ?_, ?_⟩
    · rw [hlast, counterAt_toNat (by omega)]
    · rw [hnow, counterAt_toNat (by omega)]
  refine ⟨?_, ?_, ?_, ?_⟩
  · intro st hpc
    unfold LoopOk at h
    rw [hpc] at h
    exact h.1
  · intro st now hpc
    unfold LoopOk at h
    rw [hpc] at h
    exact h.2.2.1
  · intro st now hpc
    obtain ⟨m, n, -, hmn, -, hlast, hnow⟩ := hnums st now hpc
    rw [BitVec.le_def]
    omega
  · intro st now hpc htoggle
    obtain ⟨m, n, hm, hmn, hn, hlast, hnow⟩ := hnums st now hpc
    have hhalf := (toggleBlink_of_ne htoggle).2
    rw [BitVec.toNat_sub_of_le (BitVec.le_def.mpr (by omega))] at hhalf
    omega

/-! ## Torn calls -/

/-- A torn call returns a value the counter never held during it. -/
theorem Torn.not_toggleOk (hbase : Base c0 s) (hfit : c0.toNat + s.2.ticks < 2 ^ 64)
    (htorn : Torn c0 s e) (hst : watch (step tps) (observe tps) s e = some t) :
    ¬ ToggleOk tps c0 t := by
  obtain ⟨hcpu, hbetween, hlt⟩ := htorn
  have hhalf := hbase.half
  obtain ⟨⟨nticks, led, pc⟩, hist⟩ := s
  intro hok
  cases e with
  | timerIrq => exact hcpu rfl
  | cpu dipsw button o =>
    obtain rfl := Option.some.inj hst
    cases pc with
    | initSecond d b o' half =>
      exact (hbase.held_iff hfit hhalf.1 hhalf.2).mp (hok.last_held _ rfl) hlt
    | second st o' half =>
      exact (hbase.held_iff hfit hhalf.1 hhalf.2).mp (hok.now_held _ _ rfl) hlt
    | _ => exact hbetween

/-- A run in which the counter does not overflow, with interrupts at any moments
    and loads in any order, uses only tick values the counter held and toggles
    only after `half_period` ticks if and only if none of its calls of
    `alt_nticks()` is torn. -/
theorem toggleOk_iff (tps : BitVec 32) (c0 : BitVec 64) (es : List Event)
    (hfit : c0.toNat + es.count .timerIrq < 2 ^ 64) :
    StatesHave (watch (step tps) (observe tps)) (init c0, History.init) (ToggleOk tps c0) es ↔
      StepsHave (watch (step tps) (observe tps)) (init c0, History.init)
        (fun s e => ¬ Torn c0 s e) es := by
  have hfits : ∀ es' s, es' <+: es → trace tps c0 es' = some s →
      c0.toNat + s.2.ticks < 2 ^ 64 := by
    intro es' s hpre hs
    rw [trace_ticks hs]
    have hcount := hpre.sublist.count_le Event.timerIrq
    omega
  constructor
  · intro hok es' e s t hpre hs hst htorn
    have hfit' := hfits es' s ((List.prefix_append es' [e]).trans hpre) hs
    have ht : trace tps c0 (es' ++ [e]) = some t := exec_concat_eq_some_iff.mpr ⟨s, hs, hst⟩
    exact htorn.not_toggleOk (trace_base hs) hfit' hst (hok _ t hpre ht)
  · intro hwhole es' t hpre ht
    have hsteps : StepsHave (watch (step tps) (observe tps)) (init c0, History.init)
        (fun s e => ¬ Torn c0 s e ∧ c0.toNat + s.2.ticks < 2 ^ 64) es := by
      intro es' e s t hpre hs hst
      exact ⟨hwhole es' e s t hpre hs hst, hfits es' s ((List.prefix_append es' [e]).trans hpre) hs⟩
    have hrun : StatesHave (watch (step tps) (observe tps)) (init c0, History.init)
        (fun s => Base c0 s ∧ LoopOk c0 s) es := by
      refine hsteps.statesHave ?_ ⟨base_init c0, trivial⟩
      intro s e t h hgood hst
      exact ⟨base_step h.1 hst, loopOk_step h.1 hgood.2 h.2 hgood.1 hst⟩
    exact (hrun es' t hpre ht).2.toggleOk (hfits es' t hpre ht)

/-- The start-up code, and the first iteration up to its LED write; `irqs` come
    between the two loads of its call. -/
def firstIteration (o : Order) (irqs : List Event) : List Event :=
  List.replicate 5 (.cpu 0#32 3#32 o) ++ irqs ++ List.replicate 2 (.cpu 0#32 3#32 o)

/-- One interrupt between the loads, far from a carry. -/
theorem toggleOk_iff_one :
    StatesHave (watch (step 1000#32) (observe 1000#32)) (init 0#64, History.init)
        (ToggleOk 1000#32 0#64) (firstIteration .lowFirst [.timerIrq]) ↔
      StepsHave (watch (step 1000#32) (observe 1000#32)) (init 0#64, History.init)
        (fun s e => ¬ Torn 0#64 s e) (firstIteration .lowFirst [.timerIrq]) :=
  toggleOk_iff 1000#32 0#64 (firstIteration .lowFirst [.timerIrq]) (by decide)

/-! ## One carry between the loads -/

/-- The counter stands at `2 ^ 32 - 1` when the first iteration makes its first
    load, and an interrupt comes before the second. In either order of the loads
    the blink bit toggles after this one tick, where 100 are promised. -/
theorem carry_toggles (o : Order) : ∃ s st now,
    trace 1000#32 0xFFFFFFFF#64 ((firstIteration o [.timerIrq]).take 7) = some s ∧
      s.1.pc = .toggle st now ∧ (toggleBlink 1000#32 st now).blink ≠ st.blink ∧
      s.2.call.stop = s.2.toggleCall.start + 1 ∧ (halfPeriod 1000#32 st.dipsw).toNat = 100 := by
  cases o with
  | lowFirst => exact ⟨_, _, _, rfl, rfl, by decide, rfl, by decide⟩
  | highFirst => exact ⟨_, _, _, rfl, rfl, by decide, rfl, by decide⟩

/-- So not every run toggles in time. -/
theorem early_toggle : ¬ ∀ (tps : BitVec 32) (c0 : BitVec 64) (es : List Event),
    c0.toNat + es.count .timerIrq < 2 ^ 64 →
      StatesHave (watch (step tps) (observe tps)) (init c0, History.init) (ToggleOk tps c0) es := by
  intro hheld
  obtain ⟨s, st, now, hs, hpc, htoggle, hstop, hhalf⟩ := carry_toggles .lowFirst
  have hok := hheld 1000#32 0xFFFFFFFF#64 _ (by decide) _ s (List.prefix_refl _) hs
  have hearly := hok.no_early st now hpc htoggle
  omega

end NiosvCodesign.Firmware.TickRead

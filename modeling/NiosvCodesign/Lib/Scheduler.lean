import NiosvCodesign.Lib.Transitions

/-!
# An ideal scheduler of periodic callbacks

Alarms with unbounded times. At each tick the callback of every alarm that is due
at this very tick is called; it returns the time to its next call, or 0 to stop.
`α` names the alarms and `σ` is what the callbacks act on.

* `mem_runDue`: what a tick does to an alarm depends on nothing but this alarm.
* `periodic`: an alarm whose callback always returns `p` is called at `d`,
  `d + p`, `d + 2 * p` and so on, whatever happens to other alarms.
-/

namespace Scheduler

open Transitions

/-- A registered alarm. -/
structure Entry (α σ : Type*) where
  alarm : α
  due : ℕ
  callback : σ → ℕ × σ

/-- The time, the registered alarms, the alarms started so far, what the
    callbacks act on, and the calls made so far with their times. -/
structure State (α σ : Type*) where
  now : ℕ
  entries : List (Entry α σ)
  known : List α
  ctx : σ
  calls : List (α × ℕ)

inductive Event (α σ : Type*)
  | start (x : α) (n : ℕ) (callback : σ → ℕ × σ)
  | stop (x : α)
  | tick

variable {α σ : Type*} [DecidableEq α]

omit [DecidableEq α] in
/-- The callbacks due at `now`: the alarms that remain, what the callbacks have
    made of `a`, and the alarms called. -/
def runDue (now : ℕ) : List (Entry α σ) → σ → List (Entry α σ) × σ × List α
  | [], a => ([], a, [])
  | e :: es, a =>
    if e.due = now then
      let (period, a) := e.callback a
      let (es, a, calls) := runDue now es a
      (if period = 0 then es else { e with due := now + period } :: es, a, e.alarm :: calls)
    else
      let (es, a, calls) := runDue now es a
      (e :: es, a, calls)

/-- One event; `none` if an alarm is started that is registered, or stopped that
    has never been started. -/
def step (s : State α σ) : Event α σ → Option (State α σ)
  | .start x n callback =>
    if x ∈ s.entries.map Entry.alarm then none
    else some { s with entries := ⟨x, s.now + n + 1, callback⟩ :: s.entries, known := x :: s.known }
  | .stop x =>
    if x ∈ s.known then some { s with entries := s.entries.filter fun e => e.alarm ≠ x }
    else none
  | .tick =>
    let (entries, a, calls) := runDue (s.now + 1) s.entries s.ctx
    some { s with
      now := s.now + 1, entries := entries, ctx := a
      calls := s.calls ++ calls.map fun x => (x, s.now + 1) }

/-- The times at which `x` was called. -/
def State.callsOf (s : State α σ) (x : α) : List ℕ := (s.calls.filter fun c => c.1 = x).map Prod.snd

/-- The alarm that an event is about. -/
def Event.alarm? : Event α σ → Option α
  | .start x _ _ | .stop x => some x
  | .tick => none

variable {es : List (Entry α σ)} {e : Entry α σ} {x : α}

/-! ## A tick -/

omit [DecidableEq α] in
theorem runDue_calls (now : ℕ) (a : σ) :
    (runDue now es a).2.2 = (es.filter fun e => e.due = now).map Entry.alarm := by
  induction es generalizing a with
  | nil => rfl
  | cons e es ih =>
    rw [runDue]
    by_cases hdue : e.due = now
    · rw [if_pos hdue, List.filter_cons_of_pos (by simpa using hdue), List.map_cons, ← ih]
    · rw [if_neg hdue, List.filter_cons_of_neg (by simpa using hdue), ← ih]

omit [DecidableEq α] in
theorem runDue_alarms (now : ℕ) (es : List (Entry α σ)) (a : σ) :
    ((runDue now es a).1.map Entry.alarm).Sublist (es.map Entry.alarm) := by
  induction es generalizing a with
  | nil => exact List.Sublist.refl _
  | cons e es ih =>
    unfold runDue
    simp only
    split_ifs
    · exact (ih _).cons _
    · exact (ih _).cons_cons _
    · exact (ih _).cons_cons _

omit [DecidableEq α] in
/-- An alarm that is not due stays as it is, one that is due and goes on is due
    again after its period. -/
theorem mem_runDue (now : ℕ) (he : e ∈ es) (a : σ) : (e.due ≠ now → e ∈ (runDue now es a).1) ∧
    ∀ p, p ≠ 0 → (∀ a, (e.callback a).1 = p) → e.due = now →
      { e with due := now + p } ∈ (runDue now es a).1 := by
  induction es generalizing a with
  | nil => exact absurd he List.not_mem_nil
  | cons e' es ih =>
    unfold runDue
    simp only
    rcases List.mem_cons.mp he with rfl | he
    · refine ⟨fun hdue => ?_, fun p hp hperiod hdue => ?_⟩
      · rw [if_neg hdue]
        exact List.mem_cons_self
      · rw [if_pos hdue, hperiod, if_neg hp]
        exact List.mem_cons_self
    · refine ⟨fun hdue => ?_, fun p hp hperiod hdue => ?_⟩
      · split_ifs
        · exact (ih he _).1 hdue
        · exact List.mem_cons_of_mem _ ((ih he _).1 hdue)
        · exact List.mem_cons_of_mem _ ((ih he _).1 hdue)
      · split_ifs
        · exact (ih he _).2 p hp hperiod hdue
        · exact List.mem_cons_of_mem _ ((ih he _).2 p hp hperiod hdue)
        · exact List.mem_cons_of_mem _ ((ih he _).2 p hp hperiod hdue)

omit [DecidableEq α] in
/-- What remains is due later. -/
theorem runDue_ahead {now : ℕ} (h : ∀ e ∈ es, now ≤ e.due) (a : σ) :
    ∀ e ∈ (runDue now es a).1, now < e.due := by
  induction es generalizing a with
  | nil => exact fun e he => absurd he List.not_mem_nil
  | cons e' es ih =>
    intro e he
    have hes : ∀ e ∈ es, now ≤ e.due := fun e he => h e (List.mem_cons_of_mem _ he)
    have hle := h e' List.mem_cons_self
    rw [runDue] at he
    by_cases hdue : e'.due = now
    · rw [if_pos hdue] at he
      simp only at he
      split_ifs at he with hstop
      · exact ih hes _ e he
      · rcases List.mem_cons.mp he with rfl | he
        · exact Nat.lt_add_of_pos_right (Nat.pos_of_ne_zero hstop)
        · exact ih hes _ e he
    · rw [if_neg hdue] at he
      rcases List.mem_cons.mp he with rfl | he
      · omega
      · exact ih hes _ e he

/-- Each registered alarm is called at most once in a tick, and if it is due. -/
theorem runDue_callsOf (now : ℕ) (hnodup : (es.map Entry.alarm).Nodup) (he : e ∈ es) (a : σ) :
    ((runDue now es a).2.2.filter fun y => y = e.alarm) =
      if e.due = now then [e.alarm] else [] := by
  rw [runDue_calls]
  induction es with
  | nil => exact absurd he List.not_mem_nil
  | cons e' es ih =>
    obtain ⟨hmem, hnodup⟩ := List.nodup_cons.mp hnodup
    have hnone : ∀ y, y ∉ es.map Entry.alarm →
        (((es.filter fun e => e.due = now).map Entry.alarm).filter fun z => z = y) = [] := by
      intro y hy
      rw [List.filter_eq_nil_iff]
      intro z hz hzy
      obtain ⟨e'', he'', rfl⟩ := List.mem_map.mp hz
      rw [decide_eq_true_eq] at hzy
      exact hy (hzy ▸ List.mem_map_of_mem (List.mem_of_mem_filter he''))
    rcases List.mem_cons.mp he with rfl | he
    · by_cases hdue : e.due = now
      · rw [List.filter_cons_of_pos (by simpa using hdue), List.map_cons,
          List.filter_cons_of_pos (by simp), hnone _ hmem, if_pos hdue]
      · rw [List.filter_cons_of_neg (by simpa using hdue), hnone _ hmem, if_neg hdue]
    · have hne : e'.alarm ≠ e.alarm := fun heq => hmem (heq ▸ List.mem_map_of_mem he)
      by_cases hdue : e'.due = now
      · rw [List.filter_cons_of_pos (by simpa using hdue), List.map_cons,
          List.filter_cons_of_neg (by simpa using hne)]
        exact ih hnodup he
      · rw [List.filter_cons_of_neg (by simpa using hdue)]
        exact ih hnodup he

variable {s t s₀ : State α σ}

/-- Is it a tick? -/
def Event.isTick : Event α σ → Bool
  | .tick => true
  | _ => false

theorem step_now {ev : Event α σ} (hst : step s ev = some t) :
    t.now = s.now + (if ev.isTick then 1 else 0) ∧ t.entries.length ≤ s.entries.length + 1 := by
  cases ev with
  | start x n callback =>
    simp only [step] at hst
    split_ifs at hst
    obtain rfl := Option.some.inj hst
    exact ⟨rfl, le_rfl⟩
  | stop x =>
    simp only [step] at hst
    split_ifs at hst
    obtain rfl := Option.some.inj hst
    exact ⟨rfl, (List.length_filter_le _ _).trans (Nat.le_succ _)⟩
  | tick =>
    obtain rfl := Option.some.inj hst
    have hlen := (runDue_alarms (s.now + 1) s.entries s.ctx).length_le
    rw [List.length_map, List.length_map] at hlen
    exact ⟨rfl, hlen.trans (Nat.le_succ _)⟩

/-! ## A periodic alarm -/

/-- Where a periodic alarm stands when it has been called `k` times since `s₀`. -/
structure OnTime (s₀ : State α σ) (e : Entry α σ) (p k : ℕ) (s : State α σ) : Prop where
  nodup : (s.entries.map Entry.alarm).Nodup
  registered : { e with due := e.due + k * p } ∈ s.entries
  ahead : s.now < e.due + k * p
  made : ∀ j < k, e.due + j * p ≤ s.now
  calls : s.callsOf e.alarm =
    s₀.callsOf e.alarm ++ (List.range k).map fun j => e.due + j * p

theorem callsOf_tick (s : State α σ) (x : α) (now : ℕ) (called : List α) :
    ({ s with calls := s.calls ++ called.map fun y => (y, now) } : State α σ).callsOf x =
      s.callsOf x ++ (called.filter fun y => y = x).map fun _ => now := by
  simp only [State.callsOf, List.filter_append, List.map_append, List.filter_map, List.map_map]
  rfl

theorem OnTime.tick {p k : ℕ} (h : OnTime s₀ e p k s) (hp : p ≠ 0)
    (hperiod : ∀ a, (e.callback a).1 = p) (hst : step s .tick = some t) :
    (s.now + 1 ≠ e.due + k * p ∧ OnTime s₀ e p k t) ∨
      (s.now + 1 = e.due + k * p ∧ OnTime s₀ e p (k + 1) t) := by
  obtain rfl := Option.some.inj hst
  have hcalls := callsOf_tick s e.alarm (s.now + 1) (runDue (s.now + 1) s.entries s.ctx).2.2
  have hnodup := h.nodup.sublist (runDue_alarms (s.now + 1) s.entries s.ctx)
  obtain ⟨hstay, hgo⟩ := mem_runDue (s.now + 1) h.registered s.ctx
  rw [runDue_callsOf _ h.nodup h.registered] at hcalls
  have hahead := h.ahead
  by_cases hdue : e.due + k * p = s.now + 1
  · refine Or.inr ⟨hdue.symm, hnodup, ?_, ?_, ?_, ?_⟩
    · have hnext : s.now + 1 + p = e.due + (k + 1) * p := by
        rw [← hdue, Nat.add_assoc, ← Nat.succ_mul]
      rw [← hnext]
      exact hgo p hp hperiod hdue
    · show s.now + 1 < e.due + (k + 1) * p
      rw [Nat.succ_mul]
      omega
    · intro j hj
      show e.due + j * p ≤ s.now + 1
      rw [← hdue]
      exact Nat.add_le_add_left (Nat.mul_le_mul_right p (Nat.le_of_lt_succ hj)) _
    · refine hcalls.trans ?_
      rw [if_pos hdue, h.calls, List.range_succ, List.map_append, List.append_assoc, ← hdue]
      rfl
  · refine Or.inl ⟨fun heq => hdue heq.symm, hnodup, hstay hdue, ?_, ?_, ?_⟩
    · show s.now + 1 < e.due + k * p
      omega
    · exact fun j hj => (h.made j hj).trans (Nat.le_succ _)
    · refine hcalls.trans ?_
      rw [if_neg hdue, h.calls, List.map_nil, List.append_nil]

/-- Other alarms do not matter. -/
theorem OnTime.other {p k : ℕ} (h : OnTime s₀ e p k s) {ev : Event α σ}
    (hother : ev.alarm? ≠ some e.alarm) (htick : ev.alarm? ≠ none) (hst : step s ev = some t) :
    OnTime s₀ e p k t := by
  cases ev with
  | start x n callback =>
    simp only [step] at hst
    split_ifs at hst with hnew
    obtain rfl := Option.some.inj hst
    refine ⟨List.nodup_cons.mpr ⟨hnew, h.nodup⟩, List.mem_cons_of_mem _ h.registered, h.ahead,
      h.made, h.calls⟩
  | stop x =>
    simp only [step] at hst
    split_ifs at hst
    obtain rfl := Option.some.inj hst
    refine ⟨h.nodup.sublist (List.filter_sublist.map _), List.mem_filter.mpr ⟨h.registered, ?_⟩,
      h.ahead, h.made, h.calls⟩
    exact decide_eq_true fun heq => hother (congrArg some heq.symm)
  | tick => exact absurd rfl htick

/-- A periodic alarm is called at `due`, `due + p`, `due + 2 * p`, ..., and at no
    other time, whatever other alarms are started and stopped. -/
theorem periodic {p : ℕ} (hp : p ≠ 0) (hperiod : ∀ a, (e.callback a).1 = p)
    (hnodup : (s.entries.map Entry.alarm).Nodup) (he : e ∈ s.entries) (hahead : s.now < e.due)
    {evs : List (Event α σ)} (hother : ∀ ev ∈ evs, ev.alarm? ≠ some e.alarm)
    (ht : exec step s evs = some t) :
    ∃ k, t.callsOf e.alarm = s.callsOf e.alarm ++ ((List.range k).map fun j => e.due + j * p) ∧
      ∀ j, j < k ↔ e.due + j * p ≤ t.now := by
  have hrun : ∃ k, OnTime s e p k t := by
    induction evs using List.reverseRecOn generalizing t with
    | nil =>
      obtain rfl := Option.some.inj ht
      refine ⟨0, hnodup, ?_, ?_, fun j hj => absurd hj (Nat.not_lt_zero j), ?_⟩
      · rwa [Nat.zero_mul, Nat.add_zero]
      · rwa [Nat.zero_mul, Nat.add_zero]
      · exact (List.append_nil _).symm
    | append_singleton evs ev ih =>
      obtain ⟨r, hr, hrt⟩ := exec_concat_eq_some_iff.mp ht
      obtain ⟨k, hk⟩ := ih (fun ev hev => hother ev (List.mem_append_left _ hev)) hr
      by_cases htick : ev.alarm? = none
      · obtain rfl : ev = .tick := by
          cases ev with
          | tick => rfl
          | _ => exact absurd htick (Option.some_ne_none _)
        rcases hk.tick hp hperiod hrt with ⟨-, h⟩ | ⟨-, h⟩
        · exact ⟨k, h⟩
        · exact ⟨k + 1, h⟩
      · exact ⟨k, hk.other (hother ev (by simp)) htick hrt⟩
  obtain ⟨k, hk⟩ := hrun
  refine ⟨k, hk.calls, fun j => ⟨hk.made j, fun hle => ?_⟩⟩
  -- the call after the last one is still to come
  by_contra hkj
  have hmul := Nat.mul_le_mul_right p (Nat.not_lt.mp hkj)
  have hlater := hk.ahead
  omega

end Scheduler

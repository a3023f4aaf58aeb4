import NiosvCodesign.Lib.CircularList
import NiosvCodesign.Lib.Scheduler
import NiosvCodesign.Firmware.Hal

/-!
# The alarm list of the HAL

`alt_alarm_start`, `alt_alarm_stop` and `alt_tick` on the linked list
`alt_alarm_list`, with the pointers as in `sys/alt_llist.h`. An alarm is named by
a value of `α`, and `none` is the head of the list. Callbacks do not start or
stop alarms.

* `tickLoop_refines`, `altTick_refines`: a tick does to the list what the ideal
  scheduler does to its alarms; in particular the loop ends.
* `alarms_refine`: so does every run of `start`, `stop` and `tick`.
* `processAlarms_eq`: the list of times of `Hal` is the same scheduler with one
  callback.
-/

namespace NiosvCodesign.Firmware.Alarms

open CircularList Transitions

/-! ## The list -/

/-- The globals of the alarm facility and the fields of all alarms. `callback`
    stands for the fields `callback` and `context`; it acts on `σ` alone, so no
    callback calls `alt_alarm_start` or `alt_alarm_stop`. -/
structure Heap (α σ : Type*) where
  tickRate : BitVec 32
  nticks : BitVec 64
  links : Links (Option α)
  time : α → BitVec 64
  callback : α → σ → BitVec 32 × σ

inductive Errno
  | einval
  | enotsup

/-- The memory, what callbacks act on, and the calls of callbacks so far, each
    with the value of `_alt_nticks`. -/
structure State (α σ : Type*) where
  heap : Heap α σ
  ctx : σ
  calls : List (α × BitVec 64)

variable {α σ : Type*} [DecidableEq α]

/-- `alt_alarm_start` (alt_alarm_start.c:64-98); `none` is a null pointer. -/
def altAlarmStart (m : Heap α σ) (alarm : Option α) (nticks : BitVec 32)
    (callback : σ → BitVec 32 × σ) : Except Errno (Heap α σ) :=
  if m.tickRate ≠ 0#32 then
    match alarm with
    | some x =>
      let m := { m with callback := Function.update m.callback x callback }
      let m := { m with
        time := Function.update m.time x (nticks.zeroExtend 64 + m.nticks + 1#64) }
      .ok { m with links := m.links.insert none (some x) }
    | none => .error .einval
  else .error .enotsup

/-- `alt_alarm_stop` (alt_tick.c:66-73). -/
def altAlarmStop (m : Heap α σ) (x : α) : Heap α σ := { m with links := m.links.remove (some x) }

/-- The loop of `alt_tick` (alt_tick.c:100-121), at most `fuel` tests of its
    condition. -/
def tickLoop : ℕ → Option α → State α σ → Option (State α σ)
  | 0, _, _ => none
  | _ + 1, none, s => some s
  | fuel + 1, some x, s =>
    let next := s.heap.links.next (some x)
    if s.heap.time x ≤ s.heap.nticks then
      let (nextCallback, ctx) := s.heap.callback x s.ctx
      let calls := s.calls ++ [(x, s.heap.nticks)]
      if nextCallback = 0#32 then tickLoop fuel next ⟨altAlarmStop s.heap x, ctx, calls⟩
      else
        let time := Function.update s.heap.time x (s.heap.time x + nextCallback.zeroExtend 64)
        tickLoop fuel next ⟨{ s.heap with time := time }, ctx, calls⟩
    else tickLoop fuel next s

/-- `alt_tick` (alt_tick.c:87-128). -/
def altTick (fuel : ℕ) (s : State α σ) : Option (State α σ) :=
  let s := { s with heap := { s.heap with nticks := s.heap.nticks + 1#64 } }
  tickLoop fuel (s.heap.links.next none) s

/-- What can happen to the alarms. -/
inductive Event (α σ : Type*)
  | start (x : α) (nticks : BitVec 32) (callback : σ → BitVec 32 × σ)
  | stop (x : α)
  | tick

/-- One event. -/
def step (fuel : ℕ) (s : State α σ) : Event α σ → Option (State α σ)
  | .start x nticks callback =>
    match altAlarmStart s.heap (some x) nticks callback with
    | .ok heap => some { s with heap := heap }
    | .error _ => some s
  | .stop x => some { s with heap := altAlarmStop s.heap x }
  | .tick => altTick fuel s

/-! ## A tick -/

omit [DecidableEq α] in
/-- A callback as the scheduler sees it. -/
def idealCallback (callback : σ → BitVec 32 × σ) (a : σ) : ℕ × σ :=
  ((callback a).1.toNat, (callback a).2)

/-- The pointers to the alarms of a list. -/
def pointers (es : List (Scheduler.Entry α σ)) : List (Option α) := es.map fun e => some e.alarm

/-- An alarm of the scheduler with its fields in memory. -/
def Heap.Holds (m : Heap α σ) (e : Scheduler.Entry α σ) : Prop :=
  (m.time e.alarm).toNat = e.due ∧ e.callback = idealCallback (m.callback e.alarm)

/-- The calls as the scheduler sees them. -/
def State.idealCalls (s : State α σ) : List (α × ℕ) := s.calls.map fun c => (c.1, c.2.toNat)

/-- What the loop does to memory: the alarms `es` become `es'`, the alarms `kept`
    in front of them stay. -/
structure Ticked (kept es es' : List (Scheduler.Entry α σ)) (s t : State α σ) : Prop where
  tickRate : t.heap.tickRate = s.heap.tickRate
  nticks : t.heap.nticks = s.heap.nticks
  callback : t.heap.callback = s.heap.callback
  ring : t.heap.links.Ring none (pointers (kept ++ es'))
  holds : ∀ e ∈ es', t.heap.Holds e
  time : ∀ x, x ∉ es.map Scheduler.Entry.alarm → t.heap.time x = s.heap.time x
  detached : ∀ x, x ∉ (kept ++ es').map Scheduler.Entry.alarm →
    x ∈ es.map Scheduler.Entry.alarm ∨ s.heap.links.Detached (some x) →
      t.heap.links.Detached (some x)

variable {s t m : State α σ} {e : Scheduler.Entry α σ} {kept es es' : List (Scheduler.Entry α σ)}
  {now fuel : ℕ}

omit [DecidableEq α] in
theorem pointers_split : pointers (kept ++ e :: es) =
    pointers kept ++ some e.alarm :: pointers es := by
  rw [pointers, List.map_append, List.map_cons]
  rfl

omit [DecidableEq α] in
theorem notMem_of_ring (h : m.heap.links.Ring none (pointers (kept ++ e :: es))) :
    e.alarm ∉ (kept ++ es).map Scheduler.Entry.alarm := by
  have hnodup := (List.nodup_cons.mp h.nodup).2
  rw [pointers_split, List.nodup_middle] at hnodup
  intro hmem
  obtain ⟨e', he', heq⟩ := List.mem_map.mp hmem
  refine (List.nodup_cons.mp hnodup).1 ?_
  rw [← heq, pointers, pointers, ← List.map_append]
  exact List.mem_map_of_mem he'

omit [DecidableEq α] in
/-- The alarm behind `e`. -/
theorem next_of_ring (h : m.heap.links.Ring none (pointers (kept ++ e :: es))) :
    m.heap.links.next (some e.alarm) = (pointers es).headD none := by
  have hseg := h.seg
  rw [pointers_split] at hseg
  exact (seg_append.mp hseg).2.next_eq

omit [DecidableEq α] in
/-- An alarm that stays, with or without a call. -/
theorem Ticked.keep {e' : Scheduler.Entry α σ} {time : α → BitVec 64} {ctx : σ}
    {calls : List (α × BitVec 64)} (he : e.alarm ∉ es.map Scheduler.Entry.alarm)
    (halarm : e'.alarm = e.alarm) (htime : ∀ x, x ≠ e.alarm → time x = s.heap.time x)
    (hholds : Heap.Holds { s.heap with time := time } e')
    (h : Ticked (kept ++ [e']) es es' ⟨{ s.heap with time := time }, ctx, calls⟩ t) :
    Ticked kept (e :: es) (e' :: es') s t := by
  have hsplit : kept ++ [e'] ++ es' = kept ++ e' :: es' := by
    rw [List.append_assoc, List.singleton_append]
  refine ⟨h.tickRate, h.nticks, h.callback, hsplit ▸ h.ring, ?_, ?_, ?_⟩
  · intro e'' he''
    rcases List.mem_cons.mp he'' with rfl | he''
    · refine ⟨?_, ?_⟩
      · rw [halarm, h.time _ he, ← halarm]
        exact hholds.1
      · rw [h.callback]
        exact hholds.2
    · exact h.holds e'' he''
  · intro x hx
    have hne : x ≠ e.alarm := fun heq => hx (heq ▸ List.mem_cons_self)
    exact (h.time x fun hmem => hx (List.mem_cons_of_mem _ hmem)).trans (htime x hne)
  · intro x hx hwas
    refine h.detached x (hsplit.symm ▸ hx) (hwas.imp_left fun hmem => ?_)
    refine (List.mem_cons.mp hmem).resolve_left fun heq => hx ?_
    rw [List.map_append, List.map_cons, halarm, heq]
    exact List.mem_append_right _ List.mem_cons_self

/-- An alarm that is taken out. -/
theorem Ticked.drop {ctx : σ} {calls : List (α × BitVec 64)}
    (hring : s.heap.links.Ring none (pointers (kept ++ e :: es)))
    (h : Ticked kept es es' ⟨altAlarmStop s.heap e.alarm, ctx, calls⟩ t) :
    Ticked kept (e :: es) es' s t := by
  refine ⟨h.tickRate, h.nticks, h.callback, h.ring, h.holds, ?_, ?_⟩
  · exact fun x hx => h.time x fun hmem => hx (List.mem_cons_of_mem _ hmem)
  · intro x hx hwas
    rw [pointers_split] at hring
    by_cases hes : x ∈ es.map Scheduler.Entry.alarm
    · exact h.detached x hx (Or.inl hes)
    · refine h.detached x hx (Or.inr ?_)
      by_cases hxe : x = e.alarm
      · rw [hxe]
        exact detached_remove hring.next_ne
      · have hdetached : s.heap.links.Detached (some x) :=
          hwas.resolve_left fun hmem => (List.mem_cons.mp hmem).elim hxe hes
        refine hdetached.remove hring fun hmem => ?_
        have hx' : x ∈ (kept ++ e :: es).map Scheduler.Entry.alarm := by
          rw [← pointers_split] at hmem
          obtain ⟨e', he', heq⟩ := List.mem_map.mp
            ((List.mem_cons.mp hmem).resolve_left (Option.some_ne_none x))
          exact Option.some.inj heq ▸ List.mem_map_of_mem he'
        rw [List.map_append] at hx hx'
        rcases List.mem_append.mp hx' with hkept | hmem
        · exact hx (List.mem_append_left _ hkept)
        · exact (List.mem_cons.mp hmem).elim hxe hes

/-- The loop runs the callbacks that are due and ends. -/
theorem tickLoop_refines (hring : s.heap.links.Ring none (pointers (kept ++ es)))
    (hholds : ∀ e ∈ es, s.heap.Holds e) (hnow : s.heap.nticks.toNat = now)
    (hahead : ∀ e ∈ es, now ≤ e.due) (hwrap : now + 2 ^ 32 < 2 ^ 64) (hfuel : es.length < fuel) :
    ∃ t, tickLoop fuel ((pointers es).headD none) s = some t ∧
      Ticked kept es (Scheduler.runDue now es s.ctx).1 s t ∧
      t.ctx = (Scheduler.runDue now es s.ctx).2.1 ∧
      t.idealCalls = s.idealCalls ++ (Scheduler.runDue now es s.ctx).2.2.map fun x => (x, now) := by
  induction es generalizing s kept fuel with
  | nil =>
    obtain ⟨fuel, rfl⟩ := Nat.exists_eq_add_of_le' hfuel
    refine ⟨s, rfl, ⟨rfl, rfl, rfl, hring, fun e he => absurd he List.not_mem_nil, fun _ _ => rfl,
      ?_⟩, rfl, (List.append_nil _).symm⟩
    exact fun x _ hx => hx.resolve_left List.not_mem_nil
  | cons e es ih =>
    obtain ⟨fuel, rfl⟩ := Nat.exists_eq_add_of_le' (Nat.one_le_of_lt hfuel)
    replace hfuel : es.length < fuel := by
      rw [List.length_cons] at hfuel
      omega
    have he : e.alarm ∉ es.map Scheduler.Entry.alarm := fun hmem =>
      notMem_of_ring hring (by rw [List.map_append]; exact List.mem_append_right _ hmem)
    obtain ⟨htime, hcallback⟩ := hholds e List.mem_cons_self
    have hholds' : ∀ e ∈ es, s.heap.Holds e := fun e he => hholds e (List.mem_cons_of_mem _ he)
    have hahead' : ∀ e ∈ es, now ≤ e.due := fun e he => hahead e (List.mem_cons_of_mem _ he)
    have hle := hahead e List.mem_cons_self
    have hsplit : ∀ e', kept ++ [e'] ++ es = kept ++ e' :: es := fun e' => by
      rw [List.append_assoc, List.singleton_append]
    have hdueIff : s.heap.time e.alarm ≤ s.heap.nticks ↔ e.due = now := by
      rw [BitVec.le_def, htime, hnow]
      omega
    show ∃ t, tickLoop (fuel + 1) (some e.alarm) s = some t ∧ _
    rw [Scheduler.runDue, tickLoop, next_of_ring hring]
    by_cases hdue : e.due = now
    · rw [if_pos hdue, if_pos (hdueIff.mpr hdue)]
      generalize hret : s.heap.callback e.alarm s.ctx = ret
      obtain ⟨nextCallback, ctx⟩ := ret
      have hcall : e.callback s.ctx = (nextCallback.toNat, ctx) := by
        rw [hcallback, idealCallback, hret]
      rw [hcall]
      simp only
      have hzero : nextCallback.toNat = 0 ↔ nextCallback = 0#32 := by
        rw [← BitVec.toNat_inj]
        rfl
      have hcalls' : ∀ l : List α, (s.calls ++ [(e.alarm, s.heap.nticks)]).map (fun c =>
          (c.1, c.2.toNat)) ++ l.map (fun x => (x, now)) =
            s.idealCalls ++ (e.alarm :: l).map fun x => (x, now) := by
        intro l
        rw [List.map_append, List.append_assoc, List.map_singleton, hnow]
        rfl
      by_cases hstop : nextCallback = 0#32
      · rw [if_pos hstop, if_pos (hzero.mpr hstop)]
        have hring' : (altAlarmStop s.heap e.alarm).links.Ring none (pointers (kept ++ es)) := by
          rw [pointers_split] at hring
          have hremoved := hring.remove
          rwa [pointers, pointers, ← List.map_append] at hremoved
        obtain ⟨t, ht, hticked, hctx, hcalls⟩ := ih
          (s := ⟨altAlarmStop s.heap e.alarm, ctx, s.calls ++ [(e.alarm, s.heap.nticks)]⟩)
          hring' hholds' hnow hahead' hfuel
        exact ⟨t, ht, hticked.drop hring, hctx, hcalls.trans (hcalls' _)⟩
      · rw [if_neg hstop, if_neg (mt hzero.mp hstop)]
        obtain ⟨time, htimeEq⟩ : ∃ time, time = Function.update s.heap.time e.alarm
          (s.heap.time e.alarm + nextCallback.zeroExtend 64) := ⟨_, rfl⟩
        have hother : ∀ x, x ≠ e.alarm → time x = s.heap.time x := fun x hx => by
          rw [htimeEq, Function.update_of_ne hx]
        have hself : (time e.alarm).toNat = now + nextCallback.toNat := by
          have hlt := nextCallback.isLt
          rw [htimeEq, Function.update_self, BitVec.toNat_add, BitVec.toNat_setWidth, htime, hdue]
          omega
        have hring' : s.heap.links.Ring none
            (pointers (kept ++ [{ e with due := now + nextCallback.toNat }] ++ es)) := by
          rw [hsplit, pointers_split]
          rw [pointers_split] at hring
          exact hring
        have hrest : ∀ e' ∈ es, Heap.Holds { s.heap with time := time } e' := by
          intro e' he'
          have hne : e'.alarm ≠ e.alarm := fun heq => he (heq ▸ List.mem_map_of_mem he')
          refine ⟨?_, (hholds' e' he').2⟩
          show (time e'.alarm).toNat = e'.due
          rw [hother _ hne]
          exact (hholds' e' he').1
        rw [← htimeEq]
        obtain ⟨t, ht, hticked, hctx, hcalls⟩ := ih
          (s := ⟨{ s.heap with time := time }, ctx, s.calls ++ [(e.alarm, s.heap.nticks)]⟩)
          hring' hrest hnow hahead' hfuel
        exact ⟨t, ht, hticked.keep he rfl hother ⟨hself, hcallback⟩, hctx,
          hcalls.trans (hcalls' _)⟩
    · rw [if_neg hdue, if_neg (mt hdueIff.mp hdue)]
      obtain ⟨t, ht, hticked, hctx, hcalls⟩ :=
        ih ((hsplit e).symm ▸ hring) hholds' hnow hahead' hfuel
      exact ⟨t, ht, hticked.keep he rfl (fun _ _ => rfl) ⟨htime, hcallback⟩, hctx, hcalls⟩

/-! ## Runs -/

/-- The memory `m` holds the alarms of the scheduler `s`. -/
structure Refines (m : State α σ) (s : Scheduler.State α σ) : Prop where
  clock : m.heap.tickRate ≠ 0#32
  now : m.heap.nticks.toNat = s.now
  ring : m.heap.links.Ring none (pointers s.entries)
  holds : ∀ e ∈ s.entries, m.heap.Holds e
  ahead : ∀ e ∈ s.entries, s.now < e.due
  known : ∀ e ∈ s.entries, e.alarm ∈ s.known
  detached : ∀ x ∈ s.known, x ∉ s.entries.map Scheduler.Entry.alarm →
    m.heap.links.Detached (some x)
  ctx : m.ctx = s.ctx
  calls : m.idealCalls = s.calls

/-- An event as the scheduler sees it. -/
def Event.ideal : Event α σ → Scheduler.Event α σ
  | .start x nticks callback => .start x nticks.toNat (idealCallback callback)
  | .stop x => .stop x
  | .tick => .tick

/-- Is it a tick? -/
def Event.isTick (ev : Event α σ) : Bool := ev.ideal.isTick

variable {s' : Scheduler.State α σ} {r : Scheduler.State α σ}

theorem altTick_refines (h : Refines m r) (hwrap : r.now + 1 + 2 ^ 32 < 2 ^ 64)
    (hfuel : r.entries.length < fuel) (hst : Scheduler.step r .tick = some s') :
    ∃ t, altTick fuel m = some t ∧ Refines t s' := by
  obtain rfl := Option.some.inj hst
  have hnow : (m.heap.nticks + 1#64).toNat = r.now + 1 := by
    rw [BitVec.toNat_add, h.now, BitVec.toNat_ofNat]
    omega
  have hahead : ∀ e ∈ r.entries, r.now + 1 ≤ e.due := h.ahead
  have hring : m.heap.links.Ring none (pointers ([] ++ r.entries)) := h.ring
  obtain ⟨t, ht, hticked, hctx, hcalls⟩ := tickLoop_refines
    (s := { m with heap := { m.heap with nticks := m.heap.nticks + 1#64 } })
    hring h.holds hnow hahead hwrap hfuel
  have halarms := Scheduler.runDue_alarms (r.now + 1) r.entries m.ctx
  rw [h.ctx] at hticked hctx hcalls halarms
  have hfirst := h.ring.seg.next_eq
  refine ⟨t, ?_, ?_⟩
  · rw [altTick, ← ht]
    exact congrArg (fun link => tickLoop fuel link _) hfirst
  · refine ⟨?_, ?_, hticked.ring, hticked.holds, Scheduler.runDue_ahead hahead _, ?_, ?_, hctx, ?_⟩
    · rw [hticked.tickRate]
      exact h.clock
    · rw [hticked.nticks]
      exact hnow
    · intro e he
      obtain ⟨e', he', heq⟩ := List.mem_map.mp (halarms.subset (List.mem_map_of_mem he))
      exact heq ▸ h.known e' he'
    · intro x hx hnone
      refine hticked.detached x hnone ?_
      by_cases hreg : x ∈ r.entries.map Scheduler.Entry.alarm
      · exact Or.inl hreg
      · exact Or.inr (h.detached x hx hreg)
    · rw [hcalls]
      exact congrArg (· ++ _) h.calls

/-- A start of an alarm that is not registered. -/
theorem start_refines (h : Refines m r) (hwrap : r.now + 2 ^ 32 < 2 ^ 64) {x : α}
    {nticks : BitVec 32} {callback : σ → BitVec 32 × σ}
    (hst : Scheduler.step r (.start x nticks.toNat (idealCallback callback)) = some s') :
    ∃ heap, altAlarmStart m.heap (some x) nticks callback = .ok heap ∧
      Refines { m with heap := heap } s' := by
  simp only [Scheduler.step] at hst
  split_ifs at hst with hnew
  obtain rfl := Option.some.inj hst
  have hmem : some x ∉ none :: pointers r.entries := by
    intro hmem
    obtain ⟨e, he, heq⟩ :=
      List.mem_map.mp ((List.mem_cons.mp hmem).resolve_left (Option.some_ne_none x))
    exact hnew (Option.some.inj heq ▸ List.mem_map_of_mem he)
  have htime : (nticks.zeroExtend 64 + m.heap.nticks + 1#64).toNat = r.now + nticks.toNat + 1 := by
    have hlt := nticks.isLt
    rw [BitVec.toNat_add, BitVec.toNat_add, BitVec.toNat_setWidth, h.now, BitVec.toNat_ofNat]
    omega
  refine ⟨_, if_pos h.clock, h.clock, h.now, h.ring.insert hmem, ?_, ?_, ?_, ?_, h.ctx, h.calls⟩
  · intro e he
    rcases List.mem_cons.mp he with rfl | he
    · refine ⟨?_, ?_⟩
      · show (Function.update m.heap.time x _ x).toNat = _
        rw [Function.update_self]
        exact htime
      · show _ = idealCallback (Function.update m.heap.callback x callback x)
        rw [Function.update_self]
    · have hne : e.alarm ≠ x := fun heq => hnew (heq ▸ List.mem_map_of_mem he)
      refine ⟨?_, ?_⟩
      · show (Function.update m.heap.time x _ e.alarm).toNat = _
        rw [Function.update_of_ne hne]
        exact (h.holds e he).1
      · show _ = idealCallback (Function.update m.heap.callback x callback e.alarm)
        rw [Function.update_of_ne hne]
        exact (h.holds e he).2
  · intro e he
    rcases List.mem_cons.mp he with rfl | he
    · show r.now < r.now + nticks.toNat + 1
      omega
    · exact h.ahead e he
  · intro e he
    rcases List.mem_cons.mp he with rfl | he
    · exact List.mem_cons_self
    · exact List.mem_cons_of_mem _ (h.known e he)
  · intro y hy hreg
    have hyx : y ≠ x := fun heq => hreg (heq ▸ List.mem_cons_self)
    have hyreg : y ∉ r.entries.map Scheduler.Entry.alarm :=
      fun hy => hreg (List.mem_cons_of_mem _ hy)
    have hold := h.detached y ((List.mem_cons.mp hy).resolve_left hyx) hyreg
    refine hold.insert h.ring ?_ (fun heq => hyx (Option.some.inj heq)) (Option.some_ne_none x)
    intro hmem
    obtain ⟨e, he, heq⟩ :=
      List.mem_map.mp ((List.mem_cons.mp hmem).resolve_left (Option.some_ne_none y))
    exact hyreg (Option.some.inj heq ▸ List.mem_map_of_mem he)

/-- Removing an alarm that is or has been registered takes it out of the list. -/
theorem remove_refines {x : α} (h : Refines m r) (hknown : x ∈ r.known) :
    (m.heap.links.remove (some x)).Ring none (pointers (r.entries.filter fun e => e.alarm ≠ x)) ∧
      (m.heap.links.remove (some x)).Detached (some x) ∧
      ∀ y, y ∉ r.entries.map Scheduler.Entry.alarm → m.heap.links.Detached (some y) →
        (m.heap.links.remove (some x)).Detached (some y) := by
  by_cases hreg : x ∈ r.entries.map Scheduler.Entry.alarm
  · obtain ⟨e, he, rfl⟩ := List.mem_map.mp hreg
    obtain ⟨before, behind, hsplit⟩ := List.append_of_mem he
    have hring := h.ring
    rw [hsplit] at hring
    have hnone := notMem_of_ring hring
    have hfilter : r.entries.filter (fun e' => e'.alarm ≠ e.alarm) = before ++ behind := by
      rw [hsplit, List.filter_append, List.filter_cons_of_neg (by simp), ← List.filter_append,
        List.filter_eq_self]
      intro e' he'
      exact decide_eq_true fun heq => hnone (heq ▸ List.mem_map_of_mem he')
    rw [pointers_split] at hring
    have hremoved := hring.remove
    rw [pointers, pointers, ← List.map_append] at hremoved
    rw [hfilter]
    refine ⟨hremoved, detached_remove hring.next_ne, fun y hy hdetached => ?_⟩
    refine hdetached.remove hring fun hmem => ?_
    rw [← pointers_split, ← hsplit] at hmem
    obtain ⟨e', he', heq⟩ :=
      List.mem_map.mp ((List.mem_cons.mp hmem).resolve_left (Option.some_ne_none y))
    exact hy (Option.some.inj heq ▸ List.mem_map_of_mem he')
  · -- a second `alt_alarm_stop`
    have hdetached := h.detached x hknown hreg
    have hfilter : r.entries.filter (fun e => e.alarm ≠ x) = r.entries := by
      rw [List.filter_eq_self]
      exact fun e he => decide_eq_true fun heq => hreg (heq ▸ List.mem_map_of_mem he)
    rw [remove_of_detached hdetached, hfilter]
    exact ⟨h.ring, hdetached, fun y _ hy => hy⟩

theorem stop_refines (h : Refines m r) {x : α} (hst : Scheduler.step r (.stop x) = some s') :
    Refines { m with heap := altAlarmStop m.heap x } s' := by
  simp only [Scheduler.step] at hst
  split_ifs at hst with hknown
  obtain rfl := Option.some.inj hst
  obtain ⟨hring, hself, hothers⟩ := remove_refines h hknown
  refine ⟨h.clock, h.now, hring, fun e he => h.holds e (List.mem_of_mem_filter he),
    fun e he => h.ahead e (List.mem_of_mem_filter he),
    fun e he => h.known e (List.mem_of_mem_filter he), fun y hy hnone => ?_, h.ctx, h.calls⟩
  by_cases hyx : y = x
  · exact hyx ▸ hself
  · have hreg : y ∉ r.entries.map Scheduler.Entry.alarm := by
      intro hmem
      obtain ⟨e, he, rfl⟩ := List.mem_map.mp hmem
      exact hnone (List.mem_map_of_mem (List.mem_filter.mpr ⟨he, decide_eq_true hyx⟩))
    exact hothers y hreg (h.detached y hy hreg)

/-- The ideal scheduler at the time of `m`, without alarms. -/
def State.ideal (m : State α σ) : Scheduler.State α σ := ⟨m.heap.nticks.toNat, [], [], m.ctx, []⟩

/-- A HAL with a clock and an empty list. -/
structure State.Fresh (m : State α σ) : Prop where
  clock : m.heap.tickRate ≠ 0#32
  empty : m.heap.links.Detached none
  calls : m.calls = []

/-- A HAL whose clock has just been initialised. -/
def State.reset (tickRate : BitVec 32) (ctx : σ) : State α σ :=
  ⟨⟨tickRate, 0#64, ⟨id, id⟩, fun _ => 0#64, fun _ a => (0#32, a)⟩, ctx, []⟩

omit [DecidableEq α] in
theorem fresh_reset {tickRate : BitVec 32} (h : tickRate ≠ 0#32) (ctx : σ) :
    (State.reset tickRate ctx : State α σ).Fresh :=
  ⟨h, ⟨rfl, rfl⟩, rfl⟩

omit [DecidableEq α] in
theorem refines_ideal (h : m.Fresh) : Refines m m.ideal where
  clock := h.clock
  now := rfl
  ring := ⟨h.empty, List.nodup_singleton _⟩
  holds := fun _ he => absurd he List.not_mem_nil
  ahead := fun _ he => absurd he List.not_mem_nil
  known := fun _ he => absurd he List.not_mem_nil
  detached := fun _ hx => absurd hx List.not_mem_nil
  ctx := rfl
  calls := by rw [State.idealCalls, h.calls]; rfl

/-- As long as no alarm is started while it is registered and none is stopped
    that was never started, every run of the alarm functions on the linked list
    is a run of the ideal scheduler: no tick gets lost in the list, and every
    callback is made in the very tick in which it is due. `_alt_nticks` must not
    wrap round. -/
theorem alarms_refine (hm : m.Fresh) {es : List (Event α σ)} (hfuel : es.length < fuel)
    (hwrap : m.heap.nticks.toNat + es.countP Event.isTick + 2 ^ 32 < 2 ^ 64)
    (hs : exec Scheduler.step m.ideal (es.map Event.ideal) = some s') :
    ∃ t, exec (step fuel) m es = some t ∧ Refines t s' ∧
      s'.now = m.heap.nticks.toNat + es.countP Event.isTick ∧ s'.entries.length ≤ es.length := by
  induction es using List.reverseRecOn generalizing s' with
  | nil =>
    obtain rfl := Option.some.inj hs
    exact ⟨m, rfl, refines_ideal hm, rfl, le_rfl⟩
  | append_singleton es e ih =>
    rw [List.map_append, List.map_singleton] at hs
    obtain ⟨r, hr, hrs⟩ := exec_concat_eq_some_iff.mp hs
    rw [List.length_append, List.length_singleton] at hfuel ⊢
    rw [List.countP_append, List.countP_singleton] at hwrap ⊢
    obtain ⟨t, ht, href, hnow, hlen⟩ := ih (by omega) (by omega) hr
    obtain ⟨hnow', hlen'⟩ := Scheduler.step_now hrs
    have hroom : r.entries.length < fuel := by omega
    have hend : s'.now = m.heap.nticks.toNat + (es.countP Event.isTick +
        if e.isTick then 1 else 0) ∧ s'.entries.length ≤ es.length + 1 := by
      rw [hnow', hnow, Nat.add_assoc]
      exact ⟨rfl, by omega⟩
    cases e with
    | start x nticks callback =>
      obtain ⟨heap, hheap, href'⟩ := start_refines href (by omega) hrs
      exact ⟨_, exec_concat_eq_some_iff.mpr ⟨t, ht, by rw [step, hheap]⟩, href', hend⟩
    | stop x =>
      exact ⟨_, exec_concat_eq_some_iff.mpr ⟨t, ht, rfl⟩, stop_refines href hrs, hend⟩
    | tick =>
      have hnext : r.now + 1 + 2 ^ 32 < 2 ^ 64 := by
        rw [hnow, Nat.add_assoc _ _ 1]
        exact hwrap
      obtain ⟨t', ht', href'⟩ := altTick_refines href hnext hroom hrs
      exact ⟨t', exec_concat_eq_some_iff.mpr ⟨t, ht, ht'⟩, href', hend⟩

/-- Two alarms, one of which gives up after its first call. -/
theorem alarms_refine_two : ∃ (t : State Bool ℕ) (s' : Scheduler.State Bool ℕ),
    s'.calls = [(false, 2), (true, 2), (true, 4)] ∧
    exec (step 7) (State.reset 1000#32 0) [.start true 1#32 fun a => (2#32, a + 1),
      .start false 1#32 fun a => (0#32, a), .tick, .tick, .tick, .tick] = some t ∧
    Refines t s' := by
  have hrun : (exec Scheduler.step (State.reset 1000#32 0 : State Bool ℕ).ideal
      ([Event.start true 1#32 fun a => (2#32, a + 1), .start false 1#32 fun a => (0#32, a), .tick,
        .tick, .tick, .tick].map Event.ideal)).map (fun s => s.calls) =
      some [(false, 2), (true, 2), (true, 4)] := rfl
  obtain ⟨s', hs, hcalls⟩ := Option.map_eq_some_iff.mp hrun
  obtain ⟨t, ht, href, -⟩ :=
    alarms_refine (fresh_reset (by decide) 0) (by decide : _ < 7) (by decide) hs
  exact ⟨t, s', hcalls, ht, href⟩

/-! ## Periodic alarms -/

/-- The ticks in which the callback of `x` was called. -/
def State.callsOf (s : State α σ) (x : α) : List ℕ :=
  (s.idealCalls.filter fun c => c.1 = x).map Prod.snd

theorem Refines.callsOf (h : Refines m r) (x : α) : m.callsOf x = r.callsOf x := by
  rw [State.callsOf, h.calls]
  rfl

/-- An alarm started at tick `T` with `n` ticks to go, whose callback always asks
    for `p` ticks more, is called at `T + n + 1`, `T + n + 1 + p`,
    `T + n + 1 + 2 * p` and so on, and at no other tick, as long as it is not
    stopped: other alarms, also when they come and go, do not delay it. -/
theorem periodic_alarm (hm : m.Fresh) {es es' : List (Event α σ)} {x : α} {n p : BitVec 32}
    {callback : σ → BitVec 32 × σ} (hp : p ≠ 0#32) (hperiod : ∀ a, (callback a).1 = p)
    (hother : ∀ ev ∈ es', ev.ideal.alarm? ≠ some x)
    (hs : exec Scheduler.step m.ideal ((es ++ .start x n callback :: es').map Event.ideal) = some s')
    (hfuel : es.length + es'.length + 1 < fuel)
    (hwrap : m.heap.nticks.toNat + es.countP Event.isTick + es'.countP Event.isTick + 2 ^ 32 <
      2 ^ 64) :
    ∃ r t, exec (step fuel) m (es ++ [.start x n callback]) = some r ∧
      exec (step fuel) r es' = some t ∧
      ∃ k, t.callsOf x = r.callsOf x ++ ((List.range k).map fun j =>
          r.heap.nticks.toNat + n.toNat + 1 + j * p.toNat) ∧
        ∀ j, j < k ↔ r.heap.nticks.toNat + n.toNat + 1 + j * p.toNat ≤ t.heap.nticks.toNat := by
  have hlist : es ++ .start x n callback :: es' = es ++ [Event.start x n callback] ++ es' := by
    rw [List.append_assoc, List.singleton_append]
  have hlen : (es ++ [Event.start x n callback]).length = es.length + 1 := by
    rw [List.length_append, List.length_singleton]
  have hlen' : (es ++ [Event.start x n callback] ++ es').length = es.length + 1 + es'.length := by
    rw [List.length_append, hlen]
  have hticks : (es ++ [Event.start x n callback]).countP Event.isTick = es.countP Event.isTick := by
    rw [List.countP_append]
    rfl
  have hticks' : (es ++ [Event.start x n callback] ++ es').countP Event.isTick =
      es.countP Event.isTick + es'.countP Event.isTick := by
    rw [List.countP_append, hticks]
  have hfuel' : (es ++ [Event.start x n callback] ++ es').length < fuel := by omega
  rw [hlist] at hs
  obtain ⟨t, ht, hreft, -⟩ := alarms_refine hm hfuel' (by omega) hs
  rw [List.map_append, exec_append] at hs
  obtain ⟨r', hr', hrs⟩ := Option.bind_eq_some_iff.mp hs
  have hfuel'' : (es ++ [Event.start x n callback]).length < fuel := by omega
  obtain ⟨r, hr, href, -⟩ := alarms_refine hm hfuel'' (by omega) hr'
  rw [exec_append, hr] at ht
  refine ⟨r, t, hr, ht, ?_⟩
  have hmem : (⟨x, r'.now + n.toNat + 1, idealCallback callback⟩ : Scheduler.Entry α σ) ∈
      r'.entries := by
    rw [List.map_append, List.map_singleton] at hr'
    obtain ⟨q, -, hq⟩ := exec_concat_eq_some_iff.mp hr'
    simp only [Event.ideal, Scheduler.step] at hq
    split_ifs at hq
    obtain rfl := Option.some.inj hq
    exact List.mem_cons_self
  have hnodup : (r'.entries.map Scheduler.Entry.alarm).Nodup := by
    have hnodup := (List.nodup_cons.mp href.ring.nodup).2
    have hmap : pointers r'.entries = (r'.entries.map Scheduler.Entry.alarm).map some := by
      rw [pointers, List.map_map]
      rfl
    rw [hmap] at hnodup
    exact List.Nodup.of_map some hnodup
  have hp' : p.toNat ≠ 0 := fun hz => hp (BitVec.eq_of_toNat_eq hz)
  have hother' : ∀ ev ∈ es'.map Event.ideal, ev.alarm? ≠ some x := by
    intro ev hev
    obtain ⟨ev', hev', rfl⟩ := List.mem_map.mp hev
    exact hother ev' hev'
  rw [hreft.callsOf, href.callsOf, href.now, hreft.now]
  refine Scheduler.periodic hp' (fun a => congrArg BitVec.toNat (hperiod a)) hnodup hmem ?_ hother' hrs
  show r'.now < r'.now + n.toNat + 1
  omega

/-- The two alarms again. -/
theorem periodic_alarm_two : ∃ r t : State Bool ℕ,
    exec (step 7) (State.reset 1000#32 0) ([.start false 1#32 fun a => (0#32, a)] ++
      [.start true 1#32 fun a => (2#32, a + 1)]) = some r ∧
    exec (step 7) r (List.replicate 4 .tick) = some t ∧
    ∃ k, t.callsOf true = r.callsOf true ++ ((List.range k).map fun j =>
        r.heap.nticks.toNat + (1#32).toNat + 1 + j * (2#32).toNat) ∧
      ∀ j, j < k ↔ r.heap.nticks.toNat + (1#32).toNat + 1 + j * (2#32).toNat ≤
        t.heap.nticks.toNat := by
  have hrun : (exec Scheduler.step (State.reset 1000#32 0 : State Bool ℕ).ideal
      (([Event.start false 1#32 fun a => (0#32, a)] ++ (Event.start true 1#32 fun a =>
        (2#32, a + 1)) :: List.replicate 4 .tick).map Event.ideal)).isSome = true := rfl
  obtain ⟨s', hs⟩ := Option.isSome_iff_exists.mp hrun
  have hother : ∀ ev ∈ List.replicate 4 (Event.tick : Event Bool ℕ),
      ev.ideal.alarm? ≠ some true := by
    intro ev hev
    rw [List.eq_of_mem_replicate hev]
    exact (Option.some_ne_none true).symm
  exact periodic_alarm (fresh_reset (by decide) 0) (by decide) (fun _ => rfl) hother hs
    (by decide) (by decide)

/-! ## The list of times -/

omit [DecidableEq α] in
/-- With one callback for all alarms the loop on the list of times is the same
    scheduler. -/
theorem processAlarms_eq {callback : σ → BitVec 32 × σ} {now : BitVec 64}
    (hwrap : now.toNat + 2 ^ 32 < 2 ^ 64) {times : List (BitVec 64)}
    (hcallback : ∀ e ∈ es, e.callback = idealCallback callback)
    (htimes : times.map BitVec.toNat = es.map Scheduler.Entry.due)
    (hahead : ∀ e ∈ es, now.toNat ≤ e.due) (a : σ) :
    (processAlarms callback now times a).1.map BitVec.toNat =
        (Scheduler.runDue now.toNat es a).1.map Scheduler.Entry.due ∧
      (processAlarms callback now times a).2 = (Scheduler.runDue now.toNat es a).2.1 := by
  induction es generalizing times a with
  | nil =>
    obtain rfl := List.map_eq_nil_iff.mp htimes
    exact ⟨rfl, rfl⟩
  | cons e es ih =>
    obtain ⟨time, times, rfl, htime, htimes⟩ := List.map_eq_cons_iff.mp htimes
    have hcallback' : ∀ e ∈ es, e.callback = idealCallback callback :=
      fun e he => hcallback e (List.mem_cons_of_mem _ he)
    have hahead' : ∀ e ∈ es, now.toNat ≤ e.due := fun e he => hahead e (List.mem_cons_of_mem _ he)
    have hle := hahead e List.mem_cons_self
    have hdueIff : time ≤ now ↔ e.due = now.toNat := by
      rw [BitVec.le_def, htime]
      omega
    rw [processAlarms, Scheduler.runDue, hcallback e List.mem_cons_self]
    by_cases hdue : e.due = now.toNat
    · rw [if_pos (hdueIff.mpr hdue), if_pos hdue]
      rw [idealCallback]
      generalize callback a = ret
      obtain ⟨nextCallback, a⟩ := ret
      obtain ⟨hentries, hctx⟩ := ih hcallback' htimes hahead' a
      have hzero : nextCallback.toNat = 0 ↔ nextCallback = 0#32 := by
        rw [← BitVec.toNat_inj]
        rfl
      have hnext : (time + nextCallback.zeroExtend 64).toNat = now.toNat + nextCallback.toNat := by
        have hlt := nextCallback.isLt
        rw [BitVec.toNat_add, BitVec.toNat_setWidth, htime, hdue]
        omega
      simp only
      by_cases hstop : nextCallback = 0#32
      · rw [if_pos hstop, if_pos (hzero.mpr hstop)]
        exact ⟨hentries, hctx⟩
      · rw [if_neg hstop, if_neg (mt hzero.mp hstop)]
        exact ⟨congrArg₂ List.cons hnext hentries, hctx⟩
    · rw [if_neg (mt hdueIff.mp hdue), if_neg hdue]
      obtain ⟨hentries, hctx⟩ := ih hcallback' htimes hahead' a
      exact ⟨congrArg₂ List.cons htime hentries, hctx⟩

end NiosvCodesign.Firmware.Alarms

import NiosvCodesign.Firmware.DriverClock

/-!
# How a call of `write` gets on

A blocking call of `write` by a program whose driver comes before the clock. It
ends when it has handed over all of its characters, and waits only for room in
the ring.

* `writes_step`: a step of the call keeps what it was given together.
* `write_progress`: unless it waits on a full ring, it either puts characters into
  the ring or comes closer to doing so.
* `cpuStep_wait`: how `write` comes to its wait.
-/

namespace NiosvCodesign.Firmware.Driver

open UartState

variable {c : Core} {s t : Port}

/-- A blocking call of `write`. -/
def Call.writes : Call → Bool
  | .copy w | .store w _ | .advance w _ _ | .kick w | .test w | .wait w | .after w
  | .writeRet w => !w.nonblock
  | _ => false

/-- What it has still to put into the ring. -/
def Call.unsent : Call → Text
  | .copy w | .store w _ | .kick w | .test w | .wait w | .after w | .writeRet w => w.data
  | .advance w _ chars => chars ++ w.data
  | _ => []

theorem writes_live {call : Call} (h : call.writes = true) : call.live = true := by
  cases call with
  | off => exact absurd h Bool.false_ne_true
  | _ => rfl

/-- A step within the call. -/
theorem writes_step (hwrites : s.call.writes = true) (hret : ∀ w, s.call ≠ .writeRet w)
    (hst : cpuStep s = some t) : t.call.writes = true ∧
      t.call.sent ++ t.call.unsent = s.call.sent ++ s.call.unsent := by
  have hstep := CallStep.of_cpuStep hst
  obtain ⟨hal, uart, device, call⟩ := s
  cases hstep with
  | @store w inn n hn hne =>
    refine ⟨hwrites, ?_⟩
    show w.sent ++ (w.data.take n ++ w.data.drop n) = w.sent ++ w.data
    rw [List.take_append_drop]
  | @advance w inn chars => exact ⟨hwrites, List.append_assoc _ _ _⟩
  | writeRet => exact absurd rfl (hret _)
  | copied => exact ⟨hwrites, rfl⟩
  | load => exact ⟨hwrites, rfl⟩
  | noSpace => exact ⟨hwrites, rfl⟩
  | kick => exact ⟨hwrites, rfl⟩
  | done => exact ⟨hwrites, rfl⟩
  | block => exact ⟨hwrites, rfl⟩
  | spin => exact ⟨hwrites, rfl⟩
  | goOn => exact ⟨hwrites, rfl⟩
  | giveUp => exact ⟨hwrites, rfl⟩
  | again => exact ⟨hwrites, rfl⟩
  | _ => exact absurd hwrites Bool.false_ne_true

/-- It never gets stuck. -/
theorem writes_isSome (hwrites : s.call.writes = true) : (cpuStep s).isSome = true := by
  obtain ⟨hal, uart, device, call⟩ := s
  cases call with
  | copy w =>
    simp only [cpuStep]
    split_ifs <;> rfl
  | store w inn =>
    simp only [cpuStep]
    split_ifs <;> rfl
  | wait w =>
    simp only [cpuStep]
    split_ifs <;> rfl
  | advance w inn chars => rfl
  | kick w => rfl
  | test w => rfl
  | after w => rfl
  | writeRet w => rfl
  | _ => exact absurd hwrites Bool.false_ne_true

/-- Before its return it has taken nothing over. -/
theorem observe_of_writes (hwrites : s.call.writes = true) (hret : ∀ w, s.call ≠ .writeRet w)
    (h : Traffic) : observe h s .cpu = h := by
  unfold observe
  simp only
  split
  case h_1 r hcall =>
    rw [hcall] at hwrites
    exact absurd hwrites Bool.false_ne_true
  case h_2 w hcall => exact absurd hcall (hret w)
  case h_3 => rfl

theorem observe_writeRet {w : WriteCall} (hret : s.call = .writeRet w) (h : Traffic) :
    observe h s .cpu = { h with accepted := h.accepted ++ w.sent } := by
  unfold observe
  rw [hret]

/-- What a call of `write` returns when it has handed over its characters. -/
theorem Unclocked.result (h : Unclocked s) {w : WriteCall} (hcall : s.call = .writeRet w)
    (hwrites : s.call.writes = true) (hne : s.call.sent ++ s.call.unsent ≠ []) :
    w.data = [] ∧ w.result = .ok w.sent.length := by
  have hcomplete := h.complete
  rw [hcall] at hcomplete hwrites hne
  replace hwrites : (!w.nonblock) = true := hwrites
  have hdata : w.data = [] := hcomplete (by simpa using hwrites)
  replace hne : w.sent ++ w.data ≠ [] := hne
  rw [hdata, List.append_nil] at hne
  exact ⟨hdata, WriteCall.result_eq_ok_iff.mpr ⟨hne, rfl⟩⟩

/-- No step of a call touches the FIFOs of the core. -/
theorem cpuStep_fifos (hst : cpuStep s = some t) :
    t.device.txFifo = s.device.txFifo ∧ t.device.rxFifo = s.device.rxFifo := by
  have hstep := CallStep.of_cpuStep hst
  obtain ⟨hal, uart, device, call⟩ := s
  cases hstep <;> exact ⟨rfl, rfl⟩

/-- No step of a call turns the write interrupt off. -/
theorem cpuStep_we (hwe : s.uart.irqEnable.we = true) (hst : cpuStep s = some t) :
    t.uart.irqEnable.we = true := by
  have hstep := CallStep.of_cpuStep hst
  obtain ⟨hal, uart, device, call⟩ := s
  cases hstep with
  | kick => rfl
  | _ => exact hwe

/-- How far the call is from putting more characters into the ring, or from its
    return. -/
def Port.rank (s : Port) : ℕ :=
  match s.call with
  | .copy w => if w.data = [] then 24 else if s.uart.RingFull then 13 else 7
  | .kick w => if w.data = [] then 23 else 11
  | .test w => if w.data = [] then 22 else 10
  | .store w inn => if txSpace inn w.out = 0 then 12 else 6
  | .advance _ _ _ => 5
  | .wait _ => 9
  | .after _ => 8
  | _ => 21

theorem rank_le (s : Port) : s.rank ≤ 24 := by
  unfold Port.rank
  split <;> (try split_ifs) <;> norm_num

/-- The interrupt routine does not take the call away from it. -/
theorem rank_le_of_irqEffect (hring : s.uart.RingOk) {uart : UartState} {device : Device}
    (hring' : uart.RingOk) (heff : IrqEffect s.uart uart s.device device) :
    Port.rank { s with uart := uart, device := device } ≤ s.rank := by
  have hroom := heff.not_ringFull hring hring'
  obtain ⟨hal, uart₀, device₀, call⟩ := s
  cases call with
  | copy w =>
    unfold Port.rank
    simp only
    split_ifs with h1 h2 h3 h3
    · exact le_rfl
    · exact le_rfl
    · exact absurd h2 (hroom h3)
    · norm_num
    · exact le_rfl
  | _ => exact Nat.le_refl _

/-- A step of the call puts characters into the ring, or brings it closer to doing
    so, or spins. -/
theorem write_progress (hinv : Inv c s) (hclock : Unclocked s) (hwrites : s.call.writes = true)
    (hret : ∀ w, s.call ≠ .writeRet w) (hspin : ¬ s.Spinning) (hst : cpuStep s = some t) :
    (t.call.unsent = s.call.unsent ∧ t.uart.ring = s.uart.ring ∧ t.rank < s.rank) ∨
      ∃ k, 0 < k ∧ t.call.unsent.length + k = s.call.unsent.length ∧
        t.uart.ring.length = s.uart.ring.length + k := by
  have hstep := CallStep.of_cpuStep hst
  have hcall := hinv.call
  have hring := hinv.ok.ring
  have hcomplete := hclock.complete
  have hpresent := hclock.present
  obtain ⟨hal, uart, device, call⟩ := s
  replace hring : uart.RingOk := hring
  cases hstep with
  | copied hdata =>
    refine Or.inl ⟨rfl, rfl, ?_⟩
    unfold Port.rank
    simp only [hdata, if_true]
    norm_num
  | @load w hdata =>
    have hfull : txSpace uart.txIn uart.txOut = 0 ↔ uart.RingFull :=
      txSpace_eq_zero_iff hring.1 hring.2
    refine Or.inl ⟨rfl, rfl, ?_⟩
    unfold Port.rank
    simp only [hdata, if_false, hfull]
    split_ifs <;> norm_num
  | noSpace hspace =>
    obtain ⟨-, -, hdata, -⟩ := hcall
    refine Or.inl ⟨rfl, rfl, ?_⟩
    unfold Port.rank
    simp only [hdata, hspace, if_true, if_false]
    norm_num
  | @store w inn n hn hne =>
    obtain ⟨hin, hout, hdata, hold⟩ := hcall
    replace hin : inn = uart.txIn := hin
    subst hin
    replace hold : uart.ring.length ≤ RingBuffer.dist bufLen uart.txIn w.out := hold
    obtain ⟨hroom, -⟩ := txSpace_le hring.1 hout
    have hlen : (w.data.take n).length ≤ n := List.length_take_le _ _
    refine Or.inl ⟨List.take_append_drop n w.data, ring_copyIn hring (by omega), ?_⟩
    subst hn
    unfold Port.rank
    simp only [if_neg hne]
    norm_num
  | @advance w inn chars =>
    obtain ⟨hin, hne, hroom, hblock, hcopied⟩ := hcall
    replace hin : inn = uart.txIn := hin
    subst hin
    refine Or.inr ⟨chars.length, List.length_pos_iff.mpr hne, ?_, ?_⟩
    · show w.data.length + chars.length = (chars ++ w.data).length
      rw [List.length_append, Nat.add_comm]
    · rw [advance_ring hring hroom hblock hcopied, List.length_append]
  | kick =>
    refine Or.inl ⟨rfl, rfl, ?_⟩
    unfold Port.rank
    simp only
    split_ifs <;> norm_num
  | @done w hstop =>
    have hdata : w.data = [] := by
      refine hstop.resolve_right fun hnonblock => ?_
      replace hwrites : (!w.nonblock) = true := hwrites
      rw [hnonblock] at hwrites
      exact Bool.false_ne_true hwrites
    refine Or.inl ⟨rfl, rfl, ?_⟩
    unfold Port.rank
    simp only [hdata, if_true]
    norm_num
  | block hdata =>
    refine Or.inl ⟨rfl, rfl, ?_⟩
    unfold Port.rank
    simp only [hdata, if_false]
    norm_num
  | @spin w hout hlt => exact absurd ⟨w, rfl, hout, hlt⟩ hspin
  | goOn => exact Or.inl ⟨rfl, rfl, (show 8 < 9 by norm_num)⟩
  | giveUp hinactive => exact absurd hpresent hinactive
  | @again w hinactive =>
    -- the wait has ended because there is room
    obtain ⟨hdata, hroom⟩ := hcomplete
    refine Or.inl ⟨rfl, rfl, ?_⟩
    unfold Port.rank
    simp only [hdata, hroom, if_false]
    norm_num
  | writeRet => exact absurd rfl (hret _)
  | _ => exact absurd hwrites Bool.false_ne_true

/-- `write` comes to its wait from the test with characters left over, or has been
    waiting. -/
theorem cpuStep_wait {w : WriteCall} (hst : cpuStep s = some t) (hcall : t.call = .wait w) :
    (s.call = .test w ∧ w.data ≠ [] ∧ t = { s with call := .wait w }) ∨
      (s.call = .wait w ∧ t = s) := by
  have hstep := CallStep.of_cpuStep hst
  obtain ⟨hal, uart, device, call⟩ := s
  cases hstep with
  | block hdata =>
    obtain rfl := Call.wait.inj hcall
    exact Or.inl ⟨rfl, hdata, rfl⟩
  | spin => exact Or.inr ⟨hcall, rfl⟩
  | @readAdvance r r' out chars hr =>
    replace hcall : (if 0 < r'.space then Call.readLoad r' else .readCheck r') = .wait w := hcall
    split_ifs at hcall
  | _ => exact Call.noConfusion hcall

end NiosvCodesign.Firmware.Driver

import NiosvCodesign.Firmware.Main

/-!
# The LED control law

Each iteration of `main` writes the LED (main.c:76-82): `KEY[0]` forces it on,
`KEY[1]` forces it off, otherwise it shows the blink bit. The buttons reach the
LED there and nowhere else.

* `ledWrite_eq`: the written value as a function of the button word of the
  same iteration and of the blink bit.
* `ledWrite_control_law`: two runs that differ in their button words only have
  the same blink phase, and a run in which no button is ever held is the
  reference for every other one.
-/

namespace NiosvCodesign.Firmware

/-- Neither button is held: both active-low bits read 1. The other bits of the
    word are not constrained. -/
def Poll.NoKeyHeld (p : Poll) : Prop := p.button.getLsbD 0 = true ∧ p.button.getLsbD 1 = true

/-! ## The written value -/

/-- The LED write in terms of the raw button word of the same iteration. -/
theorem ledWrite_eq (tps : BitVec 32) (poll : ℕ → Poll) (n : ℕ) :
    ledWrite tps poll n =
      if (poll n).button.getLsbD 0 = false then 1
      else if (poll n).button.getLsbD 1 = false then 0
      else (mainRun tps poll n).blink := by
  simp only [ledWrite, ledValue, mainRun_keys, key0_pressed_iff, key1_pressed_iff]

theorem ledWrite_of_noKeyHeld (tps : BitVec 32) {poll : ℕ → Poll} {n : ℕ}
    (h : (poll n).NoKeyHeld) : ledWrite tps poll n = (mainRun tps poll n).blink := by
  rw [ledWrite_eq, h.1, h.2]; rfl

/-- **LED control law.** Let two runs read the same switch words and the same
    ticks. Then blink bit, `last_toggle` and the switch value behind the half
    period agree at every iteration, and that switch value is the current
    sample. If moreover no button is ever held in the second run, the LED value
    written in each iteration of the first is 1 while `KEY[0]` is held,
    otherwise 0 while `KEY[1]` is held, otherwise what the second run writes in
    the same iteration. -/
theorem ledWrite_control_law (tps : BitVec 32) (poll poll' : ℕ → Poll)
    (hd : ∀ k, (poll' k).dipsw = (poll k).dipsw) (ht : ∀ k, (poll' k).nticks = (poll k).nticks) :
    (∀ k, (mainRun tps poll' k).blink = (mainRun tps poll k).blink ∧
      (mainRun tps poll' k).lastToggle = (mainRun tps poll k).lastToggle ∧
      (mainRun tps poll' k).dipsw = (mainRun tps poll k).dipsw ∧
      (mainRun tps poll k).dipsw = readDipsw (poll k).dipsw) ∧
    ((∀ k, (poll' k).NoKeyHeld) → ∀ k, ledWrite tps poll (k + 1) =
      if (poll (k + 1)).button.getLsbD 0 = false then 1
      else if (poll (k + 1)).button.getLsbD 1 = false then 0
      else ledWrite tps poll' (k + 1)) := by
  constructor
  · intro k
    obtain ⟨hb, hl⟩ := mainRun_blink_congr tps hd ht k
    refine ⟨hb, hl, ?_, mainRun_dipsw tps poll k⟩
    rw [mainRun_dipsw, mainRun_dipsw, hd]
  · intro hidle k
    rw [ledWrite_eq, ledWrite_of_noKeyHeld tps (hidle (k + 1)),
      (mainRun_blink_congr tps hd ht (k + 1)).1]

/-- 60 ticks from iteration to iteration, and `KEY[0]` and `KEY[1]` held in turn. -/
def mixedPoll (k : ℕ) : Poll where
  dipsw := 0#32
  button := if k % 3 = 1 then 0b10#32 else if k % 3 = 2 then 0b01#32 else 0b11#32
  nticks := BitVec.ofNat 64 (60 * k)

/-- The same without a key. -/
def idlePoll (k : ℕ) : Poll := { mixedPoll k with button := 0b11#32 }

/-- In the iterations 3, 6 and 9 the LED shows the blink bit, which has changed in
    between. -/
theorem ledWrite_control_law_mixed :
    ((∀ k, (mainRun 1000 idlePoll k).blink = (mainRun 1000 mixedPoll k).blink ∧
      (mainRun 1000 idlePoll k).lastToggle = (mainRun 1000 mixedPoll k).lastToggle ∧
      (mainRun 1000 idlePoll k).dipsw = (mainRun 1000 mixedPoll k).dipsw ∧
      (mainRun 1000 mixedPoll k).dipsw = readDipsw 0) ∧
    (∀ k, ledWrite 1000 mixedPoll (k + 1) =
      if (mixedPoll (k + 1)).button.getLsbD 0 = false then 1
      else if (mixedPoll (k + 1)).button.getLsbD 1 = false then 0
      else ledWrite 1000 idlePoll (k + 1))) ∧
    (List.range 9).map (fun k => ledWrite 1000 mixedPoll (k + 1)) =
      [1, 0, 1, 1, 0, 1, 1, 0, 0] := by
  have hidle : ∀ k, (idlePoll k).NoKeyHeld := by
    intro k
    show (0b11#32).getLsbD 0 = true ∧ (0b11#32).getLsbD 1 = true
    decide
  have h := ledWrite_control_law 1000 mixedPoll idlePoll (fun _ => rfl) (fun _ => rfl)
  exact ⟨⟨h.1, h.2 hidle⟩, by decide +kernel⟩

end NiosvCodesign.Firmware

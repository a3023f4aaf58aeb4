import NiosvCodesign.Hdl.Top

/-!
# Mutual isolation of the two processors

Two runs of the top level side by side. With the same Nios V system and the
same board inputs, but arbitrarily different HPS systems and JTAG reset
requests, the whole Nios V side is the same at every cycle; and the other way
round.

* `SameNiosvSide.step`, `SameHpsSide.step`: one edge keeps the agreement.
* `mutual_isolation`: both directions over whole runs, and the PLL reset.
-/

namespace NiosvCodesign.Top

variable {hps hps' : SocSystem} {nv nv' : NiosvSystem}

/-! ## What each side sees -/

/-- Everything on the Nios V side during one cycle: the power-on reset, the
    conditioned inputs, both resets, the system itself and the LED pin. -/
structure NiosvSide (nv : NiosvSystem) where
  fpgaPorSr : BitVec 4
  dipswSync : BitVec 4
  counter : Debounce.Counters debounceInst
  debouncedButtons : BitVec 2
  input : NiosvIn
  system : nv.State
  output : NiosvOut
  led : Bool

/-- The Nios V side of a state. -/
def State.niosvSide (s : State hps nv) : NiosvSide nv where
  fpgaPorSr := s.regs.fpgaPorSr
  dipswSync := s.regs.dipswSync
  counter := s.regs.counter
  debouncedButtons := s.regs.debouncedButtons
  input := s.niosvIn
  system := s.niosv
  output := s.niosvOut
  led := s.led

/-- Everything on the HPS side during one cycle: all inputs of the HPS (reset
    requests, STM events, PIO inputs, `in_reset`), the system and its outputs. -/
structure HpsSide (hps : SocSystem) where
  input : SocIn
  system : hps.State
  output : SocOut

/-- The HPS side of a state. -/
def State.hpsSide (s : State hps nv) : HpsSide hps where
  input := s.socIn
  system := s.soc
  output := s.socOut

/-! ## The Nios V side does not depend on the HPS -/

/-- Agreement on the registers the Nios V side is computed from. -/
structure SameNiosvSide (s : State hps nv) (t : State hps' nv) : Prop where
  fpgaPorSr : s.regs.fpgaPorSr = t.regs.fpgaPorSr
  keyMeta : s.regs.keyMeta = t.regs.keyMeta
  keySync : s.regs.keySync = t.regs.keySync
  dipswMeta : s.regs.dipswMeta = t.regs.dipswMeta
  dipswSync : s.regs.dipswSync = t.regs.dipswSync
  counter : s.regs.counter = t.regs.counter
  niosv : s.niosv = t.niosv

namespace SameNiosvSide

variable {s : State hps nv} {t : State hps' nv}

theorem fpgaResetN (h : SameNiosvSide s t) : s.regs.fpgaResetN = t.regs.fpgaResetN := by
  unfold Regs.fpgaResetN
  rw [h.fpgaPorSr]

theorem debouncedButtons (h : SameNiosvSide s t) :
    s.regs.debouncedButtons = t.regs.debouncedButtons := by
  unfold Regs.debouncedButtons
  rw [h.counter]

theorem niosvOut (h : SameNiosvSide s t) : s.niosvOut = t.niosvOut := by
  unfold State.niosvOut Regs.niosvFreeIn
  rw [h.niosv, h.fpgaResetN, h.dipswSync, h.debouncedButtons]

theorem niosvIn (h : SameNiosvSide s t) : s.niosvIn = t.niosvIn := by
  unfold State.niosvIn State.niosvResetN Regs.niosvFreeIn
  rw [h.niosvOut, h.fpgaResetN, h.dipswSync, h.debouncedButtons]

theorem niosvSide (h : SameNiosvSide s t) : s.niosvSide = t.niosvSide := by
  unfold State.niosvSide State.led
  rw [h.fpgaPorSr, h.dipswSync, h.counter, h.debouncedButtons, h.niosvIn, h.niosv, h.niosvOut]

/-- Nothing the HPS drives reaches these registers. -/
theorem step (h : SameNiosvSide s t) {p q : Pins} (hkey : p.key = q.key)
    (hdipsw : p.dipsw = q.dipsw) : SameNiosvSide (s.step p) (t.step q) where
  fpgaPorSr := congrArg (fun r : BitVec 4 => r.shiftConcat true) h.fpgaPorSr
  keyMeta := hkey
  keySync := h.keyMeta
  dipswMeta := hdipsw
  dipswSync := h.dipswMeta
  counter := by
    show Debounce.asyncReset debounceInst _ (Debounce.clock debounceInst _ ⟨_, _⟩) =
      Debounce.asyncReset debounceInst _ (Debounce.clock debounceInst _ ⟨_, _⟩)
    rw [h.fpgaPorSr, h.counter, h.fpgaResetN, h.keySync]
  niosv := by
    show nv.next s.niosv s.niosvIn = nv.next t.niosv t.niosvIn
    rw [h.niosv, h.niosvIn]

end SameNiosvSide

/-! ## The HPS side does not depend on the Nios V -/

/-- Agreement on the registers the HPS side is computed from. -/
structure SameHpsSide (s : State hps nv) (t : State hps nv') : Prop where
  regs : s.regs = t.regs
  soc : s.soc = t.soc

namespace SameHpsSide

variable {s : State hps nv} {t : State hps nv'}

theorem socOut (h : SameHpsSide s t) : s.socOut = t.socOut := by
  unfold State.socOut
  rw [h.soc, h.regs]

theorem socIn (h : SameHpsSide s t) : s.socIn = t.socIn := by
  unfold State.socIn State.stmHwEvents
  rw [h.socOut, h.regs]

theorem hpsSide (h : SameHpsSide s t) : s.hpsSide = t.hpsSide := by
  unfold State.hpsSide
  rw [h.socIn, h.soc, h.socOut]

/-- Nothing the Nios V drives reaches these registers. -/
theorem step (h : SameHpsSide s t) (p : Pins) : SameHpsSide (s.step p) (t.step p) where
  regs := by
    show s.regs.next s.socOut p = t.regs.next t.socOut p
    rw [h.regs, h.socOut]
  soc := by
    show hps.next s.soc s.socIn = hps.next t.soc t.socIn
    rw [h.soc, h.socIn]

end SameHpsSide

/-! ## Whole runs -/

theorem run_sameNiosvSide (hps hps' : SocSystem) (nv : NiosvSystem) {pins pins' : ℕ → Pins}
    (hkey : ∀ m, (pins m).key = (pins' m).key) (hdipsw : ∀ m, (pins m).dipsw = (pins' m).dipsw)
    (n : ℕ) : SameNiosvSide (run hps nv pins n) (run hps' nv pins' n) := by
  refine Clocked.run_rel (R := fun _ s t => SameNiosvSide s t) ?_ ?_ n
  · exact ⟨rfl, rfl, rfl, rfl, rfl, rfl, rfl⟩
  · intro m s t h
    exact h.step (hkey (m + 1)) (hdipsw (m + 1))

theorem run_sameHpsSide (hps : SocSystem) (nv nv' : NiosvSystem) (pins : ℕ → Pins) (n : ℕ) :
    SameHpsSide (run hps nv pins n) (run hps nv' pins n) := by
  refine Clocked.run_rel (R := fun _ s t => SameHpsSide s t) ?_ ?_ n
  · exact ⟨rfl, rfl⟩
  · intro m s t h
    exact h.step (pins (m + 1))

/-- The PLL reset after `n` edges. -/
theorem run_pllRst (hps : SocSystem) (nv : NiosvSystem) (pins : ℕ → Pins) (n : ℕ) :
    (run hps nv pins n).niosvIn.pllRst = true ↔ n < 4 := by
  show (!(run hps nv pins n).regs.fpgaResetN) = true ↔ n < 4
  rw [run_fpgaResetN, Bool.not_eq_true', decide_eq_false_iff_not, Nat.not_le]

/-- The same board inputs with other requests over JTAG. -/
def withRequests (pins : ℕ → Pins) (requests : ℕ → BitVec 3) (m : ℕ) : Pins where
  key := (pins m).key
  dipsw := (pins m).dipsw
  hpsResetReq := requests m

/-- Mutual isolation: the Nios V side is the same whatever the HPS is and does
    and whatever resets are requested over JTAG, the HPS side is the same
    whatever the Nios V system and its PLL do, and the PLL reset is asserted
    at the first four edges and at no later one. -/
theorem mutual_isolation :
    (∀ (nv : NiosvSystem) (hps hps' : SocSystem) (pins : ℕ → Pins) (requests : ℕ → BitVec 3)
      (n : ℕ), (run hps' nv (withRequests pins requests) n).niosvSide =
        (run hps nv pins n).niosvSide) ∧
    (∀ (hps : SocSystem) (nv nv' : NiosvSystem) (pins : ℕ → Pins) (n : ℕ),
      (run hps nv' pins n).hpsSide = (run hps nv pins n).hpsSide) ∧
    (∀ (hps : SocSystem) (nv : NiosvSystem) (pins : ℕ → Pins) (n : ℕ),
      (run hps nv pins n).niosvIn.pllRst = true ↔ n < 4) := by
  refine ⟨?_, ?_, run_pllRst⟩
  · intro nv hps hps' pins requests n
    have hsame : SameNiosvSide (run hps' nv (withRequests pins requests) n) (run hps nv pins n) := by
      apply run_sameNiosvSide
      · intro m; rfl
      · intro m; rfl
    exact hsame.niosvSide
  · intro hps nv nv' pins n
    exact (run_sameHpsSide hps nv' nv pins n).hpsSide

end NiosvCodesign.Top

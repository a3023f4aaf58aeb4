import NiosvCodesign.Lib.RingBuffer
import NiosvCodesign.Firmware.Hal

/-!
# The JTAG UART and its driver

The interrupt-driven driver `altera_avalon_jtag_uart`
(`software/hal_bsp/drivers`), and the UART core as the driver sees it: a FIFO in
each direction and a control register. The depths of the FIFOs and the fill
levels at which the core interrupts are parameters (`Core`); the core never
drops or invents a character.

* `ring_copyIn`, `advance_ring`: the copy loop of `write` appends to the transmit
  ring.
* `txSpace_eq_zero_iff`: it stops short of the data exactly at a full ring.
* `txLoop_spec`: the write interrupt moves the front of the ring to the core, as
  much as there is space for.
* `irqPass_spec`: a turn of the interrupt routine loses nothing, reorders
  nothing and never touches the detection of the host.
-/

namespace NiosvCodesign.Firmware

/-! ## The core -/

/-- The parameters of the core: FIFO depths, and the fill levels at which it
    requests the write and the read interrupt. -/
structure Core where
  writeDepth : ℕ
  writeIrq : ℕ → Bool
  readDepth : ℕ
  readIrq : ℕ → Bool

/-- The core `JTAG_UART` of the board (system.h:264-269): 1024 characters in each
    direction; it asks for characters when at most 8 are left in the transmit
    FIFO. -/
def jtagUart : Core where
  writeDepth := 1024
  writeIrq := fun n => decide (n ≤ 8)
  readDepth := 1024
  readIrq := fun n => decide (0 < n)

/-- The interrupt enable bits `RE` and `WE` of the control register, also kept
    in `sp->irq_enable`. -/
structure IrqEnable where
  re : Bool
  we : Bool

/-- The core: its FIFOs, enable bits and activity bit `AC`. -/
structure Device where
  txFifo : List Char
  rxFifo : List Char
  irqEnable : IrqEnable
  active : Bool

/-- The core at reset. -/
def Device.init : Device := ⟨[], [], ⟨false, false⟩, false⟩

/-- The fields `RI`, `WI`, `AC` and `WSPACE` of the control register. -/
structure Control where
  ri : Bool
  wi : Bool
  ac : Bool
  wspace : ℕ

/-- `IORD_ALTERA_AVALON_JTAG_UART_CONTROL`. -/
def Device.control (c : Core) (d : Device) : Control where
  ri := d.irqEnable.re && c.readIrq d.rxFifo.length
  wi := d.irqEnable.we && c.writeIrq d.txFifo.length
  ac := d.active
  wspace := c.writeDepth - d.txFifo.length

/-- `IOWR_ALTERA_AVALON_JTAG_UART_DATA`. -/
def Device.writeData (d : Device) (ch : Char) : Device := { d with txFifo := d.txFifo ++ [ch] }

/-! ## The driver -/

/-- `ALTERA_AVALON_JTAG_UART_BUF_LEN` (altera_avalon_jtag_uart.h:71). -/
def bufLen : ℕ := 2048

/-- `ALTERA_AVALON_JTAG_UART_DEFAULT_TIMEOUT` (altera_avalon_jtag_uart.h:67). -/
def defaultTimeout : ℕ := 10

/-- `INT_MAX`. -/
def intMax : ℕ := 2147483647

/-- `altera_avalon_jtag_uart_state` (altera_avalon_jtag_uart.h:95-120). Its
    alarm is in the list of the HAL. -/
structure UartState where
  timeout : ℕ
  irqEnable : IrqEnable
  hostInactive : ℕ
  rxIn : ℕ
  rxOut : ℕ
  txIn : ℕ
  txOut : ℕ
  rxBuf : ℕ → Char
  txBuf : ℕ → Char

/-- The static initializer (altera_avalon_jtag_uart.h:137-142). -/
def UartState.init : UartState where
  timeout := defaultTimeout
  irqEnable := ⟨false, false⟩
  hostInactive := 0
  rxIn := 0
  rxOut := 0
  txIn := 0
  txOut := 0
  rxBuf := fun _ => Char.ofNat 0
  txBuf := fun _ => Char.ofNat 0

/-- `altera_avalon_jtag_uart_init` (altera_avalon_jtag_uart_init.c:66-100). -/
def uartInit (h : Hal) (sp : UartState) (d : Device) : Hal × UartState × Device :=
  let sp := { sp with irqEnable := ⟨true, false⟩ }
  let d := { d with irqEnable := sp.irqEnable }
  let sp := { sp with hostInactive := 0 }
  match altAlarmStart h h.tickRate with
  | some h => (h, sp, d)
  | none => (h, { sp with timeout := intMax }, d)

/-- Without a clock the driver is refused its alarm. -/
theorem uartInit_of_no_clock {h : Hal} (hrate : h.tickRate = 0#32) (sp : UartState) (d : Device) :
    uartInit h sp d = (h, { sp with
      irqEnable := ⟨true, false⟩, hostInactive := 0, timeout := intMax },
      { d with irqEnable := ⟨true, false⟩ }) := by
  unfold uartInit
  rw [(altAlarmStart_eq_none_iff h h.tickRate).mpr hrate]

/-- `altera_avalon_jtag_uart_timeout` (altera_avalon_jtag_uart_init.c:210-232):
    the alarm callback. It returns the ticks to the next call. -/
def uartTimeout (c : Core) (tickRate : BitVec 32) (a : UartState × Device) :
    BitVec 32 × UartState × Device :=
  let (sp, d) := a
  if (d.control c).ac then
    (tickRate, { sp with hostInactive := 0 }, { d with irqEnable := sp.irqEnable, active := false })
  else if sp.hostInactive < intMax - 2 then
    (tickRate, { sp with hostInactive := sp.hostInactive + 1 }, d)
  else (tickRate, sp, d)

/-- The inner loop of the read interrupt
    (altera_avalon_jtag_uart_init.c:131-154) on the characters in the read FIFO.
    `avail` is the field `RAVAIL` of the last `data` read. -/
def rxLoop (sp : UartState) (avail : ℕ) : List Char → UartState × ℕ × List Char
  | [] => if (sp.rxIn + 1) % bufLen = sp.rxOut then (sp, avail, []) else (sp, 0, [])
  | ch :: chars =>
    if (sp.rxIn + 1) % bufLen = sp.rxOut then (sp, avail, ch :: chars)
    else
      rxLoop { sp with
        rxBuf := Function.update sp.rxBuf sp.rxIn ch
        rxIn := (sp.rxIn + 1) % bufLen } chars.length chars

/-- The read interrupt (altera_avalon_jtag_uart_init.c:125-167). -/
def rxIrq (sp : UartState) (d : Device) : UartState × Device :=
  let (sp, avail, rxFifo) := rxLoop sp 1 d.rxFifo
  let d := { d with rxFifo := rxFifo }
  if avail ≠ 0 then
    let sp := { sp with irqEnable := ⟨false, sp.irqEnable.we⟩ }
    (sp, { d with irqEnable := sp.irqEnable })
  else (sp, d)

/-- The loop of the write interrupt (altera_avalon_jtag_uart_init.c:175-184);
    the first component is what is left of `space`. -/
def txLoop : ℕ → UartState → Device → ℕ × UartState × Device
  | 0, sp, d => (0, sp, d)
  | space + 1, sp, d =>
    if sp.txOut ≠ sp.txIn then
      txLoop space { sp with txOut := (sp.txOut + 1) % bufLen } (d.writeData (sp.txBuf sp.txOut))
    else (space + 1, sp, d)

/-- The write interrupt (altera_avalon_jtag_uart_init.c:170-201). -/
def txIrq (space : ℕ) (sp : UartState) (d : Device) : UartState × Device :=
  let (space, sp, d) := txLoop space sp d
  if 0 < space then
    let sp := { sp with irqEnable := ⟨sp.irqEnable.re, false⟩ }
    (sp, { d with irqEnable := sp.irqEnable })
  else (sp, d)

/-- One turn of the loop of `altera_avalon_jtag_uart_irq`
    (altera_avalon_jtag_uart_init.c:118-203), made while `RI` or `WI` is set. -/
def irqPass (c : Core) (sp : UartState) (d : Device) : UartState × Device :=
  let control := d.control c
  let (sp, d) := if control.ri then rxIrq sp d else (sp, d)
  if control.wi then txIrq control.wspace sp d else (sp, d)

/-! ## The copy loop of `write` -/

/-- The `n` of the copy loop before it is limited by `count`
    (altera_avalon_jtag_uart_write.c:105-110). `inn` and `out` are the local
    variables `in` and `out`. -/
def txSpace (inn out : ℕ) : ℕ :=
  if inn < out then out - 1 - inn
  else if 0 < out then bufLen - inn
  else bufLen - 1 - inn

/-- `memcpy(sp->tx_buf + in, ptr, n)` (altera_avalon_jtag_uart_write.c:118). -/
def copyIn (buf : ℕ → Char) (inn : ℕ) (chars : List Char) : ℕ → Char :=
  fun k => if inn ≤ k then chars.getD (k - inn) (buf k) else buf k

/-- The kick (altera_avalon_jtag_uart_write.c:132-135). -/
def kick (sp : UartState) (d : Device) : UartState × Device :=
  let sp := { sp with irqEnable := ⟨sp.irqEnable.re, true⟩ }
  (sp, { d with irqEnable := sp.irqEnable })

/-! ## The transmit ring is a queue -/

namespace UartState

variable (sp : UartState)

/-- Both indices of the transmit ring are in range. -/
def RingOk : Prop := sp.txIn < bufLen ∧ sp.txOut < bufLen

/-- The characters in the transmit ring, oldest first. -/
def ring : List Char := RingBuffer.contents bufLen sp.txBuf sp.txOut sp.txIn

/-- The transmit ring has no room. -/
def RingFull : Prop := (sp.txIn + 1) % bufLen = sp.txOut

instance : Decidable sp.RingFull := inferInstanceAs (Decidable (_ = _))

@[simp] theorem ring_length : sp.ring.length = RingBuffer.dist bufLen sp.txIn sp.txOut :=
  RingBuffer.length_contents

theorem ring_length_lt : sp.ring.length < bufLen := by
  rw [ring_length]
  exact RingBuffer.dist_lt (by unfold bufLen; norm_num)

variable {sp}

theorem ringFull_iff (h : sp.RingOk) : sp.RingFull ↔ sp.ring.length = bufLen - 1 := by
  rw [ring_length]
  exact RingBuffer.full_iff h.1 h.2

theorem ring_eq_nil_iff (h : sp.RingOk) : sp.ring = [] ↔ sp.txOut = sp.txIn :=
  (RingBuffer.contents_eq_nil_iff h.1 h.2).trans eq_comm

/-- Taking the oldest character. -/
theorem ring_cons (h : sp.RingOk) (hne : sp.txOut ≠ sp.txIn) : sp.ring =
    sp.txBuf sp.txOut :: { sp with txOut := (sp.txOut + 1) % bufLen : UartState }.ring :=
  RingBuffer.contents_cons h.1 h.2 hne.symm

end UartState

open UartState

/-- There is no space to copy to exactly when `out` is right behind `in`. -/
theorem txSpace_eq_zero_iff {inn out : ℕ} (hin : inn < bufLen) (hout : out < bufLen) :
    txSpace inn out = 0 ↔ (inn + 1) % bufLen = out := by
  unfold txSpace
  unfold bufLen at *
  split_ifs <;> omega

/-- What the copy loop fills in one turn is room in the ring, and one block. -/
theorem txSpace_le {inn out : ℕ} (hin : inn < bufLen) (hout : out < bufLen) :
    txSpace inn out + RingBuffer.dist bufLen inn out < bufLen ∧
      inn + txSpace inn out ≤ bufLen := by
  rw [RingBuffer.dist_eq hin hout]
  unfold txSpace
  split_ifs <;> omega

theorem copyIn_outside {buf : ℕ → Char} {inn k : ℕ} {chars : List Char}
    (h : k < inn ∨ inn + chars.length ≤ k) : copyIn buf inn chars k = buf k := by
  unfold copyIn
  split_ifs with hk
  · exact List.getD_eq_default _ _ (by omega)
  · rfl

theorem copyIn_inside (buf : ℕ → Char) (inn : ℕ) {chars : List Char} {j : ℕ}
    (h : j < chars.length) : copyIn buf inn chars (inn + j) = chars[j] := by
  unfold copyIn
  rw [if_pos (Nat.le_add_right inn j), Nat.add_sub_cancel_left]
  exact List.getD_eq_getElem _ _ h

/-- The copied characters do not show before `tx_in` is updated. -/
theorem ring_copyIn {sp : UartState} (h : sp.RingOk) {chars : List Char}
    (hroom : sp.ring.length + chars.length < bufLen) :
    { sp with txBuf := copyIn sp.txBuf sp.txIn chars : UartState }.ring = sp.ring := by
  rw [ring_length] at hroom
  exact RingBuffer.contents_store_before h.1 h.2 hroom fun _ => copyIn_outside

/-- The update of `tx_in` appends them to the queue. -/
theorem advance_ring {sp : UartState} (h : sp.RingOk) {chars : List Char}
    (hroom : sp.ring.length + chars.length < bufLen) (hblock : sp.txIn + chars.length ≤ bufLen)
    (hcopied : copyIn sp.txBuf sp.txIn chars = sp.txBuf) :
    { sp with txIn := (sp.txIn + chars.length) % bufLen : UartState }.ring = sp.ring ++ chars := by
  rw [ring_length] at hroom
  refine RingBuffer.contents_store h.1 h.2 hroom (fun _ _ => rfl) hblock fun j hj => ?_
  rw [← hcopied]
  exact copyIn_inside _ _ hj

/-- The write interrupt moves the front of the ring to the core: as many
    characters as there is space for, or all. -/
theorem txLoop_spec {sp : UartState} (h : sp.RingOk) (space : ℕ) (d : Device) :
    ∃ moved out, txLoop space sp d = (space - moved.length, { sp with txOut := out },
        { d with txFifo := d.txFifo ++ moved }) ∧
      sp.ring = moved ++ { sp with txOut := out : UartState }.ring ∧
      out < bufLen ∧ moved.length ≤ space ∧
      (moved.length = space ∨ { sp with txOut := out : UartState }.ring = []) := by
  induction space generalizing sp d with
  | zero =>
    refine ⟨[], sp.txOut, ?_, rfl, h.2, le_rfl, Or.inl rfl⟩
    rw [List.append_nil]
    rfl
  | succ space ih =>
    by_cases hne : sp.txOut ≠ sp.txIn
    · have hnext : { sp with txOut := (sp.txOut + 1) % bufLen : UartState }.RingOk :=
        ⟨h.1, Nat.mod_lt _ (by unfold bufLen; norm_num)⟩
      obtain ⟨moved, out, heq, hring, hout, hlen, hend⟩ :=
        ih hnext (d.writeData (sp.txBuf sp.txOut))
      refine ⟨sp.txBuf sp.txOut :: moved, out, ?_, ?_, hout, ?_, ?_⟩
      · rw [txLoop, if_pos hne, heq, List.length_cons, Nat.add_sub_add_right]
        simp only [Device.writeData, List.append_assoc, List.singleton_append]
      · rw [ring_cons h hne, hring, List.cons_append]
      · rw [List.length_cons]
        omega
      · rcases hend with hend | hend
        · exact Or.inl (by rw [List.length_cons, hend])
        · exact Or.inr hend
    · rw [not_not] at hne
      refine ⟨[], sp.txOut, ?_, rfl, h.2, Nat.zero_le _, Or.inr ((ring_eq_nil_iff h).mpr hne)⟩
      rw [txLoop, if_neg (not_not.mpr hne), List.append_nil]
      rfl

/-! ## Interrupts -/

/-- What holds of driver and core at any time: the ring indices are in range,
    `sp->irq_enable` is what was last written to the core, and the transmit FIFO
    has not overflowed. -/
structure UartOk (c : Core) (sp : UartState) (d : Device) : Prop where
  ring : sp.RingOk
  synced : d.irqEnable = sp.irqEnable
  fits : d.txFifo.length ≤ c.writeDepth

/-- What one turn of the interrupt routine may do to driver and core: characters
    only move from the ring to the transmit FIFO, in order, and the host
    detection is left alone. -/
structure IrqEffect (sp sp' : UartState) (d d' : Device) : Prop where
  txIn : sp'.txIn = sp.txIn
  timeout : sp'.timeout = sp.timeout
  hostInactive : sp'.hostInactive = sp.hostInactive
  queue : d'.txFifo ++ sp'.ring = d.txFifo ++ sp.ring
  shrinks : sp'.ring.length ≤ sp.ring.length
  active : d'.active = d.active

theorem rxLoop_spec (sp : UartState) (avail : ℕ) (chars : List Char) :
    ∃ rxIn rxBuf, (rxLoop sp avail chars).1 = { sp with rxIn := rxIn, rxBuf := rxBuf } := by
  induction chars generalizing sp avail with
  | nil =>
    unfold rxLoop
    split_ifs <;> exact ⟨sp.rxIn, sp.rxBuf, rfl⟩
  | cons ch chars ih =>
    unfold rxLoop
    split_ifs
    · exact ⟨sp.rxIn, sp.rxBuf, rfl⟩
    · obtain ⟨rxIn, rxBuf, h⟩ := ih _ chars.length
      exact ⟨rxIn, rxBuf, h⟩

theorem rxIrq_spec {c : Core} {sp : UartState} {d : Device} (h : UartOk c sp d) :
    UartOk c (rxIrq sp d).1 (rxIrq sp d).2 ∧ IrqEffect sp (rxIrq sp d).1 d (rxIrq sp d).2 ∧
      (rxIrq sp d).2.txFifo = d.txFifo ∧ (rxIrq sp d).1.irqEnable.we = sp.irqEnable.we := by
  obtain ⟨rxIn, rxBuf, heq⟩ := rxLoop_spec sp 1 d.rxFifo
  unfold rxIrq
  simp only [heq]
  split_ifs
  · exact ⟨⟨h.ring, rfl, h.fits⟩, ⟨rfl, rfl, rfl, rfl, le_rfl, rfl⟩, rfl, rfl⟩
  · exact ⟨⟨h.ring, h.synced, h.fits⟩, ⟨rfl, rfl, rfl, rfl, le_rfl, rfl⟩, rfl, rfl⟩

/-- The write interrupt either sends something and keeps going, or turns itself
    off. -/
theorem txIrq_spec {c : Core} {sp : UartState} {d : Device} (h : UartOk c sp d) :
    UartOk c (txIrq (c.writeDepth - d.txFifo.length) sp d).1
        (txIrq (c.writeDepth - d.txFifo.length) sp d).2 ∧
      IrqEffect sp (txIrq (c.writeDepth - d.txFifo.length) sp d).1 d
        (txIrq (c.writeDepth - d.txFifo.length) sp d).2 := by
  obtain ⟨moved, out, heq, hring, hout, hlen, -⟩ :=
    txLoop_spec h.ring (c.writeDepth - d.txFifo.length) d
  have hfits : (d.txFifo ++ moved).length ≤ c.writeDepth := by
    have := h.fits
    rw [List.length_append]
    omega
  have hqueue : d.txFifo ++ moved ++ { sp with txOut := out : UartState }.ring =
      d.txFifo ++ sp.ring := by rw [List.append_assoc, ← hring]
  have hshrinks : { sp with txOut := out : UartState }.ring.length ≤ sp.ring.length := by
    rw [hring, List.length_append]
    exact Nat.le_add_left _ _
  unfold txIrq
  simp only [heq]
  split_ifs
  · exact ⟨⟨⟨h.ring.1, hout⟩, rfl, hfits⟩, ⟨rfl, rfl, rfl, hqueue, hshrinks, rfl⟩⟩
  · exact ⟨⟨⟨h.ring.1, hout⟩, h.synced, hfits⟩, ⟨rfl, rfl, rfl, hqueue, hshrinks, rfl⟩⟩

/-- A write interrupt that finds space gets something done. -/
theorem txIrq_progress {sp : UartState} (h : sp.RingOk) {space : ℕ} (hspace : 0 < space)
    (d : Device) : (txIrq space sp d).2.rxFifo = d.rxFifo ∧
      ((txIrq space sp d).1.ring.length < sp.ring.length ∨
        (txIrq space sp d).1.irqEnable.we = false) := by
  obtain ⟨moved, out, heq, hring, -, hlen, hend⟩ := txLoop_spec h space d
  unfold txIrq
  simp only [heq]
  split_ifs with hleft
  · exact ⟨rfl, Or.inr rfl⟩
  · refine ⟨rfl, Or.inl ?_⟩
    show { sp with txOut := out : UartState }.ring.length < sp.ring.length
    rw [hring, List.length_append]
    omega

theorem IrqEffect.refl (sp : UartState) (d : Device) : IrqEffect sp sp d d :=
  ⟨rfl, rfl, rfl, rfl, le_rfl, rfl⟩

theorem IrqEffect.trans {sp sp' sp'' : UartState} {d d' d'' : Device}
    (h : IrqEffect sp sp' d d') (h' : IrqEffect sp' sp'' d' d'') : IrqEffect sp sp'' d d'' where
  txIn := h'.txIn.trans h.txIn
  timeout := h'.timeout.trans h.timeout
  hostInactive := h'.hostInactive.trans h.hostInactive
  queue := h'.queue.trans h.queue
  shrinks := h'.shrinks.trans h.shrinks
  active := h'.active.trans h.active

/-- The interrupt routine never fills the ring. -/
theorem IrqEffect.not_ringFull {sp sp' : UartState} {d d' : Device} (h : IrqEffect sp sp' d d')
    (hok : sp.RingOk) (hok' : sp'.RingOk) (hroom : ¬ sp.RingFull) : ¬ sp'.RingFull := by
  rw [ringFull_iff hok] at hroom
  rw [ringFull_iff hok']
  have hshrinks := h.shrinks
  have hlt := ring_length_lt sp
  omega

/-- One turn of the interrupt routine. -/
theorem irqPass_spec {c : Core} {sp : UartState} {d : Device} (h : UartOk c sp d) :
    UartOk c (irqPass c sp d).1 (irqPass c sp d).2 ∧
      IrqEffect sp (irqPass c sp d).1 d (irqPass c sp d).2 := by
  have hrx : ∃ r, (if (d.control c).ri then rxIrq sp d else (sp, d)) = r ∧ UartOk c r.1 r.2 ∧
      IrqEffect sp r.1 d r.2 ∧ r.2.txFifo = d.txFifo := by
    split_ifs
    · obtain ⟨hok, heff, hfifo, -⟩ := rxIrq_spec h
      exact ⟨_, rfl, hok, heff, hfifo⟩
    · exact ⟨_, rfl, h, IrqEffect.refl sp d, rfl⟩
  obtain ⟨⟨sp', d'⟩, hr, hok, heff, hfifo⟩ := hrx
  have hspace : (d.control c).wspace = c.writeDepth - d'.txFifo.length := by
    rw [hfifo]
    rfl
  unfold irqPass
  simp only [hr, hspace]
  split_ifs
  · exact ⟨(txIrq_spec hok).1, heff.trans (txIrq_spec hok).2⟩
  · exact ⟨hok, heff⟩

end NiosvCodesign.Firmware

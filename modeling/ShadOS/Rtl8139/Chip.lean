import ShadOS.Rtl8139.Buffers
import ShadOS.Rtl8139.Receive
import ShadOS.Rtl8139.Route
import ShadOS.Rtl8139.Transmit

/-! # The card from its reset on

One set of ports leads to the receive ring and to the four descriptors. A card
that is switched off hears nothing but CONFIG1, and what is written before a
reset is over is lost, so `rtl8139_init` switches the card on and waits.
-/

namespace ShadOS.Rtl8139
open Machine Pci
open Heap (HeapVars HeapOk heapC)

def regTsd0 : ℕ := 0x10
def regTsad0 : ℕ := 0x20

structure Chip where
  idr : Vector UInt8 6
  rx : Card
  tsad : ℕ → ℕ
  tsd : ℕ → ℕ
  waiting : ℕ → Bool
  next : ℕ
  imr : ℕ
  rcr : ℕ
  receiver : Bool
  transmitter : Bool
  /-- The card is on if this is 0. -/
  config1 : ℕ
  /-- How long a reset takes, and how much of it is left. -/
  resetTime : ℕ
  resetting : ℕ
  /-- The time that passes before each of the accesses that follow a reset. -/
  pace : ℕ → ℕ
  /-- How many of them there were. -/
  since : ℕ

namespace Chip
variable (frames : ℕ → Frame) (c : Chip)

def reset : Chip :=
  { c with
    rx := { c.rx with rbstart := 0, capr := 0xFFF0, cbr := 0, isr := 0, written := 0, acked := 0 }
    tsad := fun _ => 0
    tsd := fun _ => 0
    waiting := fun _ => false
    next := 0
    imr := 0
    rcr := 0
    receiver := false
    transmitter := false
    resetting := c.resetTime
    since := 0 }

/-- CMD: the reset, the receiver, the transmitter, and BUFE. -/
def cmd : ℕ :=
  (if c.resetting = 0 then 0 else 0x10) + (if c.receiver then 0x08 else 0) +
    (if c.transmitter then 0x04 else 0) + if c.rx.readPtr = c.rx.cbr then 0x01 else 0

/-- Frames come in while the receiver is on. -/
def arrive : Chip := if c.receiver then { c with rx := c.rx.arrive frames } else c

/-- A reset goes on until its time is over. -/
def elapse : Chip :=
  if c.resetting = 0 then c
  else { c with resetting := c.resetting - c.pace c.since, since := c.since + 1 }

/-- What goes before an access. -/
def touch : Chip := c.elapse.arrive frames

/-- Off, or in a reset. -/
def Deaf : Prop := c.config1 ≠ 0 ∨ c.resetting ≠ 0

instance : Decidable c.Deaf := inferInstanceAs (Decidable (_ ∨ _))

/-- Both directions are on. -/
def Running : Prop :=
  c.receiver = true ∧ c.transmitter = true ∧ c.config1 = 0 ∧ c.resetting = 0

end Chip

/-- The station address is at the first six ports, TSAD and TSD have four each. A port is a
`uint16_t`. -/
def chipPorts (frames : ℕ → Frame) (ioBase : ℕ) : Ports Chip where
  inb p c :=
    let p := p % 2 ^ 16
    let c := c.touch frames
    if c.config1 ≠ 0 then (0xFF, c)
    else if p = ioBase + regCmd then (c.cmd, c)
    else (if ioBase ≤ p then (c.idr.toList.getD (p - ioBase) 0).toNat else 0, c)
  inw p c :=
    let p := p % 2 ^ 16
    let c := c.touch frames
    if c.config1 ≠ 0 then (0xFFFF, c)
    else (if p = ioBase + regIsr then c.rx.isr.toNat else 0, c)
  load16 a c :=
    let c := c.arrive frames
    (readHalf c.rx.mem a, c)
  outb p v c :=
    let p := p % 2 ^ 16
    let c := c.touch frames
    if p = ioBase + regConfig1 ∧ c.resetting = 0 then { c with config1 := v }
    else if c.Deaf then c
    else if p = ioBase + regCmd then
      if v &&& 0x10 ≠ 0 then c.reset
      else { c with receiver := v &&& 0x08 ≠ 0, transmitter := v &&& 0x04 ≠ 0 }
    else c
  outw p v c :=
    let p := p % 2 ^ 16
    let c := c.touch frames
    if c.Deaf then c
    else if p = ioBase + regIsr then { c with rx := c.rx.acknowledge v }
    else if p = ioBase + regCapr then { c with rx := c.rx.setCapr v }
    else if p = ioBase + regImr then { c with imr := v } else c
  outl p v c :=
    let p := p % 2 ^ 16
    let c := c.touch frames
    if c.Deaf then c
    else if p = ioBase + regRbstart then { c with rx := { c.rx with rbstart := v } }
    else if p = ioBase + regRcr then { c with rcr := v }
    else if ioBase + regTsd0 ≤ p ∧ p < ioBase + regTsd0 + 16 then
      let i := (p - (ioBase + regTsd0)) / 4
      { c with tsd := Function.update c.tsd i v, waiting := Function.update c.waiting i true }
    else if ioBase + regTsad0 ≤ p ∧ p < ioBase + regTsad0 + 16 then
      { c with tsad := Function.update c.tsad ((p - (ioBase + regTsad0)) / 4) v }
    else c

variable {frames : ℕ → Frame} {ioBase : ℕ} {c : Chip}

/-- The card is where a port can be. -/
def Reached (ioBase : ℕ) : Prop := ioBase + 0x100 ≤ 2 ^ 16

theorem Reached.port (h : Reached ioBase) {r : ℕ} (hr : r < 0x100) :
    (ioBase + r) % 2 ^ 16 = ioBase + r :=
  Nat.mod_eq_of_lt (Nat.lt_of_lt_of_le (Nat.add_lt_add_left hr _) h)

/-! ## A running card is a receive ring -/

section running
variable {d : Driver} {log : List (ℕ × ℕ)} {p v a : ℕ}

/-- The same access, to the ring inside the card. -/
def Chip.around {α : Type} (c : Chip) (r : α × Card × List (ℕ × ℕ)) : α × Chip × List (ℕ × ℕ) :=
  (r.1, { c with rx := r.2.1 }, r.2.2)

@[simp] theorem around_fst {α : Type} (r : α × Card × List (ℕ × ℕ)) : (c.around r).1 = r.1 := rfl

@[simp] theorem around_snd {α : Type} (r : α × Card × List (ℕ × ℕ)) :
    (c.around r).2 = ({ c with rx := r.2.1 }, r.2.2) := rfl

theorem Chip.Running.arrive (h : c.Running) : c.arrive frames = { c with rx := c.rx.arrive frames } :=
  if_pos h.1

theorem Chip.Running.touch (h : c.Running) : c.touch frames = { c with rx := c.rx.arrive frames } := by
  rw [Chip.touch, Chip.elapse, if_pos h.2.2.2, h.arrive]

theorem Chip.Running.hears (h : c.Running) (x : Card) : ¬ ({ c with rx := x } : Chip).Deaf :=
  not_or.mpr ⟨not_not.mpr h.2.2.1, not_not.mpr h.2.2.2⟩

theorem Chip.Running.inb (h : c.Running) (hio : Reached ioBase) :
    (recorded (chipPorts frames ioBase).toDevice).inb (ioBase + regCmd) (c, log) =
      c.around ((recorded (ringCard frames ioBase)).inb (ioBase + regCmd) (c.rx, log)) := by
  have hport := hio.port (show regCmd < 0x100 by decide)
  obtain ⟨hr, ht, hon, h0⟩ := h
  simp only [recorded, chipPorts, ringCard, Chip.Running.touch ⟨hr, ht, hon, h0⟩, hport, Chip.around,
    Chip.cmd, hr, ht, hon, h0, ne_eq, not_true, if_false, if_true]
  split_ifs <;> simp

theorem Chip.Running.inw (h : c.Running) (hio : Reached ioBase) :
    (recorded (chipPorts frames ioBase).toDevice).inw (ioBase + regIsr) (c, log) =
      c.around ((recorded (ringCard frames ioBase)).inw (ioBase + regIsr) (c.rx, log)) := by
  have hport := hio.port (show regIsr < 0x100 by decide)
  simp only [recorded, chipPorts, ringCard, h.touch, hport, h.2.2.1, Chip.around, ne_eq, not_true, if_false]

theorem Chip.Running.load16 (h : c.Running) :
    (recorded (chipPorts frames ioBase).toDevice).load16 a (c, log) =
      c.around ((recorded (ringCard frames ioBase)).load16 a (c.rx, log)) := by
  simp only [recorded, chipPorts, ringCard, h.arrive, Chip.around]

theorem Chip.Running.outw (h : c.Running) (hio : Reached ioBase)
    (hp : p = ioBase + regIsr ∨ p = ioBase + regCapr) :
    (recorded (chipPorts frames ioBase).toDevice).outw p v (c, log) =
      ({ c with rx := ((recorded (ringCard frames ioBase)).outw p v (c.rx, log)).1 },
        ((recorded (ringCard frames ioBase)).outw p v (c.rx, log)).2) := by
  have hne : regCapr ≠ regIsr := by decide
  have hisr := hio.port (show regIsr < 0x100 by decide)
  have hcapr := hio.port (show regCapr < 0x100 by decide)
  have hhears := h.hears (c.rx.arrive frames)
  rcases hp with rfl | rfl <;>
    simp only [recorded, chipPorts, ringCard, h.touch, hisr, hcapr, if_neg hhears] <;> simp [hne]

/-- One round of the loop. -/
theorem drain_succ {C : Type} (D : Device C) (n : ℕ) (d : Driver) (c : C) :
    Rtl8139.drain D (n + 1) d c =
      if (D.inb (d.ioBase + regCmd) c).1 &&& 0x01 ≠ 0 then (d, (D.inb (d.ioBase + regCmd) c).2)
      else if ¬ Accepted (D.load16 (d.rxBuffer + d.rxOffset + 2) (D.inb (d.ioBase + regCmd) c).2).1 then
        (d, (D.load16 (d.rxBuffer + d.rxOffset + 2) (D.inb (d.ioBase + regCmd) c).2).2)
      else
        let l := D.load16 (d.rxBuffer + d.rxOffset + 2) (D.inb (d.ioBase + regCmd) c).2
        drain D n (d.advance l.1)
          (D.outw (d.ioBase + regCapr) (sub32 (nextOffset d.rxOffset l.1) 16 % 2 ^ 16) l.2) := rfl

theorem Chip.Running.drain (h : c.Running) (hport : Reached ioBase) (hio : d.ioBase = ioBase) (n : ℕ) :
    drain (recorded (chipPorts frames ioBase).toDevice) n d (c, log) =
      c.around (drain (recorded (ringCard frames ioBase)) n d (c.rx, log)) := by
  induction n generalizing c d log with
  | zero =>
    rw [Rtl8139.drain, Rtl8139.drain, hio, h.inb hport]
    rfl
  | succ n ih =>
    rw [drain_succ, drain_succ, hio, h.inb hport]
    generalize (recorded (ringCard frames ioBase)).inb (ioBase + regCmd) (c.rx, log) = r
    have hx : ({ c with rx := r.2.1 } : Chip).Running := h
    by_cases hcmd : r.1 &&& 0x01 ≠ 0
    · rw [if_pos hcmd, around_fst, if_pos hcmd, around_snd]
      rfl
    · rw [if_neg hcmd, around_fst, if_neg hcmd, around_snd, hx.load16]
      generalize (recorded (ringCard frames ioBase)).load16 (d.rxBuffer + d.rxOffset + 2) r.2 = l
      have hy : ({ c with rx := l.2.1 } : Chip).Running := h
      by_cases hlength : ¬ Accepted l.1
      · rw [if_pos hlength, around_fst, if_pos hlength, around_snd]
        rfl
      · rw [if_neg hlength, around_fst, if_neg hlength]
        change Rtl8139.drain (recorded (chipPorts frames ioBase).toDevice) n (d.advance l.1)
          ((recorded (chipPorts frames ioBase).toDevice).outw (ioBase + regCapr)
            (sub32 (nextOffset d.rxOffset l.1) 16 % 2 ^ 16) ({ c with rx := l.2.1 }, l.2.2)) =
          c.around (Rtl8139.drain (recorded (ringCard frames ioBase)) n (d.advance l.1)
            ((recorded (ringCard frames ioBase)).outw (ioBase + regCapr)
              (sub32 (nextOffset d.rxOffset l.1) 16 % 2 ^ 16) l.2))
        rw [hy.outw hport (.inr rfl)]
        generalize (recorded (ringCard frames ioBase)).outw (ioBase + regCapr)
          (sub32 (nextOffset d.rxOffset l.1) 16 % 2 ^ 16) l.2 = o
        have hz : ({ c with rx := o.1 } : Chip).Running := h
        exact ih hz hio

/-- The interrupt handler sees nothing of the card but the ring. -/
theorem Chip.Running.handler (h : c.Running) (hport : Reached ioBase) (hio : d.ioBase = ioBase) :
    rtlIrqHandler (recorded (chipPorts frames ioBase).toDevice) d (c, log) =
      c.around (rtlIrqHandler (recorded (ringCard frames ioBase)) d (c.rx, log)) := by
  have hstep {C : Type} (D : Device C) (c : C) : rtlIrqHandler D d c =
      if (D.inw (d.ioBase + regIsr) c).1 &&& 0x01 ≠ 0 then
        Rtl8139.drain D 64 d (D.outw (d.ioBase + regIsr) (D.inw (d.ioBase + regIsr) c).1
          (D.inw (d.ioBase + regIsr) c).2)
      else (d, D.outw (d.ioBase + regIsr) (D.inw (d.ioBase + regIsr) c).1
        (D.inw (d.ioBase + regIsr) c).2) := rfl
  rw [hstep, hstep, hio, h.inw hport]
  generalize (recorded (ringCard frames ioBase)).inw (ioBase + regIsr) (c.rx, log) = r
  have hx : ({ c with rx := r.2.1 } : Chip).Running := h
  rw [around_fst, around_snd, hx.outw hport (.inl rfl)]
  generalize (recorded (ringCard frames ioBase)).outw (ioBase + regIsr) r.1 r.2 = o
  have hy : ({ c with rx := o.1 } : Chip).Running := h
  by_cases hrok : r.1 &&& 0x01 ≠ 0
  · rw [if_pos hrok, if_pos hrok]
    exact hy.drain hport hio 64
  · rw [if_neg hrok, if_neg hrok]
    rfl

/-! ## The two writes of a send -/

section send
variable {cur : ℕ}

theorem Chip.Running.outl_tsad (h : c.Running) (hio : Reached ioBase) (hcur : cur < 4) (v : ℕ) :
    (chipPorts frames ioBase).outl (ioBase + regTsad0 + cur * 4) v c =
      { c with rx := c.rx.arrive frames, tsad := Function.update c.tsad cur v } := by
  have hother : ioBase + regTsad0 + cur * 4 ≠ ioBase + regRbstart ∧
      ioBase + regTsad0 + cur * 4 ≠ ioBase + regRcr ∧
      ¬ (ioBase + regTsd0 ≤ ioBase + regTsad0 + cur * 4 ∧
        ioBase + regTsad0 + cur * 4 < ioBase + regTsd0 + 16) := by
    simp only [regTsad0, regTsd0, regRbstart, regRcr]
    omega
  have hown : ioBase + regTsad0 ≤ ioBase + regTsad0 + cur * 4 ∧
      ioBase + regTsad0 + cur * 4 < ioBase + regTsad0 + 16 := by omega
  have hindex : (ioBase + regTsad0 + cur * 4 - (ioBase + regTsad0)) / 4 = cur := by omega
  have hport : (ioBase + regTsad0 + cur * 4) % 2 ^ 16 = ioBase + regTsad0 + cur * 4 := by
    rw [Nat.add_assoc]
    apply hio.port
    simp only [regTsad0]
    omega
  simp only [chipPorts, h.touch, hport]
  rw [if_neg (h.hears _), if_neg hother.1, if_neg hother.2.1, if_neg hother.2.2, if_pos hown, hindex]

theorem Chip.Running.outl_tsd (h : c.Running) (hio : Reached ioBase) (hcur : cur < 4) (v : ℕ) :
    (chipPorts frames ioBase).outl (ioBase + regTsd0 + cur * 4) v c =
      { c with
        rx := c.rx.arrive frames
        tsd := Function.update c.tsd cur v
        waiting := Function.update c.waiting cur true } := by
  have hother : ioBase + regTsd0 + cur * 4 ≠ ioBase + regRbstart ∧
      ioBase + regTsd0 + cur * 4 ≠ ioBase + regRcr := by
    simp only [regTsd0, regRbstart, regRcr]
    omega
  have hown : ioBase + regTsd0 ≤ ioBase + regTsd0 + cur * 4 ∧
      ioBase + regTsd0 + cur * 4 < ioBase + regTsd0 + 16 := by omega
  have hindex : (ioBase + regTsd0 + cur * 4 - (ioBase + regTsd0)) / 4 = cur := by omega
  have hport : (ioBase + regTsd0 + cur * 4) % 2 ^ 16 = ioBase + regTsd0 + cur * 4 := by
    rw [Nat.add_assoc]
    apply hio.port
    simp only [regTsd0]
    omega
  simp only [chipPorts, h.touch, hport]
  rw [if_neg (h.hears _), if_neg hother.1, if_neg hother.2, if_pos hown, hindex]

end send

/-- The descriptors of the card are those of the transmit path. -/
structure Chip.Carries (c : Chip) (s : Transmitter) : Prop where
  tsad : c.tsad = s.tsad
  tsd : c.tsd = s.tsd
  waiting : c.waiting = s.waiting
  next : c.next = s.next

/-- They still are when `rtl8139_send` wrote its two registers. -/
theorem Chip.Carries.send {s : Transmitter} (hc : c.Carries s) (h : c.Running) (hio : Reached ioBase)
    (hcur : s.txCur < 4) (hready : s.rtlReady = true) {data len : ℕ} (hlen : len ≤ txBufSize) :
    ((chipPorts frames ioBase).outl (ioBase + regTsd0 + s.txCur * 4) (if len < 60 then 60 else len)
        ((chipPorts frames ioBase).outl (ioBase + regTsad0 + s.txCur * 4) s.txBuffer c)).Carries
      (s.rtl8139Send data len).2 := by
  have hgo : ¬ (s.rtlReady = false ∨ txBufSize < len) := by simp [hready, hlen]
  have hx : ({ c with rx := c.rx.arrive frames, tsad := Function.update c.tsad s.txCur s.txBuffer } :
      Chip).Running := h
  rw [h.outl_tsad hio hcur, hx.outl_tsd hio hcur, Transmitter.rtl8139Send, if_neg hgo]
  constructor
  · simp only [hc.tsad]
  · simp only [hc.tsd]
  · simp only [hc.waiting]
  · exact hc.next

end running

end ShadOS.Rtl8139

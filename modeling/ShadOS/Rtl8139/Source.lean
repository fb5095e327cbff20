import ShadOS.Heap.Source
import ShadOS.Machine.Runs

/-! # The receive path of rtl8139.c

The card is a parameter: its ports, and the memory it shares with the driver.
Every access may find it in a new state, since frames arrive at any time.
-/

namespace ShadOS.Rtl8139
open Machine
open Heap (not32)

universe u

def regCmd : ℕ := 0x37
def regCapr : ℕ := 0x38
def regIsr : ℕ := 0x3E
def rxBufSize : ℕ := 8192 + 16 + 1500
def txBufSize : ℕ := 1600

/-- Accesses of the driver to a card in a state of type `C`. -/
structure Device (C : Type u) where
  inb : ℕ → C → ℕ × C
  inw : ℕ → C → ℕ × C
  outw : ℕ → ℕ → C → C
  /-- A 16-bit load from the memory the card writes. -/
  load16 : ℕ → C → ℕ × C

/-- The static variables of the receive path. -/
structure Driver where
  ioBase : ℕ
  rxBuffer : ℕ
  rxOffset : ℕ
  rxPacketsSeen : ℕ

variable {C : Type u} (D : Device C)

/-- A length the handler accepts. -/
def Accepted (length : ℕ) : Prop := 4 ≤ length ∧ length ≤ 1600

instance (length : ℕ) : Decidable (Accepted length) := inferInstanceAs (Decidable (_ ∧ _))

/-- `(rx_offset + length + 4 + 3) & ~3u`, wrapped at the end of the ring. -/
def nextOffset (rxOffset length : ℕ) : ℕ :=
  let off := u32 (rxOffset + length + 4 + 3) &&& not32 3
  if 8192 ≤ off then off - 8192 else off

/-- The loop of `rtl_irq_handler` with that many values of `guard` left below 64. -/
def drain : ℕ → Driver → C → Driver × C
  | 0, d, c => (d, (D.inb (d.ioBase + regCmd) c).2)
  | n + 1, d, c =>
    let (cmd, c) := D.inb (d.ioBase + regCmd) c
    if cmd &&& 0x01 ≠ 0 then (d, c)
    else
      let (length, c) := D.load16 (d.rxBuffer + d.rxOffset + 2) c
      if ¬ Accepted length then (d, c)
      else
        let off := nextOffset d.rxOffset length
        drain n { d with rxPacketsSeen := u32 (d.rxPacketsSeen + 1), rxOffset := off }
          (D.outw (d.ioBase + regCapr) (sub32 off 16 % 2 ^ 16) c)

def rtlIrqHandler (d : Driver) (c : C) : Driver × C :=
  let (status, c) := D.inw (d.ioBase + regIsr) c
  let c := D.outw (d.ioBase + regIsr) status c
  if status &&& 0x01 ≠ 0 then drain D 64 d c else (d, c)

/-- The device that also records the headers read: the address and the length found. -/
def recorded : Device (C × List (ℕ × ℕ)) where
  inb p c := ((D.inb p c.1).1, (D.inb p c.1).2, c.2)
  inw p c := ((D.inw p c.1).1, (D.inw p c.1).2, c.2)
  outw p v c := (D.outw p v c.1, c.2)
  load16 p c := ((D.load16 p c.1).1, (D.load16 p c.1).2, c.2 ++ [(p, (D.load16 p c.1).1)])

end ShadOS.Rtl8139

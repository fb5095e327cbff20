import ShadOS.Interrupts.Lines
import ShadOS.Machine.Controller
import ShadOS.Stubs.Source

/-! # Vectors

pic.c moves the hardware interrupts behind the exceptions, and idt.c leads every
vector to its stub. The table lies in memory at an address the linker chose,
which also chose where the stubs are.
-/

namespace ShadOS.Vectors
open Machine Interrupts
open Heap (not32)

/-! ## pic.c -/

/-- `io_wait` -/
def ioWait (p : Controllers) : Controllers := p.outb 0x80 0

def picRemap (p : Controllers) : Controllers :=
  let mask1 := p.inb pic1Data
  let mask2 := p.inb pic2Data
  let p := ioWait (p.outb pic1 (0x10 ||| 0x01))
  let p := ioWait (p.outb pic2 (0x10 ||| 0x01))
  let p := ioWait (p.outb pic1Data 32)
  let p := ioWait (p.outb pic2Data 40)
  let p := ioWait (p.outb pic1Data 4)
  let p := ioWait (p.outb pic2Data 2)
  let p := ioWait (p.outb pic1Data 0x01)
  let p := ioWait (p.outb pic2Data 0x01)
  let p := p.outb pic1Data mask1
  p.outb pic2Data mask2

/-- `pic_send_eoi` at the chips. -/
def sendEoi (p : Controllers) (irq : ℕ) : Controllers :=
  (picSendEoi irq).foldl (fun p w => p.outb w.1 w.2) p

/-- `pic_unmask_irq` at the chips. -/
def unmaskIrq (p : Controllers) (irq : ℕ) : Controllers :=
  let port := if irq < 8 then pic1Data else pic2Data
  let irqLine := if irq < 8 then irq else (irq - 8) % 2 ^ 8
  p.outb port ((p.inb port &&& not32 (u32 (1 <<< (irqLine % 32)))) % 2 ^ 8)

/-! ## idt.c -/

def idtEntries : ℕ := 256

/-- A store of 16 bits. -/
def writeHalf (m : Mem) (a v : ℕ) : Mem :=
  Function.update (Function.update m a (UInt8.ofNat v)) (a + 1) (UInt8.ofNat (v / 2 ^ 8))

/-- The fields of `struct idt_entry`, packed, in the order of the assignments. -/
def idtSetGate (idt : ℕ) (m : Mem) (num base sel flags : ℕ) : Mem :=
  let a := idt + 8 * num
  let m := writeHalf m a (base &&& 0xFFFF)
  let m := writeHalf m (a + 6) ((base >>> 16) &&& 0xFFFF)
  let m := writeHalf m (a + 2) sel
  let m := Function.update m (a + 4) 0
  Function.update m (a + 5) (UInt8.ofNat flags)

/-- The gates that `idt_init` sets behind its loop: number, selector and flags. -/
def gates : List (ℕ × ℕ × ℕ) :=
  (List.range 48).map (fun num => (num, 0x08, 0x8E)) ++ [(128, 0x08, 0xEE)]

/-- What `lidt` loads. -/
structure Idtr where
  limit : ℕ
  base : ℕ

/-- `idt_init`, with the table at `idt` and the stub of vector `num` at `stubs num`. -/
def idtInit (idt : ℕ) (stubs : ℕ → ℕ) (m : Mem) (p : Controllers) : Idtr × Mem × Controllers :=
  let m := (List.range idtEntries).foldl (fun m i => idtSetGate idt m i 0 0 0) m
  let p := picRemap p
  let m := gates.foldl (fun m g => idtSetGate idt m g.1 (stubs g.1) g.2.1 g.2.2) m
  (⟨8 * idtEntries - 1, idt⟩, m, p)

/-! ## The processor -/

structure Gate where
  offset : ℕ
  selector : ℕ
  dpl : ℕ
  /-- 14 for an interrupt gate of 32 bits. -/
  kind : ℕ
  deriving DecidableEq, Repr

/-- The gate in the table; `none` behind its limit and where the present bit is not set. -/
def gateOf (r : Idtr) (m : Mem) (vector : ℕ) : Option Gate :=
  let a := r.base + 8 * vector
  let flags := (m (a + 5)).toNat
  if 8 * vector + 7 ≤ r.limit ∧ flags.testBit 7 then
    some
      { offset := readHalf m a + 2 ^ 16 * readHalf m (a + 6)
        selector := readHalf m (a + 2)
        dpl := flags / 2 ^ 5 % 4
        kind := flags % 2 ^ 4 }
  else none

/-- The gate that `int vector` goes through in ring `cpl`; `none` is a protection fault. -/
def softwareGate (r : Idtr) (m : Mem) (vector cpl : ℕ) : Option Gate :=
  (gateOf r m vector).filter (fun g => cpl ≤ g.dpl)

end ShadOS.Vectors

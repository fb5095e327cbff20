import ShadOS.Rtl8139.Source
import ShadOS.Interrupts.Lines
import ShadOS.Pci.Source
import ShadOS.Machine.Allocator

/-! # The initialisation of rtl8139.c

`rtl8139_init` finds the card, resets it, asks the allocator for the two
buffers and routes the interrupt of the card. The allocator and the card are
parameters; the configuration space, the handler table and the masks of the
interrupt controllers are those of pci.c, idt.c and pic.c.
-/

namespace ShadOS.Rtl8139
open Machine Pci Interrupts

universe u v

def rtlVendorId : ℕ := 0x10EC
def rtlDeviceId : ℕ := 0x8139
def regMac0 : ℕ := 0x00
def regRbstart : ℕ := 0x30
def regImr : ℕ := 0x3C
def regRcr : ℕ := 0x44
def regConfig1 : ℕ := 0x52

/-- The accesses of the initialisation too. -/
structure Ports (C : Type u) extends Device C where
  outb : ℕ → ℕ → C → C
  outl : ℕ → ℕ → C → C

/-- What `rtl8139_init` reads and writes: the card behind its ports, the kernel around the
driver, and the static variables of rtl8139.c. -/
structure Platform (C : Type u) (H : Type v) where
  card : C
  config : Config
  masks : Masks
  routines : Routines
  heap : H
  mem : Mem
  driver : Driver
  txBuffer : ℕ
  mac : List ℕ
  rtlReady : Bool

variable {C : Type u} {H : Type v} (P : Ports C) (A : Allocator H)

/-- The wait for the end of the reset, with that value of `guard` left. -/
def resetWait (ioBase : ℕ) : ℕ → C → C
  | 0, c => (P.inb (ioBase + regCmd) c).2
  | guard + 1, c =>
    let (cmd, c) := P.inb (ioBase + regCmd) c
    if cmd &&& 0x10 = 0 then c else resetWait ioBase guard c

def readMac (ioBase : ℕ) (c : C) : List ℕ × C :=
  (List.range 6).foldl (fun r i =>
    let (b, c) := P.inb (ioBase + regMac0 + i) r.2
    (r.1 ++ [b], c)) ([], c)

/-- The card switched on and reset, its address read. -/
def resetCard (ioBase : ℕ) (c : C) : List ℕ × C :=
  let c := P.outb (ioBase + regConfig1) 0x00 c
  let c := P.outb (ioBase + regCmd) 0x10 c
  readMac P ioBase (resetWait P ioBase 1000000 c)

/-- The part behind the check of the buffers; `handler` is the address of `rtl_irq_handler`. -/
def bringUp (handler : ℕ) (bus slot func : ℕ) (k : Platform C H) : Platform C H :=
  let ioBase := k.driver.ioBase
  let c := P.outl (ioBase + regRbstart) k.driver.rxBuffer k.card
  let c := P.outw (ioBase + regImr) 0x0005 c
  let c := P.outl (ioBase + regRcr) 0x0000008F c
  let c := P.outb (ioBase + regCmd) 0x0C c
  let (irqLine, config) := pciGetInterruptLine k.config bus slot func
  { k with
    card := c
    config := config
    driver := { k.driver with rxOffset := 0 }
    routines := irqInstallHandler k.routines irqLine handler
    masks := picUnmaskIrq k.masks irqLine
    rtlReady := true }

/-- The result 0 or 1, and no result when the allocator does not return. -/
def rtl8139Init (handler : ℕ) (k : Platform C H) : Option (ℕ × Platform C H) :=
  match pciFindDevice rtlVendorId rtlDeviceId k.config with
  | (none, config) => some (0, { k with config := config })
  | (some (bus, slot, func), config) =>
    let config := pciEnableBusMastering config bus slot func
    let (bar0, config) := pciGetBar0 config bus slot func
    let ioBase := bar0 &&& 0xFFFFFFFC
    let (mac, card) := resetCard P ioBase k.card
    (A.kmalloc k.heap k.mem rxBufSize).bind (fun rx =>
      (A.kmalloc rx.2.1 rx.2.2 txBufSize).bind (fun tx =>
        let k := { k with
          card := card
          config := config
          heap := tx.2.1
          mem := tx.2.2
          driver := { k.driver with ioBase := ioBase, rxBuffer := rx.1 }
          txBuffer := tx.1
          mac := mac }
        if rx.1 = 0 ∨ tx.1 = 0 then some (0, k) else some (1, bringUp P handler bus slot func k)))

/-! ## Its three outcomes for the heap -/

variable {P A} {handler rx tx : ℕ} {k : Platform C H} {h₁ h₂ : H} {m₁ m₂ : Mem} {p : ℕ × ℕ × ℕ}

theorem rtl8139Init_absent
    (hfind : (pciFindDevice rtlVendorId rtlDeviceId k.config).1 = none) :
    ∃ k', rtl8139Init P A handler k = some (0, k') ∧ k'.heap = k.heap ∧ k'.mem = k.mem := by
  rw [rtl8139Init]
  rcases hrun : pciFindDevice rtlVendorId rtlDeviceId k.config with ⟨_ | q, config⟩
  · exact ⟨_, rfl, rfl, rfl⟩
  · rw [hrun] at hfind
    cases hfind

/-- With a card both buffers are asked for, whatever the first answer. -/
theorem rtl8139Init_found
    (hfind : (pciFindDevice rtlVendorId rtlDeviceId k.config).1 = some p)
    (hrx : A.kmalloc k.heap k.mem rxBufSize = some (rx, h₁, m₁))
    (htx : A.kmalloc h₁ m₁ txBufSize = some (tx, h₂, m₂)) :
    ∃ k', rtl8139Init P A handler k = some (if rx = 0 ∨ tx = 0 then 0 else 1, k') ∧
      k'.heap = h₂ ∧ k'.mem = m₂ := by
  rw [rtl8139Init]
  rcases hrun : pciFindDevice rtlVendorId rtlDeviceId k.config with ⟨_ | q, config⟩
  · rw [hrun] at hfind
    cases hfind
  · simp only [hrx, Option.bind_some, htx]
    split
    · exact ⟨_, rfl, rfl, rfl⟩
    · exact ⟨_, rfl, rfl, rfl⟩

end ShadOS.Rtl8139

import ShadOS.Machine.Memory
import Mathlib.Logic.Function.Basic

/-! # The configuration mechanism of pci.c

Two ports lead to the configuration space: the address last written to the
first one selects the register that the second one reads and writes.
-/

namespace ShadOS.Pci
open Machine

def pciConfigAddress : ℕ := 0xCF8
def pciConfigData : ℕ := 0xCFC

/-- The address port, and the 32-bit register behind every address. -/
structure Config where
  address : ℕ
  data : ℕ → ℕ

namespace Config

def outl (c : Config) (port v : ℕ) : Config :=
  if port = pciConfigAddress then { c with address := u32 v }
  else if port = pciConfigData then { c with data := Function.update c.data c.address (u32 v) }
  else c

def inl (c : Config) (port : ℕ) : ℕ :=
  if port = pciConfigData then u32 (c.data c.address) else u32 c.address

end Config

section access
variable (c : Config) (bus slot func : ℕ)

/-- The parameters are bytes; only the two low bits of the offset are dropped. -/
def pciMakeAddress (offset : ℕ) : ℕ :=
  1 <<< 31 ||| bus <<< 16 ||| slot <<< 11 ||| func <<< 8 ||| offset &&& 0xFC

def pciConfigRead32 (offset : ℕ) : ℕ × Config :=
  let c := c.outl pciConfigAddress (pciMakeAddress bus slot func offset)
  (c.inl pciConfigData, c)

def pciConfigWrite32 (offset v : ℕ) : Config :=
  let c := c.outl pciConfigAddress (pciMakeAddress bus slot func offset)
  c.outl pciConfigData v

def pciVendorId : ℕ × Config :=
  let (v, c) := pciConfigRead32 c bus slot func 0x00
  ((v &&& 0xFFFF) % 2 ^ 16, c)

def pciDeviceId : ℕ × Config :=
  let (v, c) := pciConfigRead32 c bus slot func 0x00
  ((v >>> 16) % 2 ^ 16, c)

def pciGetBar0 : ℕ × Config := pciConfigRead32 c bus slot func 0x10

def pciGetInterruptLine : ℕ × Config :=
  let (v, c) := pciConfigRead32 c bus slot func 0x3C
  ((v &&& 0xFF) % 2 ^ 8, c)

def pciEnableBusMastering : Config :=
  let (cmd, c) := pciConfigRead32 c bus slot func 0x04
  pciConfigWrite32 c bus slot func 0x04 (cmd ||| 1 <<< 2 ||| 1 <<< 0)

end access

/-- `for (i = first; …; i++)` over that many values, left when the body returns. -/
def searchLoop {α : Type} (body : ℕ → Config → Option α × Config) :
    ℕ → ℕ → Config → Option α × Config
  | 0, _, c => (none, c)
  | n + 1, i, c =>
    match body i c with
    | (some r, c) => (some r, c)
    | (none, c) => searchLoop body n (i + 1) c

/-- The body of the innermost loop: the device id is read if the vendor id matches. -/
def probe (vendor device bus slot func : ℕ) (c : Config) : Option (ℕ × ℕ × ℕ) × Config :=
  let (v, c) := pciVendorId c (bus % 2 ^ 8) (slot % 2 ^ 8) (func % 2 ^ 8)
  if v = vendor then
    let (d, c) := pciDeviceId c (bus % 2 ^ 8) (slot % 2 ^ 8) (func % 2 ^ 8)
    if d = device then (some (bus % 2 ^ 8, slot % 2 ^ 8, func % 2 ^ 8), c) else (none, c)
  else (none, c)

/-- The bus, slot and function found, or none for the result 0. -/
def pciFindDevice (vendor device : ℕ) (c : Config) : Option (ℕ × ℕ × ℕ) × Config :=
  searchLoop (fun bus => searchLoop (fun slot => searchLoop (fun func =>
    probe vendor device bus slot func) 8 0) 32 0) 256 0 c

end ShadOS.Pci

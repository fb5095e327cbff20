import ShadOS.Strings.Numerals

/-! # The serial line of serial.c

The UART behind COM1 holds one byte that waits to be sent, one that is being
sent and one that arrived. Between two accesses of the driver the line goes on:
characters leave and arrive at any pace.
-/

namespace ShadOS.Serial
open Machine Strings

def com1 : ℕ := 0x3F8

/-- A character that left, with the divisor and the line control it was sent with. -/
@[ext] structure Sent where
  byte : UInt8
  divisor : ℕ
  control : ℕ
  deriving DecidableEq

/-- The registers that the driver writes. -/
@[ext] structure Settings where
  interruptEnable : ℕ
  fifoControl : ℕ
  lineControl : ℕ
  modemControl : ℕ
  divisorLow : ℕ
  divisorHigh : ℕ

/-- The bit of the line control that leads to the divisor. -/
def Settings.dlab (r : Settings) : Bool := r.lineControl.testBit 7

def Settings.divisor (r : Settings) : ℕ := r.divisorLow + 2 ^ 8 * r.divisorHigh

def Settings.write (r : Settings) (port v : ℕ) : Settings :=
  if port = com1 then if r.dlab then { r with divisorLow := v } else r
  else if port = com1 + 1 then
    if r.dlab then { r with divisorHigh := v } else { r with interruptEnable := v }
  else if port = com1 + 2 then { r with fifoControl := v }
  else if port = com1 + 3 then { r with lineControl := v }
  else if port = com1 + 4 then { r with modemControl := v }
  else r

structure Uart where
  settings : Settings
  holding : Option UInt8
  shifting : Option UInt8
  buffer : Option UInt8
  wire : List Sent
  overwritten : ℕ
  overruns : ℕ

/-- A character time passes on the way out, or a character arrives. -/
inductive Happening where
  | sent
  | arrives (b : UInt8)
  deriving DecidableEq

def Happening.byte : Happening → Option UInt8
  | .sent => none
  | .arrives b => some b

namespace Uart

/-- The byte in the shift register leaves, the one behind it follows; an arriving byte replaces
one that was not read. -/
def happen (u : Uart) : Happening → Uart
  | .sent => { u with
      wire := u.wire ++ u.shifting.toList.map (⟨·, u.settings.divisor, u.settings.lineControl⟩)
      shifting := u.holding
      holding := none }
  | .arrives b => { u with buffer := some b, overruns := u.overruns + u.buffer.toList.length }

/-- Bit 0: a byte arrived; bit 5: nothing waits; bit 6: and nothing is being sent. -/
def lineStatus (u : Uart) : ℕ :=
  (if u.buffer.isSome then 0x01 else 0) + (if u.holding.isNone then 0x20 else 0) +
    (if u.holding.isNone ∧ u.shifting.isNone then 0x40 else 0)

def read (u : Uart) (port : ℕ) : ℕ × Uart :=
  if port = com1 then
    if u.settings.dlab then (u.settings.divisorLow, u)
    else ((u.buffer.getD 0).toNat, { u with buffer := none })
  else if port = com1 + 5 then (u.lineStatus, u)
  else (0, u)

/-- With the divisor out of the way, the first port takes a byte to send. -/
def write (u : Uart) (port v : ℕ) : Uart :=
  if port = com1 ∧ u.settings.dlab = false then
    { u with
      holding := some (UInt8.ofNat v)
      overwritten := u.overwritten + u.holding.toList.length }
  else { u with settings := u.settings.write port v }

end Uart

/-- The UART, and the number of accesses so far. -/
structure Line where
  uart : Uart
  now : ℕ

variable (world : ℕ → List Happening)

/-- What happens before the next access. -/
def settle (s : Line) : Line := ⟨(world s.now).foldl Uart.happen s.uart, s.now + 1⟩

def inb (s : Line) (port : ℕ) : ℕ × Line :=
  let s := settle world s
  ((s.uart.read port).1, { s with uart := (s.uart.read port).2 })

def outb (s : Line) (port v : ℕ) : Line :=
  let s := settle world s
  { s with uart := s.uart.write port v }

def serialInit (s : Line) : Line :=
  let s := outb world s (com1 + 1) 0x00
  let s := outb world s (com1 + 3) 0x80
  let s := outb world s (com1 + 0) 0x03
  let s := outb world s (com1 + 1) 0x00
  let s := outb world s (com1 + 3) 0x03
  let s := outb world s (com1 + 2) 0x00
  outb world s (com1 + 4) 0x0B

def serialTransmitEmpty (s : Line) : ℕ × Line :=
  let (v, s) := inb world s (com1 + 5)
  (v &&& 0x20, s)

def serialHasData (s : Line) : ℕ × Line :=
  let (v, s) := inb world s (com1 + 5)
  (v &&& 0x01, s)

def serialReadChar (s : Line) : UInt8 × Line :=
  let (v, s) := inb world s com1
  (UInt8.ofNat v, s)

/-- The wait for the holding register, with that many polls left, and the write. -/
def serialPutc : ℕ → Line → UInt8 → Option Line
  | 0, _, _ => none
  | fuel + 1, s, c =>
    let (empty, s) := serialTransmitEmpty world s
    if empty = 0 then serialPutc fuel s c else some (outb world s com1 c.toNat)

def serialWritestring (fuel : ℕ) (s : Line) : List UInt8 → Option Line
  | [] => none
  | c :: str =>
    if c ≠ 0 then
      (if c = 10 then serialPutc world fuel s 13 else some s).bind fun s =>
        (serialPutc world fuel s c).bind fun s => serialWritestring fuel s str
    else some s

def serialWriteHex (fuel : ℕ) (s : Line) (n : ℕ) : Option Line :=
  (serialWritestring world fuel s (text "0x" ++ [0])).bind fun s =>
    [28, 24, 20, 16, 12, 8, 4, 0].foldlM (fun s i =>
      serialPutc world fuel s ((text "0123456789ABCDEF").getD ((n >>> i) &&& 0xF) 0)) s

/-! ## A run of the driver -/

/-- A call of the driver; a poll reads the character that `serial_has_data` announces. -/
inductive Call where
  | putc (c : UInt8)
  | writestring (str : CString)
  | writeHex (n : ℕ)
  | poll

/-- The line, and the characters read so far. -/
structure Console where
  line : Line
  read : List UInt8

def Call.run (fuel : ℕ) (s : Console) : Call → Option Console
  | .putc c => (serialPutc world fuel s.line c).map ({ s with line := · })
  | .writestring str => (serialWritestring world fuel s.line str.buffer).map ({ s with line := · })
  | .writeHex n => (serialWriteHex world fuel s.line n).map ({ s with line := · })
  | .poll =>
    let (data, line) := serialHasData world s.line
    if data = 0 then some { s with line := line }
    else
      let (c, line) := serialReadChar world line
      some ⟨line, s.read ++ [c]⟩

/-- The calls one after another. -/
def calls (fuel : ℕ) (s : Console) (cs : List Call) : Option Console :=
  cs.foldlM (Call.run world fuel) s

/-- What a call shows on the line: a new line starts with a carriage return. -/
def Call.shows : Call → List UInt8
  | .putc c => [c]
  | .writestring str => str.bytes.flatMap (fun c => if c = 10 then [13, 10] else [c])
  | .writeHex n => text "0x" ++ (nibbles n).map upperHex
  | .poll => []

/-- The characters that arrive before the accesses from `a` to `b`. -/
def arrivals (a b : ℕ) : List UInt8 :=
  (List.range' a (b - a)).flatMap (fun n => (world n).filterMap Happening.byte)

/-- Time goes on for the sender. -/
def Fair : Prop := ∀ n, ∃ m, n ≤ m ∧ .sent ∈ world m

end ShadOS.Serial

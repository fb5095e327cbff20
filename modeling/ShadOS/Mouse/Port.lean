import ShadOS.Mouse.Source
import ShadOS.Interrupts.Lines
import ShadOS.Strings.Printing

/-! # The mouse behind the keyboard controller

The driver reaches the mouse through ports 0x60 and 0x64. Between two accesses
the controller takes the byte that was written, the mouse sends what it has to
say, and it is moved.
-/

namespace ShadOS.Mouse
open Interrupts Strings

/-! ## The hardware -/

/-- Where the controller puts the next byte written to port 0x60. -/
inductive Target where
  | keyboard
  | config
  | mouse
  deriving DecidableEq

structure Controller where
  /-- The bytes to be read at port 0x60, the first one first. -/
  out : List UInt8
  /-- The byte written last and not taken yet; commands are those of port 0x64. -/
  input : Option (Bool × UInt8)
  target : Target
  config : UInt8
  /-- What the mouse is about to send. -/
  line : List UInt8
  reporting : Bool
  /-- The packets of the movements so far. -/
  moved : List Packet
  overwritten : ℕ

namespace Controller
variable (c : Controller)

/-- The mouse answers each command. -/
def tell (v : UInt8) : Controller :=
  if v = 0xF6 ∨ v = 0xF5 then { c with reporting := false, line := c.line ++ [0xFA] }
  else if v = 0xF4 then { c with reporting := true, line := c.line ++ [0xFA] }
  else { c with line := c.line ++ [0xFE] }

def command (v : UInt8) : Controller :=
  if v = 0x20 then { c with out := c.out ++ [c.config] }
  else if v = 0x60 then { c with target := .config }
  else if v = 0xA8 then { c with config := c.config &&& 0xDF }
  else if v = 0xD4 then { c with target := .mouse }
  else c

def data (v : UInt8) : Controller :=
  match c.target with
  | .keyboard => c
  | .config => { c with config := v, target := .keyboard }
  | .mouse => { c with target := .keyboard }.tell v

def receive (k : Bool) (v : UInt8) : Controller := if k then c.command v else c.data v

/-- The byte that waits is taken. -/
def take : Controller :=
  match c.input with
  | none => c
  | some (k, v) => { c with input := none }.receive k v

/-- The next byte of the mouse arrives, unless its clock is off. -/
def send : Controller :=
  if c.config &&& 0x20 = 0 then { c with out := c.out ++ c.line.take 1, line := c.line.drop 1 } else c

/-- A movement is reported, once the mouse was told to. -/
def move (p : Packet) : Controller :=
  if c.reporting then { c with line := c.line ++ p.bytes, moved := c.moved ++ [p] } else c

/-- Bit 0: there is a byte to read. Bit 1: the byte written was not taken yet. -/
def status : ℕ := (if c.out = [] then 0 else 1) + (if c.input = none then 0 else 2)

def write (k : Bool) (v : UInt8) : Controller :=
  { c with
    input := some (k, v)
    overwritten := c.overwritten + if c.input = none then 0 else 1 }

end Controller

inductive Happening where
  | takes
  | sends
  | moves (p : Packet)

def Controller.happen (c : Controller) : Happening → Controller
  | .takes => c.take
  | .sends => c.send
  | .moves p => c.move p

/-- The controller, and how often it was accessed. -/
structure Bus where
  ctl : Controller
  now : ℕ

/-! ## The driver -/

section driver
variable (world : ℕ → List Happening)

/-- What happens up to the next access. -/
def settle (s : Bus) : Bus := ⟨(world s.now).foldl Controller.happen s.ctl, s.now + 1⟩

/-- `inb(0x64)`. -/
def inStatus (s : Bus) : ℕ × Bus := ((settle world s).ctl.status, settle world s)

/-- `inb(0x60)`. -/
def inData (s : Bus) : UInt8 × Bus :=
  let s := settle world s
  (s.ctl.out.headD 0, { s with ctl := { s.ctl with out := s.ctl.out.tail } })

/-- `outb` to port 0x64, if `k`, or to port 0x60. -/
def outb (k : Bool) (s : Bus) (v : UInt8) : Bus :=
  let s := settle world s
  { s with ctl := s.ctl.write k v }

def timeout : ℕ := 100000

def mouseWaitInput : ℕ → Bus → Bus
  | 0, s => s
  | n + 1, s =>
    let r := inStatus world s
    if r.1 &&& 2 = 0 then r.2 else mouseWaitInput n r.2

def mouseWaitOutput : ℕ → Bus → Bus
  | 0, s => s
  | n + 1, s =>
    let r := inStatus world s
    if r.1 &&& 1 = 1 then r.2 else mouseWaitOutput n r.2

def mouseWrite (s : Bus) (v : UInt8) : Bus :=
  let s := outb world true (mouseWaitInput world timeout s) 0xD4
  outb world false (mouseWaitInput world timeout s) v

def mouseRead (s : Bus) : UInt8 × Bus := inData world (mouseWaitOutput world timeout s)

def mouseFlushOutputBuffer : ℕ → Bus → Bus
  | 0, s => s
  | n + 1, s =>
    let r := inStatus world s
    if r.1 &&& 1 = 1 then mouseFlushOutputBuffer n (inData world r.2).2 else r.2

/-- The accesses of `mouse_init`. -/
def programMouse (s : Bus) : Bus :=
  let s := mouseFlushOutputBuffer world 16 s
  let s := outb world true s 0xA8
  let s := outb world true (mouseWaitInput world timeout s) 0x20
  let r := mouseRead world s
  let status := (r.1 ||| 0x02) &&& 0xDF
  let s := outb world true (mouseWaitInput world timeout r.2) 0x60
  let s := outb world false (mouseWaitInput world timeout s) status
  let s := (mouseRead world (mouseWrite world s 0xF6)).2
  (mouseRead world (mouseWrite world s 0xF4)).2

end driver

/-! ## The status row -/

inductive Colour where
  | black
  | green
  | lightGrey
  deriving DecidableEq, Repr

/-- A call of `terminal_put_at`. -/
structure PutAt where
  row : ℕ
  col : ℕ
  char : UInt8
  fg : Colour
  bg : Colour
  deriving DecidableEq, Repr

def mouseStatusRow : ℕ := 24
def mouseStatusCol : ℕ := 20

def putNum3 (row col : ℕ) (n : ℤ) (fg bg : Colour) : List PutAt :=
  let n := if n < 0 then 0 else n
  let n := (if n > 999 then 999 else n).toNat
  [⟨row, col, UInt8.ofNat (48 + n / 100 % 10), fg, bg⟩,
    ⟨row, col + 1, UInt8.ofNat (48 + n / 10 % 10), fg, bg⟩,
    ⟨row, col + 2, UInt8.ofNat (48 + n % 10), fg, bg⟩]

def putButton (m : Decoder) (col : ℕ) (char mask : UInt8) : PutAt :=
  if m.buttons &&& mask = 0 then ⟨mouseStatusRow, col, char, .lightGrey, .black⟩
  else ⟨mouseStatusRow, col, char, .black, .green⟩

def label : List UInt8 := text "Mouse x=000 y=000 L M R"

def mouseDrawStatus (m : Decoder) : List PutAt :=
  (List.range label.length).map (fun i =>
      ⟨mouseStatusRow, mouseStatusCol + i, label.getD i 0, .lightGrey, .black⟩) ++
    putNum3 mouseStatusRow (mouseStatusCol + 8) m.x .lightGrey .black ++
    putNum3 mouseStatusRow (mouseStatusCol + 14) m.y .lightGrey .black ++
    [putButton m (mouseStatusCol + 18) 76 0x01, putButton m (mouseStatusCol + 20) 77 0x04,
      putButton m (mouseStatusCol + 22) 82 0x02]

/-! ## The driver as a whole -/

/-- The bus, the variables of mouse.c, the interrupt lines and what was put on the screen. -/
structure State where
  bus : Bus
  mouse : Decoder
  mouseReady : Bool
  masks : Masks
  routines : Routines
  drawn : List PutAt

def State.drawStatus (s : State) : State := { s with drawn := s.drawn ++ mouseDrawStatus s.mouse }

section driver
variable (world : ℕ → List Happening)

/-- `callback` is the address of `mouse_callback`. -/
def mouseInit (callback : ℕ) (s : State) : State :=
  { s with
    bus := programMouse world s.bus
    routines := irqInstallHandler s.routines 12 callback
    masks := picUnmaskIrq (picUnmaskIrq s.masks 12) 2
    mouseReady := true }.drawStatus

/-- `mouse_callback` with the byte it reads; the third byte of a packet draws the row. -/
def interrupt (s : State) : State :=
  let r := inData world s.bus
  let s' := { s with bus := r.2, mouse := mouseCallback s.mouse r.1 }
  if s.mouse.cycle = 2 then s'.drawStatus else s'

end driver
end ShadOS.Mouse

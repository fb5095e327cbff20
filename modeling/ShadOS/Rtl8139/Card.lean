import ShadOS.Machine.RecordRing
import ShadOS.Rtl8139.Cursor

/-! # The card as a receive ring

The card writes each frame behind a four-byte header at its write pointer. It
knows the reader from the CAPR register only, which runs 16 bytes behind, and
drops a frame that would fill the ring. ROK is raised by a new frame and
cleared by writing it to ISR.
-/

namespace ShadOS.Rtl8139
open Machine

/-- A received frame, checksum included, with the status word the card puts before it. -/
structure Frame where
  status : ℕ
  data : List UInt8
  min : 4 ≤ data.length
  max : data.length ≤ 1600

/-- What the card writes: status, length, frame. -/
def Frame.bytes (f : Frame) : List UInt8 :=
  [UInt8.ofNat f.status, UInt8.ofNat (f.status / 2 ^ 8), UInt8.ofNat f.data.length,
    UInt8.ofNat (f.data.length / 2 ^ 8)] ++ f.data

structure Card where
  mem : Mem
  rbstart : ℕ
  capr : ℕ
  /-- The offset at which the next frame is written. -/
  cbr : ℕ
  isr : BitVec 16
  /-- Number of frames written so far. -/
  written : ℕ
  /-- The same, when ROK was last acknowledged. -/
  acked : ℕ
  /-- Numbers of frames that come in before each of the next accesses of the driver. -/
  arrivals : List ℕ

namespace Card

def rok (c : Card) : Bool := c.isr.getLsbD 0

def readPtr (c : Card) : ℕ := (c.capr + 16) % 8192

/-- The bytes up to the reader. -/
def room (c : Card) : ℕ := 8192 - (c.cbr + 8192 - c.readPtr) % 8192

variable (frames : ℕ → Frame)

/-- The next frame of the stream comes in, if it fits. -/
def deliver (c : Card) : Card :=
  let f := frames c.written
  if frameSize f.data.length < c.room then
    { c with
      mem := writeBytes c.mem (c.rbstart + c.cbr) f.bytes
      cbr := (c.cbr + frameSize f.data.length) % 8192
      isr := c.isr ||| 1#16
      written := c.written + 1 }
  else c

/-- The frames that come in before an access. -/
def arrive (c : Card) : Card :=
  match c.arrivals with
  | [] => c
  | n :: ns => (deliver frames)^[n] { c with arrivals := ns }

/-- Writing ones to ISR clears these bits. -/
def acknowledge (c : Card) (v : ℕ) : Card :=
  { c with isr := c.isr &&& ~~~(BitVec.ofNat 16 v), acked := if v.testBit 0 then c.written else c.acked }

/-- The driver tells how far it has read. -/
def setCapr (c : Card) (v : ℕ) : Card := { c with capr := v }

end Card

/-- The registers of the receive path; CMD reads as enabled, with BUFE in bit 0. -/
def ringCard (frames : ℕ → Frame) (ioBase : ℕ) : Device Card where
  inb p c :=
    let c := c.arrive frames
    (if p = ioBase + regCmd then if c.readPtr = c.cbr then 0x0D else 0x0C else 0, c)
  inw p c :=
    let c := c.arrive frames
    (if p = ioBase + regIsr then c.isr.toNat else 0, c)
  outw p v c :=
    let c := c.arrive frames
    if p = ioBase + regIsr then c.acknowledge v
    else if p = ioBase + regCapr then c.setCapr v else c
  load16 a c :=
    let c := c.arrive frames
    (readHalf c.mem a, c)

/-- The driver and the card, and the headers the driver has read. -/
structure Link where
  driver : Driver
  card : Card
  log : List (ℕ × ℕ)

inductive Event where
  | deliver
  /-- The card raises other interrupt causes. -/
  | raise (causes : BitVec 16)
  /-- The handler runs, while frames come in. -/
  | interrupt (arrivals : List ℕ)

namespace Link
variable (frames : ℕ → Frame) (ioBase : ℕ)

def allowed (_ : Link) : Event → Prop
  | .raise causes => causes.getLsbD 0 = false
  | _ => True

def step (s : Link) : Event → Option Link
  | .deliver => some { s with card := s.card.deliver frames }
  | .raise causes => some { s with card := { s.card with isr := s.card.isr ||| causes } }
  | .interrupt arrivals =>
    let r := rtlIrqHandler (recorded (ringCard frames ioBase)) s.driver
      ({ s.card with arrivals := arrivals }, s.log)
    some ⟨r.1, r.2.1, r.2.2⟩

/-- After `rtl8139_init`, before the first frame. -/
structure Fresh (s : Link) : Prop where
  io : s.driver.ioBase = ioBase
  rxOffset : s.driver.rxOffset = 0
  rxPacketsSeen : s.driver.rxPacketsSeen = 0
  rbstart : s.card.rbstart = s.driver.rxBuffer
  capr : s.card.capr = 0xFFF0
  cbr : s.card.cbr = 0
  rok : s.card.rok = false
  written : s.card.written = 0
  acked : s.card.acked = 0
  log : s.log = []

end Link

def link (frames : ℕ → Frame) (ioBase : ℕ) : System Link Event where
  init := Link.Fresh ioBase
  allowed := Link.allowed
  step := Link.step frames ioBase

/-- The lengths of the frames of the stream. -/
def frameLength (frames : ℕ → Frame) (k : ℕ) : ℕ := (frames k).data.length

/-- Where the card writes frame `k`. -/
def ringOffset (L : ℕ → ℕ) : ℕ → ℕ
  | 0 => 0
  | k + 1 => (ringOffset L k + 4 + L k + 3) / 4 * 4 % 8192

end ShadOS.Rtl8139

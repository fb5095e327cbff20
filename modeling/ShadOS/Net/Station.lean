import ShadOS.Net.Requests
import ShadOS.Rtl8139.Ready

/-! # The station from `net_init` on

The card writes frames into the memory that the driver fills with requests and
that the heap keeps its headers in. Frames of up to 1520 bytes stay inside the
block of the receive buffer, so neither direction disturbs the other.
-/

namespace ShadOS.Net
open Machine Rtl8139
open Heap (HeapVars HeapOk heapC InHeader payload_not_inHeader stop_eq)

/-- The static variables of rtl8139.c and net.c, the card with the memory it shares with them, and
what was received and asked. -/
structure Station where
  driver : Driver
  txBuffer : ℕ
  txCur : ℕ
  rtlReady : Bool
  netReady : Bool
  mac : Vector UInt8 6
  heap : HeapVars
  chip : Rtl8139.Chip
  log : List (ℕ × ℕ)
  wire : List (List UInt8)
  sent : List (List UInt8)
  asked : List (Vector UInt8 4)

namespace Station
variable (frames : ℕ → Frame) (ioBase : ℕ) (s : Station)

def mem : Mem := s.chip.rx.mem

/-- The receive path. -/
def link : Link := ⟨s.driver, s.chip.rx, s.log⟩

/-- The transmit path and net.c. -/
def sender : Sender where
  netReady := s.netReady
  mac := s.mac
  tx := ⟨s.mem, s.rtlReady, s.txBuffer, s.txCur, s.chip.tsad, s.chip.tsd, s.chip.waiting, s.chip.next,
    s.wire, s.sent⟩
  asked := s.asked

def withSender (t : Sender) : Station :=
  { s with
    txBuffer := t.tx.txBuffer
    txCur := t.tx.txCur
    rtlReady := t.tx.rtlReady
    netReady := t.netReady
    mac := t.mac
    chip := { s.chip with
      rx := { s.chip.rx with mem := t.tx.mem }
      tsad := t.tx.tsad
      tsd := t.tx.tsd
      waiting := t.tx.waiting
      next := t.tx.next }
    wire := t.tx.wire
    sent := t.tx.sent
    asked := t.asked }

/-- Behind `net_init`, which keeps the result of `rtl8139_init`. -/
def boot (k : Platform Rtl8139.Chip HeapVars) : Station where
  driver := k.driver
  txBuffer := k.txBuffer
  txCur := 0
  rtlReady := k.rtlReady
  netReady := k.rtlReady
  mac := Vector.ofFn (fun i => UInt8.ofNat (k.mac.getD i 0))
  heap := k.heap
  chip := { k.card with rx := { k.card.rx with mem := k.mem } }
  log := []
  wire := []
  sent := []
  asked := []

end Station

inductive Traffic where
  | deliver
  /-- The card raises other interrupt causes. -/
  | raise (causes : BitVec 16)
  /-- `rtl_irq_handler` runs, while frames come in. -/
  | interrupt (arrivals : List ℕ)
  | request (frame targetIp : ℕ)
  | transmit
  /-- The kernel writes memory. -/
  | store (mem : Mem)

namespace Station
variable (frames : ℕ → Frame) (ioBase : ℕ) (s : Station)

/-- The bytes of the block of `rx_buffer`. -/
def Ring (x : ℕ) : Prop := s.driver.rxBuffer ≤ x ∧ x < s.driver.rxBuffer + 9712

/-- Requests are laid out apart from the ring and the headers. Other writes leave the buffers alone
and the heap in order; allocations and releases of others are among them. -/
def allowed : Traffic → Prop
  | .raise causes => causes.getLsbD 0 = false
  | .request frame targetIp => s.sender.allowed (.request frame targetIp) ∧
      ∀ x, frame ≤ x → x < frame + 42 → ¬ s.Ring x ∧
        ∀ bs, HeapOk s.heap s.mem bs → ∀ b ∈ bs, ¬ InHeader b.addr x
  | .store mem => s.sender.allowed (.store mem) ∧ (∀ x, s.Ring x → mem x = s.mem x) ∧
      Buffers s.heap mem s.driver.rxBuffer s.txBuffer
  | _ => True

def step : Traffic → Option Station
  | .deliver => some { s with
      chip := if s.chip.receiver then { s.chip with rx := s.chip.rx.deliver frames } else s.chip }
  | .raise causes => some { s with
      chip := { s.chip with rx := { s.chip.rx with isr := s.chip.rx.isr ||| causes } } }
  | .interrupt arrivals =>
    let r := rtlIrqHandler (recorded (chipPorts frames ioBase).toDevice) s.driver
      ({ s.chip with rx := { s.chip.rx with arrivals := arrivals } }, s.log)
    some { s with driver := r.1, chip := r.2.1, log := r.2.2 }
  | .request frame targetIp => (s.sender.step (.request frame targetIp)).map s.withSender
  | .transmit => (s.sender.step .transmit).map s.withSender
  | .store mem => some { s with chip := { s.chip with rx := { s.chip.rx with mem := mem } } }

/-- A request finds a free descriptor, and those that wait ask for the same address. -/
def Same : Traffic → Prop
  | .request frame targetIp => s.sender.Same (.request frame targetIp)
  | _ => True

/-- The card behind the two registers that a request writes at `tx_cur`. -/
def written : Rtl8139.Chip :=
  (chipPorts frames ioBase).outl (ioBase + regTsd0 + s.txCur * 4) 60
    ((chipPorts frames ioBase).outl (ioBase + regTsad0 + s.txCur * 4) s.txBuffer s.chip)

/-- The frames were counted and read in order, each once, the buffers and the heap are as they should
be, and requests go out under the address of the card, through its descriptors. -/
structure Received : Prop where
  seen : s.driver.rxPacketsSeen = u32 s.log.length
  lengths : s.log.map Prod.snd = (List.range s.log.length).map (frameLength frames)
  written : s.log.length ≤ s.chip.rx.written
  buffers : Buffers s.heap s.mem s.driver.rxBuffer s.txBuffer
  own : s.mac = s.chip.idr
  sends : ∀ frame targetIp t, s.step frames ioBase (.request frame targetIp) = some t →
    (s.written frames ioBase).Carries t.sender.tx

end Station

/-- From a card that received nothing, whose reset is over in time. -/
def station (frames : ℕ → Frame) (ioBase : ℕ) : System Station Traffic where
  init s := ∃ k k' handler, Before ioBase k ∧ k.card.InTime ∧
    rtl8139Init (chipPorts frames ioBase) heapC handler k = some (1, k') ∧ s = Station.boot k'
  allowed := Station.allowed
  step := Station.step frames ioBase

end ShadOS.Net

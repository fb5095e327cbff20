import ShadOS.Rtl8139.Transmit

/-! # ARP requests of net.c

A request is laid out in an array on the stack and handed to `rtl8139_send`,
which copies it to the buffer of the card. The card takes it from there later.
-/

namespace ShadOS.Net
open Machine Rtl8139

/-- The static variables of net.c and of the transmit path, and the address of the card. -/
structure Sender where
  netReady : Bool
  mac : Vector UInt8 6
  tx : Transmitter
  /-- The addresses asked for by the successful calls. -/
  asked : List (Vector UInt8 4)

def writeBe16 (m : Mem) (p v : ℕ) : Mem :=
  let m := Function.update m p (UInt8.ofNat (v >>> 8))
  Function.update m (p + 1) (UInt8.ofNat v)

/-- `for (int i = 0; i < n; i++) p[i] = v(i);` -/
def fillLoop (m : Mem) (p n : ℕ) (v : Mem → ℕ → UInt8) : Mem :=
  (List.range n).foldl (fun m i => Function.update m (p + i) (v m i)) m

def senderIp : Vector UInt8 4 := #v[10, 0, 2, 15]

/-- The array `frame` once the request is laid out in it. -/
def buildFrame (m : Mem) (frame : ℕ) (srcMac : Vector UInt8 6) (targetIp : ℕ) : Mem :=
  let m := fillLoop m frame 6 (fun _ _ => 0xFF)
  let m := fillLoop m (frame + 6) 6 (fun _ i => srcMac.toList.getD i 0)
  let m := writeBe16 m (frame + 12) 0x0806
  let arp := frame + 14
  let m := writeBe16 m (arp + 0) 1
  let m := writeBe16 m (arp + 2) 0x0800
  let m := Function.update m (arp + 4) 6
  let m := Function.update m (arp + 5) 4
  let m := writeBe16 m (arp + 6) 1
  let m := fillLoop m (arp + 8) 6 (fun _ i => srcMac.toList.getD i 0)
  let m := fillLoop m (arp + 14) 4 (fun _ i => senderIp.toList.getD i 0)
  let m := fillLoop m (arp + 18) 6 (fun _ _ => 0x00)
  fillLoop m (arp + 24) 4 (fun m i => m (targetIp + i))

/-- The return code, and the state behind; `frame` is where the array lies on the stack. -/
def netSendArpRequest (s : Sender) (frame targetIp : ℕ) : ℤ × Sender :=
  if s.netReady = false then (-1, s)
  else
    let r := { s.tx with mem := buildFrame s.tx.mem frame s.mac targetIp }.rtl8139Send frame 42
    (r.1, { s with tx := r.2 })

/-- The address a pointer points at. -/
def ipAt (m : Mem) (p : ℕ) : Vector UInt8 4 := #v[m p, m (p + 1), m (p + 2), m (p + 3)]

/-! ## Requests and the card -/

inductive Event where
  | request (frame targetIp : ℕ)
  | transmit
  /-- The kernel writes memory outside the buffer of the card. -/
  | store (mem : Mem)

/-- The array is no part of the buffer, nor of the address asked for. -/
def Sender.allowed (s : Sender) : Event → Prop
  | .request frame targetIp =>
    (frame + 42 ≤ s.tx.txBuffer ∨ s.tx.txBuffer + txBufSize ≤ frame) ∧
      (targetIp + 4 ≤ frame ∨ frame + 42 ≤ targetIp)
  | .transmit => True
  | .store mem => ∀ x, s.tx.txBuffer ≤ x → x < s.tx.txBuffer + txBufSize → mem x = s.tx.mem x

def Sender.step (s : Sender) : Event → Option Sender
  | .request frame targetIp =>
    let r := netSendArpRequest s frame targetIp
    some { r.2 with
      asked := if r.1 = 0 then s.asked ++ [ipAt s.tx.mem targetIp] else s.asked }
  | .transmit => some { s with tx := s.tx.transmit }
  | .store mem => some { s with tx := { s.tx with mem := mem } }

/-- Behind `net_init`, which returns what `rtl8139_init` does. -/
def requests : System Sender Event where
  init s := transmission.init s.tx ∧ s.netReady = s.tx.rtlReady ∧ s.asked = []
  allowed := Sender.allowed
  step := Sender.step

/-! ## What a station on the wire understands -/

/-- The fields of an ARP packet in an Ethernet frame. -/
structure Arp where
  destination : List UInt8
  source : List UInt8
  operation : ℕ
  senderMac : List UInt8
  senderIp : List UInt8
  targetMac : List UInt8
  targetIp : List UInt8
  deriving DecidableEq

/-- A 16-bit field, the high byte first. -/
def be16At (f : List UInt8) (i : ℕ) : ℕ := 2 ^ 8 * (f.getD i 0).toNat + (f.getD (i + 1) 0).toNat

def field (f : List UInt8) (i n : ℕ) : List UInt8 := (f.drop i).take n

/-- An ARP packet for IPv4 over Ethernet, in a frame of at least sixty bytes. -/
def parseArp (f : List UInt8) : Option Arp :=
  if 60 ≤ f.length ∧ be16At f 12 = 0x0806 ∧ be16At f 14 = 1 ∧ be16At f 16 = 0x0800 ∧
      f.getD 18 0 = 6 ∧ f.getD 19 0 = 4 then
    some ⟨field f 0 6, field f 6 6, be16At f 20, field f 22 6, field f 28 4, field f 32 6,
      field f 38 4⟩
  else none

/-- "Who has `ip`? Tell 10.0.2.15", from the card to everybody. -/
def whoHas (mac : Vector UInt8 6) (ip : Vector UInt8 4) : Arp where
  destination := List.replicate 6 0xFF
  source := mac.toList
  operation := 1
  senderMac := mac.toList
  senderIp := [10, 0, 2, 15]
  targetMac := List.replicate 6 0
  targetIp := ip.toList

/-- What left the card, and what the waiting descriptors point at, are the requests made. -/
def Sender.Asks (s : Sender) : Prop :=
  (s.tx.wire ++ s.tx.queue.map s.tx.frameAt).map parseArp =
    s.asked.map (fun ip => some (whoHas s.mac ip))

/-- A request finds a free descriptor, and those that wait ask for the same address. -/
def Sender.Same (s : Sender) : Event → Prop
  | .request _ targetIp => s.netReady = true → s.tx.queue.length < 4 ∧
      (s.tx.queue ≠ [] → s.asked.getLast? = some (ipAt s.tx.mem targetIp))
  | _ => True

end ShadOS.Net

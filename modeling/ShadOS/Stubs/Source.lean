import ShadOS.Machine.Stack
import ShadOS.Usermode.Source

/-! # The interrupt stubs of low_level.S

A gate pushes what `iret` takes back, some exceptions an error code besides. The
stub of the vector fills up to the same layout, and the common stub saves the
registers, calls the C handler and restores what it finds on the stack.
-/

namespace ShadOS.Stubs
open Machine
open Usermode (Seg State low16 pushaOrder)

/-- The instructions of the stubs: those of the way in, and those of the way back besides. -/
inductive Op where
  | op (o : Usermode.Op)
  | popa
  | addEsp (v : ℕ)
  | sti
  deriving Repr

/-- `popa` skips the saved stack pointer. -/
def exec (s : State) : Op → State
  | .op o => s.exec o
  | .popa => { s with cpu := s.cpu.popAll pushaOrder.reverse }
  | .addEsp v => { s with cpu := s.cpu.set .esp (u32 (s.cpu.regs .esp + v)) }
  | .sti => { s with eflags := s.eflags ||| 0x200 }

def run (s : State) (code : List Op) : State := code.foldl exec s

/-! ## The text of low_level.S -/

/-- `ISR_NOERRCODE` -/
def isrNoerrcode (num : ℕ) : List Usermode.Op := [.cli, .pushImm 0, .pushImm num]

/-- `ISR_ERRCODE` -/
def isrErrcode (num : ℕ) : List Usermode.Op := [.cli, .pushImm num]

/-- `IRQ` -/
def irq (intNo : ℕ) : List Usermode.Op := [.cli, .pushImm 0, .pushImm intNo]

/-- The vectors with `ISR_ERRCODE`. -/
def errcodeVectors : List ℕ := [8, 10, 11, 12, 13, 14, 17]

/-- The stub of a vector, up to its jump; `none` where low_level.S has none. -/
def stub (vector : ℕ) : Option (List Usermode.Op) :=
  if vector ∈ errcodeVectors then some (isrErrcode vector)
  else if vector < 32 ∨ vector = 128 then some (isrNoerrcode vector)
  else if vector < 48 then some (irq vector)
  else none

/-- `isr_common_stub` and `irq_common_stub` up to their calls, with the return address pushed. -/
def commonEntry (afterCall : ℕ) : List Usermode.Op :=
  [.pusha, .fromSeg .ds .eax, .base (.push .eax),
    .movImm16 0x10 .eax, .toSeg .eax .ds, .toSeg .eax .es, .toSeg .eax .fs, .toSeg .eax .gs,
    .base (.push .esp), .pushImm afterCall]

/-- The two common stubs behind their calls. -/
def commonExit : List Op :=
  [.addEsp 4, .op (.base (.pop .eax)),
    .op (.toSeg .eax .ds), .op (.toSeg .eax .es), .op (.toSeg .eax .fs), .op (.toSeg .eax .gs),
    .popa, .addEsp 8, .sti, .op .iret]

/-! ## The processor -/

/-- An interrupt or an exception through the gate to `entry`; the vectors of `errcodeVectors` come
with an error code. -/
def gate (s : State) (vector errCode entry : ℕ) : State :=
  let t := s.interrupt entry
  if vector ∈ errcodeVectors then { t with cpu := t.cpu.pushWord errCode } else t

/-- The C handler starts. -/
def atHandler (s : State) (vector errCode entry afterCall : ℕ) : Option State :=
  (stub vector).map (fun code => ((gate s vector errCode entry).run code).run (commonEntry afterCall))

/-- `struct registers` of the C handlers, up to the flags; behind them lie the stack pointer and the
stack segment of an outer ring. -/
@[ext] structure Registers where
  ds : ℕ
  edi : ℕ
  esi : ℕ
  ebp : ℕ
  ebx : ℕ
  edx : ℕ
  ecx : ℕ
  eax : ℕ
  intNo : ℕ
  errCode : ℕ
  eip : ℕ
  cs : ℕ
  eflags : ℕ

/-- `struct registers` in memory; the selector is the low half of the first word. -/
def registersAt (m : Mem) (a : ℕ) : Registers where
  ds := readWord m a % 2 ^ 16
  edi := readWord m (a + 4)
  esi := readWord m (a + 8)
  ebp := readWord m (a + 12)
  ebx := readWord m (a + 20)
  edx := readWord m (a + 24)
  ecx := readWord m (a + 28)
  eax := readWord m (a + 32)
  intNo := readWord m (a + 36)
  errCode := readWord m (a + 40)
  eip := readWord m (a + 44)
  cs := readWord m (a + 48)
  eflags := readWord m (a + 52)

/-- The way back from the C handler, entered behind its `ret`. -/
def leave (t : State) : State := run t commonExit

end ShadOS.Stubs

import ShadOS.Heap.Source
import ShadOS.Machine.Cpu

/-! # Ring 3 and back

`enter_usermode` leaves the kernel by `iret`. The exit system call comes back
through the stub of interrupt 128 and the C dispatcher, whose compiled code is
a parameter, to `return_to_kernel`, which drops the interrupt frame and jumps
back with the two words that `enter_usermode` saved.
-/

namespace ShadOS.Usermode
open Machine
open Heap (not32)

inductive Seg where
  | cs
  | ss
  | ds
  | es
  | fs
  | gs
  deriving DecidableEq, Repr

/-- The processor with its segment selectors and flags, and the stack of the TSS. -/
structure State where
  cpu : Cpu
  segs : Seg → ℕ
  eflags : ℕ
  ss0 : ℕ
  esp0 : ℕ

/-- The instructions of these routines, operands in the order of the assembly text. -/
inductive Op where
  | base (i : Instr)
  | pushImm (v : ℕ)
  | pushf
  | pusha
  | orImm (v : ℕ) (dst : Reg)
  /-- A move to the low half of a register. -/
  | movImm16 (v : ℕ) (dst : Reg)
  | toSeg (src : Reg) (dst : Seg)
  | fromSeg (src : Seg) (dst : Reg)
  | storeAbs (src : Reg) (addr : ℕ)
  | loadAbs (addr : ℕ) (dst : Reg)
  | cli
  | iret
  deriving Repr

/-- A new low half. -/
def low16 (old v : ℕ) : ℕ := old / 2 ^ 16 * 2 ^ 16 + v % 2 ^ 16

def pushaOrder : List Reg := [.eax, .ecx, .edx, .ebx, .esp, .ebp, .esi, .edi]

namespace State

/-- The word `k` above the top of the stack. -/
def word (s : State) (k : ℕ) : ℕ := readWord s.cpu.mem (u32 (s.cpu.regs .esp + 4 * k))

/-- Flags, code segment and instruction pointer are popped; on the way to an outer ring also
the stack. -/
def iret (s : State) : State :=
  let esp := if s.word 1 &&& 3 = s.segs .cs &&& 3 then u32 (s.cpu.regs .esp + 12) else s.word 3
  let ss := if s.word 1 &&& 3 = s.segs .cs &&& 3 then s.segs .ss else s.word 4
  { s with
    cpu := { s.cpu.set .esp esp with eip := s.word 0 }
    segs := Function.update (Function.update s.segs .cs (s.word 1)) .ss ss
    eflags := s.word 2 }

def setSeg (s : State) (g : Seg) (v : ℕ) : State := { s with segs := Function.update s.segs g v }

def exec (s : State) : Op → State
  | .base i => { s with cpu := s.cpu.exec i }
  | .pushImm v => { s with cpu := s.cpu.pushWord v }
  | .pushf => { s with cpu := s.cpu.pushWord s.eflags }
  | .pusha => { s with cpu := s.cpu.pushAll (pushaOrder.map s.cpu.regs) }
  | .orImm v dst => { s with cpu := s.cpu.set dst (s.cpu.regs dst ||| v) }
  | .movImm16 v dst => { s with cpu := s.cpu.set dst (low16 (s.cpu.regs dst) v) }
  | .toSeg src dst => s.setSeg dst (s.cpu.regs src % 2 ^ 16)
  | .fromSeg src dst => { s with cpu := s.cpu.set dst (low16 (s.cpu.regs dst) (s.segs src)) }
  | .storeAbs src addr => { s with cpu := s.cpu.write addr (s.cpu.regs src) }
  | .loadAbs addr dst => { s with cpu := s.cpu.set dst (readWord s.cpu.mem addr) }
  | .cli => { s with eflags := s.eflags &&& not32 0x200 }
  | .iret => s.iret

def run (s : State) (code : List Op) : State := code.foldl exec s

/-- The interrupt gate of vector 128, from an outer ring onto the stack of the TSS. -/
def interrupt (s : State) (isr128 : ℕ) : State :=
  let outer := s.segs .cs &&& 3 ≠ 0
  let c := if outer then s.cpu.set .esp s.esp0 else s.cpu
  let old := if outer then [s.segs .ss, s.cpu.regs .esp] else []
  { s with
    cpu := { c.pushAll (old ++ [s.eflags, s.segs .cs, s.cpu.eip]) with eip := isr128 }
    segs := Function.update (Function.update s.segs .cs 0x08) .ss
      (if outer then s.ss0 else s.segs .ss)
    eflags := s.eflags &&& not32 0x200 }

end State

/-- Addresses the linker chose: `km_esp` with `km_ebp` behind it, the stub of vector 128, and the
return address of its call of `isr_handler`. -/
structure Image where
  km : ℕ
  isr128 : ℕ
  afterCall : ℕ

variable (img : Image)

/-- `enter_usermode` of low_level.S. -/
def enterUsermode : List Op :=
  [.base (.load 4 .esp .eax), .base (.load 8 .esp .ecx),
    .storeAbs .esp img.km, .storeAbs .ebp (img.km + 4),
    .movImm16 0x23 .edx, .toSeg .edx .ds, .toSeg .edx .es, .toSeg .edx .fs, .toSeg .edx .gs,
    .pushImm 0x23, .base (.push .ecx), .pushf, .base (.pop .edx), .orImm 0x200 .edx,
    .base (.push .edx), .pushImm 0x1B, .base (.push .eax), .iret]

/-- `return_to_kernel` of low_level.S. -/
def returnToKernel : List Op :=
  [.loadAbs img.km .esp, .loadAbs (img.km + 4) .ebp, .base .ret]

/-- `isr128` and `isr_common_stub`, up to the call of `isr_handler`. -/
def isrStub : List Op :=
  [.cli, .pushImm 0, .pushImm 128, .pusha, .fromSeg .ds .eax, .base (.push .eax),
    .movImm16 0x10 .eax, .toSeg .eax .ds, .toSeg .eax .es, .toSeg .eax .fs, .toSeg .eax .gs,
    .base (.push .esp), .pushImm img.afterCall]

def sysExit : ℕ := 1
def sysWrite : ℕ := 4

/-- The branches of `isr_handler` and `syscall_dispatch`. -/
inductive Path where
  | write
  | exit
  | unknown
  | exception
  deriving DecidableEq, Repr

/-- The branch taken for `struct registers` at `regs`. -/
def isrHandler (m : Mem) (regs : ℕ) : Path :=
  let intNo := readWord m (regs + 36)
  let eax := readWord m (regs + 32)
  if intNo = 128 then
    if eax = sysWrite then .write else if eax = sysExit then .exit else .unknown
  else .exception

/-- What the time in ring 3 leaves: the user code, its other system calls and the interrupts
meanwhile. -/
structure Ring3 where
  regs : Reg → ℕ
  mem : Mem
  eip : ℕ
  eflags : ℕ
  segs : Seg → ℕ

/-- The code segment stays the one of ring 3. -/
def Ring3.leave (u : Ring3) (s : State) : State :=
  { s with
    cpu := ⟨fun r => u32 (u.regs r), u.eip, u.mem⟩
    segs := Function.update u.segs .cs (s.segs .cs)
    eflags := u.eflags }

/-- The user code starts. -/
def entered (s : State) : State := s.run (enterUsermode img)

/-- `isr_handler` starts, for the system call at the end of the time in ring 3. -/
def atHandler (s : State) (u : Ring3) : State :=
  ((u.leave (entered img s)).interrupt img.isr128).run (isrStub img)

/-- From the start of `isr_handler` back to the kernel, if the system call is the exit: `compiled`
is the code of `isr_handler` and `syscall_dispatch` up to the call of `return_to_kernel`. -/
def dispatch (compiled : State → State) (h : State) : Option State :=
  match isrHandler h.cpu.mem (h.word 1) with
  | .exit => some ((compiled h).run (returnToKernel img))
  | _ => none

/-- The whole run, if it ends with the exit system call. -/
def usermodeRun (compiled : State → State) (s : State) (u : Ring3) : Option State :=
  dispatch img compiled (atHandler img s u)

/-- The registers and the instruction pointer behind an ordinary `ret` from `s`, as the caller
expects them. -/
structure LikeRet (s t : State) : Prop where
  eip : t.cpu.eip = s.cpu.top
  esp : t.cpu.regs .esp = u32 (s.cpu.regs .esp + 4)
  ebx : t.cpu.regs .ebx = s.cpu.regs .ebx
  esi : t.cpu.regs .esi = s.cpu.regs .esi
  edi : t.cpu.regs .edi = s.cpu.regs .edi
  ebp : t.cpu.regs .ebp = s.cpu.regs .ebp

end ShadOS.Usermode

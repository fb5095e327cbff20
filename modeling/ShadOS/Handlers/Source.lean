import ShadOS.Strings.Printing
import ShadOS.Stubs.Frame
import ShadOS.Paging.Source

/-! # Exceptions, page faults and system calls

`isr_handler` of idt.c gets every exception and the software interrupt of ring 3.
It returns to the stub from system calls only; it never returns from an
exception, and the exit leaves for `return_to_kernel`. The stack of the stub and
the buffer of a write are reached through the page tables.
-/

namespace ShadOS.Handlers
open Machine Strings
open Stubs (atHandler frameSize registersAt stackTop)
open Usermode (sysExit sysWrite)

inductive Colour where
  | black
  | red
  | lightGrey
  | yellow
  | white
  deriving DecidableEq, Repr

/-- A call of the terminal; a string without its terminator. -/
inductive Call where
  | putchar (c : UInt8)
  | writestring (s : List UInt8)
  | setcolor (fg bg : Colour)
  deriving DecidableEq, Repr

/-- How a handler goes on. -/
inductive Outcome where
  | returned
  | toKernel
  | halted
  /-- The handler itself reads from a page that is not there. -/
  | faulted (va : ℕ)
  deriving DecidableEq, Repr

/-- The page tables map what gate and stub push. -/
def StackMapped (p : Paging.State) (u : Usermode.State) : Prop :=
  ∀ k < 8 + frameSize u, p.translate (sub32 (stackTop u) (k + 1)) ≠ none

instance (p : Paging.State) (u : Usermode.State) : Decidable (StackMapped p u) :=
  inferInstanceAs (Decidable (∀ k < 8 + frameSize u, p.translate (sub32 (stackTop u) (k + 1)) ≠ none))

/-- An interrupt or exception under page tables; with a page of the stack not there, the processor
faults again before the handler starts. -/
def enter (p : Paging.State) (u : Usermode.State) (vector errCode entry afterCall : ℕ) :
    Option Usermode.State :=
  if StackMapped p u then atHandler u vector errCode entry afterCall else none

/-- The memory, the counter of syscall.c, and the calls of the terminal so far. -/
structure State where
  mem : Mem
  syscallCount : ℕ
  screen : List Call

/-- `terminal_writestring` of a literal. -/
def say (s : String) : Call := .writestring (text s)

def writeHex (n : ℕ) : Call := .writestring (untilNul (hexText (u32 n)))

/-- No result where the digits leave the buffer. -/
def writeUint (n : ℕ) : Option Call :=
  (uintText (Vector.replicate 11 0) (u32 n)).map (fun t => .writestring (untilNul t))

def State.print (s : State) (calls : List Call) : State := { s with screen := s.screen ++ calls }

/-- `regs->eax = v` -/
def State.setEax (s : State) (regs v : ℕ) : State := { s with mem := writeWord s.mem (regs + 32) v }

/-! ## syscall.c -/

/-- The lines of the first write. -/
def banner (cs : ℕ) : Option (List Call) :=
  (writeUint (cs &&& 0x3)).map (fun rpl =>
    [.setcolor .yellow .black, say "[noyau] syscall recu depuis CS=0x", writeHex cs, say " (RPL=", rpl,
      say ") -> ring3 confirme\n", .setcolor .lightGrey .black])

/-- `for (i …) terminal_putchar(buf[i])`: the calls, and the address where the loop faults, if it
does. -/
def putchars (p : Paging.State) (m : Mem) : ℕ → ℕ → List Call × Option ℕ
  | _, 0 => ([], none)
  | buf, len + 1 =>
    match p.translate buf with
    | none => ([], some buf)
    | some (pa, _) =>
      let rest := putchars p m (u32 (buf + 1)) len
      (.putchar (m pa) :: rest.1, rest.2)

def syscallDispatch (p : Paging.State) (s : State) (regs : ℕ) : Option (Outcome × State) :=
  let q := registersAt s.mem regs
  let s := { s with syscallCount := u32 (s.syscallCount + 1) }
  if q.eax = sysWrite then
    (if s.syscallCount = 1 then banner q.cs else some []).map (fun first =>
      match putchars p s.mem q.ebx q.ecx with
      | (calls, some va) => (.faulted va, (s.print first).print calls)
      | (calls, none) => (.returned, ((s.print first).print calls).setEax regs q.ecx))
  else if q.eax = sysExit then
    some (.toKernel, s.print [say "[noyau] syscall exit() recu, retour au contexte noyau.\n"])
  else
    some (.returned, (s.print [say "[noyau] appel systeme inconnu.\n"]).setEax regs (2 ^ 32 - 1))

/-! ## paging.c -/

/-- `cr2` is the faulting address. -/
def pageFaultHandler (s : State) (cr2 regs : ℕ) : Outcome × State :=
  let errCode := (registersAt s.mem regs).errCode
  (.halted, s.print
    [.setcolor .white .red, say "\n*** PAGE FAULT *** adresse=", writeHex cr2,
      say (if errCode &&& 0x1 = 0 then " (page absente)" else " (violation de protection)"),
      say (if errCode &&& 0x2 ≠ 0 then ", ecriture" else ", lecture"),
      say (if errCode &&& 0x4 ≠ 0 then ", mode utilisateur" else ", mode noyau"),
      say "\nSysteme arrete.\n", .setcolor .lightGrey .black])

/-! ## idt.c -/

def exceptionMessages : List String :=
  ["Division par zero", "Debug", "NMI", "Breakpoint",
    "Overflow", "Depassement de limite", "Opcode invalide", "Peripherique absent",
    "Double fault", "Depassement coprocesseur", "TSS invalide", "Segment absent",
    "Faute de pile", "Protection generale (GPF)", "Page fault", "Reservee",
    "Erreur x87", "Alignement", "Machine check", "SIMD",
    "Virtualisation", "Reservee", "Reservee", "Reservee",
    "Reservee", "Reservee", "Reservee", "Reservee",
    "Reservee", "Reservee", "Securite", "Reservee"]

def isrHandler (p : Paging.State) (s : State) (cr2 regs : ℕ) : Option (Outcome × State) :=
  let intNo := (registersAt s.mem regs).intNo
  if intNo = 128 then syscallDispatch p s regs
  else if intNo = 14 then some (pageFaultHandler s cr2 regs)
  else if intNo < 32 then
    exceptionMessages[intNo]?.map (fun message => (.halted, s.print
      [.setcolor .white .red, say "\n*** EXCEPTION : ", say message, say " *** Systeme arrete.\n",
        .setcolor .lightGrey .black]))
  else some (.returned, s)

end ShadOS.Handlers

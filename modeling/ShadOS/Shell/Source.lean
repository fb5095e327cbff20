import ShadOS.Heap.Stats
import ShadOS.Strings.Printing
import ShadOS.Ramfs.Source

/-! # The shell of shell.c

The command buffer lies in the common memory, at an address the linker chose.
The terminal is the list of the calls made to it. Commands that only concern
other drivers are a parameter.
-/

namespace ShadOS.Shell
open Machine Strings Ramfs
open Heap (HeapVars heapC heapGetStats heapGetBase)

def cmdBufferSize : ℕ := 128

def newline : UInt8 := 10
def backspace : UInt8 := 8
def space : UInt8 := 32

inductive Colour where
  | black
  | lightGrey
  | yellow
  deriving DecidableEq, Repr

/-- A call of the terminal; a string without its terminator. -/
inductive Call where
  | putchar (c : UInt8)
  | writestring (s : List UInt8)
  | setcolor (fg bg : Colour)
  | backspace
  | init
  deriving DecidableEq, Repr

/-- The memory with the file system and the heap, and the calls of the terminal so far. -/
structure Kernel where
  fs : FileSystem HeapVars
  screen : List Call

/-- Why a run ends early: an access outside the command buffer, or a function called by the shell
that has no result. -/
inductive Stop where
  | outside
  | stuck
  deriving DecidableEq, Repr

def orStop {α : Type} (e : Stop) : Option α → Except Stop α
  | none => .error e
  | some a => .ok a

namespace Kernel
variable (k : Kernel)

def call (c : Call) : Kernel := { k with screen := k.screen ++ [c] }

def setMem (m : Mem) : Kernel := { k with fs := { k.fs with mem := m } }

/-- `terminal_writestring` of a literal. -/
def say (t : String) : Kernel := k.call (.writestring (text t))

/-- `terminal_writestring` of a string in memory. -/
def writestring (s : List UInt8) : Option Kernel :=
  if 0 ∈ s then some (k.call (.writestring (untilNul s))) else none

def writeUint (n : ℕ) : Option Kernel :=
  (uintText (Vector.replicate 11 0) (u32 n)).bind k.writestring

def writeHex (n : ℕ) : Option Kernel := k.writestring (hexText (u32 n))

def kmalloc (n : ℕ) : Option (ℕ × Kernel) :=
  (heapC.kmalloc k.fs.heap k.fs.mem n).map (fun r =>
    (r.1, { k with fs := { k.fs with heap := r.2.1, mem := r.2.2 } }))

def kfree (p : ℕ) : Option Kernel :=
  (heapC.kfree k.fs.heap k.fs.mem p).map (fun r =>
    { k with fs := { k.fs with heap := r.1, mem := r.2 } })

end Kernel

def printPrompt (k : Kernel) : Kernel :=
  (((k.call (.setcolor .yellow .black)).say "\nshadestia> ").call (.setcolor .lightGrey .black))

/-! ## The command buffer -/

section buffer
variable (buf : ℕ)

/-- The characters of the buffer from index `p` on. -/
def chars (m : Mem) (p : ℕ) : List UInt8 := readBytes m (buf + p) (cmdBufferSize - p)

/-- `cmd_buffer[i] = c`. -/
def storeChar (m : Mem) (i : ℕ) (c : UInt8) : Option Mem :=
  if i < cmdBufferSize then some (Function.update m (buf + i) c) else none

/-- `while (*p && *p != ' ') p++;` as the number of steps. -/
def skipWord : List UInt8 → Option ℕ
  | [] => none
  | c :: l => if c ≠ 0 ∧ c ≠ space then (skipWord l).map (· + 1) else some 0

/-- `while (*p == ' ') p++;` as the number of steps. -/
def skipSpaces : List UInt8 → Option ℕ
  | [] => none
  | c :: l => if c = space then (skipSpaces l).map (· + 1) else some 0

/-- Pointers are indices of the buffer. -/
def splitCommand (m : Mem) (line : ℕ) : Option (ℕ × Mem) :=
  (skipWord (chars buf m line)).bind (fun n =>
    if m (buf + (line + n)) = space then
      (storeChar buf m (line + n) 0).bind (fun m =>
        (skipSpaces (chars buf m (line + n + 1))).map (fun k => (line + n + 1 + k, m)))
    else some (line + n, m))

end buffer

/-! ## The commands -/

def cmdHelp (k : Kernel) : Kernel :=
  k.say ("Commandes disponibles :\n" ++
    "  help     - affiche cette aide\n" ++
    "  clear    - efface l'ecran\n" ++
    "  echo T   - affiche le texte T\n" ++
    "  uptime   - temps ecoule depuis le demarrage\n" ++
    "  meminfo  - etat du tas dynamique (kmalloc/kfree)\n" ++
    "  alloctest- demontre kmalloc/kfree en direct\n" ++
    "  ps       - liste les taches et leur etat\n" ++
    "  ls       - liste les fichiers (systeme de fichiers RAM)\n" ++
    "  cat F    - affiche le contenu du fichier F\n" ++
    "  write F T- ecrit le texte T dans le fichier F (le cree si besoin)\n" ++
    "  rm F     - supprime le fichier F\n" ++
    "  mouse    - affiche l'etat courant de la souris PS/2\n" ++
    "  gfx      - demo mode graphique VESA (irreversible sans reboot)\n" ++
    "  usertest - execute du code en ring3 (mode utilisateur) via syscall\n" ++
    "  nettest  - detecte la carte reseau et envoie une requete ARP\n" ++
    "  reboot   - redemarre la machine\n")

def cmdEcho (args : List UInt8) (k : Kernel) : Option Kernel :=
  (k.writestring args).map (fun k => k.say "\n")

def cmdMeminfo (k : Kernel) : Option Kernel := do
  let t ← heapGetStats k.fs.heap k.fs.mem
  let k ← (k.say ("Pagination : ACTIVE (identity mapping 16 Mo)\n" ++
    "Tas dynamique (heap) :\n" ++
    "  Base       : ")).writeHex (heapGetBase k.fs.heap)
  let k ← (k.say "\n  Taille totale : ").writeUint t.total
  let k ← (k.say " octets\n  Utilisee      : ").writeUint t.used
  let k ← (k.say " octets\n  Libre         : ").writeUint t.freeBytes
  let k ← (k.say " octets\n  Blocs libres  : ").writeUint t.freeBlocks
  some (k.say "\n")

/-- The heap in use, as `cmd_alloctest` reports it each time. -/
def sayUse (k : Kernel) : Option Kernel := do
  let t ← heapGetStats k.fs.heap k.fs.mem
  let k ← (k.say "  utilise=").writeUint t.used
  (k.say " octets, libre=").writeUint t.freeBytes

/-- What `cmd_alloctest` stores in its blocks `a` and `c`. -/
def fillTest (m : Mem) (a c : ℕ) : Mem :=
  let m := writeBytes m a ((List.range 31).map (fun i => UInt8.ofNat (65 + i % 26)))
  let m := Function.update m (a + 31) 0
  fillWords m c (fun i => i * i) (List.range 10)

/-- The rest of `cmd_alloctest`, with its three blocks. -/
def showTest (a b c : ℕ) (k : Kernel) : Option Kernel := do
  let k := k.setMem (fillTest k.fs.mem a c)
  let k ← (k.say "Allocations : a(32o)=").writeHex a
  let k ← (k.say " b(128o)=").writeHex b
  let k ← (k.say " c(40o)=").writeHex c
  let k ← ((k.say "\n").say "Contenu de a  : ").writestring (readBytes k.fs.mem a 32)
  let k ← (k.say "\nContenu de c  : c[9]=").writeUint (readWord k.fs.mem (c + 4 * 9))
  let k ← sayUse ((k.say " (attendu 81)\n").say "Apres allocation :\n")
  let k ← (k.say " octets\n").kfree a
  let k ← k.kfree b
  let k ← k.kfree c
  let k ← sayUse (k.say "Apres liberation (kfree) :\n")
  let t ← heapGetStats k.fs.heap k.fs.mem
  let k ← (k.say " octets, blocs libres=").writeUint t.freeBlocks
  some (k.say "\n")

def cmdAlloctest (k : Kernel) : Option Kernel := do
  let k ← sayUse (k.say "Avant allocation :\n")
  let (a, k) ← (k.say " octets\n").kmalloc 32
  let (b, k) ← k.kmalloc 128
  let (c, k) ← k.kmalloc (4 * 10)
  if a = 0 ∨ b = 0 ∨ c = 0 then some (k.say "Echec d'allocation !\n") else showTest a b c k

/-- One slot of `ramfs_list`. -/
def listSlot (k : Kernel) (i : Fin ramfsMaxFiles) : Option Kernel :=
  if (k.fs.files i).used then do
    let k ← (k.say "  ").writestring (k.fs.files i).name.toList
    let k ← (k.say "  (").writeUint (k.fs.files i).size
    some (k.say " octets)\n")
  else some k

def ramfsList (k : Kernel) : Option Kernel :=
  ((List.finRange ramfsMaxFiles).foldlM listSlot k).map (fun k =>
    if ∃ i, (k.fs.files i).used = true then k else k.say "  (aucun fichier)\n")

/-- `Fichier introuvable`, the answer of two commands. -/
def sayMissing (filename : List UInt8) (k : Kernel) : Option Kernel :=
  ((k.say "Fichier introuvable : ").writestring filename).map (fun k => k.say "\n")

def cmdCat (filename : List UInt8) (k : Kernel) : Option Kernel :=
  filename.head?.bind (fun c =>
    if c = 0 then some (k.say "Usage : cat <fichier>\n")
    else (ramfsRead k.fs filename).bind fun
      | (_, none) => sayMissing filename k
      | (_, some (data, size)) =>
        let content := readBytes k.fs.mem data size
        let k := { k with screen := k.screen ++ content.map .putchar }
        some (if content.getLast? = some newline then k else k.call (.putchar newline)))

section shell
variable (buf : ℕ)

/-- The file name at `args`. -/
def cmdRm (args : ℕ) (k : Kernel) : Option Kernel :=
  (chars buf k.fs.mem args).head?.bind (fun c =>
    if c = 0 then some (k.say "Usage : rm <fichier>\n")
    else do
      let (code, fs) ← ramfsDelete heapC k.fs (chars buf k.fs.mem args)
      let k := { k with fs := fs }
      if code = 0 then
        let k ← (k.say "Supprime : ").writestring (chars buf k.fs.mem args)
        some (k.say "\n")
      else sayMissing (chars buf k.fs.mem args) k)

/-- `cmd_write` behind its second split: the file name at `args`, its content at `content`. -/
def writeFile (args content : ℕ) (k : Kernel) : Option Kernel :=
  (chars buf k.fs.mem args).head?.bind (fun c =>
    if c = 0 then some (k.say "Usage : write <fichier> <texte>\n")
    else do
      let size ← strlen (chars buf k.fs.mem content)
      let (code, fs) ← ramfsWrite heapC k.fs (chars buf k.fs.mem args) (buf + content) size
      let k := { k with fs := fs }
      if code = 0 then
        let k ← (k.say "Ecrit : ").writestring (chars buf k.fs.mem args)
        let size ← strlen (chars buf k.fs.mem content)
        let k ← (k.say " (").writeUint size
        some (k.say " octets)\n")
      else some (k.say "Echec de l'ecriture (table de fichiers pleine ou tas sature).\n"))

def cmdWrite (args : ℕ) (k : Kernel) : Except Stop Kernel :=
  (orStop .outside (splitCommand buf k.fs.mem args)).bind (fun (content, m) =>
    orStop .stuck (writeFile buf args content (k.setMem m)))

inductive Command where
  | help
  | clear
  | echo
  | uptime
  | meminfo
  | alloctest
  | ps
  | ls
  | cat
  | write
  | rm
  | mouse
  | gfx
  | usertest
  | nettest
  | reboot
  deriving DecidableEq, Repr

def Command.word : Command → String
  | .help => "help"
  | .clear => "clear"
  | .echo => "echo"
  | .uptime => "uptime"
  | .meminfo => "meminfo"
  | .alloctest => "alloctest"
  | .ps => "ps"
  | .ls => "ls"
  | .cat => "cat"
  | .write => "write"
  | .rm => "rm"
  | .mouse => "mouse"
  | .gfx => "gfx"
  | .usertest => "usertest"
  | .nettest => "nettest"
  | .reboot => "reboot"

/-- In the order of the comparisons. -/
def commands : List Command :=
  [.help, .clear, .echo, .uptime, .meminfo, .alloctest, .ps, .ls, .cat, .write, .rm, .mouse, .gfx,
    .usertest, .nettest, .reboot]

/-- The first command whose word the line is. -/
def findCommand (line : List UInt8) : List Command → Option (Option Command)
  | [] => some none
  | c :: cs => (strcmp line (text c.word ++ [0])).bind (fun r =>
      if r = 0 then some (some c) else findCommand line cs)

variable (ext : Command → Kernel → Option Kernel)

/-- The branches of `shell_execute` without the prompt; `ext` are the commands of other drivers. -/
def runCommand (args : ℕ) (k : Kernel) : Command → Except Stop Kernel
  | .help => .ok (cmdHelp k)
  | .clear => .ok (k.call .init)
  | .echo => orStop .stuck (cmdEcho (chars buf k.fs.mem args) k)
  | .meminfo => orStop .stuck (cmdMeminfo k)
  | .alloctest => orStop .stuck (cmdAlloctest k)
  | .ls => orStop .stuck (ramfsList k)
  | .cat => orStop .stuck (cmdCat (chars buf k.fs.mem args) k)
  | .write => cmdWrite buf args k
  | .rm => orStop .stuck (cmdRm buf args k)
  | c => orStop .stuck (ext c k)

def sayUnknown (line : List UInt8) (k : Kernel) : Option Kernel :=
  ((k.say "Commande inconnue : ").writestring line).map (fun k => k.say " (tapez 'help')\n")

/-- `shell_execute` behind its split. -/
def dispatch (line args : ℕ) (k : Kernel) : Except Stop Kernel :=
  match chars buf k.fs.mem line with
  | [] => .error .outside
  | c :: cs =>
    if c = 0 then .ok (printPrompt k)
    else (orStop .stuck (findCommand (c :: cs) commands)).bind fun
      | none => (orStop .stuck (sayUnknown (c :: cs) k)).map printPrompt
      | some .clear => runCommand buf ext args k .clear
      | some c => (runCommand buf ext args k c).map printPrompt

def shellExecute (line : ℕ) (k : Kernel) : Except Stop Kernel :=
  (orStop .outside (splitCommand buf k.fs.mem line)).bind (fun (args, m) =>
    dispatch buf ext line args (k.setMem m))

/-- The kernel with `cmd_len`, and the strings that `shell_execute` was given. -/
structure State where
  kernel : Kernel
  cmdLen : ℕ
  given : List (List UInt8)

def shellInit (s : State) : State :=
  { s with
    kernel := printPrompt (s.kernel.say "\nTapez 'help' pour la liste des commandes.")
    cmdLen := 0
    given := [] }

def shellHandleChar (s : State) (c : UInt8) : Except Stop State :=
  if c = newline then
    let k := s.kernel.call (.putchar newline)
    (orStop .outside (storeChar buf k.fs.mem s.cmdLen 0)).bind (fun m =>
      (shellExecute buf ext 0 (k.setMem m)).map (fun k =>
        { kernel := k, cmdLen := 0, given := s.given ++ [untilNul (chars buf m 0)] }))
  else if c = backspace then
    if 0 < s.cmdLen then .ok { s with kernel := s.kernel.call .backspace, cmdLen := s.cmdLen - 1 }
    else .ok s
  else if s.cmdLen < cmdBufferSize - 1 then
    (orStop .outside (storeChar buf s.kernel.fs.mem s.cmdLen c)).map (fun m =>
      { s with kernel := (s.kernel.setMem m).call (.putchar c), cmdLen := s.cmdLen + 1 })
  else .ok s

/-- The characters one after the other, each call behind the one before. -/
def feed (s : State) (cs : List UInt8) : Except Stop State := cs.foldlM (shellHandleChar buf ext) s

end shell

end ShadOS.Shell

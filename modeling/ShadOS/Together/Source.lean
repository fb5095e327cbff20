import ShadOS.Machine.Sharing
import ShadOS.Ramfs.Map
import ShadOS.Tasking.OnHeap

/-! # The file system and the scheduler on one heap

The kernel has one heap, and ramfs.c and tasking.c both take their memory from
it. Their calls come in any order, the tasks compute between them, and the
kernel writes memory that is not the heap's.
-/

namespace ShadOS.Together
open Machine

universe u
variable {H : Type u}

/-- The static variables of tasking.c and ramfs.c, with the calls of ramfs.c so far. -/
structure State (H : Type u) where
  tasks : Tasking.Session H
  files : Ramfs.Files
  ready : Bool
  log : List Ramfs.Entry

inductive Event where
  | task (e : Tasking.Event)
  | file (e : Ramfs.Event)

namespace State

abbrev heap (s : State H) : H := s.tasks.kernel.heap
abbrev mem (s : State H) : Mem := s.tasks.kernel.mem

/-- What ramfs.c sees. -/
def ramfs (s : State H) : Ramfs.Session H := ⟨⟨s.heap, s.mem, s.files, s.ready⟩, s.log⟩

/-- What a call of ramfs.c leaves behind. -/
def withRamfs (s : State H) (r : Ramfs.Session H) : State H where
  tasks := { s.tasks with kernel := { s.tasks.kernel with heap := r.fs.heap, mem := r.fs.mem } }
  files := r.fs.files
  ready := r.fs.ready
  log := r.log

/-- The descriptors and stacks of the live tasks. -/
def spans (s : State H) : Set Span := {w | ∃ t ∈ s.tasks.live, w ∈ t.spans}

def step (A : Allocator H) (tramp : ℕ) (s : State H) : Event → Option (State H)
  | .task e => (Tasking.Session.step A tramp s.tasks e).map (fun t => { s with tasks := t })
  | .file e => (Ramfs.Session.step A s.ramfs e).map s.withRamfs

/-- A file is written from memory outside the heap, from the memory of a live task or from a file;
other stores of the kernel stay outside the heap. -/
def allowed (region : Set ℕ) (s : State H) : Event → Prop
  | .task e => s.tasks.allowed e
  | .file (.store mem) => ∀ x, mem x ≠ s.mem x → x ∉ region
  | .file e => s.ramfs.allowed region s.spans e

/-- No `schedule` is entered while an exited task waits in `zombie`. -/
def NothingToReclaim (s : State H) : Event → Prop
  | .task e => e.Enters s.tasks.kernel → s.tasks.kernel.zombie = 0
  | .file _ => True

end State

/-- The two behind `tasking_init` and `ramfs_init`, on a heap with no block in use. -/
def together (A : Allocator H) (I : H → Mem → Set Span → Prop) (region : Set ℕ) (tramp : ℕ) :
    System (State H) Event where
  init s := (Tasking.scheduler A tramp (fun h m => I h m ∅)).init s.tasks ∧
    (∃ fs, s.ramfs.fs = Ramfs.ramfsInit fs) ∧ s.log = []
  allowed := State.allowed region
  step := State.step A tramp

/-- Both on the heap behind `kernel_end`. -/
def kernelTogether (k : Heap.KernelEnd) (tramp : ℕ) : System (State Heap.HeapVars) Event :=
  together Heap.heapC (fun h m L => Heap.HeapKeeps k h m L L) (Heap.region k) tramp

/-- What every state of the kernel offers: each call returns; a file reads as its last successful
write left it, or is not there; the scheduler runs each live task in turn; no byte of a task is
a byte of a file, and no call of ramfs.c changes one. -/
structure Serves (A : Allocator H) (I : H → Mem → Set Span → Prop) (region : Set ℕ) (tramp : ℕ)
    (s : State H) : Prop where
  returns : ∀ e, s.allowed region e → s.NothingToReclaim e → ∃ s', s.step A tramp e = some s'
  stored : ∀ (f : Strings.CString) d post pre, s.log = post ++ .write f d 0 :: pre →
    (∀ e ∈ post, ¬ e.Succeeds f) → ∃ p, Ramfs.ramfsRead s.ramfs.fs f.buffer =
      some (0, some (p, d.length)) ∧ readBytes s.mem p d.length = d
  absent : ∀ f : Strings.CString, ((∀ e ∈ s.log, ¬ e.Writes f) ∨ ∃ post pre,
    s.log = post ++ .delete f 0 :: pre ∧ ∀ e ∈ post, ¬ e.Writes f) →
      Ramfs.ramfsRead s.ramfs.fs f.buffer = some (-1, none)
  rounds : Tasking.RoundRobin (Tasking.scheduler A tramp (fun h m => I h m ∅)) s.tasks
  apart : ∀ w ∈ s.spans, ∀ b ∈ Ramfs.buffers s.files, w.Apart b
  keeps : ∀ e s', s.allowed region (.file e) → s.step A tramp (.file e) = some s' →
    Keeps s.spans s.mem s'.mem

end ShadOS.Together

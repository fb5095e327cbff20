import ShadOS.Stubs.Transparent
import ShadOS.Switch.Contexts

/-! # Interrupted tasks

Hardware interrupts reach the current task anywhere in its own code. The stub
leaves a frame on the stack of that task and calls the C handler, which may
switch to other tasks before it returns to the stub.
-/

namespace ShadOS.Preempt
open Machine
open Usermode (Seg)
open Switch (Thread)

/-- The tasks on their stacks, with the processor as the stubs see it. -/
structure State where
  core : Switch.State
  segs : Seg → ℕ
  eflags : ℕ
  ss0 : ℕ
  esp0 : ℕ

namespace State

def processor (s : State) : Usermode.State := ⟨s.core.cpu, s.segs, s.eflags, s.ss0, s.esp0⟩

def withProcessor (s : State) (u : Usermode.State) : State :=
  { core := { s.core with cpu := u.cpu }
    segs := u.segs
    eflags := u.eflags
    ss0 := u.ss0
    esp0 := u.esp0 }

end State

inductive Event where
  /-- The current task computes: its own code, or C functions called on its stack. -/
  | run (u : Usermode.State)
  /-- IRQ `line` goes through the gate to the stub at `entry`, up to the start of `irq_handler`. -/
  | interrupt (line entry afterCall : ℕ)
  /-- `irq_handler` has returned to the stub. -/
  | resume
  /-- `task_create`, the end of a task, or a call of `switch_to`. -/
  | task (e : Switch.Event)

/-- The current task is one of `threads` and has `n` bytes of its stack left. -/
def HasRoom (s : State) (n : ℕ) : Prop :=
  ∃ u ∈ s.core.threads, u.addr = s.core.current ∧ u.stack.addr + n ≤ s.core.cpu.regs .esp ∧
    s.core.cpu.regs .esp ≤ u.stack.addr + u.stack.size

namespace State

def step (tramp : ℕ) (s : State) : Event → Option State
  | .run u => some (s.withProcessor u)
  | .interrupt line entry afterCall =>
    (Stubs.atHandler s.processor (32 + line) 0 entry afterCall).map s.withProcessor
  | .resume => some (s.withProcessor (Stubs.leave s.processor))
  | .task e => some { s with core := s.core.step tramp e }

/-- Tasks write no stack and no saved stack pointer of another task; interrupts come in ring 0, and
their frame, as that of a call of `switch_to`, fits on the stack of the current task. -/
def allowed (s : State) : Event → Prop
  | .run u => u.cpu.Wf ∧ ∀ v ∈ s.core.threads, v.addr ≠ s.core.current →
      ∀ x, v.Owns x → u.cpu.mem x = s.core.cpu.mem x
  | .interrupt line _ _ => line < 16 ∧ Stubs.Sized s.processor ∧ ¬ Stubs.Outer s.processor ∧
      HasRoom s 64
  | .resume => s.core.cpu.regs .esp + 60 ≤ 2 ^ 32
  | .task e => s.core.allowed e

end State

/-- From the point on where the first task runs alone. -/
def preemption (tramp : ℕ) : System State Event where
  init s := (Switch.machine tramp).init s.core
  allowed := State.allowed
  step := State.step tramp

/-- The code of the task at `t` leaves the frame from `r` on alone: it runs below it and does not
write it, and the memory of the task is not given back. -/
def Spares (t r : ℕ) (s : State) : Event → Prop
  | .run u => s.core.current = t → ∀ x, r ≤ x → x < r + 56 → u.cpu.mem x = s.core.cpu.mem x
  | .interrupt _ _ _ => s.core.current = t → s.core.cpu.regs .esp ≤ r
  | .resume => True
  | .task (.compute _ mem) => s.core.current = t → ∀ x, r ≤ x → x < r + 56 →
      mem x = s.core.cpu.mem x
  | .task (.create _ _ _ _) => True
  | .task (.release u) => u ≠ t
  | .task (.switch _ _) => s.core.current = t → s.core.cpu.regs .esp ≤ r

end ShadOS.Preempt

import ShadOS.Machine.Cpu
import ShadOS.Machine.Runs
import ShadOS.Tasking.Descriptor

/-! # Context switches of low_level.S

`schedule` calls `switch_to(&prev->esp, next->esp)` on the stack of the task it
leaves. Tasks that wait are recorded with the way they were suspended: by such a
call of their own, or by `task_create`, which fills their first frame.
-/

namespace ShadOS.Switch
open Machine Tasking

/-- `switch_to` of low_level.S. -/
def switchTo : List Instr :=
  [.push .ebp, .push .ebx, .push .esi, .push .edi,
    .load 20 .esp .eax, .store .esp .eax, .load 24 .esp .esp,
    .pop .edi, .pop .esi, .pop .ebx, .pop .ebp, .ret]

/-- What a task finds again when it goes on. -/
@[ext] structure Context where
  eip : ℕ
  ebp : ℕ
  ebx : ℕ
  esi : ℕ
  edi : ℕ
  esp : ℕ

def contextOf (c : Cpu) : Context :=
  ⟨c.eip, c.regs .ebp, c.regs .ebx, c.regs .esi, c.regs .edi, c.regs .esp⟩

/-- How a task that is not running was suspended last. -/
inductive Suspension where
  /-- By `task_create`, on a stack with this base. -/
  | created (stack : ℕ)
  /-- By its own call of `switch_to`, in this context. -/
  | called (c : Context)

/-- Where the task goes on; `tramp` is the address of `task_trampoline`. -/
def Suspension.context (tramp : ℕ) : Suspension → Context
  | created stack => ⟨u32 tramp, 0, 0, 0, 0, u32 (stack + taskStackSize)⟩
  | called c => c

/-- A descriptor and the stack the task runs on. -/
structure Thread where
  addr : ℕ
  stack : Span

/-- The processor, the current task, and the tasks with the suspension of each. -/
structure State where
  cpu : Cpu
  current : ℕ
  threads : List Thread
  suspension : ℕ → Suspension

inductive Event where
  /-- The current task computes. -/
  | compute (regs : Reg → ℕ) (mem : Mem)
  /-- `task_create` with the two blocks it got. -/
  | create (t stack entry pid : ℕ)
  /-- A terminated task gives its memory back. -/
  | release (t : ℕ)
  /-- `schedule` calls `switch_to` for `next` and pushes the return address `ra`. -/
  | switch (next ra : ℕ)

/-- The arguments of `switch_to(&prev->esp, next->esp)`, last one first. -/
def pushArgs (c : Cpu) (prev next : ℕ) : Cpu := (c.pushWord (espOf c.mem next)).pushWord prev

/-- The processor behind the `ret` of `switch_to`. -/
def callSwitch (c : Cpu) (prev next ra : ℕ) : Cpu :=
  ((pushArgs c prev next).pushWord ra).run switchTo

namespace State

def step (tramp : ℕ) (s : State) : Event → State
  | .compute regs mem => { s with cpu := { s.cpu with regs := fun r => u32 (regs r), mem := mem } }
  | .create t stack entry pid =>
    { s with
      cpu := { s.cpu with mem := installTask tramp s.cpu.mem s.current t stack entry pid }
      threads := ⟨t, stackSpan stack⟩ :: s.threads
      suspension := Function.update s.suspension t (.created stack) }
  | .release t => { s with threads := s.threads.filter (fun u => u.addr ≠ t) }
  | .switch next ra =>
    { s with
      cpu := callSwitch s.cpu s.current next ra
      current := next
      suspension := Function.update s.suspension s.current
        (.called { contextOf (pushArgs s.cpu s.current next) with eip := u32 ra }) }

/-- The current task writes no stack of another task and none of their saved stack
pointers, new tasks get memory of their own, and the frames of a call of
`switch_to` fit on the stack of the caller. -/
def allowed (s : State) : Event → Prop
  | .compute _ mem => ∀ u ∈ s.threads, u.addr ≠ s.current →
      ∀ x, u.stack.Has x ∨ (u.addr ≤ x ∧ x < u.addr + 4) → mem x = s.cpu.mem x
  | .create t stack _ _ => t + taskSize ≤ 2 ^ 32 ∧ stack + taskStackSize ≤ 2 ^ 32 ∧
      (descriptor t).Apart (stackSpan stack) ∧
      ∀ u ∈ s.threads, (descriptor t).Apart (descriptor u.addr) ∧ (descriptor t).Apart u.stack ∧
        (stackSpan stack).Apart (descriptor u.addr) ∧ (stackSpan stack).Apart u.stack
  | .release t => t ≠ s.current
  | .switch next _ => next ≠ s.current ∧ (∃ u ∈ s.threads, u.addr = next) ∧
      ∃ u ∈ s.threads, u.addr = s.current ∧ u.stack.addr + 28 ≤ s.cpu.regs .esp ∧
        s.cpu.regs .esp ≤ u.stack.addr + u.stack.size

end State

/-- Tasks under `switch_to`, from the point on where the first one runs alone. -/
def machine (tramp : ℕ) : System State Event where
  init s := s.cpu.Wf ∧ ∃ stack : Span, s.threads = [⟨s.current, stack⟩] ∧
    (descriptor s.current).Apart stack ∧ s.current + taskSize ≤ 2 ^ 32 ∧
    stack.addr + stack.size ≤ 2 ^ 32
  allowed := State.allowed
  step s e := some (s.step tramp e)

end ShadOS.Switch

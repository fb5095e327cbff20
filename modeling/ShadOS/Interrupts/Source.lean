import ShadOS.Tasking.Runs

/-! # Timer interrupts around the scheduler

`irq_handler` of idt.c runs the routine of the interrupt and then lets pic.c
write the end of interrupt. The routine of IRQ 0 calls `tasking_tick`, which may
leave on another stack before the end of interrupt is written. What follows then
depends on where the next task was left.
-/

namespace ShadOS.Interrupts
open Machine Tasking

universe u

def pic1 : ℕ := 0x20
def pic2 : ℕ := 0xA0
def picEoi : ℕ := 0x20

/-- The port writes of `pic_send_eoi`, in order. -/
def picSendEoi (irq : ℕ) : List (ℕ × ℕ) :=
  (if 8 ≤ irq then [(pic2, picEoi)] else []) ++ [(pic1, picEoi)]

/-- The vector of IRQ 0. -/
def timerVector : ℕ := 32

/-- `uint8_t irq = regs->int_no - 32` -/
def irqOf (intNo : ℕ) : ℕ := sub32 intNo 32 % 256

/-- The code behind the `switch_to` or the `schedule` of a task. -/
inductive Resume where
  /-- `ret` enters `task_trampoline`. -/
  | trampoline
  /-- `tasking_tick` returns to the timer routine, and this to `irq_handler`. -/
  | irqHandler
  /-- `schedule` returns to `task_exit`, and this to the `hlt` loop. -/
  | taskExit
  deriving DecidableEq, Repr

/-- The tasks, the interrupt flag of the processor and the interrupt controller,
with the port writes and the deliveries of IRQ 0 so far. -/
structure State (H : Type u) where
  session : Session H
  resume : ℕ → Resume
  interruptsOn : Bool
  inService : Bool
  deliveries : ℕ
  ports : List (ℕ × ℕ)

variable {H : Type u}

/-- The end-of-interrupt commands the master controller got. -/
def State.eois (s : State H) : ℕ := s.ports.count (pic1, picEoi)

/-- An end of interrupt clears the interrupt in service. -/
def outb (s : State H) (w : ℕ × ℕ) : State H :=
  { s with
    ports := s.ports ++ [w]
    inService := if w = (pic1, picEoi) then false else s.inService }

/-- The processor takes an IRQ 0: the gate clears the interrupt flag. -/
def deliver (s : State H) : State H :=
  { s with deliveries := s.deliveries + 1, inService := true, interruptsOn := false }

/-- The rest of `irq_handler` behind the timer routine, and the end of `irq_common_stub`. -/
def finishIrq (s : State H) : State H :=
  { (picSendEoi (irqOf timerVector)).foldl outb s with interruptsOn := true }

/-- A task goes on where it was left. -/
def land (s : State H) : Resume → State H
  | .trampoline => { s with interruptsOn := true }
  | .irqHandler => finishIrq s
  | .taskExit => s

/-- Control leaves `schedule`, called from `here`, on the stack of the task it chose. -/
def leave (here : Resume) (s : State H) : Outcome → State H
  | .returned => land s here
  | .switched prev next =>
    land { s with resume := Function.update s.resume prev here }
      (Function.update s.resume prev here next)

variable (A : Allocator H) (tramp : ℕ)

/-- A tick is an IRQ 0 with the current task running; `task_exit` starts with `cli`. -/
def step (s : State H) : Event → Option (State H)
  | .create entry => (taskCreate A tramp s.session.kernel entry).map (fun r =>
      { s with
        session := { s.session with
          kernel := r.2
          live := (newTask A s.session.kernel).toList ++ s.session.live }
        resume := (newTask A s.session.kernel).elim s.resume
          (fun t => Function.update s.resume t.addr .trampoline) })
  | .tick esp => (taskingTick A s.session.kernel).map (fun r =>
      leave .irqHandler
        { deliver s with session := { s.session with kernel := switchTo esp r } } r.1)
  | .exit esp => (taskExit A s.session.kernel).map (fun r =>
      leave .taskExit
        { s with
          interruptsOn := false
          session := { s.session with
            kernel := switchTo esp r
            live := s.session.live.filter (fun t => t.addr ≠ s.session.kernel.currentTask)
            exited := s.session.live.filter (fun t => t.addr = s.session.kernel.currentTask) ++
              s.session.exited } } r.1)
  | e => (Session.step A tramp s.session e).map (fun t => { s with session := t })

/-- Task code runs with interrupts on and does not call `schedule` itself; the
controller withholds IRQ 0 while one is in service. -/
def State.allowed (s : State H) (e : Event) : Prop :=
  s.interruptsOn = true ∧ s.session.allowed e ∧ (∀ esp, e ≠ .schedule esp) ∧
    ∀ esp, e = .tick esp → s.inService = false

/-- The scheduler under timer interrupts, from `tasking_init` on. -/
def interrupts (start : H → Mem → Prop) : System (State H) Event where
  init s := (scheduler A tramp start).init s.session ∧ s.interruptsOn = true ∧
    s.inService = false ∧ s.deliveries = 0 ∧ s.ports = []
  allowed := State.allowed
  step := step A tramp

/-- Whenever task code runs with interrupts on, every IRQ 0 delivered got its end of
interrupt, and the controller has none in service. -/
def Acknowledged (s : State H) : Prop :=
  s.interruptsOn = true → s.eois = s.deliveries ∧ s.inService = false

/-- A tick calls `schedule` while a task waits for the processor that never ran. -/
def MeetsNewTask (s : State H) (e : Event) : Prop :=
  ∃ esp, e = .tick esp ∧ e.Enters s.session.kernel ∧
    ∃ t ∈ s.session.live, t.addr ≠ s.session.kernel.currentTask ∧
      s.resume t.addr = .trampoline

end ShadOS.Interrupts

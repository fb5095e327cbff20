import ShadOS.Machine.Allocator

/-! # The scheduler of tasking.c

Task descriptors lie in memory that `kmalloc` returned, linked in a circle by
their `next` fields. The allocator is a parameter. A call of `schedule` returns,
or hands over to the task whose stack pointer it passes to `switch_to`.
-/

namespace ShadOS.Tasking
open Machine

universe u

def taskStackSize : ℕ := 8192
def scheduleEveryNTicks : ℕ := 5
/-- `sizeof(task_t)`: six 32-bit fields. -/
def taskSize : ℕ := 24

/-- One loop step per pointer value. -/
def loopFuel : ℕ := 2 ^ 32

inductive TaskState where
  | ready
  | running
  | terminated
  deriving DecidableEq, Repr

/-- The enumerator values of `task_state_t`. -/
def TaskState.code : TaskState → ℕ
  | ready => 0
  | running => 1
  | terminated => 2

section descriptor
variable (m : Mem) (t v : ℕ)

def espOf : ℕ := readWord m t
def stackBaseOf : ℕ := readWord m (t + 4)
def pidOf : ℕ := readWord m (t + 12)
def stateOf : ℕ := readWord m (t + 16)
def nextOf : ℕ := readWord m (t + 20)
def setEsp : Mem := writeWord m t v
def setStackBase : Mem := writeWord m (t + 4) v
def setEntry : Mem := writeWord m (t + 8) v
def setPid : Mem := writeWord m (t + 12) v
def setState (s : TaskState) : Mem := writeWord m (t + 16) s.code
def setNext : Mem := writeWord m (t + 20) v

end descriptor

/-- The static variables of tasking.c, with the allocator and the memory. -/
structure Kernel (H : Type u) where
  heap : H
  mem : Mem
  currentTask : ℕ
  zombie : ℕ
  nextPid : ℕ
  taskingReady : Bool
  tickCounter : ℕ
  taskingPaused : Bool

/-- Before `tasking_init` the variables are zero. -/
def Kernel.boot {H : Type u} (heap : H) (mem : Mem) : Kernel H :=
  ⟨heap, mem, 0, 0, 0, false, 0, false⟩

/-- How a call of `schedule` goes on: it returns, or calls `switch_to(&prev->esp, next->esp)`. -/
inductive Outcome where
  | returned
  | switched (prev next : ℕ)
  deriving DecidableEq, Repr

variable {H : Type u} (A : Allocator H)

def taskingSetPaused (k : Kernel H) (paused : Bool) : Kernel H := { k with taskingPaused := paused }

/-- The assignments to the fields of a new descriptor, `next` apart. -/
def fillTask (m : Mem) (t esp stackBase entry pid : ℕ) (s : TaskState) : Mem :=
  setState (setPid (setEntry (setStackBase (setEsp m t esp) t stackBase) t entry) t pid) t s

def taskingInit (k : Kernel H) : Option (Kernel H) :=
  (A.kmalloc k.heap k.mem taskSize).map (fun r =>
    { k with
      heap := r.2.1
      mem := setNext (fillTask r.2.2 r.1 0 0 0 k.nextPid .running) r.1 r.1
      nextPid := u32 (k.nextPid + 1)
      currentTask := r.1
      taskingReady := true })

/-- The stack pointer of a task that never ran. -/
def initialSp (stack : ℕ) : ℕ := sub32 (u32 (stack + taskStackSize)) 20

/-- The five words `switch_to` pops for a task that never ran. -/
def initialFrame (tramp : ℕ) (m : Mem) (sp : ℕ) : Mem :=
  let m := writeWord m sp 0
  let m := writeWord m (sp + 4) 0
  let m := writeWord m (sp + 8) 0
  let m := writeWord m (sp + 12) 0
  writeWord m (sp + 16) tramp

/-- `t` goes between the current task and its successor. -/
def insertTask (m : Mem) (cur t : ℕ) : Mem :=
  let m := setNext m t (nextOf m cur)
  setNext m cur t

/-- The new task in memory, once both blocks are there. -/
def installTask (tramp : ℕ) (m : Mem) (cur t stack entry pid : ℕ) : Mem :=
  let m := initialFrame tramp m (initialSp stack)
  let m := fillTask m t (initialSp stack) stack entry pid .ready
  insertTask m cur t

/-- The new pid, or none for `-1`; `tramp` is the address of `task_trampoline`. -/
def taskCreate (tramp : ℕ) (k : Kernel H) (entry : ℕ) : Option (Option ℕ × Kernel H) :=
  (A.kmalloc k.heap k.mem taskSize).bind (fun r =>
    if r.1 = 0 then some (none, { k with heap := r.2.1, mem := r.2.2 })
    else (A.kmalloc r.2.1 r.2.2 taskStackSize).bind (fun q =>
      if q.1 = 0 then
        (A.kfree q.2.1 q.2.2 r.1).map (fun f => (none, { k with heap := f.1, mem := f.2 }))
      else
        some (some k.nextPid,
          { k with
            heap := q.2.1
            mem := installTask tramp q.2.2 k.currentTask r.1 q.1 entry k.nextPid
            nextPid := u32 (k.nextPid + 1) })))

/-- `kfree(zombie->stack_base)`, unless the stack is not the task's own. -/
def freeStack (k : Kernel H) : Option (Kernel H) :=
  if stackBaseOf k.mem k.zombie = 0 then some k
  else (A.kfree k.heap k.mem (stackBaseOf k.mem k.zombie)).map (fun f =>
    { k with heap := f.1, mem := f.2 })

/-- The memory of the task that exited before the last switch is given back. -/
def reclaim (k : Kernel H) : Option (Kernel H) :=
  if k.zombie = 0 then some k
  else (freeStack A k).bind (fun k =>
    (A.kfree k.heap k.mem k.zombie).map (fun f =>
      { k with heap := f.1, mem := f.2, zombie := 0 }))

/-- The search loop of `schedule`. -/
def nextAlive (m : Mem) (prev : ℕ) : ℕ → ℕ → Option ℕ
  | 0, _ => none
  | fuel + 1, next =>
    if stateOf m next = TaskState.terminated.code ∧ next ≠ prev then
      nextAlive m prev fuel (nextOf m next)
    else some next

/-- The last part of `schedule`: the states and `current_task` before `switch_to`. -/
def dispatch (k : Kernel H) (prev next : ℕ) : Kernel H :=
  let k :=
    if stateOf k.mem prev = TaskState.terminated.code then { k with zombie := prev }
    else if stateOf k.mem prev = TaskState.running.code then
      { k with mem := setState k.mem prev .ready }
    else k
  { k with mem := setState k.mem next .running, currentTask := next }

def schedule (k : Kernel H) : Option (Outcome × Kernel H) :=
  if k.taskingReady = false then some (.returned, k)
  else (reclaim A k).bind (fun k =>
    (nextAlive k.mem k.currentTask loopFuel (nextOf k.mem k.currentTask)).map (fun next =>
      if next = k.currentTask ∧ stateOf k.mem k.currentTask = TaskState.terminated.code then
        (.returned, k)
      else if next = k.currentTask then (.returned, k)
      else (.switched k.currentTask next, dispatch k k.currentTask next)))

def taskExit (k : Kernel H) : Option (Outcome × Kernel H) :=
  schedule A { k with mem := setState k.mem k.currentTask .terminated }

def taskingTick (k : Kernel H) : Option (Outcome × Kernel H) :=
  if k.taskingReady = false ∨ k.taskingPaused = true then some (.returned, k)
  else if scheduleEveryNTicks ≤ u32 (k.tickCounter + 1) then
    schedule A { k with tickCounter := 0 }
  else some (.returned, { k with tickCounter := u32 (k.tickCounter + 1) })

/-- `switch_to` saves the stack pointer of the task it leaves. -/
def switchTo (esp : ℕ) : Outcome × Kernel H → Kernel H
  | (.returned, k) => k
  | (.switched prev _, k) => { k with mem := setEsp k.mem prev esp }

def stateName (s : ℕ) : String :=
  if s = TaskState.ready.code then "prete"
  else if s = TaskState.running.code then "en cours"
  else if s = TaskState.terminated.code then "terminee"
  else "?"

/-- The `do … while` loop of `tasking_list`: pid and state of each task. -/
def taskingListLoop (m : Mem) (current : ℕ) : ℕ → ℕ → Option (List (ℕ × String))
  | 0, _ => none
  | fuel + 1, t =>
    if nextOf m t = current then some [(pidOf m t, stateName (stateOf m t))]
    else (taskingListLoop m current fuel (nextOf m t)).map
      ((pidOf m t, stateName (stateOf m t)) :: ·)

/-- The lines below the heading, or none before `tasking_init`. -/
def taskingList (k : Kernel H) : Option (Option (List (ℕ × String))) :=
  if k.taskingReady = false then some none
  else (taskingListLoop k.mem k.currentTask loopFuel k.currentTask).map some

end ShadOS.Tasking

import ShadOS.Interrupts.Acknowledge
import ShadOS.Tasking.OnHeap

/-! # Timer interrupts on heap.c

The first task that `task_create` makes on heap.c is entered by the fifth tick,
and this tick is not acknowledged.
-/

namespace ShadOS.Interrupts
open Machine Tasking

/-- The scheduler under timer interrupts, over the heap behind `kernel_end` with its
calls recorded. -/
def kernelInterrupts (k : Heap.KernelEnd) (tramp : ℕ) :
    System (State (Heap.HeapVars × Allocator.Ledger)) Event :=
  interrupts Heap.heapC.audited tramp (fun h m => h.2 = [] ∧ ∃ O, Heap.HeapKeeps k h.1 m O O)

variable {s : State (Heap.HeapVars × Allocator.Ledger)} {es : List Event}

/-- Along every run from `tasking_init`, every tick is acknowledged before task code
runs with interrupts on if and only if no tick calls `schedule` while a task waits
that never ran. -/
theorem timer_acknowledged (k : Heap.KernelEnd) (tramp : ℕ) (hs : (kernelInterrupts k tramp).init s)
    (he : (kernelInterrupts k tramp).Executes s es) :
    (kernelInterrupts k tramp).Always Acknowledged s es ↔
      (kernelInterrupts k tramp).EachStep (fun s e => ¬ MeetsNewTask s e) s es := by
  apply always_acknowledged_iff (Heap.heapC_keeping k).audited _ hs he
  exact fun h m hI => hI.2

section creation
variable {H : Type} {A : Allocator H} {tramp entry : ℕ}

theorem taskCreate_counter {k : Kernel H} {r : Option ℕ × Kernel H}
    (hr : taskCreate A tramp k entry = some r) :
    r.2.tickCounter = k.tickCounter ∧ r.2.taskingPaused = k.taskingPaused := by
  rw [taskCreate] at hr
  obtain ⟨p, -, hr⟩ := Option.bind_eq_some_iff.mp hr
  split at hr
  · cases hr
    exact ⟨rfl, rfl⟩
  · obtain ⟨q, -, hr⟩ := Option.bind_eq_some_iff.mp hr
    split at hr
    · obtain ⟨f, -, rfl⟩ := Option.map_eq_some_iff.mp hr
      exact ⟨rfl, rfl⟩
    · cases hr
      exact ⟨rfl, rfl⟩

/-- A creation is one of the scheduler, and leaves the tick counter alone. -/
theorem step_create {s s' : State H} (hs : step A tramp s (.create entry) = some s') :
    Session.step A tramp s.session (.create entry) = some s'.session ∧
      s'.session.kernel.tickCounter = s.session.kernel.tickCounter ∧
      s'.session.kernel.taskingPaused = s.session.kernel.taskingPaused := by
  obtain ⟨r, hr, rfl⟩ := Option.map_eq_some_iff.mp hs
  exact ⟨congrArg (Option.map _) hr, taskCreate_counter hr⟩

end creation

/-- Task 0 and one task that never ran, with the tick counter at zero. -/
theorem first_task : ∃ s s₁, (kernelInterrupts Heap.smallImage 0).init s ∧
    s.allowed (.create 0) ∧ step Heap.heapC.audited 0 s (.create 0) = some s₁ ∧
    BootRuns Slot.Keeps s₁ ∧ s₁.session.kernel.taskingPaused = false ∧
    s₁.session.kernel.tickCounter = 0 ∧
    ∃ t ∈ s₁.session.live, t.addr ≠ s₁.session.kernel.currentTask := by
  obtain ⟨s, L, hinit, hint, hled, hcur, hboot, hlive₀, -⟩ := Slot.boot 0
  obtain ⟨heap, mem, -, hrun, -⟩ := id hinit
  have hreplay : Heap.replay Slot.blocks s.kernel.heap.2 = Slot.bootBlocks := by
    rw [hled]
    decide
  let s₀ : State (Heap.HeapVars × Allocator.Ledger) := ⟨s, fun _ => .trampoline, true, false, 0, []⟩
  have h₀ : BootRuns Slot.Keeps s₀ := by
    refine ⟨⟨L, [], hint.ok⟩, hcur.trans hboot.symm, fun _ _ _ => rfl, rfl, rfl, rfl⟩
  obtain ⟨s₁, hstep, h₁⟩ := h₀.create 0 Slot.keeping 0
  obtain ⟨hses, hcount, hpaused⟩ := step_create hstep
  obtain ⟨t, -, -, ht, -, hlive, -, -, hcur', -⟩ := Slot.create 0 hint hreplay 0
  obtain rfl : t = s₁.session := Option.some.inj (ht.symm.trans hses)
  obtain ⟨r, -, hk⟩ := Option.map_eq_some_iff.mp hrun
  refine ⟨s₀, s₁, ⟨hinit, rfl, rfl, rfl, rfl⟩, ⟨rfl, trivial, by simp, by simp⟩, hstep, h₁,
    hpaused.trans ?_, hcount.trans ?_, Slot.task, ?_, ?_⟩
  · exact (congrArg Kernel.taskingPaused hk).symm
  · exact (congrArg Kernel.tickCounter hk).symm
  · rw [hlive]
    exact List.mem_cons_self
  · rw [hcur', hcur]
    decide

/-- One creation and four ticks. -/
theorem timer_acknowledged_ticks : ∃ s, (kernelInterrupts Heap.smallImage 0).init s ∧
    (kernelInterrupts Heap.smallImage 0).Executes s (.create 0 :: List.replicate 4 (.tick 0)) ∧
    (kernelInterrupts Heap.smallImage 0).Always Acknowledged s
      (.create 0 :: List.replicate 4 (.tick 0)) := by
  obtain ⟨s, s₁, hinit, hallowed, hstep, h₁, hpaused, hcount, -⟩ := first_task
  obtain ⟨hexec, heach⟩ := BootRuns.within 0
    (fun h m => h.2 = [] ∧ ∃ O, Heap.HeapKeeps Heap.smallImage h.1 m O O) 4 s₁ h₁ hpaused
    (by rw [hcount]; decide)
  have hexec' : (kernelInterrupts Heap.smallImage 0).Executes s
      (.create 0 :: List.replicate 4 (.tick 0)) := ⟨hallowed, s₁, hstep, hexec⟩
  refine ⟨s, hinit, hexec', (timer_acknowledged Heap.smallImage 0 hinit hexec').mpr ⟨?_, ?_⟩⟩
  · rintro ⟨esp, he, -⟩
    cases he
  · intro t ht
    cases hstep.symm.trans ht
    exact heach

/-- One creation and five ticks. -/
theorem timer_acknowledged_quantum : ∃ s, (kernelInterrupts Heap.smallImage 0).init s ∧
    (kernelInterrupts Heap.smallImage 0).Executes s (.create 0 :: List.replicate 5 (.tick 0)) ∧
    ¬ (kernelInterrupts Heap.smallImage 0).Always Acknowledged s
      (.create 0 :: List.replicate 5 (.tick 0)) := by
  obtain ⟨s, s₁, hinit, hallowed, hstep, h₁, hpaused, hcount, hlive⟩ := first_task
  obtain ⟨hexec, hbad⟩ := BootRuns.quantum 0
    (fun h m => h.2 = [] ∧ ∃ O, Heap.HeapKeeps Heap.smallImage h.1 m O O) Slot.keeping 4 s₁ h₁ hpaused
    hlive (by rw [hcount]; rfl)
  have hexec' : (kernelInterrupts Heap.smallImage 0).Executes s
      (.create 0 :: List.replicate 5 (.tick 0)) := ⟨hallowed, s₁, hstep, hexec⟩
  refine ⟨s, hinit, hexec', fun h => hbad ?_⟩
  have hC := (always_acknowledged_iff (Heap.heapC_keeping Heap.smallImage).audited
    (fun _ _ hI => hI.2) hinit hexec').mp h
  exact hC.2 s₁ hstep

end ShadOS.Interrupts

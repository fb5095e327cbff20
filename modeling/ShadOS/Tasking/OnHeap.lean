import ShadOS.Tasking.RoundRobin
import ShadOS.Heap.Runs
import ShadOS.Heap.Interface

/-! # The scheduler on heap.c

Over heap.c the blocks of a reclaimed task are the first ones a later creation
gets. The new descriptor then lies where the ring still expects the old one,
and the current task drops out of the round robin.
-/

namespace ShadOS.Tasking
open Machine

/-- The scheduler over the heap behind `kernel_end`, its calls of heap.c recorded. -/
def kernelScheduler (k : Heap.KernelEnd) (tramp : ℕ) :
    System (Session (Heap.HeapVars × Allocator.Ledger)) Event :=
  recorded Heap.heapC (Heap.HeapKeeps k) tramp

variable {s : Session (Heap.HeapVars × Allocator.Ledger)} {es : List Event}

/-- Along every run from `tasking_init`, the ring closes through allocated descriptors
in every state if and only if no `schedule` finds an exited task to reclaim. -/
theorem ring_integrity (k : Heap.KernelEnd) (tramp : ℕ) (hs : (kernelScheduler k tramp).init s)
    (he : (kernelScheduler k tramp).Executes s es) :
    (kernelScheduler k tramp).Always RingSound s es ↔
      (kernelScheduler k tramp).EachStep NothingToReclaim s es :=
  always_ringSound_iff (Heap.heapC_keeping k) hs he

/-- What holds in every cleared state holds along every run whose creations get blocks clear of
the reclaimed descriptors. -/
theorem cleared_always (k : Heap.KernelEnd) (tramp : ℕ)
    {P : Session (Heap.HeapVars × Allocator.Ledger) → Prop}
    (hP : ∀ s, Cleared (fun h m L W => Heap.HeapKeeps k h.1 m L W) s → P s)
    (hs : (kernelScheduler k tramp).init s) (he : (kernelScheduler k tramp).Executes s es)
    (hc : (kernelScheduler k tramp).EachStep
      (CreatesClear Heap.heapC.audited Heap.FootprintClear) s es) :
    (kernelScheduler k tramp).Always P s es := by
  have hA := (Heap.heapC_keeping k).audited
  refine System.always_of_eachStep hP ?_ ?_ he hc
  · intro s e s' h ha hC hstep
    obtain ⟨t, ht, h'⟩ := h.step tramp hA ha hC
    cases (show some t = some s' from ht.symm.trans hstep)
    exact h'
  · obtain ⟨heap, mem, ⟨-, O, hO⟩, hrun, h0, hb, hl, hex⟩ := hs
    exact ⟨_, _, _, _, _, SessionOk.start hA hO hrun h0 hb hl hex, fun w hw => .inl hw⟩

/-- Along every run whose creations get blocks clear of the reclaimed descriptors,
no live task is lost from the round robin. -/
theorem round_robin (k : Heap.KernelEnd) (tramp : ℕ) (hs : (kernelScheduler k tramp).init s)
    (he : (kernelScheduler k tramp).Executes s es)
    (hc : (kernelScheduler k tramp).EachStep
      (CreatesClear Heap.heapC.audited Heap.FootprintClear) s es) :
    (kernelScheduler k tramp).Always (RoundRobin (kernelScheduler k tramp)) s es := by
  refine cleared_always k tramp ?_ hs he hc
  rintro s ⟨L, W, pending, gone, rest, h, -⟩
  exact h.roundRobin (Heap.heapC_keeping k).audited

/-! ## Creation over a linked descriptor -/

section relink
variable {H : Type} {A : Allocator H} {tramp : ℕ} {k : Kernel H} {t q : ℕ} {h₁ h₂ : H} {m₁ m₂ : Mem}

/-- When `kmalloc` hands out the address the current task already points to, the
new task points to itself. -/
theorem taskCreate_relink (tramp : ℕ)
    (hrun₁ : A.kmalloc k.heap k.mem taskSize = some (t, h₁, m₁)) (ht : t ≠ 0)
    (hrun₂ : A.kmalloc h₁ m₁ taskStackSize = some (q, h₂, m₂)) (hq : q ≠ 0)
    (hk : ∀ x, (descriptor k.currentTask).Has x → m₂ x = k.mem x)
    (ht' : (descriptor t).Apart (descriptor k.currentTask))
    (hq' : (stackSpan q).Apart (descriptor k.currentTask)) (hqb : q + taskStackSize ≤ 2 ^ 32)
    (htlt : t < 2 ^ 32) (hnext : nextOf k.mem k.currentTask = t) (entry : ℕ) :
    ∃ k', taskCreate A tramp k entry = some (some k.nextPid, k') ∧
      k'.currentTask = k.currentTask ∧ nextOf k'.mem k.currentTask = t ∧ nextOf k'.mem t = t := by
  refine ⟨{ k with
      heap := h₂
      mem := installTask tramp m₂ k.currentTask t q entry k.nextPid
      nextPid := u32 (k.nextPid + 1) }, ?_, rfl, nextOf_installTask htlt, ?_⟩
  · rw [taskCreate, hrun₁, Option.bind_some, if_neg ht, hrun₂, Option.bind_some, if_neg hq]
  · refine (installTask_new tramp entry k.nextPid hqb hq' ht').2.2.trans ?_
    exact (nextOf_congr hk).trans hnext

/-- A current task whose successor points to itself is not on its own ring. -/
theorem not_closes {m : Mem} {cur : ℕ} (hne : t ≠ cur) (hc : nextOf m cur = t) (ht : nextOf m t = t) :
    ¬ ∃ i, 0 < i ∧ (nextOf m)^[i] cur = cur := by
  rintro ⟨i, hi, he⟩
  obtain ⟨j, rfl⟩ : ∃ j, i = j + 1 := ⟨i - 1, by omega⟩
  rw [Function.iterate_succ_apply, hc, Function.iterate_fixed ht] at he
  exact hne he

end relink

/-! ## One slot used twice -/

namespace Slot

/-- The heap of `smallImage` before the first allocation. -/
def blocks : List Block := [⟨0x100000, Heap.heapSize - Heap.headerSize, true⟩]

/-- Its blocks while task 0 is the only one with memory. -/
def bootBlocks : List Block := [⟨0x100000, 24, false⟩, ⟨0x100024, 8388560, true⟩]

abbrev bootAddr : ℕ := 0x10000c
/-- The blocks the next task gets. -/
abbrev task : Task := ⟨0x100030, 0x100054⟩

abbrev Keeps (h : Heap.HeapVars × Allocator.Ledger) (m : Mem) (L W : Set Span) : Prop :=
  Heap.Holds Heap.smallImage h.1 m L W (Heap.replay blocks h.2)

theorem keeping : Heap.heapC.audited.Keeping Keeps Heap.FootprintClear :=
  Heap.heapC_replay Heap.smallImage blocks

variable {h : Heap.HeapVars × Allocator.Ledger} {m : Mem} {L : Set Span} {n : ℕ} {d : Block}
  {cs : List Block}

/-- The next call of `kmalloc` is the first fit on the replayed blocks. -/
theorem kmalloc (hI : Keeps h m L L) (hn : 0 < n) (hn' : n + 7 < 2 ^ 32)
    (hf : Heap.geometry.firstFit (Heap.alignUp n Heap.alignment) (Heap.replay blocks h.2) =
      some (d, cs)) :
    ∃ h' m', Heap.heapC.audited.kmalloc h m n = some (d.addr + 12, h', m') ∧
      h'.2 = .malloc n (d.addr + 12) :: h.2 ∧
      Keeps h' m' (insert ⟨d.addr + 12, n⟩ L) (insert ⟨d.addr + 12, n⟩ L) ∧
      Machine.Keeps L m m' ∧ ∀ w ∈ L, Span.Apart ⟨d.addr + 12, n⟩ w := by
  rcases Heap.Holds.kmalloc hI hn hn' with ⟨hnone, -⟩ | ⟨d', cs', m', hsome, hrun, -, hok⟩
  · rw [hf] at hnone
    cases hnone
  · rw [hf] at hsome
    cases hsome
    obtain ⟨hh, hk, hap⟩ := hok (fun w hw => .inl hw)
    refine ⟨(h.1, .malloc n (d.addr + 12) :: h.2), m',
      congrArg (Option.map _) (Heap.heapC_kmalloc hrun), rfl, ?_, hk, hap⟩
    rwa [Keeps, Heap.replay, hf]

theorem firstFit_task : Heap.geometry.firstFit (Heap.alignUp taskSize Heap.alignment) bootBlocks =
    some (⟨0x100024, 8388560, true⟩,
      [⟨0x100000, 24, false⟩, ⟨0x100024, 24, false⟩, ⟨0x100048, 8388524, true⟩]) := by decide

theorem firstFit_stack : Heap.geometry.firstFit (Heap.alignUp taskStackSize Heap.alignment)
    [⟨0x100000, 24, false⟩, ⟨0x100024, 24, false⟩, ⟨0x100048, 8388524, true⟩] =
    some (⟨0x100048, 8388524, true⟩, [⟨0x100000, 24, false⟩, ⟨0x100024, 24, false⟩,
      ⟨0x100048, 8192, false⟩, ⟨0x102054, 8380320, true⟩]) := by decide

/-- The two calls of `task_create` while only task 0 has memory. -/
theorem twoBlocks (hI : Keeps h m L L) (hl : Heap.replay blocks h.2 = bootBlocks) :
    ∃ h₁ m₁ h₂ m₂, Heap.heapC.audited.kmalloc h m taskSize = some (task.addr, h₁, m₁) ∧
      Heap.heapC.audited.kmalloc h₁ m₁ taskStackSize = some (task.stack, h₂, m₂) ∧
      Machine.Keeps L m m₂ ∧
      ∀ w ∈ L, (descriptor task.addr).Apart w ∧ (stackSpan task.stack).Apart w := by
  obtain ⟨h₁, m₁, hrun₁, hl₁, hI₁, hk₁, hap₁⟩ := kmalloc hI (n := taskSize) (by decide) (by decide)
    (hl ▸ firstFit_task)
  have hl₁' : Heap.replay blocks h₁.2 =
      [⟨0x100000, 24, false⟩, ⟨0x100024, 24, false⟩, ⟨0x100048, 8388524, true⟩] := by
    rw [hl₁, Heap.replay, hl, firstFit_task]
  obtain ⟨h₂, m₂, hrun₂, -, -, hk₂, hap₂⟩ := kmalloc hI₁ (n := taskStackSize) (by decide) (by decide)
    (hl₁' ▸ firstFit_stack)
  exact ⟨h₁, m₁, h₂, m₂, hrun₁, hrun₂, hk₁.trans (hk₂.mono (Set.subset_insert _ _)),
    fun w hw => ⟨hap₁ w hw, hap₂ w (Set.mem_insert_of_mem _ hw)⟩⟩

variable {tramp : ℕ} {s' : Session (Heap.HeapVars × Allocator.Ledger)} {pending : List Task}
  {rest : List ℕ}

/-- `heap_init` and `tasking_init` on `smallImage` in zeroed memory. -/
theorem boot (tramp : ℕ) : ∃ s L, (kernelScheduler Heap.smallImage tramp).init s ∧
    Intact Keeps s L [] [] ∧
    s.kernel.heap.2 = [.malloc taskSize bootAddr] ∧ s.kernel.currentTask = bootAddr ∧
    s.boot = bootAddr ∧ s.live = [⟨bootAddr, 0⟩] ∧ s.exited = [] := by
  have hinit := Heap.heapInit_holds Heap.smallImage (fun _ => 0)
  set heap := (Heap.heapInit Heap.smallImage.addr (fun _ => 0)).1
  set mem := (Heap.heapInit Heap.smallImage.addr (fun _ => 0)).2
  have hI : Keeps (heap, []) mem ∅ ∅ := hinit
  have hf : Heap.geometry.firstFit (Heap.alignUp taskSize Heap.alignment)
      (Heap.replay blocks (heap, ([] : Allocator.Ledger)).2) =
      some (⟨0x100000, 8388596, true⟩, bootBlocks) := by decide
  obtain ⟨h₁, m₁, hrun', -⟩ := kmalloc hI (n := taskSize) (by decide) (by decide) hf
  have hrun : Heap.heapC.audited.kmalloc (heap, []) mem taskSize = some (bootAddr, h₁, m₁) := hrun'
  have htask := Linked.taskingInit_boot hrun
  have h0 : bootAddr ≠ 0 := by decide
  let s₀ : Session (Heap.HeapVars × Allocator.Ledger) :=
    ⟨{ Kernel.boot h₁ (setNext (fillTask m₁ bootAddr 0 0 0 0 .running) bootAddr bootAddr) with
        nextPid := 1, currentTask := bootAddr, taskingReady := true }, bootAddr, [⟨bootAddr, 0⟩], []⟩
  obtain ⟨hint, hled⟩ := Intact.start (s := s₀) keeping hI rfl htask h0 rfl rfl rfl
  exact ⟨s₀, _, ⟨(heap, []), mem, ⟨rfl, ∅, _, hinit⟩, htask, h0, rfl, rfl, rfl⟩, hint, hled, rfl, rfl,
    rfl, rfl⟩

/-- Creation while only task 0 has memory. -/
theorem create (tramp : ℕ) {L : Set Span} (h : Intact Keeps s L pending rest)
    (hl : Heap.replay blocks s.kernel.heap.2 = bootBlocks) (entry : ℕ) :
    ∃ s' L' rest', Session.step Heap.heapC.audited tramp s (.create entry) = some s' ∧
      Intact Keeps s' L' pending rest' ∧ s'.live = task :: s.live ∧ s'.exited = s.exited ∧
      s'.boot = s.boot ∧ s'.kernel.currentTask = s.kernel.currentTask ∧
      s'.kernel.heap.2 = .malloc taskStackSize task.stack :: .malloc taskSize task.addr ::
        s.kernel.heap.2 := by
  obtain ⟨h₁, m₁, h₂, m₂, hrun₁, hrun₂, -⟩ := twoBlocks h.ok.linked.memory hl
  obtain ⟨s', hstep, hboot, hexited, hcur, hcases⟩ := h.ok.create tramp keeping entry
    (fun w hw => .inl hw)
  obtain ⟨t, L', rest', ht, hint⟩ := h.other tramp (e := .create entry) keeping trivial id
  obtain rfl : s' = t := Option.some.inj (hstep.symm.trans ht)
  rcases hcases with ⟨⟨m, hno⟩, -⟩ | ⟨t, ⟨ht0, h₃, m₃, h₄, m₄, m₅, hrun₃, hrun₄, -⟩, -⟩ |
    ⟨u, hcalls, hlive, -⟩
  · rw [hrun₁] at hno
    cases hno
  · rw [hrun₁] at hrun₃
    cases hrun₃
    rw [hrun₂] at hrun₄
    cases hrun₄
  · have hu : u = task := by
      obtain ⟨-, -, h₃, m₃, m₄, hrun₃, hrun₄⟩ := hcalls
      rw [hrun₁] at hrun₃
      injection hrun₃ with he
      injection he with hta hrest
      injection hrest with hh hm
      rw [← hh, ← hm, hrun₂] at hrun₄
      injection hrun₄ with he'
      injection he' with hts
      exact Task.ext hta.symm hts.symm
    subst hu
    exact ⟨s', L', rest', hstep, hint, hlive, hexited, hboot, hcur, hcalls.ledger⟩

/-- Task 0 creates a task and switches to it; the task exits back to task 0. -/
theorem run_to_exit (tramp : ℕ) : ∃ s L rest, (kernelScheduler Heap.smallImage tramp).init s ∧
    newTask Heap.heapC.audited s.kernel = some task ∧
    ∃ s₁ s₂ s₃, Session.step Heap.heapC.audited tramp s (.create 0) = some s₁ ∧
      Session.step Heap.heapC.audited tramp s₁ (.schedule 0) = some s₂ ∧
      Session.step Heap.heapC.audited tramp s₂ (.exit 0) = some s₃ ∧ s₂.allowed (.exit 0) ∧
      Intact Keeps s₃ L [task] rest ∧ s₃.live = [⟨bootAddr, 0⟩] ∧ s₃.exited = [task] ∧
      s₃.boot = bootAddr ∧
      s₃.kernel.heap.2 = [.malloc taskStackSize task.stack, .malloc taskSize task.addr,
        .malloc taskSize bootAddr] := by
  obtain ⟨s, L₀, hinit, hint₀, hled₀, hcur₀, hboot₀, hlive₀, hex₀⟩ := boot tramp
  have hreplay : Heap.replay blocks s.kernel.heap.2 = bootBlocks := by
    rw [hled₀]
    decide
  obtain ⟨s₁, L₁, rest₁, hstep₁, hint₁, hlive₁, hex₁, hboot₁, hcur₁, hled₁⟩ :=
    create tramp hint₀ hreplay 0
  obtain ⟨s₂, o₂, dying₂, rest₂, hstep₂, hint₂, hled₂, -⟩ :=
    hint₁.enter tramp (e := .schedule 0) keeping trivial trivial hint₁.zombie_null
  obtain ⟨hlive₂, hex₂, hboot₂⟩ := Session.step_schedule hstep₂
  rw [hex₁, hex₀] at hex₂
  rw [hlive₁, hlive₀] at hlive₂
  obtain rfl : dying₂ = [] := hint₂.exited.symm.trans hex₂
  have hcur₂ : s₂.kernel.currentTask = task.addr := by
    rw [hlive₀] at hlive₁
    exact hint₁.ok.hand_over tramp keeping hlive₁ (hcur₁.trans hcur₀) hstep₂
  have hallowed : s₂.allowed (.exit 0) := by
    change s₂.kernel.currentTask ≠ s₂.boot
    rw [hcur₂, hboot₂, hboot₁, hboot₀]
    decide
  obtain ⟨s₃, o₃, dying₃, rest₃, hstep₃, hint₃, hled₃, -⟩ :=
    hint₂.enter tramp (e := .exit 0) keeping hallowed trivial hint₂.zombie_null
  obtain ⟨hlive₃, hex₃, hboot₃⟩ := Session.step_exit hstep₃
  rw [hlive₂, hcur₂] at hlive₃ hex₃
  rw [hex₂] at hex₃
  obtain rfl : dying₃ = [task] := hint₃.exited.symm.trans hex₃
  have hnew : newTask Heap.heapC.audited s.kernel = some task := by
    obtain ⟨h₁, m₁, h₂, m₂, hrun₁, hrun₂, -⟩ := twoBlocks hint₀.ok.linked.memory hreplay
    rw [newTask, hrun₁, Option.bind_some, if_neg (show task.addr ≠ 0 by decide), hrun₂,
      Option.bind_some, if_neg (show task.stack ≠ 0 by decide)]
  refine ⟨s, _, _, hinit, hnew, s₁, s₂, s₃, hstep₁, hstep₂, hstep₃, hallowed, hint₃, hlive₃, hex₃, ?_, ?_⟩
  · rw [hboot₃, hboot₂, hboot₁, hboot₀]
  · rw [hled₃, hled₂, hled₁, hled₀]

theorem zombie_of_exit {L : Set Span} (h : Intact Keeps s L [task] rest) :
    s.kernel.zombie = task.addr := by
  rcases h.ok.linked.pending_cases with ⟨hp, -⟩ | ⟨z, hp, hz⟩
  · cases hp
  · rw [← hz, ← List.singleton_inj.mp hp]

/-- The freed descriptor is still behind task 0, and its blocks are the next ones. -/
theorem after_reclaim (tramp : ℕ) {L : Set Span} (h : Intact Keeps s L [task] rest)
    (hlive : s.live = [⟨bootAddr, 0⟩]) (hex : s.exited = [task])
    (hled : s.kernel.heap.2 = [.malloc taskStackSize task.stack, .malloc taskSize task.addr,
      .malloc taskSize bootAddr]) :
    ∃ s' L', Session.step Heap.heapC.audited tramp s (.schedule 0) = some s' ∧
      Keeps s'.kernel.heap s'.kernel.mem L' L' ∧ descriptor s'.kernel.currentTask ∈ L' ∧
      s'.kernel.currentTask = bootAddr ∧ nextOf s'.kernel.mem bootAddr = task.addr ∧
      Heap.replay blocks s'.kernel.heap.2 = bootBlocks := by
  obtain ⟨s', o, k₀, k₁, dying, L', rest', hstep, hk₀, hl₀, hrec, hk₁, hok, -⟩ :=
    h.ok.enter tramp (e := .schedule 0) keeping trivial trivial
  obtain ⟨hlive', hex', -⟩ := Session.step_schedule hstep
  rw [hlive] at hlive'
  rw [hex] at hex'
  obtain rfl : dying = [] := by
    have hdying := hok.exited
    rw [hex'] at hdying
    simpa using hdying.symm
  have hg := hok.linked.graph
  have hcur : s'.kernel.currentTask = bootAddr := by
    obtain ⟨c, hc, he⟩ := hg.current rfl
    rw [hlive', List.mem_singleton] at hc
    rw [← he, hc]
  have hled' : s'.kernel.heap.2 = task.giveBack s.kernel.heap.2 := by
    rcases hl₀.reclaim_ledger keeping hrec with ⟨hp, -⟩ | ⟨z, hp, hl⟩
    · cases hp
    · rw [hk₁, hl, hk₀, ← List.singleton_inj.mp hp]
  rw [hlive', hcur] at hg
  have hnext : nextOf s'.kernel.mem bootAddr = task.addr := hg.next_pair (b := ⟨bootAddr, 0⟩)
  have hbootL : descriptor s'.kernel.currentTask ∈ L' := by
    rw [hcur]
    exact hok.linked.backed.held ⟨bootAddr, 0⟩ (by simp [hlive'])
  refine ⟨s', L', hstep, ?_, hbootL, hcur, hnext, ?_⟩
  · exact keeping.forget hok.linked.memory le_rfl (keeping.live_sub hok.linked.memory)
  · rw [hled', hled]
    decide

/-- The next task takes the slot; task 0 is then no longer on the ring. -/
theorem lost (tramp : ℕ) {L : Set Span} (hI : Keeps s.kernel.heap s.kernel.mem L L)
    (hcurL : descriptor s.kernel.currentTask ∈ L) (hcur : s.kernel.currentTask = bootAddr)
    (hnext : nextOf s.kernel.mem bootAddr = task.addr)
    (hl : Heap.replay blocks s.kernel.heap.2 = bootBlocks) :
    ∃ s', Session.step Heap.heapC.audited tramp s (.create 0) = some s' ∧
      ¬ RoundRobin (kernelScheduler Heap.smallImage tramp) s' := by
  obtain ⟨h₁, m₁, h₂, m₂, hrun₁, hrun₂, hk, hap⟩ := twoBlocks hI hl
  have hb : task.stack + taskStackSize ≤ 2 ^ 32 := by decide
  obtain ⟨k', hrun, hcur', hn₁, hn₂⟩ := taskCreate_relink tramp hrun₁ (by decide) hrun₂
    (by decide) (hk _ hcurL) (hap _ hcurL).1 (hap _ hcurL).2 hb (by decide) (hcur ▸ hnext) 0
  refine ⟨{ s with
      kernel := k'
      live := (newTask Heap.heapC.audited s.kernel).toList ++ s.live },
    congrArg (Option.map _) hrun, fun hr => ?_⟩
  have hne : task.addr ≠ s.kernel.currentTask := by
    rw [hcur]
    decide
  have hcloses : ∃ i, 0 < i ∧ (nextOf k'.mem)^[i] k'.currentTask = k'.currentTask := hr.closes
  rw [hcur'] at hcloses
  exact not_closes hne hn₁ hn₂ hcloses

end Slot

/-- The first creation after `tasking_init`. -/
theorem Slot.first_creation : ∃ s, (kernelScheduler Heap.smallImage 0).init s ∧
    (kernelScheduler Heap.smallImage 0).Executes s [.create 0] := by
  obtain ⟨s, L, hinit, hint, hled, -⟩ := boot 0
  have hreplay : Heap.replay blocks s.kernel.heap.2 = bootBlocks := by
    rw [hled]
    decide
  obtain ⟨s₁, -, -, h₁, -⟩ := create 0 hint hreplay 0
  exact ⟨s, hinit, trivial, s₁, h₁, trivial⟩

/-- Creating a task, switching to it, its exit, and the next `schedule`. -/
theorem Slot.run_to_reclaim : ∃ s, (kernelScheduler Heap.smallImage 0).init s ∧
    newTask Heap.heapC.audited s.kernel = some task ∧
    (kernelScheduler Heap.smallImage 0).Executes s [.create 0, .schedule 0, .exit 0, .schedule 0] ∧
    (kernelScheduler Heap.smallImage 0).EachStep
      (CreatesClear Heap.heapC.audited Heap.FootprintClear) s
      [.create 0, .schedule 0, .exit 0, .schedule 0] := by
  obtain ⟨s, L, rest, hinit, hnew, s₁, s₂, s₃, h₁, h₂, h₃, hallowed, hint, hlive, hex, -, hled⟩ :=
    run_to_exit 0
  obtain ⟨s₄, -, h₄, -⟩ := after_reclaim 0 hint hlive hex hled
  refine ⟨s, hinit, hnew,
    ⟨trivial, s₁, h₁, trivial, s₂, h₂, hallowed, s₃, h₃, trivial, s₄, h₄, trivial⟩,
    fun entry _ t ht => ?_, fun _ _ => ⟨nofun, fun _ _ => ⟨nofun, fun _ _ => ⟨nofun, fun _ _ =>
      trivial⟩⟩⟩⟩
  -- nothing is reclaimed before the only creation
  obtain ⟨-, -, -, -, -, -, -, hexited⟩ := hinit
  rw [Session.reclaimed, hexited] at ht
  cases ht

theorem ring_integrity_create : ∃ s, (kernelScheduler Heap.smallImage 0).init s ∧
    ((kernelScheduler Heap.smallImage 0).Always RingSound s [.create 0] ↔
      (kernelScheduler Heap.smallImage 0).EachStep NothingToReclaim s [.create 0]) := by
  obtain ⟨s, hinit, hexec⟩ := Slot.first_creation
  exact ⟨s, hinit, ring_integrity Heap.smallImage 0 hinit hexec⟩

theorem round_robin_create : ∃ s, (kernelScheduler Heap.smallImage 0).init s ∧
    newTask Heap.heapC.audited s.kernel = some Slot.task ∧
    (kernelScheduler Heap.smallImage 0).Executes s [.create 0, .schedule 0, .exit 0, .schedule 0] ∧
    (kernelScheduler Heap.smallImage 0).Always (RoundRobin (kernelScheduler Heap.smallImage 0)) s
      [.create 0, .schedule 0, .exit 0, .schedule 0] := by
  obtain ⟨s, hinit, hnew, hexec, hclear⟩ := Slot.run_to_reclaim
  exact ⟨s, hinit, hnew, hexec, round_robin Heap.smallImage 0 hinit hexec hclear⟩

/-- The same run leaves the freed descriptor linked. -/
theorem ring_integrity_reclaim : ∃ s, (kernelScheduler Heap.smallImage 0).init s ∧
    (kernelScheduler Heap.smallImage 0).Executes s [.create 0, .schedule 0, .exit 0, .schedule 0] ∧
    ¬ (kernelScheduler Heap.smallImage 0).Always RingSound s
      [.create 0, .schedule 0, .exit 0, .schedule 0] := by
  obtain ⟨s, L, rest, hinit, -, s₁, s₂, s₃, h₁, h₂, h₃, hallowed, hint, -⟩ := Slot.run_to_exit 0
  have hz : s₃.kernel.zombie ≠ 0 := by
    rw [Slot.zombie_of_exit hint]
    decide
  obtain ⟨s₄, h₄, hbad⟩ := hint.enter_zombie 0 (e := .schedule 0) Slot.keeping trivial
    trivial hz
  refine ⟨s, hinit, ⟨trivial, s₁, h₁, trivial, s₂, h₂, hallowed, s₃, h₃, trivial, s₄, h₄, trivial⟩,
    fun h => ?_⟩
  exact hbad ((((h.2 s₁ h₁).2 s₂ h₂).2 s₃ h₃).2 s₄ h₄)

/-- The same run, with a second creation. -/
theorem round_robin_reuse : ∃ s, (kernelScheduler Heap.smallImage 0).init s ∧
    (kernelScheduler Heap.smallImage 0).Executes s
      [.create 0, .schedule 0, .exit 0, .schedule 0, .create 0] ∧
    ¬ (kernelScheduler Heap.smallImage 0).Always (RoundRobin (kernelScheduler Heap.smallImage 0)) s
      [.create 0, .schedule 0, .exit 0, .schedule 0, .create 0] := by
  obtain ⟨s, L, rest, hinit, -, s₁, s₂, s₃, h₁, h₂, h₃, hallowed, hint, hlive, hex, -, hled⟩ :=
    Slot.run_to_exit 0
  obtain ⟨s₄, L', h₄, hI, hcurL, hcur, hnext, hreplay⟩ :=
    Slot.after_reclaim 0 hint hlive hex hled
  obtain ⟨s₅, h₅, hbad⟩ := Slot.lost 0 hI hcurL hcur hnext hreplay
  refine ⟨s, hinit, ⟨trivial, s₁, h₁, trivial, s₂, h₂, hallowed, s₃, h₃, trivial, s₄, h₄, trivial, s₅,
    h₅, trivial⟩, fun h => ?_⟩
  exact hbad (((((h.2 s₁ h₁).2 s₂ h₂).2 s₃ h₃).2 s₄ h₄).2 s₅ h₅)

end ShadOS.Tasking

import ShadOS.Interrupts.Source

/-! # When a tick is acknowledged

As long as no tick calls `schedule` while a task waits that never ran, task 0
keeps the processor and every tick returns through `irq_handler`. The first tick
that finds such a task enters `task_trampoline` with its IRQ 0 still in service.
-/

namespace ShadOS.Interrupts
open Machine Tasking

universe u
variable {H : Type u}

/-- IRQ 0 is on the master controller alone. -/
theorem finishIrq_eq (s : State H) : finishIrq s =
    { s with
      interruptsOn := true
      inService := false
      ports := s.ports ++ [(pic1, picEoi)] } := rfl

/-- The `sti` of `task_trampoline` is all that happens on the way to a new task. -/
theorem leave_new {here : Resume} {s : State H} {prev next : ℕ} (hne : next ≠ prev)
    (hnew : s.resume next = .trampoline) : leave here s (.switched prev next) =
      { s with resume := Function.update s.resume prev here, interruptsOn := true } := by
  rw [leave, Function.update_of_ne hne, hnew]
  rfl

/-- Task 0 runs, no other task ever did, and all ticks are acknowledged. -/
structure BootRuns (I : H → Mem → Set Span → Set Span → Prop) (s : State H) : Prop where
  tasks : ∃ L rest, SessionOk I s.session L L [] [] rest
  boot : s.session.kernel.currentTask = s.session.boot
  fresh : ∀ t ∈ s.session.live, t.addr ≠ s.session.kernel.currentTask →
    s.resume t.addr = .trampoline
  on : s.interruptsOn = true
  eois : s.eois = s.deliveries
  idle : s.inService = false

variable {A : Allocator H} {I : H → Mem → Set Span → Set Span → Prop} {clear : Span → Span → Prop}
  {tramp esp : ℕ} {s s' : State H} {e : Event}

namespace BootRuns

theorem start (hA : A.Keeping I clear) {start : H → Mem → Prop}
    (hstart : ∀ h m, start h m → ∃ O, I h m O O) (hs : (interrupts A tramp start).init s) :
    BootRuns I s := by
  obtain ⟨⟨heap, mem, hI, hrun, h0, hb, hl, hex⟩, hon, hidle, hdel, hports⟩ := hs
  obtain ⟨O, hO⟩ := hstart heap mem hI
  refine ⟨⟨_, _, SessionOk.start hA hO hrun h0 hb hl hex⟩, hb.symm, ?_, hon, ?_, hidle⟩
  · intro t ht hne
    rw [hl, List.mem_singleton] at ht
    exact absurd (congrArg Task.addr ht) hne
  · rw [State.eois, hports, hdel]
    rfl

theorem acknowledged (h : BootRuns I s) : Acknowledged s := fun _ => ⟨h.eois, h.idle⟩

theorem allowed_tick (h : BootRuns I s) : s.allowed (.tick esp) := by
  refine ⟨h.on, trivial, ?_, fun _ _ => h.idle⟩
  intro _ he
  cases he

/-- The timer routine returned to `irq_handler` on the same stack. -/
theorem returned (h : BootRuns I s) {k' : Kernel H} {L : Set Span} {rest : List ℕ}
    (hok : SessionOk I { s.session with kernel := k' } L L [] [] rest)
    (hcur : k'.currentTask = s.session.kernel.currentTask) :
    BootRuns I (leave .irqHandler
      { deliver s with session := { s.session with kernel := k' } } .returned) := by
  rw [leave, land, finishIrq_eq]
  refine ⟨⟨L, rest, hok⟩, hcur.trans h.boot, ?_, rfl, ?_, rfl⟩
  · intro t ht hne
    exact h.fresh t ht (hcur ▸ hne)
  · have heois := h.eois
    unfold State.eois at *
    rw [List.count_append, List.count_singleton_self]
    exact congrArg Nat.succ heois

/-- A tick that does not call `schedule` only counts. -/
theorem tick_counts (tramp : ℕ) (h : BootRuns I s) (he : ¬ (Event.tick esp).Enters s.session.kernel) :
    ∃ n s', step A tramp s (.tick esp) = some s' ∧ BootRuns I s' ∧
      s'.session = { s.session with kernel := { s.session.kernel with tickCounter := n } } ∧
      (s.session.kernel.taskingPaused = false → n = u32 (s.session.kernel.tickCounter + 1)) := by
  obtain ⟨L, rest, hok⟩ := h.tasks
  obtain ⟨n, hrun, hn⟩ := taskingTick_quiet A he
  have hstep : step A tramp s (.tick esp) = some (leave .irqHandler
      { deliver s with session := { s.session with
          kernel := { s.session.kernel with tickCounter := n } } } .returned) := by
    rw [step, hrun]
    rfl
  have hok' : SessionOk I { s.session with
      kernel := { s.session.kernel with tickCounter := n } } L L [] [] rest :=
    ⟨hok.linked.counter n s.session.kernel.taskingPaused, hok.exited, hok.boot⟩
  exact ⟨n, _, hstep, h.returned hok' rfl, rfl, hn hok.linked.ready⟩

/-- A tick either returns with no other task waiting, or enters a new task. -/
theorem tick (tramp : ℕ) (hA : A.Keeping I clear) (h : BootRuns I s) (esp : ℕ) :
    ∃ s', step A tramp s (.tick esp) = some s' ∧
      (MeetsNewTask s (.tick esp) ∧ s'.interruptsOn = true ∧ s'.eois = s.deliveries ∧
          s'.deliveries = s.deliveries + 1 ∨
        ¬ MeetsNewTask s (.tick esp) ∧ BootRuns I s') := by
  obtain ⟨L, rest, hok⟩ := h.tasks
  by_cases he : (Event.tick esp).Enters s.session.kernel
  · obtain ⟨o, k', k₁, L', rest', hrun, -, -, hlinked, -, hcho⟩ :=
      (hok.linked.counter 0 s.session.kernel.taskingPaused).schedule_switch hA hok.live_ne_nil esp
    have hstep : step A tramp s (.tick esp) = some (leave .irqHandler
        { deliver s with session := { s.session with kernel := switchTo esp (o, k') } } o) := by
      rw [step, taskingTick_enters A he, hrun]
      rfl
    refine ⟨_, hstep, ?_⟩
    have hok' : SessionOk I { s.session with kernel := switchTo esp (o, k') } L' L' [] [] rest' := by
      have hW : SessionOk I { s.session with kernel := switchTo esp (o, k') } L' L [] [] rest' :=
        ⟨hlinked, hok.exited, hok.boot⟩
      exact hW.forget hA le_rfl (hA.live_sub hlinked.memory) (by simp)
    rcases hcho with ⟨rfl, hcur, -, hrest⟩ | ⟨pre, post, ho, hrest, -, -, t, ht, htc⟩
    · refine .inr ⟨?_, h.returned hok' hcur⟩
      rintro ⟨_, -, -, t, ht, hne, -⟩
      have hmem := (hok.linked.graph.nodes t.addr).mpr ⟨t, by simp [ht], rfl⟩
      exact hrest t.addr ((List.mem_cons.mp hmem).resolve_left hne) t ht rfl
    · have hne : t.addr ≠ s.session.kernel.currentTask := by
        intro hc
        have hn := hok.linked.graph.nodup
        rw [← hc, htc, hrest] at hn
        simp at hn
      have hfresh := h.fresh t ht hne
      left
      refine ⟨⟨esp, rfl, he, t, ht, hne, hfresh⟩, ?_⟩
      have ho' : o = .switched s.session.kernel.currentTask t.addr := htc ▸ ho
      rw [ho', leave_new hne]
      · exact ⟨rfl, h.eois, rfl⟩
      · exact hfresh
  · obtain ⟨n, s', hstep, h', -⟩ := h.tick_counts tramp he
    exact ⟨s', hstep, .inr ⟨fun ⟨_, _, hn, _⟩ => he hn, h'⟩⟩

/-- Creation adds a task that never ran, or none. -/
theorem create (tramp : ℕ) (hA : A.Keeping I clear) (h : BootRuns I s) (entry : ℕ) :
    ∃ s', step A tramp s (.create entry) = some s' ∧ BootRuns I s' := by
  obtain ⟨L, rest, hok⟩ := h.tasks
  obtain ⟨t, hstep, hboot, -, hcur, hcases⟩ := hok.create tramp hA entry (fun w hw => .inl hw)
  obtain ⟨r, hrun, rfl⟩ := Option.map_eq_some_iff.mp hstep
  refine ⟨_, congrArg (Option.map _) hrun, ?_⟩
  have htasks : ∃ L' rest', SessionOk I { s.session with
      kernel := r.2
      live := (newTask A s.session.kernel).toList ++ s.session.live } L' L' [] []
        rest' := by
    rcases hcases with ⟨-, -, hok'⟩ | ⟨t, -, -, -, hok'⟩ | ⟨u, -, -, -, -, hok'⟩
    · exact ⟨L, rest, hok'⟩
    · exact ⟨L, rest, hok'.forget hA le_rfl (Set.subset_insert _ _) (by simp)⟩
    · exact ⟨_, _, hok'⟩
  have hfresh : ∀ u ∈ (newTask A s.session.kernel).toList ++ s.session.live,
      u.addr ≠ s.session.kernel.currentTask →
      (newTask A s.session.kernel).elim s.resume
        (fun t => Function.update s.resume t.addr .trampoline) u.addr = .trampoline := by
    intro u hu hne
    rcases hnew : newTask A s.session.kernel with - | t <;> rw [hnew] at hu
    · exact h.fresh u hu hne
    · by_cases hn : u.addr = t.addr
      · rw [Option.elim_some, hn]
        apply Function.update_self
      · rw [Option.elim_some, Function.update_of_ne hn]
        apply h.fresh u _ hne
        exact (List.mem_cons.mp hu).resolve_left (fun hu => hn (congrArg Task.addr hu))
  exact ⟨htasks, hcur.trans h.boot, fun u hu hne => hfresh u hu (fun hc => hne (hc.trans hcur.symm)),
    h.on, h.eois, h.idle⟩

/-- Any event but a tick that meets a new task leaves task 0 running. -/
theorem step (hA : A.Keeping I clear) (h : BootRuns I s) (ha : s.allowed e)
    (hC : ¬ MeetsNewTask s e) (hstep : step A tramp s e = some s') : BootRuns I s' := by
  have hsome {t : State H} (ht : Interrupts.step A tramp s e = some t) : t = s' :=
    Option.some.inj (ht.symm.trans hstep)
  have hquiet (he : ¬ e.Enters s.session.kernel) (hc : ∀ entry, e ≠ .create entry)
      (hs : Interrupts.step A tramp s e =
        (Session.step A tramp s.session e).map (fun t => { s with session := t })) :
      BootRuns I s' := by
    obtain ⟨L, rest, hok⟩ := h.tasks
    obtain ⟨t, ht, hok', hlive, -, hboot, -, hcur⟩ := hok.quiet tramp hA ha.2.1 he hc
    rw [ht] at hs
    obtain rfl := hsome hs
    refine ⟨⟨L, rest, hok'⟩, hcur.trans (h.boot.trans hboot.symm), ?_, h.on, h.eois, h.idle⟩
    intro u hu hne
    exact h.fresh u (hlive ▸ hu) (hcur ▸ hne)
  cases e with
  | create entry =>
    obtain ⟨t, ht, h'⟩ := h.create tramp hA entry
    exact hsome ht ▸ h'
  | schedule esp => exact absurd rfl (ha.2.2.1 esp)
  | tick esp =>
    obtain ⟨t, ht, ⟨hnew, -⟩ | ⟨-, h'⟩⟩ := h.tick tramp hA esp
    · exact absurd hnew hC
    · exact hsome ht ▸ h'
  | exit esp => exact absurd h.boot ha.2.1
  | setPaused paused => exact hquiet id (fun _ he => nomatch he) rfl
  | compute mem => exact hquiet id (fun _ he => nomatch he) rfl

/-- A tick that meets a new task runs it with the interrupt in service. -/
theorem step_new (hA : A.Keeping I clear) (h : BootRuns I s) (hC : MeetsNewTask s e)
    (hstep : Interrupts.step A tramp s e = some s') : ¬ Acknowledged s' := by
  obtain ⟨esp, rfl, -⟩ := id hC
  obtain ⟨t, ht, ⟨-, hon, heois, hdel⟩ | ⟨hno, -⟩⟩ := h.tick tramp hA esp
  · obtain rfl : t = s' := Option.some.inj (ht.symm.trans hstep)
    intro hack
    have := (hack hon).1
    omega
  · exact absurd hC hno

/-- A tick within the quantum. -/
theorem tick_within (tramp : ℕ) (h : BootRuns I s) (hp : s.session.kernel.taskingPaused = false)
    (hc : s.session.kernel.tickCounter + 1 < scheduleEveryNTicks) :
    ∃ s', Interrupts.step A tramp s (.tick esp) = some s' ∧ BootRuns I s' ∧
      ¬ MeetsNewTask s (.tick esp) ∧ s'.session = { s.session with
        kernel := { s.session.kernel with tickCounter := s.session.kernel.tickCounter + 1 } } := by
  have hcount := u32_of_lt (hc.trans (by decide))
  have he : ¬ (Event.tick esp).Enters s.session.kernel := by
    intro he
    have hle := he.2
    rw [hcount] at hle
    omega
  obtain ⟨n, s', hstep, h', hs', hn⟩ := h.tick_counts tramp he
  refine ⟨s', hstep, h', fun ⟨_, _, hn, _⟩ => he hn, ?_⟩
  rw [hs', hn hp, hcount]

/-- As long as the quantum lasts, the ticks return. -/
theorem within (tramp : ℕ) (start : H → Mem → Prop) (n : ℕ) :
    ∀ s : State H, BootRuns I s → s.session.kernel.taskingPaused = false →
      s.session.kernel.tickCounter + n < scheduleEveryNTicks →
      (interrupts A tramp start).Executes s (List.replicate n (.tick 0)) ∧
        (interrupts A tramp start).EachStep (fun s e => ¬ MeetsNewTask s e) s
          (List.replicate n (.tick 0)) := by
  induction n with
  | zero => exact fun _ _ _ _ => ⟨trivial, trivial⟩
  | succ n ih =>
    intro s h hp hc
    obtain ⟨s', hstep, h', hno, hs'⟩ := h.tick_within tramp hp (by omega)
    obtain ⟨hexec, heach⟩ := ih s' h' (by rw [hs']; exact hp) (by rw [hs']; dsimp only; omega)
    refine ⟨⟨h.allowed_tick, s', hstep, hexec⟩, hno, fun t ht => ?_⟩
    cases hstep.symm.trans ht
    exact heach

/-- With another task live, the ticks left in the quantum lose the acknowledgment. -/
theorem quantum (tramp : ℕ) (start : H → Mem → Prop) (hA : A.Keeping I clear) (n : ℕ) :
    ∀ s : State H, BootRuns I s → s.session.kernel.taskingPaused = false →
      (∃ t ∈ s.session.live, t.addr ≠ s.session.kernel.currentTask) →
      s.session.kernel.tickCounter + n + 1 = scheduleEveryNTicks →
      (interrupts A tramp start).Executes s (List.replicate (n + 1) (.tick 0)) ∧
        ¬ (interrupts A tramp start).EachStep (fun s e => ¬ MeetsNewTask s e) s
          (List.replicate (n + 1) (.tick 0)) := by
  induction n with
  | zero =>
    intro s h hp ⟨t, ht, hne⟩ hc
    obtain ⟨L, rest, hok⟩ := h.tasks
    have hnew : MeetsNewTask s (.tick 0) := by
      refine ⟨0, rfl, ⟨by simp [hok.linked.ready, hp], ?_⟩, t, ht, hne, h.fresh t ht hne⟩
      simp only [Nat.add_zero] at hc
      rw [hc]
      decide
    obtain ⟨s', hstep, -⟩ := h.tick tramp hA 0
    refine ⟨⟨h.allowed_tick, s', hstep, trivial⟩, ?_⟩
    exact fun hC => hC.1 hnew
  | succ n ih =>
    intro s h hp hlive hc
    obtain ⟨s', hstep, h', -, hs'⟩ := h.tick_within tramp hp (by omega)
    obtain ⟨hexec, hbad⟩ := ih s' h' (by rw [hs']; exact hp) (by rw [hs']; exact hlive)
      (by rw [hs']; dsimp only; omega)
    refine ⟨⟨h.allowed_tick, s', hstep, hexec⟩, ?_⟩
    exact fun hC => hbad (hC.2 s' hstep)

end BootRuns

/-- Along every run, all ticks are acknowledged whenever task code runs if and only if
no tick calls `schedule` while a task waits that never ran. -/
theorem always_acknowledged_iff (hA : A.Keeping I clear) {start : H → Mem → Prop}
    (hstart : ∀ h m, start h m → ∃ O, I h m O O) {es : List Event}
    (hs : (interrupts A tramp start).init s) (he : (interrupts A tramp start).Executes s es) :
    (interrupts A tramp start).Always Acknowledged s es ↔
      (interrupts A tramp start).EachStep (fun s e => ¬ MeetsNewTask s e) s es := by
  apply System.always_iff_eachStep (I := BootRuns I) _ _ _ _ he
  · exact fun s h => h.acknowledged
  · exact fun s e s' h ha hC hstep => h.step hA ha hC hstep
  · exact fun s e s' h _ hC hstep => h.step_new hA (not_not.mp hC) hstep
  · exact BootRuns.start hA hstart hs

end ShadOS.Interrupts

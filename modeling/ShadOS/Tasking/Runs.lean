import ShadOS.Tasking.Linked
import ShadOS.Machine.Runs

/-! # Runs of the scheduler

From `tasking_init` on, tasks are created, timer ticks and calls of `schedule`
come in any order, the current task computes on its own stack or exits. Each
event either enters `schedule`, creates, or leaves the tasks alone.
-/

namespace ShadOS.Tasking
open Machine

universe u

/-- A scheduler state with the tasks created so far and not exited, task 0
included, and the exited ones, the last one first. -/
structure Session (H : Type u) where
  kernel : Kernel H
  boot : ℕ
  live : List Task
  exited : List Task

/-- `esp` is the stack pointer saved if the event switches to another task. -/
inductive Event where
  | create (entry : ℕ)
  | schedule (esp : ℕ)
  | tick (esp : ℕ)
  | exit (esp : ℕ)
  | setPaused (paused : Bool)
  | compute (mem : Mem)

variable {H : Type u}

/-- The event calls `schedule`. -/
def Event.Enters (k : Kernel H) : Event → Prop
  | .schedule _ => True
  | .exit _ => True
  | .tick _ => ¬ (k.taskingReady = false ∨ k.taskingPaused = true) ∧
      scheduleEveryNTicks ≤ u32 (k.tickCounter + 1)
  | _ => False

/-- The two blocks that `kmalloc` hands to `task_create` in this state, if it has room for both. -/
def newTask (A : Allocator H) (k : Kernel H) : Option Task :=
  (A.kmalloc k.heap k.mem taskSize).bind (fun r =>
    if r.1 = 0 then none
    else (A.kmalloc r.2.1 r.2.2 taskStackSize).bind (fun q =>
      if q.1 = 0 then none else some ⟨r.1, q.1⟩))

namespace Session

def step (A : Allocator H) (tramp : ℕ) (s : Session H) : Event → Option (Session H)
  | .create entry => (taskCreate A tramp s.kernel entry).map (fun r =>
      { s with kernel := r.2, live := (newTask A s.kernel).toList ++ s.live })
  | .schedule esp => (schedule A s.kernel).map (fun r => { s with kernel := switchTo esp r })
  | .tick esp => (taskingTick A s.kernel).map (fun r => { s with kernel := switchTo esp r })
  | .exit esp => (taskExit A s.kernel).map (fun r =>
      { s with
        kernel := switchTo esp r
        live := s.live.filter (fun t => t.addr ≠ s.kernel.currentTask)
        exited := s.live.filter (fun t => t.addr = s.kernel.currentTask) ++ s.exited })
  | .setPaused paused => some { s with kernel := taskingSetPaused s.kernel paused }
  | .compute mem => some { s with kernel := { s.kernel with mem := mem } }

/-- Task 0 never exits, and the current task writes its own stack only. -/
def allowed (s : Session H) : Event → Prop
  | .exit _ => s.kernel.currentTask ≠ s.boot
  | .compute mem => ∀ x, mem x ≠ s.kernel.mem x →
      stackBaseOf s.kernel.mem s.kernel.currentTask ≠ 0 ∧
        (stackSpan (stackBaseOf s.kernel.mem s.kernel.currentTask)).Has x
  | _ => True

end Session

/-- The scheduler on a heap in one of the `start` states, with room for task 0. -/
def scheduler (A : Allocator H) (tramp : ℕ) (start : H → Mem → Prop) : System (Session H) Event where
  init s := ∃ heap mem, start heap mem ∧
    taskingInit A (Kernel.boot heap mem) = some s.kernel ∧ s.kernel.currentTask ≠ 0 ∧
    s.boot = s.kernel.currentTask ∧ s.live = [⟨s.kernel.currentTask, 0⟩] ∧ s.exited = []
  allowed := Session.allowed
  step := Session.step A tramp

structure SessionOk (I : H → Mem → Set Span → Set Span → Prop) (s : Session H) (L W : Set Span)
    (pending gone : List Task) (rest : List ℕ) : Prop where
  linked : Linked I s.kernel L W s.live [] pending gone rest
  exited : s.exited = pending ++ gone
  boot : ∃ b ∈ s.live, b.addr = s.boot

variable {A : Allocator H} {I : H → Mem → Set Span → Set Span → Prop} {clear : Span → Span → Prop}
  {tramp : ℕ} {s s' : Session H} {L W : Set Span} {pending gone : List Task} {rest : List ℕ}
  {e : Event}

theorem NoDescriptor.newTask {k k' : Kernel H} (h : NoDescriptor A k k') : newTask A k = none := by
  obtain ⟨m, hrun⟩ := h
  rw [Tasking.newTask, hrun]
  rfl

theorem NoStack.newTask {k k' : Kernel H} {t : ℕ} (h : NoStack A k k' t) : newTask A k = none := by
  obtain ⟨ht, h₁, m₁, h₂, m₂, m₃, hrun₁, hrun₂, -⟩ := h
  rw [Tasking.newTask, hrun₁, Option.bind_some, if_neg ht, hrun₂]
  rfl

theorem BothBlocks.newTask {k k' : Kernel H} {u : Task} (h : BothBlocks A k k' u) :
    newTask A k = some u := by
  obtain ⟨ht, hq, h₁, m₁, m₂, hrun₁, hrun₂⟩ := h
  rw [Tasking.newTask, hrun₁, Option.bind_some, if_neg ht, hrun₂, Option.bind_some, if_neg hq]

theorem Graph.current_owned {m : Mem} {cur : ℕ} {live dying past : List Task}
    (h : Graph m cur live dying past rest) : ∃ t ∈ live ++ dying, t.addr = cur := by
  rcases hd : dying with - | ⟨c, cs⟩
  · simpa using h.current hd
  · exact ⟨c, by simp, h.dying_current c (hd ▸ List.mem_cons_self)⟩

/-- `schedule` and the stack pointer it saves. -/
theorem Linked.schedule_switch (hA : A.Keeping I clear) {k : Kernel H} {live dying : List Task}
    (h : Linked I k L W live dying pending gone rest) (hlive : live ≠ []) (esp : ℕ) :
    ∃ o k' k₁ L' rest', schedule A k = some (o, k') ∧ reclaim A k = some k₁ ∧
      (switchTo esp (o, k')).heap = k₁.heap ∧
      Linked I (switchTo esp (o, k')) L' W live [] dying (pending ++ gone) rest' ∧
      (∀ x, x ∈ L' ↔ x ∈ L ∧ ∀ z ∈ pending, x ∉ z.spans) ∧
      Chosen live rest rest' k.currentTask (switchTo esp (o, k')).currentTask o := by
  obtain ⟨o, k', k₁, L', rest', hrun, hrec, hheap, hlinked, hL', hcho⟩ := h.schedule_spec hA hlive
  have hsame : (switchTo esp (o, k')).heap = k'.heap ∧
      (switchTo esp (o, k')).currentTask = k'.currentTask := by
    cases o <;> exact ⟨rfl, rfl⟩
  refine ⟨o, k', k₁, L', rest', hrun, hrec, hsame.1.trans hheap, hlinked.saveEsp hA ?_, hL', ?_⟩
  · intro prev next ho
    rcases hcho with ⟨ho', -⟩ | ⟨pre, post, ho', -⟩
    · rw [ho] at ho'
      cases ho'
    · rw [ho] at ho'
      obtain ⟨rfl, -⟩ := Outcome.switched.inj ho'
      exact h.graph.current_owned
  · rw [hsame.2]
    exact hcho

/-- The tick counter and the pause concern no task. -/
theorem Linked.counter {k : Kernel H} {live dying : List Task}
    (h : Linked I k L W live dying pending gone rest) (n : ℕ) (paused : Bool) :
    Linked I { k with tickCounter := n, taskingPaused := paused } L W live dying pending gone rest :=
  ⟨h.ready, h.memory, h.graph, h.backed, h.bases, h.zombie, h.waiting⟩

variable (A) in
theorem taskingTick_enters {k : Kernel H} {esp : ℕ} (he : (Event.tick esp).Enters k) :
    taskingTick A k = schedule A { k with tickCounter := 0 } := by
  rw [taskingTick, if_neg he.1, if_pos he.2]

variable (A) in
/-- Any other tick only counts, unless the scheduler is off. -/
theorem taskingTick_quiet {k : Kernel H} {esp : ℕ} (he : ¬ (Event.tick esp).Enters k) :
    ∃ n, taskingTick A k = some (.returned, { k with tickCounter := n }) ∧
      (k.taskingReady = true → k.taskingPaused = false → n = u32 (k.tickCounter + 1)) := by
  by_cases hp : k.taskingReady = false ∨ k.taskingPaused = true
  · exact ⟨k.tickCounter, if_pos hp, by grind⟩
  · refine ⟨u32 (k.tickCounter + 1), ?_, fun _ _ => rfl⟩
    rw [taskingTick, if_neg hp, if_neg (fun hn => he ⟨hp, hn⟩)]

/-- Which tasks an event leaves live, exited and first. -/
theorem Session.step_schedule {esp : ℕ} (hstep : Session.step A tramp s (.schedule esp) = some s') :
    s'.live = s.live ∧ s'.exited = s.exited ∧ s'.boot = s.boot := by
  obtain ⟨r, -, rfl⟩ := Option.map_eq_some_iff.mp hstep
  exact ⟨rfl, rfl, rfl⟩

theorem Session.step_create {entry : ℕ} (hstep : Session.step A tramp s (.create entry) = some s') :
    s'.live = (newTask A s.kernel).toList ++ s.live ∧ s'.exited = s.exited ∧ s'.boot = s.boot := by
  obtain ⟨r, -, rfl⟩ := Option.map_eq_some_iff.mp hstep
  exact ⟨rfl, rfl, rfl⟩

theorem Session.step_exit {esp : ℕ} (hstep : Session.step A tramp s (.exit esp) = some s') :
    s'.live = s.live.filter (fun t => t.addr ≠ s.kernel.currentTask) ∧
      s'.exited = s.live.filter (fun t => t.addr = s.kernel.currentTask) ++ s.exited ∧
      s'.boot = s.boot := by
  obtain ⟨r, -, rfl⟩ := Option.map_eq_some_iff.mp hstep
  exact ⟨rfl, rfl, rfl⟩

namespace SessionOk

theorem start (hA : A.Keeping I clear) {O : Set Span} {heap : H} {mem : Mem} (hI : I heap mem O O)
    (hrun : taskingInit A (Kernel.boot heap mem) = some s.kernel) (h0 : s.kernel.currentTask ≠ 0)
    (hb : s.boot = s.kernel.currentTask) (hl : s.live = [⟨s.kernel.currentTask, 0⟩])
    (he : s.exited = []) :
    SessionOk I s (insert (descriptor s.kernel.currentTask) O)
      (insert (descriptor s.kernel.currentTask) O) [] [] [] := by
  refine ⟨hl ▸ Linked.init hA hI hrun h0, he, ?_⟩
  rw [hl, hb]
  exact ⟨_, List.mem_cons_self, rfl⟩

theorem live_ne_nil (h : SessionOk I s L W pending gone rest) : s.live ≠ [] := by
  obtain ⟨b, hb, -⟩ := h.boot
  exact List.ne_nil_of_mem hb

theorem forget (hA : A.Keeping I clear) (h : SessionOk I s L W pending gone rest) {V : Set Span}
    (hLV : L ⊆ V) (hVW : V ⊆ W) (hg : ∀ t ∈ gone, descriptor t.addr ∈ V) :
    SessionOk I s L V pending gone rest := ⟨h.linked.forget hA hLV hVW hg, h.exited, h.boot⟩

/-- An event that enters `schedule`: the zombie is reclaimed, an exiting task takes its place. -/
theorem enter (tramp : ℕ) (hA : A.Keeping I clear) (h : SessionOk I s L W pending gone rest)
    (ha : s.allowed e) (he : e.Enters s.kernel) :
    ∃ s' o k₀ k₁ dying L' rest', Session.step A tramp s e = some s' ∧
      k₀.heap = s.kernel.heap ∧ Linked I k₀ L W s'.live dying pending gone rest ∧
      reclaim A k₀ = some k₁ ∧ s'.kernel.heap = k₁.heap ∧
      SessionOk I s' L' W dying (pending ++ gone) rest' ∧ s'.boot = s.boot ∧
      (∀ x, x ∈ L' ↔ x ∈ L ∧ ∀ z ∈ pending, x ∉ z.spans) ∧
      (∀ t, t ∈ s.live ↔ t ∈ s'.live ∨ t ∈ dying) ∧
      Chosen s'.live rest rest' s.kernel.currentTask s'.kernel.currentTask o := by
  cases e with
  | create | setPaused | compute => cases he
  | schedule esp =>
    obtain ⟨o, k', k₁, L', rest', hrun, hrec, hheap, hlinked, hL', hcho⟩ :=
      h.linked.schedule_switch hA h.live_ne_nil esp
    exact ⟨{ s with kernel := switchTo esp (o, k') }, o, s.kernel, k₁, [], L', rest',
      congrArg (Option.map _) hrun, rfl, h.linked, hrec, hheap, ⟨hlinked, h.exited, h.boot⟩, rfl,
      hL', by simp, hcho⟩
  | tick esp =>
    have hlinked₀ := h.linked.counter 0 s.kernel.taskingPaused
    obtain ⟨o, k', k₁, L', rest', hrun, hrec, hheap, hlinked, hL', hcho⟩ :=
      hlinked₀.schedule_switch hA h.live_ne_nil esp
    refine ⟨{ s with kernel := switchTo esp (o, k') }, o, { s.kernel with tickCounter := 0 }, k₁, [],
      L', rest', ?_, rfl, hlinked₀,
      hrec, hheap, ⟨hlinked, h.exited, h.boot⟩, rfl, hL', by simp, hcho⟩
    rw [Session.step, taskingTick_enters A he, hrun]
    rfl
  | exit esp =>
    obtain ⟨b, hb, hbb⟩ := h.boot
    have hb' : b ∈ s.live.filter (fun t => t.addr ≠ s.kernel.currentTask) :=
      List.mem_filter.mpr ⟨hb, by simpa [hbb] using Ne.symm ha⟩
    have hlinked₀ := h.linked.exit hA
    obtain ⟨o, k', k₁, L', rest', hrun, hrec, hheap, hlinked, hL', hcho⟩ :=
      hlinked₀.schedule_switch hA (List.ne_nil_of_mem hb') esp
    refine ⟨{ s with
        kernel := switchTo esp (o, k')
        live := s.live.filter (fun t => t.addr ≠ s.kernel.currentTask)
        exited := s.live.filter (fun t => t.addr = s.kernel.currentTask) ++ s.exited },
      o, { s.kernel with mem := setState s.kernel.mem s.kernel.currentTask .terminated }, k₁,
      s.live.filter (fun t => t.addr = s.kernel.currentTask), L', rest', ?_, rfl, hlinked₀, hrec,
      hheap, ⟨hlinked, ?_, ⟨b, hb', hbb⟩⟩, rfl, hL', fun t => ?_, hcho⟩
    · rw [Session.step, taskExit, hrun]
      rfl
    · change s.live.filter _ ++ s.exited = _
      rw [h.exited]
    · simp only [List.mem_filter, decide_eq_true_eq]
      tauto

/-- With two tasks live, `schedule` hands over to the other one. -/
theorem hand_over (tramp : ℕ) (hA : A.Keeping I clear) (h : SessionOk I s L W pending gone rest)
    {t b : Task} {esp : ℕ} (hlive : s.live = [t, b]) (hcur : s.kernel.currentTask = b.addr)
    (hstep : Session.step A tramp s (.schedule esp) = some s') :
    s'.kernel.currentTask = t.addr := by
  obtain ⟨s₁, o, k₀, k₁, dying, L', rest', hstep₁, -, -, -, -, -, -, -, -, hcho⟩ :=
    h.enter tramp (e := .schedule esp) hA trivial trivial
  obtain rfl : s₁ = s' := Option.some.inj (hstep₁.symm.trans hstep)
  have hg := h.linked.graph
  rw [(Session.step_schedule hstep).1, hlive, hcur] at hcho
  rw [hlive, hcur] at hg
  exact hg.chosen_other hcho

/-- Creation with blocks that miss the freed descriptors. -/
theorem create (tramp : ℕ) (hA : A.Keeping I clear) (h : SessionOk I s L W pending gone rest)
    (entry : ℕ)
    (hclear : ∀ w ∈ W, w ∈ L ∨ HandsClear A clear s.kernel w) :
    ∃ s', Session.step A tramp s (.create entry) = some s' ∧ s'.boot = s.boot ∧
      s'.exited = s.exited ∧ s'.kernel.currentTask = s.kernel.currentTask ∧
      ((NoDescriptor A s.kernel s'.kernel ∧ s'.live = s.live ∧ SessionOk I s' L W pending gone rest) ∨
        (∃ t, NoStack A s.kernel s'.kernel t ∧ s'.live = s.live ∧ descriptor t ∉ W ∧
          SessionOk I s' L (insert (descriptor t) W) pending gone rest) ∨
        ∃ u, BothBlocks A s.kernel s'.kernel u ∧ s'.live = u :: s.live ∧ descriptor u.addr ∉ W ∧
          stackSpan u.stack ∉ W ∧
          SessionOk I s' (insert (stackSpan u.stack) (insert (descriptor u.addr) L))
            (insert (stackSpan u.stack) (insert (descriptor u.addr) W)) pending gone
            (u.addr :: rest)) := by
  obtain ⟨o, k', hrun, hcur, hcases⟩ := h.linked.create hA tramp entry hclear
  refine ⟨{ s with kernel := k', live := (newTask A s.kernel).toList ++ s.live },
    congrArg (Option.map _) hrun, rfl, rfl, hcur, ?_⟩
  rcases hcases with ⟨-, hcalls, hlinked⟩ | ⟨t, -, hcalls, htW, hlinked⟩ |
    ⟨u, -, hcalls, -, huW, hsW, hlinked⟩
  · rw [hcalls.newTask]
    exact .inl ⟨hcalls, rfl, hlinked, h.exited, h.boot⟩
  · rw [hcalls.newTask]
    exact .inr (.inl ⟨t, hcalls, rfl, htW, hlinked, h.exited, h.boot⟩)
  · obtain ⟨b, hb, hbb⟩ := h.boot
    rw [hcalls.newTask]
    exact .inr (.inr ⟨u, hcalls, rfl, huW, hsW, hlinked, h.exited,
      ⟨b, List.mem_cons_of_mem u hb, hbb⟩⟩)

/-- Events that neither create nor enter `schedule` leave the tasks alone. -/
theorem quiet (tramp : ℕ) (hA : A.Keeping I clear) (h : SessionOk I s L W pending gone rest)
    (ha : s.allowed e)
    (he : ¬ e.Enters s.kernel) (hc : ∀ entry, e ≠ .create entry) :
    ∃ s', Session.step A tramp s e = some s' ∧ SessionOk I s' L W pending gone rest ∧
      s'.live = s.live ∧ s'.exited = s.exited ∧ s'.boot = s.boot ∧
      s'.kernel.heap = s.kernel.heap ∧ s'.kernel.currentTask = s.kernel.currentTask := by
  have hl := h.linked
  cases e with
  | create entry => exact absurd rfl (hc entry)
  | schedule | exit => exact absurd trivial he
  | tick esp =>
    obtain ⟨n, hrun, -⟩ := taskingTick_quiet A he
    refine ⟨{ s with kernel := { s.kernel with tickCounter := n } }, ?_,
      ⟨hl.counter n s.kernel.taskingPaused, h.exited, h.boot⟩, rfl, rfl, rfl, rfl, rfl⟩
    rw [Session.step, hrun]
    rfl
  | setPaused paused =>
    exact ⟨_, rfl, ⟨hl.counter s.kernel.tickCounter paused, h.exited, h.boot⟩, rfl, rfl, rfl, rfl,
      rfl⟩
  | compute mem =>
    obtain ⟨c, hc, hcc⟩ := hl.graph.current rfl
    have hcm : c ∈ s.live ++ ([] ++ pending) := List.mem_append_left _ hc
    have hbase := hl.bases c hcm
    rw [hcc] at hbase
    have hin : ∀ x, mem x ≠ s.kernel.mem x → c.stack ≠ 0 ∧ (stackSpan c.stack).Has x := by
      intro x hx
      have := ha x hx
      rwa [hbase] at this
    refine ⟨_, rfl, ⟨hl.update (hA.store hl.memory (fun x hx => ?_)) le_rfl le_rfl
      (fun t ht => .of_bytes (fun x hx => ?_)), h.exited, h.boot⟩, rfl, rfl, rfl, rfl, rfl⟩
    · exact ⟨_, hl.backed.stack c hcm (hin x hx).1, (hin x hx).2⟩
    · by_contra hne
      have hap := hA.apart hl.memory (hA.live_sub hl.memory (hl.backed.stack c hcm (hin x hne).1))
        (hl.descriptor_mem hA ht) (descriptor_ne_stackSpan _ _).symm
      exact hap.not_has (hin x hne).2 hx

end SessionOk
end ShadOS.Tasking

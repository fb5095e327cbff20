import ShadOS.Tasking.Ledger

/-! # Task states and the zombie slot

Over an allocator that never reuses memory, the states name the current task,
one slot suffices for the exited task that is not reclaimed yet, and `schedule`
frees each exited task once.
-/

namespace ShadOS.Tasking
open Machine

universe u
variable {H : Type u}

/-- The scheduler with its calls of the allocator recorded. -/
def recorded (A : Allocator H) (I : H → Mem → Set Span → Set Span → Prop) (tramp : ℕ) :
    System (Session (H × Allocator.Ledger)) Event :=
  scheduler A.audited tramp (fun h m => h.2 = [] ∧ ∃ O, I h.1 m O O)

/-- The pointers passed to `kfree` so far. -/
def Session.freed (s : Session (H × Allocator.Ledger)) : List ℕ :=
  Allocator.Ledger.freed s.kernel.heap.2

structure StatesOk (s : Session (H × Allocator.Ledger)) : Prop where
  distinct : ((s.live ++ s.exited).map Task.addr).Nodup
  current : ∃ t ∈ s.live, t.addr = s.kernel.currentTask
  live : ∀ t ∈ s.live, stateOf s.kernel.mem t.addr =
    (if t.addr = s.kernel.currentTask then TaskState.running else .ready).code
  exited : ∀ t ∈ s.exited, stateOf s.kernel.mem t.addr = TaskState.terminated.code
  unreclaimed : ∀ t ∈ s.exited, t.addr ∉ s.freed ∨ t.stack ∉ s.freed → t.addr = s.kernel.zombie
  zombie : s.kernel.zombie ≠ 0 →
    ∃ t ∈ s.exited, t.addr = s.kernel.zombie ∧ t.addr ∉ s.freed ∧ t.stack ∉ s.freed
  reclaimed : ∀ t ∈ s.exited, t.addr ≠ s.kernel.zombie →
    s.freed.count t.addr = 1 ∧ s.freed.count t.stack = 1
  kept : ∀ t ∈ s.live, t.addr ∉ s.freed ∧ t.stack ∉ s.freed

/-- What one call of `schedule` frees and selects: every task that exited before
is freed once, no task that was live is, and a task that was live runs. -/
structure ReclaimOk (s s' : Session (H × Allocator.Ledger)) : Prop where
  freed : ∀ t ∈ s.exited, s'.freed.count t.addr = 1 ∧ s'.freed.count t.stack = 1
  executing : ∀ t ∈ s.live, t.addr ∉ s'.freed ∧ t.stack ∉ s'.freed
  selected : stateOf s.kernel.mem s'.kernel.currentTask ≠ TaskState.terminated.code

/-- The stack and the descriptor of every task were freed as often before the event as after it. -/
def FreesNoTask (s s' : Session (H × Allocator.Ledger)) : Prop :=
  ∀ t ∈ s.live ++ s.exited,
    s'.freed.count t.addr = s.freed.count t.addr ∧ s'.freed.count t.stack = s.freed.count t.stack

/-- Everything ever handed out is kept, and freed pointers are not live. -/
structure FreshOk (I : H → Mem → Set Span → Set Span → Prop) (s : Session (H × Allocator.Ledger))
    (L W : Set Span) (pending gone : List Task) (rest : List ℕ) : Prop where
  ok : SessionOk (fun h m L W => I h.1 m L W) s L W pending gone rest
  ownStack : ∀ t ∈ s.live, t.addr ≠ s.boot → t.stack ≠ 0
  exitedStack : ∀ t ∈ s.exited, t.stack ≠ 0
  keptStack : ∀ t ∈ gone, stackSpan t.stack ∈ W
  freedKept : ∀ p ∈ s.freed, ∃ w ∈ W, w.addr = p ∧ w ∉ L
  once : ∀ t ∈ gone, s.freed.count t.addr = 1 ∧ s.freed.count t.stack = 1

variable {A : Allocator H} {I : H → Mem → Set Span → Set Span → Prop} {tramp : ℕ}
  {s s' : Session (H × Allocator.Ledger)} {L W : Set Span} {pending gone : List Task}
  {rest : List ℕ} {e : Event} {t : Task}

theorem FreesNoTask.of_freed_eq (h : s'.freed = s.freed) : FreesNoTask s s' :=
  fun _ _ => by rw [h]; exact ⟨rfl, rfl⟩

namespace FreshOk

/-- A live span was never freed. -/
theorem notMem_freed (hA : A.audited.Keeping (fun h m L W => I h.1 m L W) (fun _ _ => True))
    (h : FreshOk I s L W pending gone rest) {w : Span} (hw : w ∈ L) : w.addr ∉ s.freed := by
  intro hm
  obtain ⟨v, hv, hva, hvL⟩ := h.freedKept _ hm
  have hI := h.ok.linked.memory
  have hwW := hA.live_sub hI hw
  refine hvL ?_
  rwa [eq_of_addr_eq (hA.apart hI) hv hwW (hA.bounds hI hv).2.1 (hA.bounds hI hwW).2.1 hva]

theorem owned_notMem (hA : A.audited.Keeping (fun h m L W => I h.1 m L W) (fun _ _ => True))
    (h : FreshOk I s L W pending gone rest) (ht : t ∈ s.live ++ ([] ++ pending)) :
    t.addr ∉ s.freed ∧ t.stack ∉ s.freed := by
  have hb := h.ok.linked.backed
  refine ⟨h.notMem_freed hA (hb.held t ht), fun hm => ?_⟩
  by_cases h0 : t.stack = 0
  · obtain ⟨v, hv, hva, -⟩ := h.freedKept _ hm
    have := (hA.bounds h.ok.linked.memory hv).1
    omega
  · exact h.notMem_freed hA (hb.stack t ht h0) hm

theorem states (hA : A.audited.Keeping (fun h m L W => I h.1 m L W) (fun _ _ => True))
    (h : FreshOk I s L W pending gone rest) : StatesOk s := by
  have hg := h.ok.linked.graph
  have hex := h.ok.exited
  have hpend : ∀ t ∈ pending, t.addr = s.kernel.zombie ∧ t.addr ∉ s.freed ∧ t.stack ∉ s.freed :=
    fun t ht => ⟨h.ok.linked.zombie t ht, h.owned_notMem hA (List.mem_append_right _ ht)⟩
  have hgone : ∀ t ∈ gone, t.addr ∈ s.freed ∧ t.stack ∈ s.freed := by
    intro t ht
    obtain ⟨h1, h2⟩ := h.once t ht
    exact ⟨List.count_pos_iff.mp (by omega), List.count_pos_iff.mp (by omega)⟩
  refine ⟨hex ▸ hg.distinct, hg.current rfl, hg.alive, hex ▸ hg.dead, fun t ht hnot => ?_,
    fun hz => ?_, fun t ht hne => ?_, fun t ht => h.owned_notMem hA (List.mem_append_left _ ht)⟩
  · rw [hex] at ht
    rcases List.mem_append.mp ht with ht | ht
    · exact (hpend t ht).1
    · rcases hnot with hn | hn
      · exact absurd (hgone t ht).1 hn
      · exact absurd (hgone t ht).2 hn
  · obtain ⟨z, hzp⟩ := List.exists_mem_of_ne_nil _ (h.ok.linked.waiting hz)
    exact ⟨z, hex ▸ List.mem_append_left _ hzp, hpend z hzp⟩
  · rw [hex] at ht
    rcases List.mem_append.mp ht with ht | ht
    · exact absurd (hpend t ht).1 hne
    · exact h.once t ht

/-- The zombie still owns its two blocks. -/
theorem zombie_owns (hA : A.audited.Keeping (fun h m L W => I h.1 m L W) (fun _ _ => True))
    (h : FreshOk I s L W pending gone rest) (ht : t ∈ pending) :
    descriptor t.addr ∈ L ∧ stackSpan t.stack ∈ L ∧ t.addr ≠ t.stack ∧ t.stack ≠ 0 := by
  have hI := h.ok.linked.memory
  have h0 : t.stack ≠ 0 := h.exitedStack t (h.ok.exited ▸ List.mem_append_left _ ht)
  have hdesc := h.ok.linked.backed.held t (List.mem_append_right _ ht)
  have hstack := h.ok.linked.backed.stack t (List.mem_append_right _ ht) h0
  refine ⟨hdesc, hstack, fun he => ?_, h0⟩
  apply descriptor_ne_stackSpan t.addr t.stack
  exact eq_of_addr_eq (hA.apart hI) (hA.live_sub hI hdesc) (hA.live_sub hI hstack)
    (show 0 < taskSize by decide) (show 0 < taskStackSize by decide) he

/-- The spans freed before, and those of the zombie, are kept and no longer live. -/
theorem freedKept_reclaim (hA : A.audited.Keeping (fun h m L W => I h.1 m L W) (fun _ _ => True))
    (h : FreshOk I s L W pending gone rest) {L' : Set Span}
    (hL' : ∀ x, x ∈ L' ↔ x ∈ L ∧ ∀ z ∈ pending, x ∉ z.spans) {p : ℕ}
    (hp : p ∈ s.freed ∨ ∃ z ∈ pending, p = z.addr ∨ p = z.stack) :
    ∃ w ∈ W, w.addr = p ∧ w ∉ L' := by
  have hI := h.ok.linked.memory
  rcases hp with hp | ⟨z, hz, rfl | rfl⟩
  · obtain ⟨w, hw, hwp, hwL⟩ := h.freedKept p hp
    exact ⟨w, hw, hwp, fun hm => hwL ((hL' w).mp hm).1⟩
  · exact ⟨_, hA.live_sub hI (h.zombie_owns hA hz).1, rfl,
      fun hm => ((hL' _).mp hm).2 z hz (.inl rfl)⟩
  · obtain ⟨-, hstack, -, h0⟩ := h.zombie_owns hA hz
    exact ⟨_, hA.live_sub hI hstack, rfl, fun hm => ((hL' _).mp hm).2 z hz (.inr ⟨h0, rfl⟩)⟩

/-- Once the zombie `z` is freed, each exited task was freed once. -/
theorem once_reclaim (hA : A.audited.Keeping (fun h m L W => I h.1 m L W) (fun _ _ => True))
    {z : Task} (h : FreshOk I s L W [z] gone rest) (ht : t ∈ [z] ++ gone) :
    (z.addr :: z.stack :: s.freed).count t.addr = 1 ∧
      (z.addr :: z.stack :: s.freed).count t.stack = 1 := by
  obtain ⟨-, -, hne, -⟩ := h.zombie_owns hA (t := z) (by simp)
  obtain ⟨hza, hzs⟩ := h.owned_notMem hA (t := z) (by simp)
  rcases List.mem_append.mp ht with ht | ht
  · rw [List.mem_singleton.mp ht]
    simp [List.count_eq_zero.mpr hza, List.count_eq_zero.mpr hzs, hne, hne.symm]
  · -- reclaimed tasks were freed before, the zombie was not
    obtain ⟨h1, h2⟩ := h.once t ht
    have hta : t.addr ∈ s.freed := List.count_pos_iff.mp (by omega)
    have hts : t.stack ∈ s.freed := List.count_pos_iff.mp (by omega)
    have hdiff : ∀ {p q : ℕ}, p ∈ s.freed → q ∉ s.freed → q ≠ p := by
      rintro p q hp hq rfl
      exact hq hp
    rw [List.count_cons_of_ne (hdiff hta hza), List.count_cons_of_ne (hdiff hta hzs),
      List.count_cons_of_ne (hdiff hts hza), List.count_cons_of_ne (hdiff hts hzs)]
    exact ⟨h1, h2⟩

/-- A call of `schedule` frees the zombie, whose memory was live until then. -/
theorem enter (tramp : ℕ) (hA : A.audited.Keeping (fun h m L W => I h.1 m L W) (fun _ _ => True))
    (h : FreshOk I s L W pending gone rest) (ha : s.allowed e) (he : e.Enters s.kernel) :
    ∃ s' L' dying rest', Session.step A.audited tramp s e = some s' ∧
      FreshOk I s' L' W dying (pending ++ gone) rest' ∧ ReclaimOk s s' := by
  obtain ⟨s', o, k₀, k₁, dying, L', rest', hstep, hheap, hl₀, hrec, hheap', hok', hboot, hL', hlive,
    hcho⟩ := h.ok.enter tramp hA ha he
  have hexited' : s'.exited = dying ++ s.exited := by rw [hok'.exited, h.ok.exited]
  have hdyingStack : ∀ t ∈ dying, t.stack ≠ 0 := by
    intro t ht
    obtain ⟨b, hb, hbb⟩ := hok'.boot
    refine h.ownStack t ((hlive t).mpr (.inr ht)) (fun hbt => ?_)
    exact hl₀.graph.live_ne_dead hb (List.mem_append_left _ ht) (by rw [hbb, hboot, hbt])
  have hwas : ∀ t ∈ s'.live, t ∈ s.live := fun t ht => (hlive t).mpr (.inl ht)
  have hkept : ∀ t ∈ pending ++ gone, stackSpan t.stack ∈ W := by
    intro t ht
    rcases List.mem_append.mp ht with ht | ht
    · exact hA.live_sub h.ok.linked.memory (h.zombie_owns hA ht).2.1
    · exact h.keptStack t ht
  have hledger := hl₀.reclaim_ledger hA hrec
  rw [hheap, ← hheap'] at hledger
  have hfreed : (∀ p ∈ s'.freed, p ∈ s.freed ∨ ∃ z ∈ pending, p = z.addr ∨ p = z.stack) ∧
      ∀ t ∈ pending ++ gone, s'.freed.count t.addr = 1 ∧ s'.freed.count t.stack = 1 := by
    rcases hledger with ⟨rfl, hl⟩ | ⟨z, rfl, hl⟩
    · have hsame : s'.freed = s.freed := congrArg Allocator.Ledger.freed hl
      rw [hsame]
      exact ⟨fun p hp => .inl hp, h.once⟩
    · obtain ⟨-, -, -, h0⟩ := h.zombie_owns hA (t := z) (by simp)
      have hnew : s'.freed = z.addr :: z.stack :: s.freed := by
        rw [Session.freed, hl, Task.giveBack, if_neg h0]
        rfl
      rw [hnew]
      refine ⟨fun p hp => ?_, fun t ht => h.once_reclaim hA ht⟩
      rw [List.mem_cons, List.mem_cons, ← or_assoc] at hp
      exact hp.symm.imp_right (fun hp => ⟨z, List.mem_cons_self, hp⟩)
  have hfresh : FreshOk I s' L' W dying (pending ++ gone) rest' := by
    refine ⟨hok', fun t ht hne => h.ownStack t (hwas t ht) (hboot ▸ hne), fun t ht => ?_, hkept,
      fun p hp => h.freedKept_reclaim hA hL' (hfreed.1 p hp), hfreed.2⟩
    rw [hexited'] at ht
    rcases List.mem_append.mp ht with ht | ht
    · exact hdyingStack t ht
    · exact h.exitedStack t ht
  refine ⟨s', L', dying, rest', hstep, hfresh, fun t ht => hfreed.2 t (h.ok.exited ▸ ht),
    fun t ht => ?_, ?_⟩
  · refine hfresh.owned_notMem hA ?_
    rcases (hlive t).mp ht with ht | ht
    · exact List.mem_append_left _ ht
    · exact List.mem_append_right _ ht
  · obtain ⟨c, hc, hcc⟩ := hok'.linked.graph.current rfl
    rw [← hcc, h.ok.linked.graph.alive c (hwas c hc)]
    split <;> decide

/-- The address of a span that was never kept is that of no task. -/
theorem ne_task (hA : A.audited.Keeping (fun h m L W => I h.1 m L W) (fun _ _ => True))
    (h : FreshOk I s L W pending gone rest) {p : ℕ} (hp : 0 < p) (hW : ∀ w ∈ W, p ≠ w.addr)
    (ht : t ∈ s.live ++ s.exited) : p ≠ t.addr ∧ p ≠ t.stack := by
  have hl := h.ok.linked
  rw [h.ok.exited, ← List.append_assoc] at ht
  rcases List.mem_append.mp ht with ht | ht
  · refine ⟨hW _ (hA.live_sub hl.memory (hl.backed.held t ht)), ?_⟩
    by_cases h0 : t.stack = 0
    · omega
    · exact hW _ (hA.live_sub hl.memory (hl.backed.stack t ht h0))
  · exact ⟨hW _ (hl.backed.kept t ht), hW _ (h.keptStack t ht)⟩

/-- A creation frees nothing but the descriptor of a failed one. -/
theorem create (tramp : ℕ) (hA : A.audited.Keeping (fun h m L W => I h.1 m L W) (fun _ _ => True))
    (h : FreshOk I s L W pending gone rest) (entry : ℕ) :
    ∃ s' L' W' rest', Session.step A.audited tramp s (.create entry) = some s' ∧
      FreshOk I s' L' W' pending gone rest' ∧ FreesNoTask s s' := by
  obtain ⟨s', hstep, hboot, hexited, -, hcases⟩ := h.ok.create tramp hA entry
    (fun w _ => .inr (fun _ _ _ _ _ => ⟨trivial, fun _ _ _ => trivial⟩))
  rcases hcases with ⟨hcalls, hl, hok'⟩ | ⟨t, hcalls, hl, htW, hok'⟩ | ⟨u, hcalls, hl, huW, hsW, hok'⟩
  · have hsame : s'.freed = s.freed := by
      rw [Session.freed, hcalls.ledger]
      rfl
    exact ⟨s', L, W, rest, hstep, ⟨hok', hl ▸ hboot ▸ h.ownStack, hexited ▸ h.exitedStack, h.keptStack,
      hsame ▸ h.freedKept, hsame ▸ h.once⟩, .of_freed_eq hsame⟩
  · have hnew : s'.freed = t :: s.freed := by
      rw [Session.freed, hcalls.ledger]
      rfl
    have hWt : ∀ w ∈ W, t ≠ w.addr := by
      intro w hw he'
      have hI := hok'.linked.memory
      have hwt := eq_of_addr_eq (hA.apart hI) (Set.mem_insert_of_mem _ hw) (Set.mem_insert _ _)
        (hA.bounds hI (Set.mem_insert_of_mem _ hw)).2.1 (show 0 < taskSize by decide) he'.symm
      exact htW (hwt ▸ hw)
    have hno : FreesNoTask s s' := by
      intro y hy
      obtain ⟨hta, hts⟩ := h.ne_task hA (Nat.pos_of_ne_zero hcalls.1) hWt hy
      rw [hnew, List.count_cons_of_ne hta, List.count_cons_of_ne hts]
      exact ⟨rfl, rfl⟩
    refine ⟨s', L, _, rest, hstep, ⟨hok', hl ▸ hboot ▸ h.ownStack, hexited ▸ h.exitedStack,
      fun y hy => Set.mem_insert_of_mem _ (h.keptStack y hy), fun p hp => ?_, fun y hy => ?_⟩, hno⟩
    · rw [hnew] at hp
      rcases List.mem_cons.mp hp with rfl | hp
      · exact ⟨descriptor p, Set.mem_insert _ _, rfl,
          fun hm => htW (hA.live_sub h.ok.linked.memory hm)⟩
      · obtain ⟨w, hw, hwp⟩ := h.freedKept p hp
        exact ⟨w, Set.mem_insert_of_mem _ hw, hwp⟩
    · have hexit : y ∈ s.live ++ s.exited := by
        rw [h.ok.exited]
        exact List.mem_append_right _ (List.mem_append_right _ hy)
      rw [(hno y hexit).1, (hno y hexit).2]
      exact h.once y hy
  · have hsame : s'.freed = s.freed := by
      rw [Session.freed, hcalls.ledger]
      rfl
    refine ⟨s', _, _, _, hstep, ⟨hok', fun t ht hne => ?_, hexited ▸ h.exitedStack,
      fun y hy => Set.mem_insert_of_mem _ (Set.mem_insert_of_mem _ (h.keptStack y hy)),
      fun p hp => ?_, hsame ▸ h.once⟩, .of_freed_eq hsame⟩
    · rw [hl] at ht
      rcases List.mem_cons.mp ht with rfl | ht
      · exact hcalls.2.1
      · exact h.ownStack t ht (hboot ▸ hne)
    · rw [hsame] at hp
      obtain ⟨w, hw, hwp, hwL⟩ := h.freedKept p hp
      refine ⟨w, Set.mem_insert_of_mem _ (Set.mem_insert_of_mem _ hw), hwp, ?_⟩
      rintro (rfl | rfl | hm)
      · exact hsW hw
      · exact huW hw
      · exact hwL hm

/-- Events that do not enter `schedule` free no task. -/
theorem other (tramp : ℕ) (hA : A.audited.Keeping (fun h m L W => I h.1 m L W) (fun _ _ => True))
    (h : FreshOk I s L W pending gone rest) (ha : s.allowed e) (he : ¬ e.Enters s.kernel) :
    ∃ s' L' W' rest', Session.step A.audited tramp s e = some s' ∧
      FreshOk I s' L' W' pending gone rest' ∧ FreesNoTask s s' := by
  by_cases hc : ∃ entry, e = .create entry
  · obtain ⟨entry, rfl⟩ := hc
    exact h.create tramp hA entry
  · obtain ⟨s', hstep, hok', hl, hexited, hboot, hheap, -⟩ := h.ok.quiet tramp hA ha he
      (fun entry hh => hc ⟨entry, hh⟩)
    have hsame : s'.freed = s.freed := by rw [Session.freed, hheap, Session.freed]
    exact ⟨s', L, W, rest, hstep, ⟨hok', hl ▸ hboot ▸ h.ownStack, hexited ▸ h.exitedStack, h.keptStack,
      hsame ▸ h.freedKept, hsame ▸ h.once⟩, .of_freed_eq hsame⟩

theorem start (hA : A.audited.Keeping (fun h m L W => I h.1 m L W) (fun _ _ => True))
    (hs : (recorded A I tramp).init s) : ∃ L W, FreshOk I s L W [] [] [] := by
  obtain ⟨heap, mem, ⟨hled, O, hO⟩, hrun, h0, hb, hl, hex⟩ := hs
  refine ⟨_, _, SessionOk.start hA hO hrun h0 hb hl hex, fun t ht hne => ?_, by simp [hex],
    by simp, fun p hp => ?_, by simp⟩
  · rw [hl, List.mem_singleton] at ht
    exact absurd (by rw [ht, hb]) hne
  · obtain ⟨r, hr, hk⟩ := Option.map_eq_some_iff.mp hrun
    have hnone : s.freed = [] := by
      rw [Session.freed, ← hk]
      change Allocator.Ledger.freed r.2.1.2 = []
      rw [(Allocator.audited_kmalloc hr).2]
      exact congrArg Allocator.Ledger.freed hled
    rw [hnone] at hp
    cases hp

end FreshOk

theorem reaches_fresh (hA : A.Keeping I (fun _ _ => True)) (hs : (recorded A I tramp).Reaches s) :
    ∃ L W pending gone rest, FreshOk I s L W pending gone rest := by
  refine hs.invariant (P := fun s => ∃ L W pending gone rest, FreshOk I s L W pending gone rest)
    (fun s hs => ?_) (fun s e s' ⟨L, W, pending, gone, rest, h⟩ ha hstep => ?_)
  · obtain ⟨L, W, h⟩ := FreshOk.start hA.audited hs
    exact ⟨L, W, [], [], [], h⟩
  · by_cases he : e.Enters s.kernel
    · obtain ⟨t, L', dying, rest', ht, hfresh, -⟩ := h.enter tramp hA.audited ha he
      cases (show some t = some s' from ht.symm.trans hstep)
      exact ⟨_, _, _, _, _, hfresh⟩
    · obtain ⟨t, L', W', rest', ht, hfresh, -⟩ := h.other tramp hA.audited ha he
      cases (show some t = some s' from ht.symm.trans hstep)
      exact ⟨_, _, _, _, _, hfresh⟩

/-- Over an allocator that never reuses memory, the states of all tasks are right
in every reachable state, every event returns, each call of `schedule` reclaims
exactly the tasks that exited before it, and no other event frees a task. -/
theorem task_states (hA : A.Keeping I (fun _ _ => True)) (hs : (recorded A I tramp).Reaches s) :
    StatesOk s ∧ ∀ e, s.allowed e → ∃ s', Session.step A.audited tramp s e = some s' ∧
      StatesOk s' ∧ (e.Enters s.kernel → ReclaimOk s s') ∧
      (¬ e.Enters s.kernel → FreesNoTask s s') := by
  obtain ⟨L, W, pending, gone, rest, h⟩ := reaches_fresh hA hs
  refine ⟨h.states hA.audited, fun e ha => ?_⟩
  by_cases he : e.Enters s.kernel
  · obtain ⟨s', L', dying, rest', hstep, hfresh, hrec⟩ := h.enter tramp hA.audited ha he
    exact ⟨s', hstep, hfresh.states hA.audited, fun _ => hrec, fun hno => absurd he hno⟩
  · obtain ⟨s', L', W', rest', hstep, hfresh, hno⟩ := h.other tramp hA.audited ha he
    exact ⟨s', hstep, hfresh.states hA.audited, fun hh => absurd hh he, fun _ => hno⟩

/-- The scheduler after `tasking_init` on ascending memory from address 16. -/
def bumpSession : Session (ℕ × Allocator.Ledger) where
  kernel := { Kernel.boot (40, [.malloc taskSize 16])
      (setNext (fillTask (fun _ => 0) 16 0 0 0 0 .running) 16 16) with
    nextPid := 1, currentTask := 16, taskingReady := true }
  boot := 16
  live := [⟨16, 0⟩]
  exited := []

theorem bumpSession_reaches :
    (recorded Allocator.bump (fun h _ L W => Allocator.Below h L W) 0).Reaches bumpSession := by
  refine .start ⟨(16, []), fun _ => 0, ⟨rfl, ∅, ?_⟩, rfl, ?_, rfl, rfl, rfl⟩
  · exact ⟨by decide, by decide, le_rfl, by simp, by simp⟩
  · change 16 ≠ 0
    decide

/-- A task is created, runs and exits on it, and the next call of `schedule` frees its blocks. -/
theorem task_states_bump : ∃ s₁ s₂ s₃ s₄,
    Session.step Allocator.bump.audited 0 bumpSession (.create 0) = some s₁ ∧
    Session.step Allocator.bump.audited 0 s₁ (.schedule 0) = some s₂ ∧
    Session.step Allocator.bump.audited 0 s₂ (.exit 0) = some s₃ ∧
    Session.step Allocator.bump.audited 0 s₃ (.schedule 0) = some s₄ ∧
    s₂.kernel.currentTask = 40 ∧ s₃.exited = [⟨40, 64⟩] ∧
    StatesOk s₁ ∧ StatesOk s₂ ∧ StatesOk s₃ ∧ StatesOk s₄ ∧
    FreesNoTask bumpSession s₁ ∧ ReclaimOk s₁ s₂ ∧ ReclaimOk s₂ s₃ ∧ ReclaimOk s₃ s₄ ∧
    s₃.freed.count 40 = 0 ∧ s₃.freed.count 64 = 0 ∧ s₄.freed.count 40 = 1 ∧
    s₄.freed.count 64 = 1 := by
  have hA := Allocator.bump_keeping
  have hr₀ := bumpSession_reaches
  obtain ⟨s₁, h₁, hok₁, -, hno⟩ := (task_states hA hr₀).2 (.create 0) trivial
  obtain ⟨hlive₁, hex₁, hboot₁⟩ := Session.step_create h₁
  have hr₁ := hr₀.step (e := Event.create 0) trivial h₁
  obtain ⟨s₂, h₂, hok₂, hrec₂, -⟩ := (task_states hA hr₁).2 (.schedule 0) trivial
  obtain ⟨hlive₂, hex₂, hboot₂⟩ := Session.step_schedule h₂
  have hcur₂ : s₂.kernel.currentTask = 40 := by
    obtain ⟨L₀, W₀, pending₀, gone₀, rest₀, hfresh₀⟩ := reaches_fresh hA hr₀
    obtain ⟨t, ht, -, -, hcur, -⟩ := hfresh₀.ok.create 0 hA.audited 0
      (fun w _ => .inr (fun _ _ _ _ _ => ⟨trivial, fun _ _ _ => trivial⟩))
    obtain rfl : t = s₁ := Option.some.inj (ht.symm.trans h₁)
    obtain ⟨L₁, W₁, pending₁, gone₁, rest₁, hfresh₁⟩ := reaches_fresh hA hr₁
    exact hfresh₁.ok.hand_over 0 hA.audited (t := ⟨40, 64⟩) (b := ⟨16, 0⟩) hlive₁ hcur h₂
  have hr₂ := hr₁.step (e := Event.schedule 0) trivial h₂
  have hallowed : s₂.allowed (.exit 0) := by
    change s₂.kernel.currentTask ≠ s₂.boot
    rw [hcur₂, hboot₂, hboot₁]
    decide
  obtain ⟨s₃, h₃, hok₃, hrec₃, -⟩ := (task_states hA hr₂).2 (.exit 0) hallowed
  obtain ⟨-, hex₃, -⟩ := Session.step_exit h₃
  have hr₃ := hr₂.step (e := Event.exit 0) hallowed h₃
  obtain ⟨s₄, h₄, hok₄, hrec₄, -⟩ := (task_states hA hr₃).2 (.schedule 0) trivial
  have hlive : s₂.live = [⟨40, 64⟩, ⟨16, 0⟩] := hlive₂.trans hlive₁
  have hexited : s₃.exited = [⟨40, 64⟩] := by
    rw [hex₃, hlive, hcur₂, hex₂, hex₁]
    rfl
  obtain ⟨hfree, hfree'⟩ := (hrec₃ trivial).executing ⟨40, 64⟩ (by simp [hlive])
  obtain ⟨hfreed, hfreed'⟩ := (hrec₄ trivial).freed ⟨40, 64⟩ (by simp [hexited])
  exact ⟨s₁, s₂, s₃, s₄, h₁, h₂, h₃, h₄, hcur₂, hexited, hok₁, hok₂, hok₃, hok₄, hno id,
    hrec₂ trivial, hrec₃ trivial, hrec₄ trivial, List.count_eq_zero.mpr hfree,
    List.count_eq_zero.mpr hfree', hfreed, hfreed'⟩

end ShadOS.Tasking

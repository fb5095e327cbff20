import ShadOS.Tasking.Fairness

/-! # What `ps` shows

A descriptor keeps the pid it was created with. Every task ever created stays
linked, so `tasking_list` shows each of them once, under its own pid and in its
own state, and the pids are the first natural numbers.
-/

namespace ShadOS.Tasking
open Machine

universe u
variable {H : Type u} {m m' : Mem} {a t : ℕ}

/-! ## The pid of a descriptor -/

theorem pidOf_congr (h : ∀ x, (descriptor t).Has x → m' x = m x) : pidOf m' t = pidOf m t :=
  readWord_congr (fun x _ _ => h x (by rw [descriptor_has]; omega))

/-- An assignment to another field, or in another descriptor. -/
theorem pidOf_of_apart (h : a ≠ t → (descriptor a).Apart (descriptor t))
    (hself : pidOf m' a = pidOf m a) (hout : ∀ x, ¬ (descriptor a).Has x → m' x = m x) :
    pidOf m' t = pidOf m t := by
  by_cases he : a = t
  · rw [← he, hself]
  · exact pidOf_congr (fun x hx => hout x ((h he).symm.not_has hx))

theorem pidOf_setState {s : TaskState} (h : a ≠ t → (descriptor a).Apart (descriptor t)) :
    pidOf (setState m a s) t = pidOf m t := by
  apply pidOf_of_apart h
  · exact readWord_writeWord_of_disjoint (by omega)
  · exact fun x hx => setState_outside hx

theorem pidOf_setEsp {v : ℕ} (h : a ≠ t → (descriptor a).Apart (descriptor t)) :
    pidOf (setEsp m a v) t = pidOf m t := by
  apply pidOf_of_apart h
  · exact readWord_writeWord_of_disjoint (by omega)
  · exact fun x hx => setEsp_outside hx

theorem pidOf_setNext {v : ℕ} (h : a ≠ t → (descriptor a).Apart (descriptor t)) :
    pidOf (setNext m a v) t = pidOf m t := by
  apply pidOf_of_apart h
  · exact readWord_writeWord_of_disjoint (by omega)
  · exact fun x hx => setNext_outside hx

theorem pidOf_fillTask {esp base entry pid : ℕ} {s : TaskState} :
    pidOf (fillTask m t esp base entry pid s) t = u32 pid :=
  (pidOf_setState (fun h => absurd rfl h)).trans (readWord_writeWord_same _ _ _)

section install
variable {stack cur : ℕ} (tramp entry pid : ℕ)

theorem pidOf_installTask_new (hc : cur ≠ t → (descriptor cur).Apart (descriptor t)) :
    pidOf (installTask tramp m cur t stack entry pid) t = u32 pid :=
  ((pidOf_setNext hc).trans (pidOf_setNext (fun h => absurd rfl h))).trans pidOf_fillTask

theorem pidOf_installTask (hst : stack + taskStackSize ≤ 2 ^ 32)
    (hs : (stackSpan stack).Apart (descriptor a)) (ht : (descriptor t).Apart (descriptor a))
    (hc : cur ≠ a → (descriptor cur).Apart (descriptor a)) :
    pidOf (installTask tramp m cur t stack entry pid) a = pidOf m a := by
  rw [installTask, insertTask, pidOf_setNext hc, pidOf_setNext (fun _ => ht)]
  apply pidOf_congr
  intro x hx
  rw [fillTask_outside (ht.symm.not_has hx), initialFrame_apart hst (hs.symm.not_has hx)]

end install

/-! ## The pids of the linked tasks -/

variable {A : Allocator H} {I : H → Mem → Set Span → Set Span → Prop} {clear : Span → Span → Prop}
  {k k' : Kernel H} {L W : Set Span} {live dying pending gone : List Task} {rest : List ℕ}
  {o : Outcome} {tramp esp : ℕ}

theorem dispatch_pid {prev next : ℕ} (hp : prev ≠ t → (descriptor prev).Apart (descriptor t))
    (hn : next ≠ t → (descriptor next).Apart (descriptor t)) :
    pidOf (dispatch k prev next).mem t = pidOf k.mem t := by
  rw [dispatch]
  split_ifs
  · exact pidOf_setState hn
  · exact (pidOf_setState hn).trans (pidOf_setState hp)
  · exact pidOf_setState hn

theorem dispatch_nextPid (prev next : ℕ) : (dispatch k prev next).nextPid = k.nextPid := by
  rw [dispatch]
  split_ifs <;> rfl

theorem taskCreate_pid {entry pid : ℕ} (h : taskCreate A tramp k entry = some (some pid, k')) :
    pid = k.nextPid := by
  obtain ⟨r, -, h⟩ := Option.bind_eq_some_iff.mp h
  split at h
  · cases h
  · obtain ⟨q, -, h⟩ := Option.bind_eq_some_iff.mp h
    split at h
    · obtain ⟨f, -, h⟩ := Option.map_eq_some_iff.mp h
      cases h
    · exact (Option.some.inj (Prod.mk.inj (Option.some.inj h)).1).symm

/-- The tasks of `ts` have the same pids in both kernels, and the next pid is the same. -/
structure SamePids (ts : List Task) (k k' : Kernel H) : Prop where
  next : k'.nextPid = k.nextPid
  pid : ∀ t ∈ ts, pidOf k'.mem t.addr = pidOf k.mem t.addr

namespace Linked

theorem aligned (hA : A.Keeping I clear) (h : Linked I k L W live dying pending gone rest) {c t : Task}
    (hc : c ∈ live ++ (dying ++ (pending ++ gone))) (ht : t ∈ live ++ (dying ++ (pending ++ gone))) :
    c.addr ≠ t.addr → (descriptor c.addr).Apart (descriptor t.addr) := h.spread hA c hc t ht

theorem keeps_pid (hA : A.Keeping I clear) (h : Linked I k L W live dying pending gone rest)
    {mem : Mem} (hk : Keeps W k.mem mem) {t : Task}
    (ht : t ∈ live ++ (dying ++ (pending ++ gone))) : pidOf mem t.addr = pidOf k.mem t.addr :=
  pidOf_congr (hk _ (h.descriptor_mem hA ht))

theorem schedule_pids (hA : A.Keeping I clear) (h : Linked I k L W live dying pending gone rest)
    (hlive : live ≠ []) (hrun : schedule A k = some (o, k')) :
    SamePids (live ++ (dying ++ (pending ++ gone))) k (switchTo esp (o, k')) := by
  obtain ⟨heap, mem, L', hrec, -, hk, -⟩ := h.reclaim_spec hA
  obtain ⟨o₁, k₁, k₂, L₁, rest₁, hrun₁, -, -, -, -, hcho⟩ := h.schedule_spec hA hlive
  obtain ⟨rfl, rfl⟩ := Prod.mk.inj (Option.some.inj (hrun.symm.trans hrun₁))
  obtain ⟨c, hc, hcc⟩ := h.graph.current_owned
  have hcm : c ∈ live ++ (dying ++ (pending ++ gone)) := by
    rw [← List.append_assoc]
    exact List.mem_append_left _ hc
  rw [schedule, if_neg (by rw [h.ready]; simp), hrec, Option.bind_some] at hrun
  obtain ⟨next, -, hif⟩ := Option.map_eq_some_iff.mp hrun
  have hstay : ∀ t ∈ live ++ (dying ++ (pending ++ gone)), pidOf mem t.addr = pidOf k.mem t.addr :=
    fun t ht => h.keeps_pid hA hk ht
  split_ifs at hif
  · obtain ⟨rfl, rfl⟩ := Prod.mk.inj hif
    exact ⟨rfl, hstay⟩
  · obtain ⟨rfl, rfl⟩ := Prod.mk.inj hif
    exact ⟨rfl, hstay⟩
  · obtain ⟨rfl, rfl⟩ := Prod.mk.inj hif
    rcases hcho with ⟨ho, -⟩ | ⟨pre, post, -, -, -, -, d, hd, hde⟩
    · cases ho
    · rw [dispatch_currentTask] at hde
      refine ⟨dispatch_nextPid k.currentTask next, fun t ht => ?_⟩
      have hct := h.aligned hA hcm ht
      have hdt := h.aligned hA (List.mem_append_left _ hd) ht
      rw [hcc] at hct
      rw [hde] at hdt
      exact ((pidOf_setEsp hct).trans (dispatch_pid hct hdt)).trans (hstay t ht)

/-- A creation leaves what is owned alone, and fails or fills two blocks apart from it. -/
theorem create_cases (hA : A.Keeping I clear) (h : Linked I k L W live [] pending gone rest)
    {entry : ℕ} {r : Option ℕ} (hclear : ∀ w ∈ W, w ∈ L ∨ HandsClear A clear k w)
    (hrun : taskCreate A tramp k entry = some (r, k')) :
    (newTask A k = none ∧ r = none ∧ k'.nextPid = k.nextPid ∧ Keeps W k.mem k'.mem) ∨
      ∃ t q heap m, newTask A k = some ⟨t, q⟩ ∧ r ≠ none ∧ k' = { k with
          heap := heap
          mem := installTask tramp m k.currentTask t q entry k.nextPid
          nextPid := u32 (k.nextPid + 1) } ∧
        Keeps W k.mem m ∧ t + taskSize ≤ 2 ^ 32 ∧ q + taskStackSize ≤ 2 ^ 32 ∧
        ∀ w ∈ W, (descriptor t).Apart w ∧ (stackSpan q).Apart w := by
  obtain ⟨t, h₁, m₁, hrun₁, hnull₁, hok₁⟩ :=
    hA.kmalloc h.memory (n := taskSize) (by decide) (by decide)
  rw [taskCreate, hrun₁, Option.bind_some] at hrun
  rw [newTask, hrun₁, Option.bind_some]
  by_cases ht : t = 0
  · rw [if_pos ht] at hrun
    cases hrun
    exact .inl ⟨if_pos ht, rfl, rfl, (hnull₁ ht).2⟩
  obtain ⟨hI₁, hk₁, htW⟩ := hok₁ ht (fun w hw =>
    (hclear w hw).imp_right (fun hh => (hh t h₁ m₁ hrun₁ ht).1))
  have htW : descriptor t ∉ W := htW
  obtain ⟨q, h₂, m₂, hrun₂, hnull₂, hok₂⟩ :=
    hA.kmalloc hI₁ (n := taskStackSize) (by decide) (by decide)
  rw [if_neg ht, hrun₂, Option.bind_some] at hrun
  rw [if_neg ht, hrun₂, Option.bind_some]
  by_cases hq : q = 0
  · obtain ⟨hI₂, hk₂⟩ := hnull₂ hq
    obtain ⟨h₃, m₃, hrun₃, -, hk₃⟩ := hA.kfree hI₂ (s := descriptor t) (Set.mem_insert _ _)
    have hback : A.kfree h₂ m₂ t = some (h₃, m₃) := hrun₃
    rw [if_pos hq, hback] at hrun
    cases hrun
    exact .inl ⟨if_pos hq, rfl, rfl, hk₁.trans ((hk₂.trans hk₃).mono (Set.subset_insert _ _))⟩
  obtain ⟨hI₂, hk₂, hqW⟩ := hok₂ hq (fun w hw => by
    rcases hw with rfl | hw
    · exact .inl (Set.mem_insert _ _)
    · exact (hclear w hw).imp (Set.mem_insert_of_mem _)
        (fun hh => (hh t h₁ m₁ hrun₁ ht).2 _ hrun₂ hq))
  have hqW : stackSpan q ∉ insert (descriptor t) W := hqW
  have hqm : stackSpan q ∈ insert (stackSpan q) (insert (descriptor t) W) := Set.mem_insert _ _
  have htm : descriptor t ∈ insert (stackSpan q) (insert (descriptor t) W) :=
    Set.mem_insert_of_mem _ (Set.mem_insert _ _)
  rw [if_neg hq] at hrun
  cases hrun
  refine .inr ⟨t, q, h₂, m₂, if_neg hq, Option.some_ne_none _, rfl,
    hk₁.trans (hk₂.mono (Set.subset_insert _ _)), (hA.bounds hI₂ htm).2.2, (hA.bounds hI₂ hqm).2.2,
    fun w hw => ?_⟩
  have hw' := Set.mem_insert_of_mem (stackSpan q) (Set.mem_insert_of_mem (descriptor t) hw)
  constructor
  · exact hA.apart hI₂ htm hw' (fun he => htW (he ▸ hw))
  · exact hA.apart hI₂ hqm hw' (fun he => hqW (he ▸ Set.mem_insert_of_mem _ hw))

/-- A creation keeps all pids, and gives the new task the next one. -/
theorem create_pids (hA : A.Keeping I clear) (h : Linked I k L W live [] pending gone rest)
    {entry : ℕ} {r : Option ℕ} (hclear : ∀ w ∈ W, w ∈ L ∨ HandsClear A clear k w)
    (hrun : taskCreate A tramp k entry = some (r, k')) :
    (∀ t ∈ live ++ ([] ++ (pending ++ gone)), pidOf k'.mem t.addr = pidOf k.mem t.addr) ∧
      (newTask A k = none ∧ r = none ∧ k'.nextPid = k.nextPid ∨
        ∃ u, newTask A k = some u ∧ k'.nextPid = u32 (k.nextPid + 1) ∧
          nextOf k'.mem k'.currentTask = u.addr ∧ pidOf k'.mem u.addr = u32 k.nextPid) := by
  rcases h.create_cases hA hclear hrun with ⟨hnew, hr, hnext, hk⟩ |
    ⟨t, q, heap, m, hnew, hr, rfl, hk, ht, hq, hmiss⟩
  · exact ⟨fun y hy => h.keeps_pid hA hk hy, .inl ⟨hnew, hr, hnext⟩⟩
  obtain ⟨c, hc, hcc⟩ := h.graph.current_owned
  have hcm : c ∈ live ++ ([] ++ (pending ++ gone)) := by
    rw [← List.append_assoc]
    exact List.mem_append_left _ hc
  refine ⟨fun y hy => ?_, .inr ⟨⟨t, q⟩, hnew, rfl, ?_, ?_⟩⟩
  · have hcy := h.aligned hA hcm hy
    rw [hcc] at hcy
    obtain ⟨hty, hqy⟩ := hmiss _ (h.descriptor_mem hA hy)
    exact (pidOf_installTask _ _ _ hq hqy hty hcy).trans (h.keeps_pid hA hk hy)
  · exact nextOf_installTask (by unfold taskSize at ht; omega)
  · exact pidOf_installTask_new _ _ _ (fun _ => hcc ▸ (hmiss _ (h.descriptor_mem hA hcm)).1.symm)

/-- The current task writes its own stack, which is no part of a descriptor. -/
theorem compute_pids (hA : A.Keeping I clear) (h : Linked I k L W live [] pending gone rest) {mem : Mem}
    (ha : ∀ x, mem x ≠ k.mem x → stackBaseOf k.mem k.currentTask ≠ 0 ∧
      (stackSpan (stackBaseOf k.mem k.currentTask)).Has x)
    {t : Task} (ht : t ∈ live ++ ([] ++ (pending ++ gone))) :
    pidOf mem t.addr = pidOf k.mem t.addr := by
  obtain ⟨c, hc, hcc⟩ := h.graph.current rfl
  have hcm : c ∈ live ++ ([] ++ pending) := List.mem_append_left _ hc
  have hbase := h.bases c hcm
  rw [hcc] at hbase
  apply pidOf_congr
  intro x hx
  by_contra hne
  obtain ⟨h0, hin⟩ := ha x hne
  rw [hbase] at h0 hin
  have hap := hA.apart h.memory (hA.live_sub h.memory (h.backed.stack c hcm h0))
    (h.descriptor_mem hA ht) (descriptor_ne_stackSpan _ _).symm
  exact hap.not_has hin hx

end Linked

/-! ## Runs -/

section runs
variable {s s' : Session H} {e : Event}

/-- What an event does to the pids: none changes, and a new task gets the next one. -/
theorem SessionOk.step_pids (hA : A.Keeping I clear) (h : SessionOk I s L W pending gone rest)
    (hclear : ∀ entry, e = .create entry → ∀ w ∈ W, w ∈ L ∨ HandsClear A clear s.kernel w)
    (ha : s.allowed e) (hstep : Session.step A tramp s e = some s') :
    (∀ t ∈ s.live ++ s.exited, pidOf s'.kernel.mem t.addr = pidOf s.kernel.mem t.addr) ∧
      ((s'.live ++ s'.exited).Perm (s.live ++ s.exited) ∧ s'.kernel.nextPid = s.kernel.nextPid ∨
        ∃ u, s'.live ++ s'.exited = u :: (s.live ++ s.exited) ∧
          s'.kernel.nextPid = u32 (s.kernel.nextPid + 1) ∧
          pidOf s'.kernel.mem u.addr = u32 s.kernel.nextPid) := by
  have hmem : ∀ t ∈ s.live ++ s.exited, t ∈ s.live ++ ([] ++ (pending ++ gone)) := by
    rw [h.exited]
    exact fun t ht => ht
  have hl := h.linked
  cases e with
  | create entry =>
    obtain ⟨⟨r, k'⟩, hr, rfl⟩ := Option.map_eq_some_iff.mp hstep
    obtain ⟨hkeep, ⟨hnew, -, hnext⟩ | ⟨u, hnew, hnext, -, hpid⟩⟩ :=
      hl.create_pids hA (hclear entry rfl) hr
    · refine ⟨fun t ht => hkeep t (hmem t ht), .inl ⟨?_, hnext⟩⟩
      rw [hnew]
      exact .refl _
    · refine ⟨fun t ht => hkeep t (hmem t ht), .inr ⟨u, ?_, hnext, hpid⟩⟩
      rw [hnew]
      rfl
  | schedule esp =>
    obtain ⟨⟨o, k'⟩, hr, rfl⟩ := Option.map_eq_some_iff.mp hstep
    have hsame : SamePids _ s.kernel (switchTo esp (o, k')) := hl.schedule_pids hA h.live_ne_nil hr
    exact ⟨fun t ht => hsame.pid t (hmem t ht), .inl ⟨.refl _, hsame.next⟩⟩
  | tick esp =>
    by_cases he : (Event.tick esp).Enters s.kernel
    · rw [Session.step, taskingTick_enters A he] at hstep
      obtain ⟨⟨o, k'⟩, hr, rfl⟩ := Option.map_eq_some_iff.mp hstep
      have hsame : SamePids _ { s.kernel with tickCounter := 0 } (switchTo esp (o, k')) :=
        (hl.counter 0 s.kernel.taskingPaused).schedule_pids hA h.live_ne_nil hr
      exact ⟨fun t ht => hsame.pid t (hmem t ht), .inl ⟨.refl _, hsame.next⟩⟩
    · obtain ⟨n, hrun, -⟩ := taskingTick_quiet A he
      rw [Session.step, hrun] at hstep
      obtain rfl := Option.some.inj hstep
      exact ⟨fun _ _ => rfl, .inl ⟨.refl _, rfl⟩⟩
  | exit esp =>
    obtain ⟨b, hb, hbb⟩ := h.boot
    have hb' : b ∈ s.live.filter (fun t => t.addr ≠ s.kernel.currentTask) :=
      List.mem_filter.mpr ⟨hb, by simpa [hbb] using Ne.symm ha⟩
    obtain ⟨⟨o, k'⟩, hr, rfl⟩ := Option.map_eq_some_iff.mp hstep
    have hsame : SamePids _ { s.kernel with mem := setState s.kernel.mem s.kernel.currentTask .terminated }
        (switchTo esp (o, k')) := (hl.exit hA).schedule_pids hA (List.ne_nil_of_mem hb') hr
    obtain ⟨c, hc, hcc⟩ := hl.graph.current rfl
    refine ⟨fun t ht => ?_, .inl ⟨?_, hsame.next⟩⟩
    · have hct := hl.aligned hA (List.mem_append_left _ hc) (hmem t ht)
      rw [hcc] at hct
      refine (hsame.pid t ?_).trans (pidOf_setState hct)
      have ht := hmem t ht
      simp only [List.mem_append, List.mem_filter] at ht ⊢
      by_cases he : t.addr = s.kernel.currentTask <;> simp [he] at ht ⊢ <;> tauto
    · rw [← List.append_assoc]
      refine List.Perm.append_right _ ?_
      have hperm := List.perm_append_comm.trans
        (List.filter_append_perm (fun t : Task => decide (t.addr = s.kernel.currentTask)) s.live)
      simpa only [decide_not] using hperm
  | setPaused paused =>
    obtain rfl := Option.some.inj hstep
    exact ⟨fun _ _ => rfl, .inl ⟨.refl _, rfl⟩⟩
  | compute mem =>
    obtain rfl := Option.some.inj hstep
    exact ⟨fun t ht => hl.compute_pids hA ha (hmem t ht), .inl ⟨.refl _, rfl⟩⟩

/-- The tasks created so far have the pids from 0 on. -/
structure Numbered (s : Session H) : Prop where
  next : s.kernel.nextPid = (s.live ++ s.exited).length
  pids : ((s.live ++ s.exited).map (fun t => pidOf s.kernel.mem t.addr)).Perm
    (List.range s.kernel.nextPid)

theorem Numbered.start {heap : H} {mem : Mem}
    (hrun : taskingInit A (Kernel.boot heap mem) = some s.kernel)
    (hl : s.live = [⟨s.kernel.currentTask, 0⟩]) (hex : s.exited = []) : Numbered s := by
  obtain ⟨r, -, hk⟩ := Option.map_eq_some_iff.mp hrun
  have hnext : s.kernel.nextPid = 1 := by
    rw [← hk]
    rfl
  have hpid : pidOf s.kernel.mem s.kernel.currentTask = 0 := by
    rw [← hk]
    exact (pidOf_setNext (fun h => absurd rfl h)).trans pidOf_fillTask
  refine ⟨by simp [hnext, hl, hex], ?_⟩
  simp [hnext, hl, hex, hpid]

theorem SessionOk.count_lt (hA : A.Keeping I clear) (h : SessionOk I s L W pending gone rest) :
    (s.live ++ s.exited).length < 2 ^ 32 - 1 := by
  have hall : s.live ++ s.exited = s.live ++ ([] ++ (pending ++ gone)) := by rw [h.exited]; rfl
  have hlen : ((s.live ++ s.exited).map Task.addr).length ≤ 2 ^ 32 - 23 := by
    apply length_le_of_nodup
    · exact hall ▸ h.linked.graph.distinct
    · intro a ha
      obtain ⟨t, ht, rfl⟩ := List.mem_map.mp ha
      have hb := (h.linked.addr_bounds hA (hall ▸ ht)).2
      unfold taskSize at hb
      omega
  rw [List.length_map] at hlen
  omega

theorem Numbered.step (hn : Numbered s) (hA : A.Keeping I clear)
    (h : SessionOk I s L W pending gone rest)
    (hclear : ∀ entry, e = .create entry → ∀ w ∈ W, w ∈ L ∨ HandsClear A clear s.kernel w)
    (ha : s.allowed e) (hstep : Session.step A tramp s e = some s') : Numbered s' := by
  have hlt := h.count_lt hA
  obtain ⟨hkeep, ⟨hperm, hnext⟩ | ⟨u, hu, hnext, hpid⟩⟩ := h.step_pids hA hclear ha hstep
  · refine ⟨by rw [hnext, hn.next, hperm.length_eq], ?_⟩
    rw [hnext]
    refine (hperm.map _).trans ?_
    rw [List.map_congr_left hkeep]
    exact hn.pids
  · have hu32 : u32 (s.kernel.nextPid + 1) = s.kernel.nextPid + 1 := u32_of_lt (by rw [hn.next]; omega)
    rw [hu32] at hnext
    rw [u32_of_lt (by rw [hn.next]; omega)] at hpid
    refine ⟨by rw [hnext, hn.next, hu, List.length_cons], ?_⟩
    rw [hnext, hu, List.map_cons, hpid, List.map_congr_left hkeep, List.range_succ]
    exact (hn.pids.cons _).trans (List.perm_append_singleton _ _).symm

/-! ## The lines -/

/-- The line of a descriptor. -/
def line (m : Mem) (t : ℕ) : ℕ × String := (pidOf m t, stateName (stateOf m t))

theorem taskingListLoop_lines {cur fuel : ℕ} {xs : List ℕ} (hp : Path (nextOf m) a xs cur)
    (hne : cur ∉ xs) (hf : xs.length < fuel) :
    taskingListLoop m cur fuel a = some ((a :: xs).map (line m)) := by
  induction xs generalizing a fuel with
  | nil =>
    obtain ⟨n, rfl⟩ := Nat.exists_eq_add_of_lt hf
    exact if_pos hp
  | cons x xs ih =>
    obtain ⟨n, rfl⟩ : ∃ n, fuel = n + 1 := ⟨fuel - 1, by simp at hf; omega⟩
    rw [List.mem_cons, not_or] at hne
    rw [taskingListLoop, hp.1, if_neg (Ne.symm hne.1), ih hp.2 hne.2 (by simpa using hf)]
    rfl

/-- `tasking_list` shows the current task first, and each task ever created once: under a pid of
its own, the pids being the first natural numbers, and with its state. -/
def Listed (s : Session H) : Prop :=
  ∃ lines, taskingList s.kernel = some (some lines) ∧
    (lines.map Prod.fst).Perm (List.range (s.live.length + s.exited.length)) ∧
    lines.head? = some (pidOf s.kernel.mem s.kernel.currentTask, "en cours") ∧
    lines.Perm
      (s.live.map (fun t => (pidOf s.kernel.mem t.addr,
          if t.addr = s.kernel.currentTask then "en cours" else "prete")) ++
        s.exited.map (fun t => (pidOf s.kernel.mem t.addr, "terminee")))

theorem Numbered.listed (hn : Numbered s) (hA : A.Keeping I clear)
    (h : SessionOk I s L W pending gone rest) : Listed s := by
  have hl := h.linked
  have hg := hl.graph
  have hex : s.exited = [] ++ (pending ++ gone) := h.exited
  have hlines := taskingListLoop_lines hg.ring (List.nodup_cons.mp hg.nodup).1 (hl.length_lt hA)
  have hnodes : (s.kernel.currentTask :: rest).Perm ((s.live ++ s.exited).map Task.addr) := by
    refine (List.perm_ext_iff_of_nodup hg.nodup (hex ▸ hg.distinct)).mpr (fun a => ?_)
    rw [hg.nodes a, hex, List.mem_map]
  have hshown : ((s.kernel.currentTask :: rest).map (line s.kernel.mem)).Perm
      ((s.live ++ s.exited).map (fun t => line s.kernel.mem t.addr)) := by
    rw [← Function.comp_def, ← List.map_map]
    exact hnodes.map _
  have halive : ∀ t ∈ s.live, line s.kernel.mem t.addr = (pidOf s.kernel.mem t.addr,
      if t.addr = s.kernel.currentTask then "en cours" else "prete") := by
    intro t ht
    rw [line, hg.alive t ht]
    split <;> rfl
  have hdead : ∀ t ∈ s.exited, line s.kernel.mem t.addr = (pidOf s.kernel.mem t.addr, "terminee") := by
    intro t ht
    rw [line, hg.dead t (hex ▸ ht)]
    rfl
  refine ⟨(s.kernel.currentTask :: rest).map (line s.kernel.mem), ?_, ?_, ?_, ?_⟩
  · rw [taskingList, if_neg (by rw [hl.ready]; simp), hlines]
    rfl
  · have hrange := hn.pids
    rw [hn.next, List.length_append] at hrange
    apply (hshown.map Prod.fst).trans
    rw [List.map_map]
    exact hrange
  · obtain ⟨c, hc, hcc⟩ := hg.current rfl
    have hline := halive c hc
    rw [hcc, if_pos rfl] at hline
    rw [List.map_cons, List.head?_cons, hline]
  · rwa [List.map_append, List.map_congr_left halive, List.map_congr_left hdead] at hshown

/-! ## On heap.c -/

/-- What the users of the scheduler know the tasks by: the list is right, a pid never changes, and
`task_create` returns the one of the new task. -/
structure Roster (A : Allocator H) (clear : Span → Span → Prop) (tramp : ℕ) (s : Session H) : Prop where
  listed : Listed s
  kept : ∀ e s', s.allowed e → CreatesClear A clear s e → Session.step A tramp s e = some s' →
    ∀ t ∈ s.live ++ s.exited, t ∈ s'.live ++ s'.exited ∧
      pidOf s'.kernel.mem t.addr = pidOf s.kernel.mem t.addr
  created : ∀ entry pid k', CreatesClear A clear s (.create entry) →
    taskCreate A tramp s.kernel entry = some (some pid, k') →
    pid = s.live.length + s.exited.length ∧ pidOf k'.mem (nextOf k'.mem k'.currentTask) = pid ∧
      ∃ u, newTask A s.kernel = some u ∧ nextOf k'.mem k'.currentTask = u.addr

/-- The invariant of `Cleared` with the numbers. -/
def Counted (I : H → Mem → Set Span → Set Span → Prop) (s : Session H) : Prop :=
  Cleared I s ∧ Numbered s

theorem Counted.step (hA : A.Keeping I clear) (h : Counted I s) (ha : s.allowed e)
    (hC : CreatesClear A clear s e) (hstep : Session.step A tramp s e = some s') : Counted I s' := by
  obtain ⟨hcleared, hn⟩ := h
  obtain ⟨t, ht, h'⟩ := hcleared.step tramp hA ha hC
  obtain rfl : t = s' := Option.some.inj (ht.symm.trans hstep)
  obtain ⟨L, W, pending, gone, rest, h, hW⟩ := hcleared
  refine ⟨h', hn.step hA h ?_ ha hstep⟩
  rintro entry rfl
  exact h.handsClear hA hW hC

theorem Counted.roster (hA : A.Keeping I clear) (h : Counted I s) : Roster A clear tramp s := by
  obtain ⟨⟨L, W, pending, gone, rest, h, hW⟩, hn⟩ := h
  refine ⟨hn.listed hA h, fun e s' ha hC hstep t ht => ?_, fun entry pid k' hC hrun => ?_⟩
  · have hclear : ∀ entry, e = .create entry → ∀ w ∈ W, w ∈ L ∨ HandsClear A clear s.kernel w := by
      rintro entry rfl
      exact h.handsClear hA hW hC
    obtain ⟨hkeep, hcases⟩ := h.step_pids hA hclear ha hstep
    refine ⟨?_, hkeep t ht⟩
    rcases hcases with ⟨hperm, -⟩ | ⟨u, hu, -⟩
    · exact hperm.mem_iff.mpr ht
    · exact hu ▸ List.mem_cons_of_mem u ht
  · have hlt := h.count_lt hA
    have hnext := hn.next
    obtain ⟨-, ⟨-, hnone, -⟩ | ⟨u, hnew, -, hu, hpid⟩⟩ :=
      h.linked.create_pids hA (h.handsClear hA hW hC) hrun
    · cases hnone
    · obtain rfl := taskCreate_pid hrun
      rw [u32_of_lt (by omega), ← hu] at hpid
      exact ⟨hnext.trans List.length_append, hpid, u, hnew, hu⟩

/-- Along every run whose creations get blocks clear of the reclaimed descriptors, `ps` shows every
task ever created once, under the pid that `task_create` returned for it. -/
theorem tasks_listed (k : Heap.KernelEnd) (tramp : ℕ)
    {s : Session (Heap.HeapVars × Allocator.Ledger)} {es : List Event}
    (hs : (kernelScheduler k tramp).init s) (he : (kernelScheduler k tramp).Executes s es)
    (hc : (kernelScheduler k tramp).EachStep
      (CreatesClear Heap.heapC.audited Heap.FootprintClear) s es) :
    (kernelScheduler k tramp).Always
      (Roster Heap.heapC.audited Heap.FootprintClear tramp) s es := by
  have hA := (Heap.heapC_keeping k).audited
  refine System.always_of_eachStep (I := Counted (fun h m L W => Heap.HeapKeeps k h.1 m L W))
    (fun s h => h.roster hA) (fun s e s' h ha hC hstep => h.step hA ha hC hstep) ?_ he hc
  obtain ⟨heap, mem, ⟨-, O, hO⟩, hrun, h0, hb, hl, hex⟩ := hs
  refine ⟨⟨_, _, _, _, _, SessionOk.start hA hO hrun h0 hb hl hex, fun w hw => .inl hw⟩, ?_⟩
  exact .start hrun hl hex

/-- Along a creation, a switch, an exit and the next `schedule`. -/
theorem tasks_listed_create : ∃ s, (kernelScheduler Heap.smallImage 0).init s ∧
    newTask Heap.heapC.audited s.kernel = some Slot.task ∧
    (kernelScheduler Heap.smallImage 0).Executes s [.create 0, .schedule 0, .exit 0, .schedule 0] ∧
    (kernelScheduler Heap.smallImage 0).Always
      (Roster Heap.heapC.audited Heap.FootprintClear 0) s
      [.create 0, .schedule 0, .exit 0, .schedule 0] := by
  obtain ⟨s, hinit, hnew, hexec, hclear⟩ := Slot.run_to_reclaim
  exact ⟨s, hinit, hnew, hexec, tasks_listed Heap.smallImage 0 hinit hexec hclear⟩

end runs
end ShadOS.Tasking

import ShadOS.Tasking.Graph

/-! # The scheduler over a keeping allocator

The memory behind the ring: tasks that are not reclaimed own their descriptor
and stack, and the descriptors of reclaimed tasks are kept. Under this
invariant `task_create` and `schedule` return, and the invariant holds again.
-/

namespace ShadOS.Tasking
open Machine

universe u

/-- The spans a task gives back when it is reclaimed. -/
def Task.spans (t : Task) : Set Span :=
  {s | s = descriptor t.addr ∨ t.stack ≠ 0 ∧ s = stackSpan t.stack}

structure Backed (L W : Set Span) (owned gone : List Task) : Prop where
  held : ∀ t ∈ owned, descriptor t.addr ∈ L
  stack : ∀ t ∈ owned, t.stack ≠ 0 → stackSpan t.stack ∈ L
  separate : owned.Pairwise (fun t u => t.stack = u.stack → t.stack = 0)
  kept : ∀ t ∈ gone, descriptor t.addr ∈ W

/-- A scheduler state: `dying` is the current task inside `task_exit`, `pending`
the task in `zombie`, and `gone` are the reclaimed ones. -/
structure Linked {H : Type u} (I : H → Mem → Set Span → Set Span → Prop) (k : Kernel H)
    (L W : Set Span) (live dying pending gone : List Task) (rest : List ℕ) : Prop where
  ready : k.taskingReady = true
  memory : I k.heap k.mem L W
  graph : Graph k.mem k.currentTask live dying (pending ++ gone) rest
  backed : Backed L W (live ++ (dying ++ pending)) gone
  bases : ∀ t ∈ live ++ (dying ++ pending), stackBaseOf k.mem t.addr = t.stack
  zombie : ∀ t ∈ pending, t.addr = k.zombie
  waiting : k.zombie ≠ 0 → pending ≠ []

theorem descriptor_ne_stackSpan (t s : ℕ) : descriptor t ≠ stackSpan s := by
  intro h
  have := congrArg Span.size h
  simp [descriptor, stackSpan, taskSize, taskStackSize] at this

variable {H : Type u} {A : Allocator H} {I : H → Mem → Set Span → Set Span → Prop}
  {clear : Span → Span → Prop}

/-- How a call of `schedule` ends: no other task is live, or the next live task
behind the current one is chosen. -/
def Chosen (live : List Task) (rest rest' : List ℕ) (cur cur' : ℕ) (o : Outcome) : Prop :=
  (o = .returned ∧ cur' = cur ∧ rest' = rest ∧ ∀ a ∈ rest, ∀ t ∈ live, t.addr ≠ a) ∨
  ∃ pre post, o = .switched cur cur' ∧ rest = pre ++ cur' :: post ∧ rest' = post ++ cur :: pre ∧
    (∀ a ∈ pre, ∀ t ∈ live, t.addr ≠ a) ∧ ∃ t ∈ live, t.addr = cur'

/-- With another live task on the ring, the processor goes to a live task. -/
theorem Chosen.moves {live : List Task} {rest rest' : List ℕ} {cur cur' : ℕ} {o : Outcome} {t : Task}
    (h : Chosen live rest rest' cur cur' o) (hn : (cur :: rest).Nodup) (ht : t ∈ live)
    (hr : t.addr ∈ rest) : o = .switched cur cur' ∧ cur' ≠ cur ∧ ∃ u ∈ live, u.addr = cur' := by
  rcases h with ⟨-, -, -, hno⟩ | ⟨pre, post, ho, hrest, -, -, hlive⟩
  · exact absurd rfl (hno _ hr t ht)
  · refine ⟨ho, ?_, hlive⟩
    rintro rfl
    rw [hrest] at hn
    simp at hn

/-- Of two live tasks, the one that is not current is chosen. -/
theorem Graph.chosen_other {m : Mem} {t b : Task} {dying past : List Task} {rest rest' : List ℕ}
    {cur' : ℕ} {o : Outcome} (h : Graph m b.addr [t, b] dying past rest)
    (hcho : Chosen [t, b] rest rest' b.addr cur' o) : cur' = t.addr := by
  have hne : t.addr ≠ b.addr := by
    have hd := h.distinct
    simp only [List.cons_append, List.map_cons, List.nodup_cons, List.mem_cons, not_or] at hd
    exact hd.1.1
  have ht : t.addr ∈ rest := by
    have hmem := (h.nodes t.addr).mpr ⟨t, by simp, rfl⟩
    exact (List.mem_cons.mp hmem).resolve_left hne
  obtain ⟨-, hcur, u, hu, rfl⟩ := hcho.moves h.nodup (by simp) ht
  rcases List.mem_cons.mp hu with rfl | hu
  · rfl
  · exact absurd (congrArg Task.addr (List.mem_singleton.mp hu)) hcur

/-- Whatever blocks the allocator hands to `task_create` now, they are clear of `w`. -/
def HandsClear (A : Allocator H) (clear : Span → Span → Prop) (k : Kernel H) (w : Span) : Prop :=
  ∀ t heap mem, A.kmalloc k.heap k.mem taskSize = some (t, heap, mem) → t ≠ 0 →
    clear (descriptor t) w ∧ ∀ q, A.kmalloc heap mem taskStackSize = some q → q.1 ≠ 0 →
      clear (stackSpan q.1) w

/-- The calls of `task_create` when `kmalloc` has no room for a descriptor. -/
def NoDescriptor (A : Allocator H) (k k' : Kernel H) : Prop :=
  ∃ m, A.kmalloc k.heap k.mem taskSize = some (0, k'.heap, m)

/-- The calls of `task_create` when the stack fails and the descriptor `t` goes back. -/
def NoStack (A : Allocator H) (k k' : Kernel H) (t : ℕ) : Prop :=
  t ≠ 0 ∧ ∃ h₁ m₁ h₂ m₂ m₃, A.kmalloc k.heap k.mem taskSize = some (t, h₁, m₁) ∧
    A.kmalloc h₁ m₁ taskStackSize = some (0, h₂, m₂) ∧ A.kfree h₂ m₂ t = some (k'.heap, m₃)

/-- The calls of `task_create` that hand out the two blocks of `u`. -/
def BothBlocks (A : Allocator H) (k k' : Kernel H) (u : Task) : Prop :=
  u.addr ≠ 0 ∧ u.stack ≠ 0 ∧ ∃ h₁ m₁ m₂, A.kmalloc k.heap k.mem taskSize = some (u.addr, h₁, m₁) ∧
    A.kmalloc h₁ m₁ taskStackSize = some (u.stack, k'.heap, m₂)

namespace Linked
variable {k : Kernel H} {L L' W W' : Set Span} {live dying pending gone : List Task}
  {rest : List ℕ} {t z : Task}

theorem descriptor_mem (hA : A.Keeping I clear) (h : Linked I k L W live dying pending gone rest)
    (ht : t ∈ live ++ (dying ++ (pending ++ gone))) : descriptor t.addr ∈ W := by
  rw [← List.append_assoc dying, ← List.append_assoc live] at ht
  rcases List.mem_append.mp ht with ht | ht
  · exact hA.live_sub h.memory (h.backed.held t ht)
  · exact h.backed.kept t ht

theorem spread (hA : A.Keeping I clear) (h : Linked I k L W live dying pending gone rest) :
    Spread (live ++ (dying ++ (pending ++ gone))) := fun _ ht _ hu hne =>
  hA.apart h.memory (h.descriptor_mem hA ht) (h.descriptor_mem hA hu)
    (fun he => hne (congrArg Span.addr he))

theorem addr_bounds (hA : A.Keeping I clear) (h : Linked I k L W live dying pending gone rest)
    (ht : t ∈ live ++ (dying ++ (pending ++ gone))) : 0 < t.addr ∧ t.addr + taskSize ≤ 2 ^ 32 :=
  ⟨(hA.bounds h.memory (h.descriptor_mem hA ht)).1, (hA.bounds h.memory (h.descriptor_mem hA ht)).2.2⟩

theorem length_lt (hA : A.Keeping I clear) (h : Linked I k L W live dying pending gone rest) :
    rest.length < loopFuel := by
  have hlen := length_le_of_nodup h.graph.nodup (n := 2 ^ 32) (fun a ha => by
    obtain ⟨t, ht, rfl⟩ := (h.graph.nodes a).mp ha
    have := (h.addr_bounds hA ht).2
    unfold taskSize at this
    omega)
  rw [List.length_cons] at hlen
  unfold loopFuel
  omega

/-- The zombie is the only task waiting for reclamation. -/
theorem pending_cases (h : Linked I k L W live dying pending gone rest) :
    pending = [] ∧ k.zombie = 0 ∨ ∃ z, pending = [z] ∧ z.addr = k.zombie := by
  cases hp : pending with
  | nil => exact .inl ⟨rfl, by_contra (fun h0 => h.waiting h0 hp)⟩
  | cons z zs =>
    subst hp
    refine .inr ⟨z, ?_, h.zombie z List.mem_cons_self⟩
    cases zs with
    | nil => rfl
    | cons y ys =>
      have hd := h.graph.distinct
      rw [List.map_append, List.map_append, List.map_append, List.map_cons, List.map_cons,
        h.zombie z (by simp), h.zombie y (by simp)] at hd
      have := (List.nodup_append.mp (List.nodup_append.mp hd).2.1).2.1
      simp at this

/-- Memory changes that leave the fields of the linked descriptors alone. -/
theorem update (h : Linked I k L W live dying pending gone rest) {heap : H} {mem : Mem}
    (hI : I heap mem L' W') (hL : L ⊆ L') (hW : W ⊆ W')
    (hs : ∀ t ∈ live ++ (dying ++ (pending ++ gone)), SameFields k.mem mem t.addr) :
    Linked I { k with heap := heap, mem := mem } L' W' live dying pending gone rest := by
  refine ⟨h.ready, hI, h.graph.congr hs, ⟨fun t ht => hL (h.backed.held t ht),
    fun t ht h0 => hL (h.backed.stack t ht h0), h.backed.separate,
    fun t ht => hW (h.backed.kept t ht)⟩, fun t ht => ?_, h.zombie, h.waiting⟩
  have ht' : t ∈ live ++ (dying ++ (pending ++ gone)) := by
    rw [← List.append_assoc dying, ← List.append_assoc live]
    exact List.mem_append_left _ ht
  exact (hs t ht').stackBase.trans (h.bases t ht)

/-- Spans of no linked descriptor may be forgotten. -/
theorem forget (hA : A.Keeping I clear) (h : Linked I k L W live dying pending gone rest)
    {V : Set Span} (hLV : L ⊆ V) (hVW : V ⊆ W) (hg : ∀ t ∈ gone, descriptor t.addr ∈ V) :
    Linked I k L V live dying pending gone rest :=
  ⟨h.ready, hA.forget h.memory hLV hVW, h.graph,
    ⟨h.backed.held, h.backed.stack, h.backed.separate, hg⟩, h.bases, h.zombie, h.waiting⟩

theorem sameFields (hA : A.Keeping I clear) (h : Linked I k L W live dying pending gone rest)
    {mem : Mem} (hk : Keeps W k.mem mem) :
    ∀ t ∈ live ++ (dying ++ (pending ++ gone)), SameFields k.mem mem t.addr :=
  fun _ ht => .of_bytes (hk _ (h.descriptor_mem hA ht))

/-! ## Reclaiming the zombie -/

theorem freeStack_spec (hA : A.Keeping I clear) (h : Linked I k L W live dying [z] gone rest) :
    ∃ heap mem L', freeStack A k = some { k with heap := heap, mem := mem } ∧ I heap mem L' W ∧
      Keeps W k.mem mem ∧ ∀ s, s ∈ L' ↔ s ∈ L ∧ ¬ (z.stack ≠ 0 ∧ s = stackSpan z.stack) := by
  have hz : z ∈ live ++ (dying ++ [z]) := by simp
  have hbase : stackBaseOf k.mem k.zombie = z.stack := by
    rw [← h.zombie z List.mem_cons_self]
    exact h.bases z hz
  by_cases h0 : z.stack = 0
  · refine ⟨k.heap, k.mem, L, ?_, h.memory, Keeps.refl _ _, fun s => by simp [h0]⟩
    rw [freeStack, hbase, if_pos h0]
  · obtain ⟨heap, mem, hrun, hI, hk⟩ := hA.kfree h.memory (h.backed.stack z hz h0)
    refine ⟨heap, mem, L \ {stackSpan z.stack}, ?_, hI, hk, fun s => by simp [h0]⟩
    rw [freeStack, hbase, if_neg h0]
    exact congrArg (Option.map _) hrun

/-- The zombie loses its memory, every kept byte stays. -/
theorem reclaim_spec (hA : A.Keeping I clear) (h : Linked I k L W live dying pending gone rest) :
    ∃ heap mem L', reclaim A k = some { k with heap := heap, mem := mem, zombie := 0 } ∧
      Linked I { k with heap := heap, mem := mem, zombie := 0 } L' W live dying []
        (pending ++ gone) rest ∧ Keeps W k.mem mem ∧
      ∀ s, s ∈ L' ↔ s ∈ L ∧ ∀ z ∈ pending, s ∉ z.spans := by
  rcases h.pending_cases with ⟨rfl, h0⟩ | ⟨z, rfl, hza⟩
  · refine ⟨k.heap, k.mem, L, ?_, ⟨h.ready, h.memory, h.graph, h.backed, h.bases, by simp,
      fun hne => absurd rfl hne⟩, Keeps.refl _ _, by simp⟩
    rw [reclaim, if_pos h0]
    cases k
    cases h0
    rfl
  · have hz : z ∈ live ++ (dying ++ ([z] ++ gone)) := by simp
    have hz0 : k.zombie ≠ 0 := by
      have := (h.addr_bounds hA hz).1
      omega
    obtain ⟨h₁, m₁, L₁, hrun₁, hI₁, hk₁, hL₁⟩ := h.freeStack_spec hA
    have hdesc : descriptor z.addr ∈ L₁ :=
      (hL₁ _).mpr ⟨h.backed.held z (by simp), fun hh => descriptor_ne_stackSpan _ _ hh.2⟩
    obtain ⟨h₂, m₂, hrun₂, hI₂, hk₂⟩ := hA.kfree hI₁ hdesc
    have hL₂ : ∀ s, s ∈ L₁ \ {descriptor z.addr} ↔ s ∈ L ∧ ∀ y ∈ [z], s ∉ y.spans := by
      intro s
      simp only [Set.mem_sdiff, Set.mem_singleton_iff, hL₁ s, List.mem_singleton, forall_eq,
        Task.spans, Set.mem_ofPred_eq]
      tauto
    have hk : Keeps W k.mem m₂ := hk₁.trans hk₂
    have hrun₂' : A.kfree h₁ m₁ k.zombie = some (h₂, m₂) := hza ▸ hrun₂
    have hother : ∀ t ∈ live ++ dying, t ≠ z := by
      rintro t ht rfl
      have hd := h.graph.distinct
      rw [← List.append_assoc, List.map_append, List.nodup_append] at hd
      exact hd.2.2 _ (List.mem_map_of_mem ht) _ (List.mem_map_of_mem (by simp)) rfl
    have hmem : ∀ t ∈ live ++ (dying ++ []), t ∈ live ++ dying ∧ t ∈ live ++ (dying ++ [z]) := by
      intro t ht
      rw [List.append_nil] at ht
      exact ⟨ht, by rw [← List.append_assoc]; exact List.mem_append_left _ ht⟩
    have hgraph := h.graph.congr (h.sameFields hA hk)
    refine ⟨h₂, m₂, L₁ \ {descriptor z.addr}, ?_, ⟨h.ready, hI₂, hgraph, ⟨fun t ht => ?_,
      fun t ht ht0 => ?_, ?_, ?_⟩, fun t ht => ?_, by simp, fun hne => absurd rfl hne⟩, hk, hL₂⟩
    · rw [reclaim, if_neg hz0, hrun₁, Option.bind_some]
      exact congrArg (Option.map _) hrun₂'
    · obtain ⟨ht, ht'⟩ := hmem t ht
      refine ⟨(hL₁ _).mpr ⟨h.backed.held t ht', fun hh => descriptor_ne_stackSpan _ _ hh.2⟩,
        fun he => ?_⟩
      exact hother t ht (h.graph.eq_of_addr (by simp at ht ⊢; tauto) hz (congrArg Span.addr he))
    · obtain ⟨ht, ht'⟩ := hmem t ht
      refine ⟨(hL₁ _).mpr ⟨h.backed.stack t ht' ht0, fun hh => ?_⟩,
        fun he => descriptor_ne_stackSpan _ _ (he.symm)⟩
      have hst := h.backed.separate
      rw [← List.append_assoc, List.pairwise_append] at hst
      exact ht0 (hst.2.2 t ht z List.mem_cons_self (congrArg Span.addr hh.2))
    · refine h.backed.separate.sublist ?_
      simp
    · intro t ht
      exact h.descriptor_mem hA (List.mem_append_right _ (List.mem_append_right _ ht))
    · obtain ⟨ht, ht'⟩ := hmem t ht
      have hall : t ∈ live ++ (dying ++ ([z] ++ gone)) := by simp at ht ⊢; tauto
      exact (h.sameFields hA hk t hall).stackBase.trans (h.bases t ht')

/-! ## Switching -/

theorem dispatch_currentTask {prev next : ℕ} : (dispatch k prev next).currentTask = next := rfl

theorem dispatch_heap {prev next : ℕ} : (dispatch k prev next).heap = k.heap := by
  unfold dispatch
  split_ifs <;> rfl

theorem dispatch_terminated {prev next : ℕ}
    (hp : stateOf k.mem prev = TaskState.terminated.code) :
    dispatch k prev next =
      { k with zombie := prev, mem := setState k.mem next .running, currentTask := next } := by
  simp only [dispatch, if_pos hp]

theorem dispatch_running {prev next : ℕ} (hp : stateOf k.mem prev = TaskState.running.code) :
    dispatch k prev next =
      { k with mem := setState (setState k.mem prev .ready) next .running, currentTask := next } := by
  have hne : stateOf k.mem prev ≠ TaskState.terminated.code := by
    rw [hp]
    decide
  simp only [dispatch, if_neg hne, if_pos hp]

theorem setState_sub {m : Mem} {s : TaskState} {a x : ℕ} (h : descriptor a ∈ L)
    (hx : setState m a s x ≠ m x) : ∃ w ∈ L, w.Has x :=
  ⟨_, h, by_contra (fun hn => hx (setState_outside hn))⟩

/-- The hand-over to a live task, when nothing waits for reclamation. -/
theorem switch (hA : A.Keeping I clear) {pre post : List ℕ} {d : ℕ}
    (h : Linked I k L W live dying [] gone (pre ++ d :: post)) (h0 : k.zombie = 0)
    (hd : ∃ t ∈ live, t.addr = d) :
    Linked I (dispatch k k.currentTask d) L W live [] dying gone (post ++ k.currentTask :: pre) := by
  have hsp := h.spread hA
  obtain ⟨e, he, rfl⟩ := hd
  have heL : descriptor e.addr ∈ L := h.backed.held e (List.mem_append_left _ he)
  have howned : ∀ {t}, t ∈ live ++ ([] ++ dying) → t ∈ live ++ (dying ++ []) := by simp
  have hbase : ∀ {m : Mem} {s : TaskState} {c : Task}, c ∈ live ++ (dying ++ ([] ++ gone)) →
      ∀ t ∈ live ++ (dying ++ []), stackBaseOf (setState m c.addr s) t.addr = stackBaseOf m t.addr :=
    fun hc t ht => (Graph.setState_fields (hsp _ hc t (by simp at ht ⊢; tauto))).2.1
  have hbacked : Backed L W (live ++ ([] ++ dying)) gone :=
    ⟨fun t ht => h.backed.held t (howned ht), fun t ht => h.backed.stack t (howned ht),
      by simpa using h.backed.separate, h.backed.kept⟩
  rcases hdy : dying with - | ⟨c, cs⟩
  · -- the current task goes on later
    subst hdy
    obtain ⟨c, hc, hcc⟩ := h.graph.current rfl
    have hrun : stateOf k.mem k.currentTask = TaskState.running.code := by
      have := h.graph.alive c hc
      rwa [if_pos hcc, hcc] at this
    have hcL : descriptor k.currentTask ∈ L := hcc ▸ h.backed.held c (List.mem_append_left _ hc)
    rw [dispatch_running hrun]
    refine ⟨h.ready, ?_, h.graph.switch hsp ⟨e, he, rfl⟩ (.inl ⟨rfl, rfl⟩), hbacked, fun t ht => ?_,
      by simp, fun hne => absurd h0 hne⟩
    · exact hA.store (hA.store h.memory (fun x => setState_sub hcL)) (fun x => setState_sub heL)
    · change stackBaseOf (setState (setState k.mem k.currentTask .ready) e.addr .running) t.addr = _
      rw [hbase (by simp [he]) t (howned ht), ← hcc, hbase (by simp [hc]) t (howned ht)]
      exact h.bases t (howned ht)
  · have hcd : c ∈ dying := hdy ▸ List.mem_cons_self
    have hcc := h.graph.dying_current c hcd
    have hterm : stateOf k.mem k.currentTask = TaskState.terminated.code :=
      hcc ▸ h.graph.dead c (List.mem_append_left _ hcd)
    have hpos : 0 < c.addr := (h.addr_bounds hA (t := c) (by simp [hcd])).1
    rw [dispatch_terminated hterm, ← hdy]
    refine ⟨h.ready, hA.store h.memory (fun x => setState_sub heL),
      h.graph.switch hsp ⟨e, he, rfl⟩ (.inr ⟨by rw [hdy]; simp, rfl⟩), hbacked, fun t ht => ?_,
      h.graph.dying_current, fun _ => by rw [hdy]; simp⟩
    exact (hbase (by simp [he]) t (howned ht)).trans (h.bases t (howned ht))

/-- `schedule` returns; the exiting task becomes the zombie, the one before it is reclaimed. -/
theorem schedule_spec (hA : A.Keeping I clear)
    (h : Linked I k L W live dying pending gone rest) (hlive : live ≠ []) :
    ∃ o k' k₁ L' rest', schedule A k = some (o, k') ∧ reclaim A k = some k₁ ∧ k'.heap = k₁.heap ∧
      Linked I k' L' W live [] dying (pending ++ gone) rest' ∧
      (∀ s, s ∈ L' ↔ s ∈ L ∧ ∀ z ∈ pending, s ∉ z.spans) ∧
      Chosen live rest rest' k.currentTask k'.currentTask o := by
  obtain ⟨heap, mem, L', hrec, h', hk, hL'⟩ := h.reclaim_spec hA
  set k₁ : Kernel H := { k with heap := heap, mem := mem, zombie := 0 } with hk₁
  have hcur : k₁.currentTask = k.currentTask := rfl
  have hsched : schedule A k = (nextAlive k₁.mem k₁.currentTask loopFuel
      (nextOf k₁.mem k₁.currentTask)).map (fun next =>
        if next = k₁.currentTask ∧ stateOf k₁.mem k₁.currentTask = TaskState.terminated.code then
          (.returned, k₁)
        else if next = k₁.currentTask then (.returned, k₁)
        else (.switched k₁.currentTask next, dispatch k₁ k₁.currentTask next)) := by
    rw [schedule, if_neg (by rw [h.ready]; simp), hrec, Option.bind_some]
  have hdead : ∀ {a : ℕ}, stateOf k₁.mem a = TaskState.terminated.code → ∀ t ∈ live, t.addr ≠ a := by
    rintro a ha t ht rfl
    have := (h'.graph.alive t ht).symm.trans ha
    split at this <;> cases this
  rcases h'.graph.search (h'.length_lt hA) with ⟨pre, d, post, hrest, hd, hpre, hrun⟩ | ⟨hall, hrun⟩
  · have hdc : d ≠ k₁.currentTask := by
      rintro rfl
      exact (List.nodup_cons.mp h'.graph.nodup).1 (hrest ▸ by simp)
    rw [hrun, Option.map_some, if_neg (fun hh => hdc hh.1), if_neg hdc] at hsched
    subst hrest
    refine ⟨_, _, k₁, L', post ++ k₁.currentTask :: pre, hsched, hrec, dispatch_heap,
      h'.switch hA rfl hd, hL', ?_⟩
    rw [dispatch_currentTask]
    exact .inr ⟨pre, post, rfl, rfl, rfl, fun a ha => hdead (hpre a ha), hd⟩
  · have hret : (if k₁.currentTask = k₁.currentTask ∧
        stateOf k₁.mem k₁.currentTask = TaskState.terminated.code then
          (Outcome.returned, k₁)
        else if k₁.currentTask = k₁.currentTask then (.returned, k₁)
        else (.switched k₁.currentTask k₁.currentTask, dispatch k₁ k₁.currentTask k₁.currentTask)) =
          (.returned, k₁) := by
      split <;> rfl
    rw [hrun, Option.map_some, hret] at hsched
    have hnone : ∀ a ∈ rest, ∀ t ∈ live, t.addr ≠ a := fun a ha => hdead (hall a ha)
    -- the only task left is the current one, so it is not dying
    obtain rfl : dying = [] := h'.graph.dying_eq_nil hlive hnone
    exact ⟨_, _, k₁, L', rest, hsched, hrec, rfl, h', hL', .inl ⟨rfl, rfl, rfl, hnone⟩⟩

/-- Saving the stack pointer changes no field the scheduler reads. -/
theorem saveEsp (hA : A.Keeping I clear) (h : Linked I k L W live dying pending gone rest)
    {esp : ℕ} {o : Outcome} (ho : ∀ prev next, o = .switched prev next →
      ∃ t ∈ live ++ (dying ++ pending), t.addr = prev) :
    Linked I (Tasking.switchTo esp (o, k)) L W live dying pending gone rest := by
  cases o with
  | returned => exact h
  | switched prev next =>
    obtain ⟨c, hc, rfl⟩ := ho prev next rfl
    have hcL := h.backed.held c hc
    refine h.update (hA.store h.memory (fun x hx => ?_)) le_rfl le_rfl (fun t ht => ?_)
    · exact ⟨_, hcL, by_contra (fun hn => hx (setEsp_outside hn))⟩
    · by_cases he : t.addr = c.addr
      · rw [he]
        exact ⟨stateOf_setEsp, nextOf_setEsp, stackBaseOf_setEsp⟩
      · have hap := h.spread hA t ht c (by simp at hc ⊢; tauto) he
        exact .of_bytes (fun x hx => setEsp_outside (hap.not_has hx))

/-- The current task is marked terminated by `task_exit`. -/
theorem exit (hA : A.Keeping I clear) (h : Linked I k L W live [] pending gone rest) :
    Linked I { k with mem := setState k.mem k.currentTask .terminated } L W
      (live.filter (fun t => t.addr ≠ k.currentTask))
      (live.filter (fun t => t.addr = k.currentTask)) pending gone rest := by
  obtain ⟨c, hc, hcc⟩ := h.graph.current rfl
  have hcL : descriptor k.currentTask ∈ L := hcc ▸ h.backed.held c (List.mem_append_left _ hc)
  have hsub : ∀ {t}, t ∈ live.filter (fun t => t.addr ≠ k.currentTask) ++
      (live.filter (fun t => t.addr = k.currentTask) ++ pending) → t ∈ live ++ ([] ++ pending) := by
    intro t ht
    simp only [List.mem_append, List.mem_filter, List.not_mem_nil, false_or] at ht ⊢
    tauto
  have hperm : (live.filter (fun t => t.addr ≠ k.currentTask) ++
      (live.filter (fun t => t.addr = k.currentTask) ++ pending)).Perm (live ++ ([] ++ pending)) := by
    rw [← List.append_assoc]
    refine List.Perm.append_right pending ?_
    have := (List.perm_append_comm).trans
      (List.filter_append_perm (fun t : Task => decide (t.addr = k.currentTask)) live)
    simpa only [decide_not] using this
  refine ⟨h.ready, hA.store h.memory (fun x => setState_sub hcL), h.graph.exit (h.spread hA),
    ⟨fun t ht => h.backed.held t (hsub ht), fun t ht => h.backed.stack t (hsub ht), ?_,
      h.backed.kept⟩, fun t ht => ?_, h.zombie, h.waiting⟩
  · exact hperm.symm.pairwise h.backed.separate
      (fun {x y} hxy he => he.trans (hxy he.symm))
  · have ht' : t ∈ live ++ ([] ++ (pending ++ gone)) := by
      have := hsub ht
      simp at this ⊢
      tauto
    refine (Graph.setState_fields (fun hne => ?_)).2.1.trans (h.bases t (hsub ht))
    exact hcc ▸ h.spread hA c (List.mem_append_left _ hc) t ht' (hcc.symm ▸ hne)

/-! ## Creating tasks -/

/-- Two fresh blocks become the descriptor and the stack of a linked task. -/
theorem install (hA : A.Keeping I clear) (h : Linked I k L W live [] pending gone rest)
    {heap : H} {mem : Mem} {t q : ℕ} (tramp entry pid : ℕ)
    (hI : I heap mem (insert (stackSpan q) (insert (descriptor t) L))
      (insert (stackSpan q) (insert (descriptor t) W)))
    (hk : Keeps W k.mem mem) (htW : descriptor t ∉ W) (hqW : stackSpan q ∉ W) :
    Linked I { k with heap := heap, mem := installTask tramp mem k.currentTask t q entry k.nextPid,
                      nextPid := pid }
      (insert (stackSpan q) (insert (descriptor t) L))
      (insert (stackSpan q) (insert (descriptor t) W)) (⟨t, q⟩ :: live) [] pending gone
      (t :: rest) ∧ t < 2 ^ 32 := by
  have hapart := hA.apart hI
  have hqm : stackSpan q ∈ insert (stackSpan q) (insert (descriptor t) W) := Set.mem_insert _ _
  have htm : descriptor t ∈ insert (stackSpan q) (insert (descriptor t) W) :=
    Set.mem_insert_of_mem _ (Set.mem_insert _ _)
  have hWm : ∀ {w}, w ∈ W → w ∈ insert (stackSpan q) (insert (descriptor t) W) :=
    fun hw => Set.mem_insert_of_mem _ (Set.mem_insert_of_mem _ hw)
  have hqb : q + taskStackSize ≤ 2 ^ 32 := (hA.bounds hI hqm).2.2
  have htb : t + taskSize ≤ 2 ^ 32 := (hA.bounds hI htm).2.2
  have htlt : t < 2 ^ 32 := by
    unfold taskSize at htb
    omega
  have hmiss : ∀ y ∈ live ++ ([] ++ (pending ++ gone)),
      (descriptor t).Apart (descriptor y.addr) ∧ (stackSpan q).Apart (descriptor y.addr) := by
    intro y hy
    have hyW := h.descriptor_mem hA hy
    refine ⟨hapart htm (hWm hyW) (fun he => htW ?_),
      hapart hqm (hWm hyW) (descriptor_ne_stackSpan _ _).symm⟩
    rw [he]
    exact hyW
  obtain ⟨hgraph, hbase, hbases⟩ := h.graph.create tramp entry k.nextPid (u := ⟨t, q⟩)
    (h.sameFields hA hk) hmiss htlt hqb (h.spread hA)
  obtain ⟨c, hc, hcc⟩ := h.graph.current rfl
  have hcL : descriptor k.currentTask ∈ L := hcc ▸ h.backed.held c (List.mem_append_left _ hc)
  have hstore : ∀ x, installTask tramp mem k.currentTask t q entry k.nextPid x ≠ mem x →
      ∃ w ∈ insert (stackSpan q) (insert (descriptor t) L), w.Has x := by
    intro x hx
    by_contra hno
    push Not at hno
    apply hx
    apply installTask_outside hqb (hno _ (Set.mem_insert _ _))
    · exact hno _ (Set.mem_insert_of_mem _ (Set.mem_insert _ _))
    · exact hno _ (Set.mem_insert_of_mem _ (Set.mem_insert_of_mem _ hcL))
  have hstack : ∀ y ∈ live ++ ([] ++ pending), y.stack = q → y.stack = 0 := by
    intro y hy he
    by_contra hy0
    refine hqW ?_
    rw [← he]
    exact hA.live_sub h.memory (h.backed.stack y hy hy0)
  refine ⟨⟨h.ready, hA.store hI hstore, hgraph, ⟨fun y hy => ?_, fun y hy hy0 => ?_, ?_,
    fun y hy => hWm (h.backed.kept y hy)⟩, fun y hy => ?_, h.zombie, h.waiting⟩, htlt⟩
  · rcases List.mem_cons.mp hy with rfl | hy
    · exact Set.mem_insert_of_mem _ (Set.mem_insert _ _)
    · exact Set.mem_insert_of_mem _ (Set.mem_insert_of_mem _ (h.backed.held y hy))
  · rcases List.mem_cons.mp hy with rfl | hy
    · exact Set.mem_insert _ _
    · exact Set.mem_insert_of_mem _ (Set.mem_insert_of_mem _ (h.backed.stack y hy hy0))
  · refine List.pairwise_cons.mpr ⟨fun y hy he => ?_, h.backed.separate⟩
    exact he.trans (hstack y hy he.symm)
  · rcases List.mem_cons.mp hy with rfl | hy
    · exact hbase
    · refine (hbases y ?_).trans (h.bases y hy)
      rw [← List.append_assoc]
      exact List.mem_append_left _ hy

/-- `task_create` fails and leaves the tasks as they are, or links a new one. -/
theorem create (hA : A.Keeping I clear) (h : Linked I k L W live [] pending gone rest)
    (tramp entry : ℕ) (hclear : ∀ w ∈ W, w ∈ L ∨ HandsClear A clear k w) :
    ∃ o k', taskCreate A tramp k entry = some (o, k') ∧ k'.currentTask = k.currentTask ∧
      ((o = none ∧ NoDescriptor A k k' ∧ Linked I k' L W live [] pending gone rest) ∨
        (∃ t, o = none ∧ NoStack A k k' t ∧ descriptor t ∉ W ∧
          Linked I k' L (insert (descriptor t) W) live [] pending gone rest) ∨
        ∃ u, o = some k.nextPid ∧ BothBlocks A k k' u ∧
          nextOf k'.mem k'.currentTask = u.addr ∧ descriptor u.addr ∉ W ∧ stackSpan u.stack ∉ W ∧
          Linked I k' (insert (stackSpan u.stack) (insert (descriptor u.addr) L))
            (insert (stackSpan u.stack) (insert (descriptor u.addr) W)) (u :: live) [] pending gone
            (u.addr :: rest)) := by
  obtain ⟨t, h₁, m₁, hrun₁, hnull₁, hok₁⟩ :=
    hA.kmalloc h.memory (n := taskSize) (by decide) (by decide)
  by_cases ht : t = 0
  · obtain ⟨hI₁, hk₁⟩ := hnull₁ ht
    subst ht
    refine ⟨none, { k with heap := h₁, mem := m₁ }, ?_, rfl, .inl ⟨rfl, ⟨m₁, hrun₁⟩,
      h.update hI₁ le_rfl le_rfl (h.sameFields hA hk₁)⟩⟩
    rw [taskCreate, hrun₁, Option.bind_some, if_pos rfl]
  obtain ⟨hI₁, hk₁, htW⟩ := hok₁ ht (fun w hw =>
    (hclear w hw).imp_right (fun hh => (hh t h₁ m₁ hrun₁ ht).1))
  obtain ⟨q, h₂, m₂, hrun₂, hnull₂, hok₂⟩ :=
    hA.kmalloc hI₁ (n := taskStackSize) (by decide) (by decide)
  by_cases hq : q = 0
  · -- the descriptor goes back
    subst hq
    obtain ⟨hI₂, hk₂⟩ := hnull₂ rfl
    obtain ⟨h₃, m₃, hrun₃, hI₃, hk₃⟩ := hA.kfree hI₂ (s := descriptor t) (Set.mem_insert _ _)
    have hL : insert (descriptor t) L \ {descriptor t} = L :=
      Set.insert_sdiff_self_of_notMem (fun hm => htW (hA.live_sub h.memory hm))
    have hk : Keeps W k.mem m₃ := hk₁.trans ((hk₂.trans hk₃).mono (Set.subset_insert _ _))
    refine ⟨none, { k with heap := h₃, mem := m₃ }, ?_, rfl, .inr (.inl ⟨t, rfl,
      ⟨ht, h₁, m₁, h₂, m₂, m₃, hrun₁, hrun₂, hrun₃⟩, htW,
      h.update (hL ▸ hI₃) le_rfl (Set.subset_insert _ _) (h.sameFields hA hk)⟩)⟩
    rw [taskCreate, hrun₁, Option.bind_some, if_neg ht, hrun₂, Option.bind_some, if_pos rfl]
    exact congrArg (Option.map _) hrun₃
  obtain ⟨hI₂, hk₂, hqW⟩ := hok₂ hq (fun w hw => by
    rcases hw with rfl | hw
    · exact .inl (Set.mem_insert _ _)
    · exact (hclear w hw).imp (Set.mem_insert_of_mem _)
        (fun hh => (hh t h₁ m₁ hrun₁ ht).2 _ hrun₂ hq))
  have hqW' : stackSpan q ∉ W := fun hm => hqW (Set.mem_insert_of_mem _ hm)
  obtain ⟨hlinked, htlt⟩ := h.install hA tramp entry (u32 (k.nextPid + 1)) hI₂
    (hk₁.trans (hk₂.mono (Set.subset_insert _ _))) htW hqW'
  refine ⟨some k.nextPid,
    { k with
      heap := h₂
      mem := installTask tramp m₂ k.currentTask t q entry k.nextPid
      nextPid := u32 (k.nextPid + 1) }, ?_, rfl,
    .inr (.inr ⟨⟨t, q⟩, rfl, ⟨ht, hq, h₁, m₁, m₂, hrun₁, hrun₂⟩, nextOf_installTask htlt, htW, hqW',
      hlinked⟩)⟩
  rw [taskCreate, hrun₁, Option.bind_some, if_neg ht, hrun₂, Option.bind_some, if_neg hq]

/-- `tasking_init` once its `kmalloc` returned. -/
theorem taskingInit_boot {heap h₁ : H} {mem m₁ : Mem} {t : ℕ}
    (hrun : A.kmalloc heap mem taskSize = some (t, h₁, m₁)) :
    taskingInit A (Kernel.boot heap mem) =
      some { Kernel.boot h₁ (setNext (fillTask m₁ t 0 0 0 0 .running) t t) with
        nextPid := 1, currentTask := t, taskingReady := true } := by
  unfold taskingInit
  exact congrArg (Option.map _) hrun

/-- `tasking_init` makes the running code task 0. -/
theorem init (hA : A.Keeping I clear) {heap : H} {mem : Mem} {k' : Kernel H} {O : Set Span}
    (hI : I heap mem O O) (hrun : taskingInit A (Kernel.boot heap mem) = some k')
    (h0 : k'.currentTask ≠ 0) :
    Linked I k' (insert (descriptor k'.currentTask) O) (insert (descriptor k'.currentTask) O)
      [⟨k'.currentTask, 0⟩] [] [] [] [] := by
  have hsingle : ∀ {y : Task} {t : ℕ}, y ∈ [Task.mk t 0] ++ ([] ++ []) → y = ⟨t, 0⟩ := by simp
  obtain ⟨t, h₁, m₁, hrun₁, -, hok₁⟩ := hA.kmalloc hI (n := taskSize) (by decide) (by decide)
  rw [taskingInit_boot hrun₁] at hrun
  obtain rfl := (Option.some.inj hrun).symm
  change t ≠ 0 at h0
  obtain ⟨hI₁, -, -⟩ := hok₁ h0 (fun w hw => .inl hw)
  have htb := (hA.bounds hI₁ (s := ⟨t, taskSize⟩) (Set.mem_insert _ _)).2.2
  have htlt : t < 2 ^ 32 := by
    unfold taskSize at htb
    dsimp only at htb
    omega
  refine ⟨rfl, hA.store hI₁ (fun x hx => ?_), ⟨?_, by simp, by simp [eq_comm], by simp, ?_, by simp,
    fun _ => ⟨_, List.mem_cons_self, rfl⟩, by simp⟩, ⟨?_, by simp, by simp, by simp⟩, ?_, by simp,
    fun hz => absurd rfl hz⟩
  · refine ⟨descriptor t, Set.mem_insert _ _, by_contra (fun hn => hx ?_)⟩
    exact (setNext_outside hn).trans (fillTask_outside hn)
  · change nextOf (setNext _ t t) t = t
    rw [nextOf_setNext, u32_of_lt htlt]
  · intro y hy
    rw [List.mem_singleton.mp hy, if_pos rfl]
    exact stateOf_setNext.trans stateOf_fillTask
  · intro y hy
    rw [hsingle hy]
    exact Set.mem_insert _ _
  · intro y hy
    rw [hsingle hy]
    exact stackBaseOf_setNext.trans stackBaseOf_fillTask

end Linked
end ShadOS.Tasking

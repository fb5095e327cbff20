import ShadOS.Tasking.OnHeap

/-! # Nobody waits for ever

A new task goes right behind the current one and runs before all that wait. A
waiting task therefore falls back by one with each creation, and advances by
one with each call of `schedule`; every fifth tick makes such a call.
-/

namespace ShadOS.Tasking
open Machine

universe u
variable {H : Type u}

def Event.isTick : Event → Bool
  | .tick _ => true
  | _ => false

def Event.isCreate : Event → Bool
  | .create _ => true
  | _ => false

/-- Of the runs whose steps meet `C`: within five ticks for each live task and each creation on the
way, unless the scheduler is paused, every task that is live now has been the current one. -/
def BoundedWaiting (S : System (Session H) Event) (C : Session H → Event → Prop) (s : Session H) :
    Prop :=
  ∀ t ∈ s.live, ∀ es, S.Executes s es → S.EachStep C s es → s.kernel.taskingPaused = false →
    (∀ e ∈ es, e ≠ .setPaused true) →
    scheduleEveryNTicks * (s.live.length + es.countP Event.isCreate) ≤ es.countP Event.isTick →
    ¬ S.Always (fun s' => s'.kernel.currentTask ≠ t.addr) s es

/-! ## Places in the queue -/

theorem idxOf_filter_le {α : Type*} [DecidableEq α] {p : α → Bool} {a : α} (l : List α) (ha : p a) :
    (l.filter p).idxOf a ≤ l.idxOf a := by
  induction l with
  | nil => simp
  | cons b l ih =>
    by_cases hb : b = a
    · subst hb
      simp [ha]
    · rw [List.idxOf_cons_ne _ hb]
      cases hp : p b with
      | false =>
        rw [List.filter_cons_of_neg (by simp [hp])]
        omega
      | true =>
        rw [List.filter_cons_of_pos hp, List.idxOf_cons_ne _ hb]
        omega

/-- The first one runs, the others move up. -/
theorem idxOf_turn {α : Type*} [DecidableEq α] {a b : α} {l : List α} (hb : b ≠ a)
    (ha : a ∈ b :: l) : (l ++ [b]).idxOf a + 1 = (b :: l).idxOf a := by
  have hal : a ∈ l := (List.mem_cons.mp ha).resolve_left (Ne.symm hb)
  rw [List.idxOf_append_of_mem hal, List.idxOf_cons_ne _ hb]

section order
variable {live live' : List Task} {rest rest' : List ℕ} {cur cur' : ℕ} {o : Outcome} {t u : Task}

theorem order_sublist (h : ∀ t ∈ live', t ∈ live) :
    order live' cur rest = (order live cur rest).filter (fun a => a ∈ live'.map Task.addr) := by
  rw [order, order, List.filter_filter]
  apply List.filter_congr
  intro a _
  by_cases ha : a ∈ live'.map Task.addr
  · obtain ⟨t, ht, rfl⟩ := List.mem_map.mp ha
    simp only [List.mem_map_of_mem ht, List.mem_map_of_mem (h t ht), decide_true, Bool.and_self]
  · simp only [ha, decide_false, Bool.false_and]

/-- The current task does not choose itself, whether or not it is still live. -/
theorem Chosen.with_current (h : Chosen live' rest rest' cur cur' o) (hsub : ∀ t ∈ live', t ∈ live)
    (hcur : ∀ t ∈ live, t ∈ live' ∨ t.addr = cur) (hn : cur ∉ rest) :
    Chosen live rest rest' cur cur' o := by
  have hskip {l : List ℕ} (hl : ∀ a ∈ l, a ∈ rest) (hno : ∀ a ∈ l, ∀ t ∈ live', t.addr ≠ a) :
      ∀ a ∈ l, ∀ t ∈ live, t.addr ≠ a := by
    intro a ha t ht
    cases hcur t ht with
    | inl ht' => exact hno a ha t ht'
    | inr he =>
      rw [he]
      rintro rfl
      exact hn (hl _ ha)
  rcases h with ⟨ho, hc, hr, hno⟩ | ⟨pre, post, ho, hr, hr', hno, t, ht, he⟩
  · exact .inl ⟨ho, hc, hr, hskip (fun _ ha => ha) hno⟩
  · refine .inr ⟨pre, post, ho, hr, hr', hskip (fun a ha => ?_) hno, t, hsub t ht, he⟩
    rw [hr]
    exact List.mem_append_left _ ha

/-- A new task is the next one. -/
theorem order_create (hu : u.addr ∉ rest ++ [cur]) :
    order (u :: live) cur (u.addr :: rest) = u.addr :: order live cur rest := by
  rw [order, List.cons_append, List.filter_cons_of_pos (by simp), order]
  congr 1
  apply List.filter_congr
  intro a ha
  have hne : a ≠ u.addr := by
    rintro rfl
    exact hu ha
  simp [hne]

end order

/-! ## The clock of the scheduler -/

section clock
variable {A : Allocator H} {k k' : Kernel H} {s s' : Session H} {tramp : ℕ} {e : Event}

/-- The counter of ticks and the pause. -/
def Kernel.clock (k : Kernel H) : ℕ × Bool := (k.tickCounter, k.taskingPaused)

theorem reclaim_clock (h : reclaim A k = some k') : k'.clock = k.clock := by
  rw [reclaim] at h
  split at h
  · rw [Option.some.inj h]
  · obtain ⟨k₁, h₁, h₂⟩ := Option.bind_eq_some_iff.mp h
    obtain ⟨f, -, rfl⟩ := Option.map_eq_some_iff.mp h₂
    rw [freeStack] at h₁
    split at h₁
    · rw [← Option.some.inj h₁]
      rfl
    · obtain ⟨f, -, rfl⟩ := Option.map_eq_some_iff.mp h₁
      rfl

theorem schedule_clock {r : Outcome × Kernel H} (h : schedule A k = some r) : r.2.clock = k.clock := by
  rw [schedule] at h
  split at h
  · rw [← Option.some.inj h]
  · obtain ⟨k₁, h₁, h₂⟩ := Option.bind_eq_some_iff.mp h
    obtain ⟨next, -, rfl⟩ := Option.map_eq_some_iff.mp h₂
    rw [← reclaim_clock h₁]
    split
    · rfl
    · split
      · rfl
      · rw [dispatch]
        split
        · rfl
        · split <;> rfl

@[simp] theorem switchTo_clock (esp : ℕ) (r : Outcome × Kernel H) :
    (switchTo esp r).clock = r.2.clock := by
  rcases r with ⟨- | ⟨prev, next⟩, k⟩ <;> rfl

theorem taskCreate_clock {entry : ℕ} {r : Option ℕ × Kernel H}
    (h : taskCreate A tramp k entry = some r) : r.2.clock = k.clock := by
  obtain ⟨q, -, h⟩ := Option.bind_eq_some_iff.mp h
  split at h
  · rw [← Option.some.inj h]
    rfl
  · obtain ⟨q', -, h⟩ := Option.bind_eq_some_iff.mp h
    split at h
    · obtain ⟨f, -, rfl⟩ := Option.map_eq_some_iff.mp h
      rfl
    · rw [← Option.some.inj h]
      rfl

/-- Only ticks move the counter, and only `tasking_set_paused` pauses. -/
theorem Session.step_clock (h : Session.step A tramp s e = some s') (ht : e.isTick = false) :
    s'.kernel.tickCounter = s.kernel.tickCounter ∧
      (e ≠ .setPaused true → s.kernel.taskingPaused = false → s'.kernel.taskingPaused = false) := by
  have hof {k k' : Kernel H} (hk : k'.clock = k.clock) : k'.tickCounter = k.tickCounter ∧
      (e ≠ .setPaused true → k.taskingPaused = false → k'.taskingPaused = false) :=
    ⟨congrArg Prod.fst hk, fun _ h0 => (congrArg Prod.snd hk).trans h0⟩
  cases e with
  | create entry =>
    obtain ⟨r, hr, rfl⟩ := Option.map_eq_some_iff.mp h
    exact hof (taskCreate_clock hr)
  | schedule esp =>
    obtain ⟨r, hr, rfl⟩ := Option.map_eq_some_iff.mp h
    exact hof ((switchTo_clock esp r).trans (schedule_clock hr))
  | tick esp => cases ht
  | exit esp =>
    obtain ⟨r, hr, rfl⟩ := Option.map_eq_some_iff.mp h
    have hmem (m : Mem) : ({ s.kernel with mem := m } : Kernel H).clock = s.kernel.clock := rfl
    rw [taskExit] at hr
    exact hof (((switchTo_clock esp r).trans (schedule_clock hr)).trans (hmem _))
  | setPaused paused =>
    obtain rfl := Option.some.inj h
    refine ⟨rfl, fun hp _ => ?_⟩
    cases paused with
    | false => rfl
    | true => exact absurd rfl hp
  | compute mem =>
    obtain rfl := Option.some.inj h
    exact ⟨rfl, fun _ h0 => h0⟩

/-- A tick counts up to four, or enters `schedule` and starts again. -/
theorem Session.step_tick {esp : ℕ} (h : Session.step A tramp s (.tick esp) = some s')
    (h0 : s.kernel.taskingPaused = false) (hr : s.kernel.taskingReady = true)
    (hc : s.kernel.tickCounter < scheduleEveryNTicks) :
    s'.kernel.taskingPaused = false ∧ s'.kernel.tickCounter < scheduleEveryNTicks ∧
      ((Event.tick esp).Enters s.kernel ∧ s'.kernel.tickCounter = 0 ∨
        ¬ (Event.tick esp).Enters s.kernel ∧
          s'.kernel.tickCounter = s.kernel.tickCounter + 1) := by
  have hu : u32 (s.kernel.tickCounter + 1) = s.kernel.tickCounter + 1 := by
    apply u32_of_lt
    unfold scheduleEveryNTicks at hc
    omega
  by_cases he : (Event.tick esp).Enters s.kernel
  · rw [Session.step, taskingTick_enters A he] at h
    obtain ⟨r, hr, rfl⟩ := Option.map_eq_some_iff.mp h
    have hclock := (switchTo_clock esp r).trans (schedule_clock hr)
    have hzero : (switchTo esp r).tickCounter = 0 := congrArg Prod.fst hclock
    refine ⟨(congrArg Prod.snd hclock).trans h0, ?_, .inl ⟨he, hzero⟩⟩
    rw [hzero]
    decide
  · obtain ⟨n, hrun, hn⟩ := taskingTick_quiet A he
    rw [Session.step, hrun] at h
    obtain rfl := Option.some.inj h
    have hn := (hn hr h0).trans hu
    refine ⟨h0, ?_, .inr ⟨he, hn⟩⟩
    change n < scheduleEveryNTicks
    by_contra hge
    refine he ⟨by simp [hr, h0], ?_⟩
    rw [hu, ← hn]
    exact Nat.not_lt.mp hge

/-- The counter stays below five, also while the scheduler is paused. -/
theorem Session.step_counter (h : Session.step A tramp s e = some s')
    (hr : s.kernel.taskingReady = true) (hc : s.kernel.tickCounter < scheduleEveryNTicks) :
    s'.kernel.tickCounter < scheduleEveryNTicks := by
  cases ht : e.isTick with
  | false => exact (Session.step_clock h ht).1 ▸ hc
  | true =>
    cases e with
    | tick esp =>
      cases hp : s.kernel.taskingPaused with
      | false => exact (Session.step_tick h hp hr hc).2.1
      | true =>
        rw [Session.step, taskingTick, if_pos (.inr hp)] at h
        obtain rfl := Option.some.inj h
        exact hc
    | _ => cases ht

/-- A task that is not the current one stays. -/
theorem Session.step_live {t : Task} (h : Session.step A tramp s e = some s') (ht : t ∈ s.live)
    (hc : t.addr ≠ s.kernel.currentTask) : t ∈ s'.live := by
  cases e with
  | create entry =>
    obtain ⟨r, -, rfl⟩ := Option.map_eq_some_iff.mp h
    exact List.mem_append_right _ ht
  | schedule | tick =>
    obtain ⟨r, -, rfl⟩ := Option.map_eq_some_iff.mp h
    exact ht
  | exit esp =>
    obtain ⟨r, -, rfl⟩ := Option.map_eq_some_iff.mp h
    exact List.mem_filter.mpr ⟨ht, by simpa using hc⟩
  | setPaused | compute =>
    obtain rfl := Option.some.inj h
    exact ht

end clock

/-! ## Waiting -/

section waiting
variable {A : Allocator H} {I : H → Mem → Set Span → Set Span → Prop} {clear : Span → Span → Prop}
  {start : H → Mem → Prop} {s s' : Session H} {L W : Set Span} {pending gone : List Task}
  {rest : List ℕ} {e : Event} {tramp n : ℕ} {t : Task}

/-- The task waits, with `n` others before it. -/
structure Waits (I : H → Mem → Set Span → Set Span → Prop) (s : Session H) (t : Task) (n : ℕ) :
    Prop where
  live : t ∈ s.live
  waiting : t.addr ≠ s.kernel.currentTask
  place : ∃ L W pending gone rest, SessionOk I s L W pending gone rest ∧
    (∀ w ∈ W, w ∈ L ∨ ∃ t ∈ gone, w = descriptor t.addr) ∧
    (order s.live s.kernel.currentTask rest).idxOf t.addr ≤ n

theorem Waits.enter (h : Waits I s t n) (hA : A.Keeping I clear) (ha : s.allowed e)
    (he : e.Enters s.kernel) (hstep : Session.step A tramp s e = some s')
    (hcur : t.addr ≠ s'.kernel.currentTask) : ∃ m, n = m + 1 ∧ Waits I s' t m := by
  obtain ⟨L, W, pending, gone, rest, hok, hW, hn⟩ := h.place
  obtain ⟨s₁, o, k₀, k₁, dying, L', rest', hs₁, -, -, -, -, hok', -, -, hlive, hcho⟩ :=
    hok.enter tramp hA ha he
  obtain rfl : s₁ = s' := Option.some.inj (hs₁.symm.trans hstep)
  have hg := hok.linked.graph
  have hcho' : Chosen s.live rest rest' s.kernel.currentTask s₁.kernel.currentTask o := by
    apply hcho.with_current
    · exact fun u hu => (hlive u).mpr (.inl hu)
    · intro u hu
      by_cases hc : u.addr = s.kernel.currentTask
      · exact .inr hc
      · exact .inl (Session.step_live hstep hu hc)
    · exact (List.nodup_cons.mp hg.nodup).1
  obtain ⟨R, hR, hR'⟩ := hcho'.order_rotates (hg.current rfl)
  have hin : t.addr ∈ s₁.kernel.currentTask :: R := by
    rw [← hR]
    exact hok.order_perm.mem_iff.mpr (List.mem_map_of_mem h.live)
  have hlive' : t ∈ s₁.live := Session.step_live hstep h.live h.waiting
  have hmove := idxOf_turn (Ne.symm hcur) hin
  have hle : (order s₁.live s₁.kernel.currentTask rest').idxOf t.addr ≤
      (R ++ [s₁.kernel.currentTask]).idxOf t.addr := by
    rw [order_sublist (fun u hu => (hlive u).mpr (.inl hu)), hR']
    exact idxOf_filter_le _ (by simpa using ⟨t, hlive', rfl⟩)
  rw [hR] at hn
  refine ⟨n - 1, by omega, hlive', hcur, L', {w | w ∈ L' ∨ ∃ t ∈ pending ++ gone, w = descriptor t.addr},
    dying, pending ++ gone, rest', hok'.forget hA (fun w hw => .inl hw) ?_ (fun u hu => .inr ⟨u, hu, rfl⟩),
    fun w hw => hw, by omega⟩
  rintro w (hw | ⟨u, hu, rfl⟩)
  · exact hA.live_sub hok'.linked.memory hw
  · exact hok.linked.descriptor_mem hA (List.mem_append_right _ (List.mem_append_right _ hu))

theorem SessionOk.handsClear (hA : A.Keeping I clear) (h : SessionOk I s L W pending gone rest)
    (hW : ∀ w ∈ W, w ∈ L ∨ ∃ t ∈ gone, w = descriptor t.addr) {entry : ℕ}
    (hC : CreatesClear A clear s (.create entry)) :
    ∀ w ∈ W, w ∈ L ∨ HandsClear A clear s.kernel w := by
  intro w hw
  refine (hW w hw).imp_right ?_
  rintro ⟨u, hu, rfl⟩
  exact hC entry rfl u ((h.reclaimed_iff hA).mpr hu)

theorem Waits.create (h : Waits I s t n) (hA : A.Keeping I clear) {entry : ℕ}
    (hC : CreatesClear A clear s (.create entry))
    (hstep : Session.step A tramp s (.create entry) = some s') : Waits I s' t (n + 1) := by
  obtain ⟨L, W, pending, gone, rest, hok, hW, hn⟩ := h.place
  obtain ⟨s₁, hs₁, -, -, hcur, hcases⟩ := hok.create tramp hA entry (hok.handsClear hA hW hC)
  obtain rfl : s₁ = s' := Option.some.inj (hs₁.symm.trans hstep)
  have hlive' : t ∈ s₁.live := Session.step_live hstep h.live h.waiting
  refine ⟨hlive', hcur ▸ h.waiting, ?_⟩
  rcases hcases with ⟨-, hl, hok'⟩ | ⟨u, -, hl, -, hok'⟩ | ⟨u, -, hl, -, -, hok'⟩
  · exact ⟨L, W, pending, gone, rest, hok', hW, by rw [hl, hcur]; omega⟩
  · exact ⟨L, W, pending, gone, rest, hok'.forget hA (hA.live_sub hok.linked.memory)
      (Set.subset_insert _ _) hok.linked.backed.kept, hW, by rw [hl, hcur]; omega⟩
  · refine ⟨_, _, pending, gone, _, hok', fun w hw => ?_, ?_⟩
    · rcases hw with rfl | rfl | hw
      · exact .inl (Set.mem_insert _ _)
      · exact .inl (Set.mem_insert_of_mem _ (Set.mem_insert _ _))
      · exact (hW w hw).imp_left (fun hm => Set.mem_insert_of_mem _ (Set.mem_insert_of_mem _ hm))
    · have hnodup := hok'.linked.graph.nodup
      have hu : u.addr ∉ rest ++ [s.kernel.currentTask] := by
        rw [hcur] at hnodup
        simp at hnodup ⊢
        grind
      have hne : u.addr ≠ t.addr := by
        intro he
        apply hu
        rw [he]
        have hin := hok.order_perm.mem_iff.mpr (List.mem_map_of_mem h.live)
        exact (List.mem_filter.mp hin).1
      rw [hl, hcur, order_create hu, List.idxOf_cons_ne _ hne]
      omega

theorem Waits.quiet (h : Waits I s t n) (hA : A.Keeping I clear) (ha : s.allowed e)
    (he : ¬ e.Enters s.kernel) (hc : e.isCreate = false)
    (hstep : Session.step A tramp s e = some s') : Waits I s' t n := by
  obtain ⟨L, W, pending, gone, rest, hok, hW, hn⟩ := h.place
  obtain ⟨s₁, hs₁, hok', hl, -, -, -, hcur⟩ := hok.quiet tramp hA ha he
    (fun entry hh => by subst hh; cases hc)
  obtain rfl : s₁ = s' := Option.some.inj (hs₁.symm.trans hstep)
  exact ⟨hl ▸ h.live, hcur ▸ h.waiting, L, W, pending, gone, rest, hok', hW, by rw [hl, hcur]; exact hn⟩

/-- While the task waits, each creation costs five ticks at most, and so does each task before it. -/
theorem Waits.ticks_le (h : Waits I s t n) (hA : A.Keeping I clear) {es : List Event}
    (he : (scheduler A tramp start).Executes s es)
    (hC : (scheduler A tramp start).EachStep (CreatesClear A clear) s es)
    (hp : s.kernel.taskingPaused = false) (hes : ∀ e ∈ es, e ≠ .setPaused true)
    (hc : s.kernel.tickCounter < scheduleEveryNTicks)
    (hw : (scheduler A tramp start).Always (fun s' => s'.kernel.currentTask ≠ t.addr) s es) :
    es.countP Event.isTick + s.kernel.tickCounter <
      scheduleEveryNTicks * (n + es.countP Event.isCreate + 1) := by
  induction es generalizing s n with
  | nil =>
    simp only [List.countP_nil, scheduleEveryNTicks] at hc ⊢
    omega
  | cons e es ih =>
    obtain ⟨ha, s', hstep, hes'⟩ := he
    have hw' := hw.2 s' hstep
    have hcur : t.addr ≠ s'.kernel.currentTask := by
      cases es with
      | nil => exact Ne.symm hw'
      | cons => exact Ne.symm hw'.1
    have hstep' : Session.step A tramp s e = some s' := hstep
    have ha : s.allowed e := ha
    have hready : s.kernel.taskingReady = true := by
      obtain ⟨L, W, pending, gone, rest, hok, -⟩ := h.place
      exact hok.linked.ready
    have ih {m : ℕ} (h' : Waits I s' t m) (hp' : s'.kernel.taskingPaused = false)
        (hc' : s'.kernel.tickCounter < scheduleEveryNTicks) :=
      ih h' hes' (hC.2 s' hstep) hp' (fun e he => hes e (List.mem_cons_of_mem _ he)) hc' hw'
    simp only [List.countP_cons, scheduleEveryNTicks] at ih hc ⊢
    by_cases ht : e.isTick = true
    · obtain ⟨esp, rfl⟩ : ∃ esp, e = .tick esp := by
        cases e <;> simp [Event.isTick] at ht
        exact ⟨_, rfl⟩
      obtain ⟨hp', hc', ⟨hent, hz⟩ | ⟨hent, hz⟩⟩ := Session.step_tick hstep' hp hready hc
      · obtain ⟨m, rfl, h'⟩ := h.enter hA ha hent hstep' hcur
        have hle := ih h' hp' hc'
        simp [Event.isTick, Event.isCreate]
        omega
      · have hle := ih (h.quiet hA ha hent rfl hstep') hp' hc'
        simp [Event.isTick, Event.isCreate]
        omega
    · have ht' : e.isTick = false := Bool.not_eq_true _ ▸ ht
      obtain ⟨hc', hpause⟩ := Session.step_clock hstep' ht'
      have hp' := hpause (hes e List.mem_cons_self) hp
      rw [hc'] at ih
      by_cases hent : e.Enters s.kernel
      · obtain ⟨m, rfl, h'⟩ := h.enter hA ha hent hstep' hcur
        have hle := ih h' hp' hc
        rw [ht']
        simp only [Bool.false_eq_true, if_false]
        omega
      · by_cases hcr : e.isCreate = true
        · obtain ⟨entry, rfl⟩ : ∃ entry, e = .create entry := by
            cases e <;> simp [Event.isCreate] at hcr
            exact ⟨_, rfl⟩
          have hle := ih (h.create hA hC.1 hstep') hp' hc
          simp [Event.isTick, Event.isCreate]
          omega
        · have hle := ih (h.quiet hA ha hent (Bool.not_eq_true _ ▸ hcr) hstep') hp' hc
          rw [ht']
          simp only [Bool.false_eq_true, if_false, hcr]
          omega

/-- What a task that is live now waits for at most. -/
theorem Cleared.boundedWaiting (h : Cleared I s) (hA : A.Keeping I clear)
    (hc : s.kernel.tickCounter < scheduleEveryNTicks) :
    BoundedWaiting (scheduler A tramp start) (CreatesClear A clear) s := by
  intro t ht es he hC hp hes hle hw
  have hcur : t.addr ≠ s.kernel.currentTask := by
    cases es with
    | nil => exact Ne.symm hw
    | cons => exact Ne.symm hw.1
  obtain ⟨L, W, pending, gone, rest, hok, hW⟩ := h
  have hwaits : Waits I s t ((order s.live s.kernel.currentTask rest).idxOf t.addr) :=
    ⟨ht, hcur, L, W, pending, gone, rest, hok, hW, le_rfl⟩
  have hlt : (order s.live s.kernel.currentTask rest).idxOf t.addr < s.live.length := by
    have hin := hok.order_perm.mem_iff.mpr (List.mem_map_of_mem ht)
    have hlen := hok.order_perm.length_eq
    rw [List.length_map] at hlen
    exact hlen ▸ List.idxOf_lt_length_of_mem hin
  have hticks := hwaits.ticks_le hA he hC hp hes hc hw
  unfold scheduleEveryNTicks at hle hticks
  omega

end waiting

/-! ## On heap.c -/

/-- Along every run whose creations get blocks clear of the reclaimed descriptors, no task that is
live in a state waits longer. -/
theorem bounded_waiting (k : Heap.KernelEnd) (tramp : ℕ)
    {s : Session (Heap.HeapVars × Allocator.Ledger)} {es : List Event}
    (hs : (kernelScheduler k tramp).init s) (he : (kernelScheduler k tramp).Executes s es)
    (hc : (kernelScheduler k tramp).EachStep
      (CreatesClear Heap.heapC.audited Heap.FootprintClear) s es) :
    (kernelScheduler k tramp).Always (BoundedWaiting (kernelScheduler k tramp)
      (CreatesClear Heap.heapC.audited Heap.FootprintClear)) s es := by
  have hA := (Heap.heapC_keeping k).audited
  refine System.always_of_eachStep (I := fun s =>
    Cleared (fun h m L W => Heap.HeapKeeps k h.1 m L W) s ∧
      s.kernel.tickCounter < scheduleEveryNTicks) ?_ ?_ ?_ he hc
  · exact fun s h => h.1.boundedWaiting hA h.2
  · rintro s e s' ⟨h, hlt⟩ ha hC hstep
    obtain ⟨t, ht, h'⟩ := h.step tramp hA ha hC
    obtain rfl : t = s' := Option.some.inj (ht.symm.trans hstep)
    obtain ⟨L, W, pending, gone, rest, hok, -⟩ := h
    exact ⟨h', Session.step_counter hstep hok.linked.ready hlt⟩
  · obtain ⟨heap, mem, ⟨-, O, hO⟩, hrun, h0, hb, hl, hex⟩ := hs
    refine ⟨⟨_, _, _, _, _, SessionOk.start hA hO hrun h0 hb hl hex, fun w hw => .inl hw⟩, ?_⟩
    obtain ⟨r, -, hk⟩ := Option.map_eq_some_iff.mp hrun
    rw [← hk]
    exact Nat.succ_pos _

/-- Along a creation, a switch, an exit and the next `schedule`. -/
theorem bounded_waiting_create : ∃ s, (kernelScheduler Heap.smallImage 0).init s ∧
    newTask Heap.heapC.audited s.kernel = some Slot.task ∧
    (kernelScheduler Heap.smallImage 0).Executes s [.create 0, .schedule 0, .exit 0, .schedule 0] ∧
    (kernelScheduler Heap.smallImage 0).Always (BoundedWaiting (kernelScheduler Heap.smallImage 0)
      (CreatesClear Heap.heapC.audited Heap.FootprintClear)) s
      [.create 0, .schedule 0, .exit 0, .schedule 0] := by
  obtain ⟨s, hinit, hnew, hexec, hclear⟩ := Slot.run_to_reclaim
  exact ⟨s, hinit, hnew, hexec, bounded_waiting Heap.smallImage 0 hinit hexec hclear⟩

end ShadOS.Tasking

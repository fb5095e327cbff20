import ShadOS.Tasking.States

/-! # The ring and the descriptors it goes through

Exited tasks stay linked. As long as none of them is reclaimed the ring goes
through allocated descriptors only; the first `schedule` entered with a zombie
frees a descriptor that the ring still goes through.
-/

namespace ShadOS.Tasking
open Machine

universe u
variable {H : Type u}

/-- The pointers handed out by `kmalloc` and not freed. -/
def Session.held (s : Session (H × Allocator.Ledger)) : List ℕ :=
  Allocator.Ledger.held s.kernel.heap.2

/-- The chain from the current task closes through allocated descriptors, and
the loops that follow it end. -/
structure RingSound (s : Session (H × Allocator.Ledger)) : Prop where
  closes : ∃ i, 0 < i ∧ (nextOf s.kernel.mem)^[i] s.kernel.currentTask = s.kernel.currentTask
  allocated : ∀ i, (nextOf s.kernel.mem)^[i] s.kernel.currentTask ∈ s.held
  search : ∃ t, nextAlive s.kernel.mem s.kernel.currentTask loopFuel
    (nextOf s.kernel.mem s.kernel.currentTask) = some t
  listing : ∃ lines, taskingList s.kernel = some (some lines)

/-- No `schedule` is entered while an exited task waits in `zombie`. -/
def NothingToReclaim (s : Session (H × Allocator.Ledger)) (e : Event) : Prop :=
  e.Enters s.kernel → s.kernel.zombie = 0

/-- Nothing was reclaimed so far. -/
structure Intact (I : H × Allocator.Ledger → Mem → Set Span → Set Span → Prop)
    (s : Session (H × Allocator.Ledger)) (L : Set Span) (pending : List Task) (rest : List ℕ) :
    Prop where
  ok : SessionOk I s L L pending [] rest
  held : ∀ t ∈ s.live ++ pending, t.addr ∈ s.held
  nodup : s.held.Nodup
  backed : ∀ p ∈ s.held, ∃ w ∈ L, w.addr = p

theorem taskingListLoop_path {m : Mem} {cur a fuel : ℕ} {xs : List ℕ}
    (hp : Path (nextOf m) a xs cur) (hne : ∀ x ∈ xs, x ≠ cur) (hf : xs.length < fuel) :
    ∃ lines, taskingListLoop m cur fuel a = some lines := by
  induction xs generalizing a fuel with
  | nil =>
    obtain ⟨n, rfl⟩ : ∃ n, fuel = n + 1 := ⟨fuel - 1, by simp at hf; omega⟩
    exact ⟨_, if_pos hp⟩
  | cons x xs ih =>
    obtain ⟨n, rfl⟩ : ∃ n, fuel = n + 1 := ⟨fuel - 1, by simp at hf; omega⟩
    obtain ⟨lines, hl⟩ := ih hp.2 (fun y hy => hne y (List.mem_cons_of_mem x hy))
      (by simpa using Nat.lt_of_succ_lt_succ hf)
    refine ⟨(pidOf m a, stateName (stateOf m a)) :: lines, ?_⟩
    rw [taskingListLoop, hp.1, if_neg (hne x List.mem_cons_self), hl]
    rfl

variable {A : Allocator H} {I : H × Allocator.Ledger → Mem → Set Span → Set Span → Prop}
  {clear : Span → Span → Prop} {tramp : ℕ} {s s' : Session (H × Allocator.Ledger)} {L : Set Span}
  {pending : List Task} {rest : List ℕ} {e : Event}

namespace Intact

theorem ringSound (hA : A.audited.Keeping I clear)
    (h : Intact I s L pending rest) : RingSound s := by
  have hl := h.ok.linked
  have hg := hl.graph
  have hlen := hl.length_lt hA
  refine ⟨⟨_, Nat.succ_pos _, hg.ring.iterate⟩, fun i => ?_, ?_, ?_⟩
  · obtain ⟨t, ht, he⟩ := (hg.nodes _).mp (hg.ring.reaches_iff.mp ⟨i, rfl⟩)
    rw [← he]
    exact h.held t (by simpa using ht)
  · rcases hg.search hlen with ⟨-, d, -, -, -, -, hd⟩ | ⟨-, hd⟩
    · exact ⟨d, hd⟩
    · exact ⟨_, hd⟩
  · obtain ⟨lines, hlines⟩ := taskingListLoop_path hg.ring (fun x hx he =>
      (List.nodup_cons.mp hg.nodup).1 (he ▸ hx)) hlen
    refine ⟨lines, ?_⟩
    rw [taskingList, if_neg (by rw [hl.ready]; simp), hlines]
    rfl

theorem pending_nil (hA : A.audited.Keeping I clear)
    (h : Intact I s L pending rest) (h0 : s.kernel.zombie = 0) : pending = [] := by
  rcases h.ok.linked.pending_cases with ⟨hp, -⟩ | ⟨z, rfl, hz⟩
  · exact hp
  · have := (h.ok.linked.addr_bounds hA (t := z) (by simp)).1
    omega

theorem zombie_null (h : Intact I s L [] rest) : s.kernel.zombie = 0 :=
  by_contra (fun h0 => h.ok.linked.waiting h0 rfl)

theorem exited (h : Intact I s L pending rest) : s.exited = pending :=
  h.ok.exited.trans (List.append_nil _)

/-- A switch that reclaims nothing. -/
theorem enter (tramp : ℕ) (hA : A.audited.Keeping I clear)
    (h : Intact I s L pending rest) (ha : s.allowed e) (he : e.Enters s.kernel)
    (h0 : s.kernel.zombie = 0) :
    ∃ s' o dying rest', Session.step A.audited tramp s e = some s' ∧ Intact I s' L dying rest' ∧
      s'.kernel.heap.2 = s.kernel.heap.2 ∧
      Chosen s'.live rest rest' s.kernel.currentTask s'.kernel.currentTask o := by
  obtain ⟨s', o, k₀, k₁, dying, L', rest', hstep, hheap, hl₀, hrec, hheap', hok', -, hL', hlive,
    hcho⟩ := h.ok.enter tramp hA ha he
  obtain rfl := h.pending_nil hA h0
  obtain rfl : L' = L := Set.ext (fun x => by simp [hL'])
  have hled : s'.kernel.heap.2 = s.kernel.heap.2 := by
    rcases hl₀.reclaim_ledger hA hrec with ⟨-, hl⟩ | ⟨z, hz, -⟩
    · rw [hheap', hl, hheap]
    · cases hz
  have hsame : s'.held = s.held := congrArg Allocator.Ledger.held hled
  refine ⟨s', o, dying, rest', hstep, ⟨hok', fun t ht => ?_, hsame ▸ h.nodup, hsame ▸ h.backed⟩, hled,
    hcho⟩
  rw [hsame]
  refine h.held t (List.mem_append_left _ ((hlive t).mpr ?_))
  exact List.mem_append.mp ht

/-- A switch with a zombie frees a descriptor of the ring. -/
theorem enter_zombie (tramp : ℕ) (hA : A.audited.Keeping I clear)
    (h : Intact I s L pending rest) (ha : s.allowed e) (he : e.Enters s.kernel)
    (h0 : s.kernel.zombie ≠ 0) :
    ∃ s', Session.step A.audited tramp s e = some s' ∧ ¬ RingSound s' := by
  obtain ⟨s', o, k₀, k₁, dying, L', rest', hstep, hheap, hl₀, hrec, hheap', hok', -⟩ :=
    h.ok.enter tramp hA ha he
  refine ⟨s', hstep, fun hsound => ?_⟩
  rcases hl₀.reclaim_ledger hA hrec with ⟨hp, -⟩ | ⟨z, rfl, hl⟩
  · exact h.ok.linked.waiting h0 hp
  · have hfreed : z.addr ∉ s'.held := by
      rw [Session.held, hheap', hl, hheap, Task.giveBack]
      split
      · exact h.nodup.not_mem_erase
      · exact (h.nodup.erase _).not_mem_erase
    have hg := hok'.linked.graph
    obtain ⟨i, hi⟩ := hg.ring.reaches_iff.mpr ((hg.nodes z.addr).mpr ⟨z, by simp, rfl⟩)
    exact hfreed (hi ▸ hsound.allocated i)

/-- A new task holds two blocks that none of the others holds. -/
theorem link (hA : A.audited.Keeping I clear) (h : Intact I s L pending rest) {u : Task}
    {rest' : List ℕ} (hheld : s'.held = u.stack :: u.addr :: s.held) (hl : s'.live = u :: s.live)
    (huL : descriptor u.addr ∉ L) (hsL : stackSpan u.stack ∉ L)
    (hok : SessionOk I s' (insert (stackSpan u.stack) (insert (descriptor u.addr) L))
      (insert (stackSpan u.stack) (insert (descriptor u.addr) L)) pending [] rest') :
    Intact I s' (insert (stackSpan u.stack) (insert (descriptor u.addr) L)) pending rest' := by
  have hI := hok.linked.memory
  have hum : descriptor u.addr ∈ insert (stackSpan u.stack) (insert (descriptor u.addr) L) :=
    Set.mem_insert_of_mem _ (Set.mem_insert _ _)
  have hsm : stackSpan u.stack ∈ insert (stackSpan u.stack) (insert (descriptor u.addr) L) :=
    Set.mem_insert _ _
  have huniq : ∀ {v w : Span}, v ∈ insert (stackSpan u.stack) (insert (descriptor u.addr) L) →
      w ∈ insert (stackSpan u.stack) (insert (descriptor u.addr) L) → v.addr = w.addr → v = w :=
    fun hv hw => eq_of_addr_eq (hA.apart hI) hv hw (hA.bounds hI hv).2.1 (hA.bounds hI hw).2.1
  have hold : ∀ {w : Span}, w ∈ L → w ∈ insert (stackSpan u.stack) (insert (descriptor u.addr) L) :=
    fun hw => Set.mem_insert_of_mem _ (Set.mem_insert_of_mem _ hw)
  refine ⟨hok, fun t ht => ?_, ?_, fun p hp => ?_⟩
  · rw [hl, List.cons_append] at ht
    rw [hheld]
    rcases List.mem_cons.mp ht with rfl | ht
    · simp
    · exact List.mem_cons_of_mem _ (List.mem_cons_of_mem _ (h.held t ht))
  · rw [hheld]
    refine List.nodup_cons.mpr ⟨fun hm => ?_, List.nodup_cons.mpr ⟨fun hm => ?_, h.nodup⟩⟩
    · rcases List.mem_cons.mp hm with he' | hm
      · exact descriptor_ne_stackSpan _ _ (huniq hum hsm he'.symm)
      · obtain ⟨w, hw, hwp⟩ := h.backed _ hm
        exact hsL (huniq (hold hw) hsm hwp ▸ hw)
    · obtain ⟨w, hw, hwp⟩ := h.backed _ hm
      exact huL (huniq (hold hw) hum hwp ▸ hw)
  · rw [hheld] at hp
    rcases List.mem_cons.mp hp with rfl | hp
    · exact ⟨_, hsm, rfl⟩
    · rcases List.mem_cons.mp hp with rfl | hp
      · exact ⟨_, hum, rfl⟩
      · obtain ⟨w, hw, hwp⟩ := h.backed p hp
        exact ⟨w, hold hw, hwp⟩

/-- Creations and the events that do not concern the scheduler leave the ring sound. -/
theorem other (tramp : ℕ) (hA : A.audited.Keeping I clear)
    (h : Intact I s L pending rest) (ha : s.allowed e) (he : ¬ e.Enters s.kernel) :
    ∃ s' L' rest', Session.step A.audited tramp s e = some s' ∧ Intact I s' L' pending rest' := by
  by_cases hc : ∃ entry, e = .create entry
  · obtain ⟨entry, rfl⟩ := hc
    obtain ⟨s', hstep, -, -, -, hcases⟩ := h.ok.create tramp hA entry
      (fun w hw => .inl hw)
    rcases hcases with ⟨hcalls, hl, hok'⟩ | ⟨t, hcalls, hl, -, hok'⟩ | ⟨u, hcalls, hl, huW, hsW, hok'⟩
    · have hsame : s'.held = s.held := by
        rw [Session.held, hcalls.ledger]
        rfl
      exact ⟨s', L, rest, hstep, hok', hl ▸ hsame ▸ h.held, hsame ▸ h.nodup, hsame ▸ h.backed⟩
    · have hsame : s'.held = s.held := by
        rw [Session.held, hcalls.ledger]
        simp [Allocator.Ledger.held, hcalls.1, Session.held]
      exact ⟨s', L, rest, hstep, hok'.forget hA le_rfl (Set.subset_insert _ _) (by simp),
        hl ▸ hsame ▸ h.held, hsame ▸ h.nodup, hsame ▸ h.backed⟩
    · have hnew : s'.held = u.stack :: u.addr :: s.held := by
        rw [Session.held, hcalls.ledger]
        simp [Allocator.Ledger.held, hcalls.1, hcalls.2.1, Session.held]
      exact ⟨s', _, _, hstep, h.link hA hnew hl huW hsW hok'⟩
  · obtain ⟨s', hstep, hok', hl, -, -, hheap, -⟩ := h.ok.quiet tramp hA ha he
      (fun entry hh => hc ⟨entry, hh⟩)
    have hsame : s'.held = s.held := by rw [Session.held, hheap, Session.held]
    exact ⟨s', L, rest, hstep, hok', hl ▸ hsame ▸ h.held, hsame ▸ h.nodup, hsame ▸ h.backed⟩

theorem start (hA : A.audited.Keeping I clear) {O : Set Span} {heap : H × Allocator.Ledger}
    {mem : Mem}
    (hI : I heap mem O O) (hled : heap.2 = [])
    (hrun : taskingInit A.audited (Kernel.boot heap mem) = some s.kernel)
    (h0 : s.kernel.currentTask ≠ 0) (hb : s.boot = s.kernel.currentTask)
    (hl : s.live = [⟨s.kernel.currentTask, 0⟩]) (he : s.exited = []) :
    Intact I s (insert (descriptor s.kernel.currentTask) O) [] [] ∧
      s.kernel.heap.2 = [.malloc taskSize s.kernel.currentTask] := by
  have hledger : s.kernel.heap.2 = [.malloc taskSize s.kernel.currentTask] := by
    obtain ⟨r, hr, hk⟩ := Option.map_eq_some_iff.mp hrun
    rw [← hk]
    exact (Allocator.audited_kmalloc hr).2.trans (congrArg (List.cons _) hled)
  have hheld : s.held = [s.kernel.currentTask] := by
    rw [Session.held, hledger]
    simp [Allocator.Ledger.held, h0]
  refine ⟨⟨SessionOk.start hA hI hrun h0 hb hl he, fun t ht => ?_, by simp [hheld], fun p hp => ?_⟩,
    hledger⟩
  · rw [hl, List.append_nil, List.mem_singleton] at ht
    simp [hheld, ht]
  · rw [hheld, List.mem_singleton] at hp
    exact ⟨_, Set.mem_insert _ _, hp.symm⟩

end Intact

/-- Over any keeping allocator, the ring is sound all along a run if and only if
nothing is reclaimed on it. -/
theorem always_ringSound_iff {I : H → Mem → Set Span → Set Span → Prop} (hA : A.Keeping I clear)
    {es : List Event} (hs : (recorded A I tramp).init s) (he : (recorded A I tramp).Executes s es) :
    (recorded A I tramp).Always RingSound s es ↔
      (recorded A I tramp).EachStep NothingToReclaim s es := by
  have hA' := hA.audited
  refine System.always_iff_eachStep (I := fun s => ∃ L pending rest,
    Intact (fun h m L W => I h.1 m L W) s L pending rest) ?_ ?_ ?_ ?_ he
  · rintro s ⟨L, pending, rest, h⟩
    exact h.ringSound hA'
  · rintro s e s' ⟨L, pending, rest, h⟩ ha hC hstep
    by_cases hent : e.Enters s.kernel
    · obtain ⟨t, o, dying, rest', ht, h', -⟩ := h.enter tramp hA' ha hent (hC hent)
      cases (show some t = some s' from ht.symm.trans hstep)
      exact ⟨_, _, _, h'⟩
    · obtain ⟨t, L', rest', ht, h'⟩ := h.other tramp hA' ha hent
      cases (show some t = some s' from ht.symm.trans hstep)
      exact ⟨_, _, _, h'⟩
  · rintro s e s' ⟨L, pending, rest, h⟩ ha hC hstep
    obtain ⟨hent, h0⟩ : e.Enters s.kernel ∧ s.kernel.zombie ≠ 0 := by
      simpa [NothingToReclaim] using hC
    obtain ⟨t, ht, hbad⟩ := h.enter_zombie tramp hA' ha hent h0
    cases (show some t = some s' from ht.symm.trans hstep)
    exact hbad
  · obtain ⟨heap, mem, ⟨hled, O, hO⟩, hrun, h0, hb, hl, hex⟩ := hs
    exact ⟨_, _, _, (Intact.start hA' hO hled hrun h0 hb hl hex).1⟩

end ShadOS.Tasking

import ShadOS.Tasking.Integrity

/-! # The round robin

While no block handed to `task_create` overlaps a reclaimed descriptor that is
still linked, every live task stays on the ring through the current task, and
`schedule` runs the live tasks in ring order.
-/

namespace ShadOS.Tasking
open Machine

universe u
variable {H : Type u}

/-- The live tasks are distinct, the ring closes with each of them on it, and with `k`
of them `k` calls of `schedule` run each once, the current one last. -/
structure RoundRobin (S : System (Session H) Event) (s : Session H) : Prop where
  distinct : (s.live.map Task.addr).Nodup
  closes : ∃ i, 0 < i ∧ (nextOf s.kernel.mem)^[i] s.kernel.currentTask = s.kernel.currentTask
  linked : ∀ t ∈ s.live, ∃ i, (nextOf s.kernel.mem)^[i] s.kernel.currentTask = t.addr
  round : ∀ esps : List ℕ, esps.length = s.live.length → ∃ trace,
    S.trace (fun s => s.kernel.currentTask) s (esps.map .schedule) = some trace ∧
      trace.Perm (s.live.map Task.addr) ∧ trace.getLast? = some s.kernel.currentTask

/-- The exited tasks whose memory was freed; their descriptors are still linked. -/
def Session.reclaimed (s : Session H) : List Task :=
  s.exited.filter (fun t => t.addr ≠ s.kernel.zombie)

/-- The blocks handed to `task_create` are clear of every reclaimed descriptor. -/
def CreatesClear (A : Allocator H) (clear : Span → Span → Prop) (s : Session H) (e : Event) : Prop :=
  ∀ entry, e = .create entry → ∀ t ∈ s.reclaimed, HandsClear A clear s.kernel (descriptor t.addr)

/-- The live tasks in the order in which `schedule` reaches them, the current one last. -/
def order (live : List Task) (cur : ℕ) (rest : List ℕ) : List ℕ :=
  (rest ++ [cur]).filter (fun a => a ∈ live.map Task.addr)

theorem Chosen.order_rotates {live : List Task} {rest rest' : List ℕ} {cur cur' : ℕ} {o : Outcome}
    (h : Chosen live rest rest' cur cur' o) (hcur : ∃ t ∈ live, t.addr = cur) :
    ∃ R, order live cur rest = cur' :: R ∧ order live cur' rest' = R ++ [cur'] := by
  have hone : ∀ {a : ℕ}, (∃ t ∈ live, t.addr = a) →
      [a].filter (fun a => a ∈ live.map Task.addr) = [a] := by
    rintro a ⟨t, ht, rfl⟩
    exact List.filter_cons_of_pos (decide_eq_true (List.mem_map_of_mem ht))
  have hnone : ∀ {l : List ℕ}, (∀ a ∈ l, ∀ t ∈ live, t.addr ≠ a) →
      l.filter (fun a => a ∈ live.map Task.addr) = [] := by
    intro l hl
    refine List.filter_eq_nil_iff.mpr (fun a ha hm => ?_)
    obtain ⟨t, ht, he⟩ := List.mem_map.mp (of_decide_eq_true hm)
    exact hl a ha t ht he
  rcases h with ⟨-, rfl, rfl, hrest⟩ | ⟨pre, post, -, rfl, rfl, hpre, hcur'⟩
  · refine ⟨[], ?_, ?_⟩
    · rw [order, List.filter_append, hnone hrest, hone hcur, List.nil_append]
    · rw [order, List.filter_append, hnone hrest, hone hcur]
  · refine ⟨(post ++ [cur]).filter (fun a => a ∈ live.map Task.addr), ?_, ?_⟩
    · rw [order, List.append_assoc, List.filter_append, hnone hpre, List.nil_append, List.cons_append,
        ← List.singleton_append, List.filter_append, hone hcur', List.singleton_append]
    · rw [order, ← List.singleton_append (l := pre), ← List.append_assoc, List.filter_append,
        List.filter_append, hnone hpre, List.append_nil, hone hcur']

variable {A : Allocator H} {I : H → Mem → Set Span → Set Span → Prop} {clear : Span → Span → Prop}
  {tramp : ℕ} {start : H → Mem → Prop} {s s' : Session H} {L W : Set Span}
  {pending gone : List Task} {rest : List ℕ} {e : Event}

namespace SessionOk

theorem live_nodup (h : SessionOk I s L W pending gone rest) : (s.live.map Task.addr).Nodup := by
  have hd := h.linked.graph.distinct
  rw [List.map_append] at hd
  exact (List.nodup_append.mp hd).1

theorem order_perm (h : SessionOk I s L W pending gone rest) :
    (order s.live s.kernel.currentTask rest).Perm (s.live.map Task.addr) := by
  have hg := h.linked.graph
  have hnodup : (rest ++ [s.kernel.currentTask]).Nodup :=
    (List.perm_append_singleton _ _).nodup_iff.mpr hg.nodup
  refine (List.perm_ext_iff_of_nodup (hnodup.filter _) h.live_nodup).mpr (fun a => ?_)
  rw [List.mem_filter, decide_eq_true_eq, and_iff_right_iff_imp]
  intro ha
  obtain ⟨t, ht, rfl⟩ := List.mem_map.mp ha
  have := (hg.nodes t.addr).mpr ⟨t, List.mem_append_left _ ht, rfl⟩
  simpa [or_comm] using this

/-- Calls of `schedule` run the live tasks in order. -/
theorem schedule_trace (hA : A.Keeping I clear) (h : SessionOk I s L W pending gone rest)
    {esps : List ℕ} (hlen : esps.length ≤ (order s.live s.kernel.currentTask rest).length) :
    (scheduler A tramp start).trace (fun s => s.kernel.currentTask) s (esps.map .schedule) =
      some ((order s.live s.kernel.currentTask rest).take esps.length) := by
  induction esps generalizing s L pending gone rest with
  | nil => rfl
  | cons esp esps ih =>
    obtain ⟨s', o, k₀, k₁, dying, L', rest', hstep, -, -, -, -, hok', -, -, -, hcho⟩ :=
      h.enter tramp (e := .schedule esp) hA trivial trivial
    have hl : s'.live = s.live := (Session.step_schedule hstep).1
    rw [hl] at hcho
    obtain ⟨R, hR, hR'⟩ := hcho.order_rotates (h.linked.graph.current rfl)
    rw [← hl] at hR'
    rw [hR, List.length_cons, List.length_cons] at hlen
    have hrun := ih hok' (by rw [hR', List.length_append, List.length_singleton]; omega)
    have hstep' : (scheduler A tramp start).step s (.schedule esp) = some s' := hstep
    rw [List.map_cons, System.trace, hstep',
      Option.bind_some, hrun, hR, hR', List.length_cons, List.take_succ_cons,
      List.take_append_of_le_length (by omega)]
    rfl

theorem roundRobin (hA : A.Keeping I clear) (h : SessionOk I s L W pending gone rest) :
    RoundRobin (scheduler A tramp start) s := by
  have hg := h.linked.graph
  have hlen : (order s.live s.kernel.currentTask rest).length = s.live.length := by
    rw [h.order_perm.length_eq, List.length_map]
  refine ⟨h.live_nodup, ⟨_, Nat.succ_pos _, hg.ring.iterate⟩, fun t ht => ?_, fun esps hesps => ?_⟩
  · exact hg.ring.reaches_iff.mpr ((hg.nodes _).mpr ⟨t, List.mem_append_left _ ht, rfl⟩)
  · refine ⟨order s.live s.kernel.currentTask rest, ?_, h.order_perm, ?_⟩
    · rw [h.schedule_trace hA (by omega), hesps, ← hlen, List.take_length]
    · obtain ⟨c, hc, hcc⟩ := hg.current rfl
      rw [order, List.filter_append, List.filter_cons,
        if_pos (decide_eq_true (hcc ▸ List.mem_map_of_mem hc))]
      simp

/-- Only descriptors of reclaimed tasks are kept beside the live spans. -/
theorem reclaimed_iff (hA : A.Keeping I clear) (h : SessionOk I s L W pending gone rest) {t : Task} :
    t ∈ s.reclaimed ↔ t ∈ gone := by
  rw [Session.reclaimed, h.exited, List.filter_append, List.mem_append, List.mem_filter,
    List.mem_filter]
  have hpend : ∀ t ∈ pending, t.addr = s.kernel.zombie := h.linked.zombie
  have hgone : ∀ t ∈ gone, t.addr ≠ s.kernel.zombie := by
    intro t ht he
    rcases h.linked.pending_cases with ⟨-, h0⟩ | ⟨z, rfl, hz⟩
    · have := (h.linked.addr_bounds hA (t := t) (by simp [ht])).1
      omega
    · have hd := h.linked.graph.distinct
      rw [List.map_append, List.nodup_append] at hd
      have := hd.2.1
      rw [List.map_append, List.nodup_append] at this
      have hpg := this.2.1
      rw [List.map_append, List.nodup_append] at hpg
      exact hpg.2.2 z.addr (by simp) t.addr (List.mem_map_of_mem ht) (hz.trans he.symm)
  constructor
  · rintro (⟨ht, hne⟩ | ⟨ht, -⟩)
    · exact absurd (hpend t ht) (by simpa using hne)
    · exact ht
  · exact fun ht => .inr ⟨ht, by simpa using hgone t ht⟩

end SessionOk

/-- The invariant of runs whose creations are clear of the reclaimed descriptors. -/
def Cleared (I : H → Mem → Set Span → Set Span → Prop) (s : Session H) : Prop :=
  ∃ L W pending gone rest, SessionOk I s L W pending gone rest ∧
    ∀ w ∈ W, w ∈ L ∨ ∃ t ∈ gone, w = descriptor t.addr

theorem Cleared.step (tramp : ℕ) (hA : A.Keeping I clear) (h : Cleared I s) (ha : s.allowed e)
    (hC : CreatesClear A clear s e) :
    ∃ s', Session.step A tramp s e = some s' ∧ Cleared I s' := by
  obtain ⟨L, W, pending, gone, rest, h, hW⟩ := h
  have hI := h.linked.memory
  by_cases he : e.Enters s.kernel
  · obtain ⟨s', o, k₀, k₁, dying, L', rest', hstep, -, -, -, -, hok', -⟩ :=
      h.enter tramp hA ha he
    refine ⟨s', hstep, L', {w | w ∈ L' ∨ ∃ t ∈ pending ++ gone, w = descriptor t.addr}, dying,
      pending ++ gone, rest', hok'.forget hA (fun w hw => .inl hw) ?_ (fun t ht => .inr ⟨t, ht, rfl⟩),
      fun w hw => hw⟩
    rintro w (hw | ⟨t, ht, rfl⟩)
    · exact hA.live_sub hok'.linked.memory hw
    · exact h.linked.descriptor_mem hA (List.mem_append_right _ (List.mem_append_right _ ht))
  by_cases hc : ∃ entry, e = .create entry
  · obtain ⟨entry, rfl⟩ := hc
    have hclear : ∀ w ∈ W, w ∈ L ∨ HandsClear A clear s.kernel w := by
      intro w hw
      refine (hW w hw).imp_right ?_
      rintro ⟨t, ht, rfl⟩
      exact hC entry rfl t ((h.reclaimed_iff hA).mpr ht)
    obtain ⟨s', hstep, -, -, -, hcases⟩ := h.create tramp hA entry hclear
    rcases hcases with ⟨-, -, hok'⟩ | ⟨t, -, -, -, hok'⟩ | ⟨u, -, -, -, -, hok'⟩
    · exact ⟨s', hstep, L, W, pending, gone, rest, hok', hW⟩
    · exact ⟨s', hstep, L, W, pending, gone, rest, hok'.forget hA (hA.live_sub hI)
        (Set.subset_insert _ _) h.linked.backed.kept, hW⟩
    · refine ⟨s', hstep, _, _, pending, gone, _, hok', fun w hw => ?_⟩
      rcases hw with rfl | rfl | hw
      · exact .inl (Set.mem_insert _ _)
      · exact .inl (Set.mem_insert_of_mem _ (Set.mem_insert _ _))
      · exact (hW w hw).imp_left (fun hm => Set.mem_insert_of_mem _ (Set.mem_insert_of_mem _ hm))
  · obtain ⟨s', hstep, hok', -⟩ := h.quiet tramp hA ha he
      (fun entry hh => hc ⟨entry, hh⟩)
    exact ⟨s', hstep, L, W, pending, gone, rest, hok', hW⟩

end ShadOS.Tasking

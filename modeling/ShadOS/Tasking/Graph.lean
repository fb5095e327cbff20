import ShadOS.Tasking.Descriptor
import ShadOS.Machine.Ring
import Mathlib.Data.List.Nodup

/-! # The ring of descriptors

The tasks of a scheduler state are the live ones, the one that is exiting, and
those that exited before. All of them stay linked; the states say which is
which. `schedule` finds the next live task, and creation links a task that
overlaps none of the linked ones.
-/

namespace ShadOS.Tasking
open Machine

/-- A descriptor and the stack it owns, 0 for the stack of the kernel itself. -/
@[ext] structure Task where
  addr : ℕ
  stack : ℕ
  deriving DecidableEq

/-- The descriptors of `ts` lie apart from each other. -/
def Spread (ts : List Task) : Prop :=
  ∀ t ∈ ts, ∀ u ∈ ts, t.addr ≠ u.addr → (descriptor t.addr).Apart (descriptor u.addr)

/-- The fields the scheduler reads are the same in both memories. -/
structure SameFields (m m' : Mem) (t : ℕ) : Prop where
  state : stateOf m' t = stateOf m t
  next : nextOf m' t = nextOf m t
  stackBase : stackBaseOf m' t = stackBaseOf m t

theorem SameFields.of_bytes {m m' : Mem} {t : ℕ} (h : ∀ x, (descriptor t).Has x → m' x = m x) :
    SameFields m m' t := ⟨stateOf_congr h, nextOf_congr h, stackBaseOf_congr h⟩

theorem SameFields.trans {m₁ m₂ m₃ : Mem} {t : ℕ} (h : SameFields m₁ m₂ t)
    (h' : SameFields m₂ m₃ t) : SameFields m₁ m₃ t :=
  ⟨h'.state.trans h.state, h'.next.trans h.next, h'.stackBase.trans h.stackBase⟩

section install
variable {m : Mem} {cur t stack a : ℕ} (tramp entry pid : ℕ)

/-- A descriptor that is neither new nor current keeps its fields when a task is created. -/
theorem SameFields.installTask (hst : stack + taskStackSize ≤ 2 ^ 32)
    (hs : (stackSpan stack).Apart (descriptor a)) (ht : (descriptor t).Apart (descriptor a))
    (hc : (descriptor cur).Apart (descriptor a)) :
    SameFields m (installTask tramp m cur t stack entry pid) a := by
  apply SameFields.of_bytes
  intro x hx
  exact installTask_outside hst (hs.symm.not_has hx) (ht.symm.not_has hx) (hc.symm.not_has hx)

/-- Before the new task is linked, other descriptors have their fields. -/
theorem SameFields.fillTask (hst : stack + taskStackSize ≤ 2 ^ 32)
    (hs : (stackSpan stack).Apart (descriptor a)) (ht : (descriptor t).Apart (descriptor a)) :
    SameFields m (fillTask (initialFrame tramp m (initialSp stack)) t (initialSp stack) stack entry
      pid .ready) a := by
  apply SameFields.of_bytes
  intro x hx
  rw [fillTask_outside (ht.symm.not_has hx), initialFrame_apart hst (hs.symm.not_has hx)]

theorem installTask_current (hst : stack + taskStackSize ≤ 2 ^ 32)
    (hs : (stackSpan stack).Apart (descriptor cur)) (ht : (descriptor t).Apart (descriptor cur)) :
    stateOf (installTask tramp m cur t stack entry pid) cur = stateOf m cur ∧
      stackBaseOf (installTask tramp m cur t stack entry pid) cur = stackBaseOf m cur := by
  have hfill := SameFields.fillTask (m := m) tramp entry pid hst hs ht
  have hlink {m' : Mem} {v : ℕ} : SameFields m' (setNext m' t v) cur :=
    .of_bytes (fun x hx => setNext_outside (ht.symm.not_has hx))
  rw [installTask, insertTask, stateOf_setNext, stackBaseOf_setNext, hlink.state, hlink.stackBase]
  exact ⟨hfill.state, hfill.stackBase⟩

/-- The new descriptor is ready, and goes on with the successor of the current task. -/
theorem installTask_new (hst : stack + taskStackSize ≤ 2 ^ 32)
    (hs : (stackSpan stack).Apart (descriptor cur)) (ht : (descriptor t).Apart (descriptor cur)) :
    stateOf (installTask tramp m cur t stack entry pid) t = TaskState.ready.code ∧
      stackBaseOf (installTask tramp m cur t stack entry pid) t = stack ∧
      nextOf (installTask tramp m cur t stack entry pid) t = nextOf m cur := by
  have hlink {m' : Mem} {v : ℕ} : SameFields m' (setNext m' cur v) t :=
    .of_bytes (fun x hx => setNext_outside (ht.not_has hx))
  have hlt : stack < 2 ^ 32 := by
    unfold taskStackSize at hst
    omega
  refine ⟨?_, ?_, ?_⟩
  · rw [installTask, insertTask, hlink.state, stateOf_setNext, stateOf_fillTask]
  · rw [installTask, insertTask, hlink.stackBase, stackBaseOf_setNext, stackBaseOf_fillTask,
      u32_of_lt hlt]
  · rw [installTask, nextOf_insertTask_new ht.symm]
    exact (SameFields.fillTask tramp entry pid hst hs ht).next

end install

structure Graph (m : Mem) (cur : ℕ) (live dying past : List Task) (rest : List ℕ) : Prop where
  ring : Ring (nextOf m) cur rest
  nodup : (cur :: rest).Nodup
  nodes : ∀ a, a ∈ cur :: rest ↔ ∃ t ∈ live ++ (dying ++ past), t.addr = a
  distinct : ((live ++ (dying ++ past)).map Task.addr).Nodup
  alive : ∀ t ∈ live,
    stateOf m t.addr = (if t.addr = cur then TaskState.running else .ready).code
  dead : ∀ t ∈ dying ++ past, stateOf m t.addr = TaskState.terminated.code
  current : dying = [] → ∃ t ∈ live, t.addr = cur
  dying_current : ∀ t ∈ dying, t.addr = cur

/-- The search follows terminated nodes up to one that is not, or to its start. -/
theorem nextAlive_path {m : Mem} {prev a b fuel : ℕ} {pre : List ℕ}
    (hp : Path (nextOf m) a pre b)
    (hpre : ∀ x ∈ pre, stateOf m x = TaskState.terminated.code ∧ x ≠ prev)
    (hb : ¬ (stateOf m b = TaskState.terminated.code ∧ b ≠ prev)) (hf : pre.length < fuel) :
    nextAlive m prev fuel (nextOf m a) = some b := by
  induction pre generalizing a fuel with
  | nil =>
    obtain ⟨n, rfl⟩ : ∃ n, fuel = n + 1 := ⟨fuel - 1, by simp at hf; omega⟩
    rw [nextAlive, show nextOf m a = b from hp, if_neg hb]
  | cons x xs ih =>
    obtain ⟨n, rfl⟩ : ∃ n, fuel = n + 1 := ⟨fuel - 1, by simp at hf; omega⟩
    rw [nextAlive, hp.1, if_pos (hpre x List.mem_cons_self)]
    exact ih hp.2 (fun y hy => hpre y (List.mem_cons_of_mem x hy))
      (by simpa using Nat.lt_of_succ_lt_succ hf)

namespace Graph
variable {m m' : Mem} {cur d : ℕ} {live dying past : List Task} {rest pre post : List ℕ}
  {t u : Task}

theorem eq_of_addr (h : Graph m cur live dying past rest) (ht : t ∈ live ++ (dying ++ past))
    (hu : u ∈ live ++ (dying ++ past)) (htu : t.addr = u.addr) : t = u :=
  List.inj_on_of_nodup_map h.distinct ht hu htu

/-- Live and dead tasks have different descriptors. -/
theorem live_ne_dead (h : Graph m cur live dying past rest) (ht : t ∈ live)
    (hu : u ∈ dying ++ past) : t.addr ≠ u.addr := by
  have hd := h.distinct
  rw [List.map_append, List.nodup_append] at hd
  exact hd.2.2 _ (List.mem_map_of_mem ht) _ (List.mem_map_of_mem hu)

/-- A dying task is the current one, so the ring has no live task without another on it. -/
theorem dying_eq_nil (h : Graph m cur live dying past rest) (hlive : live ≠ [])
    (hrest : ∀ a ∈ rest, ∀ t ∈ live, t.addr ≠ a) : dying = [] := by
  obtain ⟨t, ht⟩ := List.exists_mem_of_ne_nil live hlive
  have hmem := (h.nodes t.addr).mpr ⟨t, List.mem_append_left _ ht, rfl⟩
  rcases List.mem_cons.mp hmem with he | hmem
  · rcases hdy : dying with - | ⟨c, cs⟩
    · rfl
    · have hcd : c ∈ dying := hdy ▸ List.mem_cons_self
      exact absurd (he.trans (h.dying_current c hcd).symm)
        (h.live_ne_dead ht (List.mem_append_left _ hcd))
  · exact absurd rfl (hrest _ hmem t ht)

theorem current_mem (h : Graph m cur live dying past rest) :
    ∃ t ∈ live ++ (dying ++ past), t.addr = cur := (h.nodes cur).mp List.mem_cons_self

theorem congr (h : Graph m cur live dying past rest)
    (hs : ∀ t ∈ live ++ (dying ++ past), SameFields m m' t.addr) :
    Graph m' cur live dying past rest := by
  refine ⟨h.ring.congr (fun a ha => ?_), h.nodup, h.nodes, h.distinct, fun t ht => ?_,
    fun t ht => ?_, h.current, h.dying_current⟩
  · obtain ⟨t, ht, rfl⟩ := (h.nodes a).mp ha
    exact (hs t ht).next
  · exact (hs t (List.mem_append_left _ ht)).state.trans (h.alive t ht)
  · exact (hs t (List.mem_append_right _ ht)).state.trans (h.dead t ht)

/-- `schedule` finds the first live task behind the current one, if there is another. -/
theorem search (h : Graph m cur live dying past rest) (hf : rest.length < loopFuel) :
    (∃ pre d post, rest = pre ++ d :: post ∧ (∃ t ∈ live, t.addr = d) ∧
      (∀ a ∈ pre, stateOf m a = TaskState.terminated.code) ∧
      nextAlive m cur loopFuel (nextOf m cur) = some d) ∨
    (∀ a ∈ rest, stateOf m a = TaskState.terminated.code) ∧
      nextAlive m cur loopFuel (nextOf m cur) = some cur := by
  have hne : ∀ a ∈ rest, a ≠ cur := by
    rintro a ha rfl
    exact (List.nodup_cons.mp h.nodup).1 ha
  cases hs : rest.find? (fun a => decide (stateOf m a ≠ TaskState.terminated.code)) with
  | none =>
    have hall : ∀ a ∈ rest, stateOf m a = TaskState.terminated.code := by
      simpa using hs
    exact .inr ⟨hall, nextAlive_path h.ring (fun a ha => ⟨hall a ha, hne a ha⟩) (by simp) hf⟩
  | some d =>
    obtain ⟨hd, pre, post, rfl, hpre⟩ := List.find?_eq_some_iff_append.mp hs
    have hd' : stateOf m d ≠ TaskState.terminated.code := by simpa using hd
    have hpre' : ∀ a ∈ pre, stateOf m a = TaskState.terminated.code := by simpa using hpre
    obtain ⟨t, ht, rfl⟩ := (h.nodes d).mp (by simp)
    refine .inl ⟨pre, t.addr, post, rfl, ⟨t, ?_, rfl⟩, hpre', ?_⟩
    · rcases List.mem_append.mp ht with ht | ht
      · exact ht
      · exact absurd (h.dead t ht) hd'
    · refine nextAlive_path (path_append.mp h.ring).1
        (fun a ha => ⟨hpre' a ha, hne a (List.mem_append_left _ ha)⟩) (fun hb => hd' hb.1) ?_
      rw [List.length_append] at hf
      omega

/-! ## What the writes of the scheduler do to the ring -/

theorem setState_fields {s : TaskState} {a b : ℕ}
    (hab : a ≠ b → (descriptor a).Apart (descriptor b)) :
    nextOf (setState m a s) b = nextOf m b ∧
      stackBaseOf (setState m a s) b = stackBaseOf m b ∧
      stateOf (setState m a s) b = if b = a then s.code else stateOf m b := by
  by_cases he : a = b
  · subst he
    simp
  · have hs : SameFields m (setState m a s) b :=
      .of_bytes (fun x hx => setState_outside ((hab he).symm.not_has hx))
    exact ⟨hs.next, hs.stackBase, hs.state.trans (if_neg (Ne.symm he)).symm⟩

/-- The current task is marked terminated. -/
theorem exit (h : Graph m cur live [] past rest) (hsp : Spread (live ++ past)) :
    Graph (setState m cur .terminated) cur (live.filter (fun t => t.addr ≠ cur))
      (live.filter (fun t => t.addr = cur)) past rest := by
  have hperm : (live.filter (fun t => t.addr ≠ cur) ++
      (live.filter (fun t => t.addr = cur) ++ past)).Perm (live ++ past) := by
    rw [← List.append_assoc]
    refine List.Perm.append_right past ?_
    have := (List.perm_append_comm).trans
      (List.filter_append_perm (fun t : Task => decide (t.addr = cur)) live)
    simpa only [decide_not] using this
  obtain ⟨c, hc, hcc⟩ := h.current rfl
  have hfields : ∀ t ∈ live ++ past, nextOf (setState m cur .terminated) t.addr = nextOf m t.addr ∧
      stackBaseOf (setState m cur .terminated) t.addr = stackBaseOf m t.addr ∧
      stateOf (setState m cur .terminated) t.addr =
        if t.addr = cur then TaskState.terminated.code else stateOf m t.addr := by
    intro t ht
    refine setState_fields (fun hne => ?_)
    subst hcc
    exact hsp c (List.mem_append_left _ hc) t ht hne
  refine ⟨h.ring.congr (fun a ha => ?_), h.nodup, fun a => ?_, (hperm.map _).nodup_iff.mpr h.distinct,
    fun t ht => ?_, fun t ht => ?_, fun hnil => ?_, fun t ht => ?_⟩
  · obtain ⟨t, ht, rfl⟩ := (h.nodes a).mp ha
    exact (hfields t ht).1
  · rw [h.nodes a]
    exact ⟨fun ⟨t, ht, he⟩ => ⟨t, hperm.mem_iff.mpr ht, he⟩,
      fun ⟨t, ht, he⟩ => ⟨t, hperm.mem_iff.mp ht, he⟩⟩
  · obtain ⟨ht, hne⟩ := List.mem_filter.mp ht
    have hne' : t.addr ≠ cur := by simpa using hne
    rw [(hfields t (List.mem_append_left _ ht)).2.2, h.alive t ht, if_neg hne', if_neg hne']
  · rcases List.mem_append.mp ht with ht | ht
    · obtain ⟨ht, he⟩ := List.mem_filter.mp ht
      rw [(hfields t (List.mem_append_left _ ht)).2.2, if_pos (by simpa using he)]
    · rw [(hfields t (List.mem_append_right _ ht)).2.2, h.dead t ht, ite_self]
  · have : c ∈ live.filter (fun t => t.addr = cur) := List.mem_filter.mpr ⟨hc, by simpa using hcc⟩
    rw [hnil] at this
    cases this
  · simpa using (List.mem_filter.mp ht).2

/-- The switch from the current task to the live task `d`. -/
theorem switch (h : Graph m cur live dying past (pre ++ d :: post))
    (hsp : Spread (live ++ (dying ++ past))) (hd : ∃ t ∈ live, t.addr = d)
    (hm : (dying = [] ∧ m' = setState (setState m cur .ready) d .running) ∨
      (dying ≠ [] ∧ m' = setState m d .running)) :
    Graph m' d live [] (dying ++ past) (post ++ cur :: pre) := by
  obtain ⟨e, he, rfl⟩ := hd
  obtain ⟨c, hc, hcc⟩ := h.current_mem
  have hcd : e.addr ≠ cur := by
    rintro he'
    exact (List.nodup_cons.mp h.nodup).1 (he' ▸ by simp)
  have hfields : ∀ t ∈ live ++ (dying ++ past), nextOf m' t.addr = nextOf m t.addr ∧
      stateOf m' t.addr = if t.addr = e.addr then TaskState.running.code
        else if t.addr = cur ∧ dying = [] then TaskState.ready.code else stateOf m t.addr := by
    intro t ht
    have hte (m₀ : Mem) := setState_fields (m := m₀) (s := .running)
      (hsp e (List.mem_append_left _ he) t ht)
    rcases hm with ⟨hnil, rfl⟩ | ⟨hnil, rfl⟩
    · have htc := setState_fields (m := m) (s := .ready) (hsp c hc t ht)
      rw [hcc] at htc
      exact ⟨(hte _).1.trans htc.1, by rw [(hte _).2.2, htc.2.2]; simp [hnil]⟩
    · exact ⟨(hte m).1, by rw [(hte m).2.2]; simp [hnil]⟩
  have hperm : (e.addr :: (post ++ cur :: pre)).Perm (cur :: (pre ++ e.addr :: post)) :=
    @List.perm_append_comm _ (e.addr :: post) (cur :: pre)
  refine ⟨Ring.rotate (h.ring.congr (fun a ha => ?_)), hperm.nodup_iff.mpr h.nodup,
    fun a => hperm.mem_iff.trans (h.nodes a), h.distinct, fun t ht => ?_, fun t ht => ?_,
    fun _ => ⟨e, he, rfl⟩, by simp⟩
  · obtain ⟨t, ht, rfl⟩ := (h.nodes a).mp ha
    exact (hfields t ht).1
  · rw [(hfields t (List.mem_append_left _ ht)).2]
    by_cases hte : t.addr = e.addr
    · rw [if_pos hte, if_pos hte]
    · rw [if_neg hte, if_neg hte]
      by_cases htc : t.addr = cur
      · -- a live task is current only while none is dying
        have hnil : dying = [] := by
          rcases dying with - | ⟨z, zs⟩
          · rfl
          · exact absurd (htc.trans (h.dying_current z List.mem_cons_self).symm)
              (h.live_ne_dead ht (List.mem_append_left _ List.mem_cons_self))
        rw [if_pos ⟨htc, hnil⟩]
      · rw [if_neg (fun hh => htc hh.1), h.alive t ht, if_neg htc]
  · have ht' : t ∈ dying ++ past := ht
    have hlive := h.live_ne_dead he ht'
    rw [(hfields t (List.mem_append_right _ ht')).2, if_neg (Ne.symm hlive), if_neg, h.dead t ht']
    rintro ⟨htc, hnil⟩
    obtain ⟨c', hc', hcc'⟩ := h.current hnil
    exact h.live_ne_dead hc' ht' (hcc'.trans htc.symm)

/-- What becomes of the linked tasks: only the current one gets another successor. -/
theorem installed (tramp entry pid : ℕ) (h : Graph m cur live [] past rest)
    (hm : ∀ t ∈ live ++ past, SameFields m m' t.addr)
    (hu : ∀ t ∈ live ++ past, (descriptor u.addr).Apart (descriptor t.addr) ∧
      (stackSpan u.stack).Apart (descriptor t.addr))
    (hstack : u.stack + taskStackSize ≤ 2 ^ 32) (hsp : Spread (live ++ past))
    (ht : t ∈ live ++ past) :
    stateOf (installTask tramp m' cur u.addr u.stack entry pid) t.addr = stateOf m t.addr ∧
    stackBaseOf (installTask tramp m' cur u.addr u.stack entry pid) t.addr =
      stackBaseOf m t.addr ∧
    (t.addr ≠ cur →
      nextOf (installTask tramp m' cur u.addr u.stack entry pid) t.addr = nextOf m t.addr) := by
  obtain ⟨c, hc, rfl⟩ := h.current rfl
  have hcmem : c ∈ live ++ past := List.mem_append_left _ hc
  by_cases hne : t.addr = c.addr
  · obtain ⟨hcs, hcb⟩ :=
      installTask_current (m := m') tramp entry pid hstack (hu c hcmem).2 (hu c hcmem).1
    rw [hne]
    exact ⟨hcs.trans (hm c hcmem).state, hcb.trans (hm c hcmem).stackBase, absurd rfl⟩
  · have hsame : SameFields m (installTask tramp m' c.addr u.addr u.stack entry pid) t.addr :=
      (hm t ht).trans (.installTask tramp entry pid hstack (hu t ht).2 (hu t ht).1
        (hsp c hcmem t ht (Ne.symm hne)))
    exact ⟨hsame.state, hsame.stackBase, fun _ => hsame.next⟩

/-- A new task whose blocks miss every linked descriptor. -/
theorem create (tramp entry pid : ℕ) (h : Graph m cur live [] past rest)
    (hm : ∀ t ∈ live ++ past, SameFields m m' t.addr)
    (hu : ∀ t ∈ live ++ past, (descriptor u.addr).Apart (descriptor t.addr) ∧
      (stackSpan u.stack).Apart (descriptor t.addr))
    (haddr : u.addr < 2 ^ 32) (hstack : u.stack + taskStackSize ≤ 2 ^ 32)
    (hsp : Spread (live ++ past)) :
    Graph (installTask tramp m' cur u.addr u.stack entry pid) cur (u :: live) [] past
      (u.addr :: rest) ∧
    stackBaseOf (installTask tramp m' cur u.addr u.stack entry pid) u.addr = u.stack ∧
    ∀ t ∈ live ++ past,
      stackBaseOf (installTask tramp m' cur u.addr u.stack entry pid) t.addr =
        stackBaseOf m t.addr := by
  have hstate := fun t (ht : t ∈ live ++ past) => h.installed tramp entry pid hm hu hstack hsp ht
  obtain ⟨c, hc, rfl⟩ := h.current rfl
  have hcmem : c ∈ live ++ past := List.mem_append_left _ hc
  obtain ⟨htc, hsc⟩ := hu c hcmem
  obtain ⟨hready, hbase, hnext⟩ := installTask_new (m := m') tramp entry pid hstack hsc htc
  have hne_new : ∀ t ∈ live ++ past, u.addr ≠ t.addr := by
    intro t ht he
    have hself := (hu t ht).1
    rw [he] at hself
    exact hself.not_self (show 0 < taskSize from by decide)
  have hnot : u.addr ∉ c.addr :: rest := by
    intro hmem
    obtain ⟨t, ht, he⟩ := (h.nodes _).mp hmem
    exact hne_new t ht he.symm
  refine ⟨⟨h.ring.insert hnot (hnext.trans (hm c hcmem).next) (nextOf_installTask haddr) ?_
    (List.nodup_cons.mp h.nodup).1, ?_, ?_, ?_, ?_, ?_, ?_, by simp⟩, hbase,
    fun t ht => (hstate t ht).2.1⟩
  · intro y hy hyc
    obtain ⟨t, ht, rfl⟩ := (h.nodes y).mp (List.mem_cons_of_mem _ hy)
    exact (hstate t ht).2.2 hyc
  · have hperm : (c.addr :: u.addr :: rest).Perm (u.addr :: c.addr :: rest) := List.Perm.swap _ _ _
    exact hperm.nodup_iff.mpr (List.nodup_cons.mpr ⟨hnot, h.nodup⟩)
  · intro a
    rw [List.mem_cons, List.mem_cons, ← or_assoc, or_comm (a := a = c.addr), or_assoc,
      ← List.mem_cons, h.nodes a]
    simp only [List.nil_append, List.cons_append, List.mem_cons, exists_eq_or_imp]
    exact or_congr_left eq_comm
  · rw [List.cons_append, List.map_cons]
    refine List.nodup_cons.mpr ⟨fun hmem => ?_, h.distinct⟩
    obtain ⟨t, ht, he⟩ := List.mem_map.mp hmem
    exact hne_new t ht he.symm
  · intro t ht
    rcases List.mem_cons.mp ht with rfl | ht
    · rw [hready, if_neg (hne_new c hcmem)]
    · rw [(hstate t (List.mem_append_left _ ht)).1, h.alive t ht]
  · intro t ht
    have ht' : t ∈ past := ht
    rw [(hstate t (List.mem_append_right _ ht')).1, h.dead t ht]
  · exact fun _ => ⟨c, List.mem_cons_of_mem _ hc, rfl⟩

/-- With one other task on the ring, it is the successor of the current one. -/
theorem next_pair {b : Task} (h : Graph m b.addr [b] [] [t] rest) : nextOf m b.addr = t.addr := by
  have hne : t.addr ≠ b.addr := (h.live_ne_dead (t := b) (by simp) (by simp)).symm
  have ht : t.addr ∈ rest := by
    have hmem := (h.nodes t.addr).mpr ⟨t, by simp, rfl⟩
    exact (List.mem_cons.mp hmem).resolve_left hne
  cases rest with
  | nil => cases ht
  | cons a as =>
    obtain ⟨y, hy, rfl⟩ := (h.nodes a).mp (by simp)
    rw [h.ring.1]
    simp only [List.nil_append, List.cons_append, List.mem_cons, List.not_mem_nil, or_false] at hy
    rcases hy with rfl | rfl
    · exact absurd List.mem_cons_self (List.nodup_cons.mp h.nodup).1
    · rfl

end Graph
end ShadOS.Tasking

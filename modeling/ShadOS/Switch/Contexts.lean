import ShadOS.Switch.Frames

/-! # Context switches preserve contexts

Each suspended task has a frame of its own, where its context waits. The current
task does not reach it, and a switch only adds the frame of the task it leaves.
-/

namespace ShadOS.Switch
open Machine Tasking

/-- The task waits in context `c` on its stack. -/
structure Waits (m : Mem) (u : Thread) (c : Context) : Prop where
  above : u.stack.addr ≤ espOf m u.addr
  below : espOf m u.addr + 20 ≤ u.stack.addr + u.stack.size
  frame : frameAt m (espOf m u.addr) = c

/-- The stacks are apart, and the descriptors are apart and outside them. -/
structure Layout (threads : List Thread) : Prop where
  bounds : ∀ u ∈ threads, u.addr + taskSize ≤ 2 ^ 32 ∧ u.stack.addr + u.stack.size ≤ 2 ^ 32
  outside : ∀ u ∈ threads, ∀ v ∈ threads, (descriptor u.addr).Apart v.stack
  apart : ∀ u ∈ threads, ∀ v ∈ threads, u ≠ v →
    (descriptor u.addr).Apart (descriptor v.addr) ∧ u.stack.Apart v.stack

/-- Every task but the current one waits where it was suspended. -/
structure Suspended (tramp : ℕ) (s : State) : Prop where
  wf : s.cpu.Wf
  layout : Layout s.threads
  current : ∃ u ∈ s.threads, u.addr = s.current
  waits : ∀ u ∈ s.threads, u.addr ≠ s.current →
    Waits s.cpu.mem u ((s.suspension u.addr).context tramp)

variable {m m' : Mem} {u v : Thread} {c : Context} {threads : List Thread} {tramp : ℕ} {s : State}

theorem espOf_congr {t : ℕ} (h : ∀ x, t ≤ x → x < t + 4 → m' x = m x) : espOf m' t = espOf m t :=
  readWord_congr h

/-- The stack of the task and its saved stack pointer. -/
def Thread.Owns (u : Thread) (x : ℕ) : Prop := u.stack.Has x ∨ (u.addr ≤ x ∧ x < u.addr + 4)

theorem Thread.Owns.has {x : ℕ} (hx : u.Owns x) : u.stack.Has x ∨ (descriptor u.addr).Has x := by
  apply hx.imp_right
  intro hd
  rw [descriptor_has]
  omega

theorem Waits.congr (h : Waits m u c) (hm : ∀ x, u.Owns x → m' x = m x) : Waits m' u c := by
  have hesp := espOf_congr (fun x hx hx' => hm x (.inr ⟨hx, hx'⟩))
  have habove := h.above
  have hbelow := h.below
  refine ⟨hesp ▸ habove, hesp ▸ hbelow, ?_⟩
  rw [hesp, ← h.frame]
  apply frameAt_congr
  intro x hx hx'
  apply hm
  left
  unfold Span.Has
  omega

namespace Layout

theorem eq_of_addr (h : Layout threads) (hu : u ∈ threads) (hv : v ∈ threads)
    (he : u.addr = v.addr) : u = v := by
  by_contra hne
  have hself := (h.apart u hu v hv hne).1
  rw [he] at hself
  exact hself.not_self (show 0 < taskSize by decide)

/-- What a task waits on is neither on the stack nor in the descriptor of another task. -/
theorem not_owned {x : ℕ} (h : Layout threads) (hu : u ∈ threads) (hv : v ∈ threads)
    (hne : u.addr ≠ v.addr) (hx : u.Owns x) : ¬ v.stack.Has x ∧ ¬ (descriptor v.addr).Has x := by
  obtain ⟨hdesc, hstack⟩ := h.apart u hu v hv (fun he => hne (congrArg Thread.addr he))
  obtain hx | hx := hx.has
  · exact ⟨hstack.not_has hx, (h.outside v hv u hu).symm.not_has hx⟩
  · exact ⟨(h.outside u hu v hv).not_has hx, hdesc.not_has hx⟩

theorem mono {threads' : List Thread} (h : Layout threads) (hs : ∀ u ∈ threads', u ∈ threads) :
    Layout threads' where
  bounds u hu := h.bounds u (hs u hu)
  outside u hu v hv := h.outside u (hs u hu) v (hs v hv)
  apart u hu v hv := h.apart u (hs u hu) v (hs v hv)

theorem cons {t stack : ℕ} (h : Layout threads) (ht : t + taskSize ≤ 2 ^ 32)
    (hst : stack + taskStackSize ≤ 2 ^ 32) (hts : (descriptor t).Apart (stackSpan stack))
    (hnew : ∀ u ∈ threads, (descriptor t).Apart (descriptor u.addr) ∧ (descriptor t).Apart u.stack ∧
      (stackSpan stack).Apart (descriptor u.addr) ∧ (stackSpan stack).Apart u.stack) :
    Layout (⟨t, stackSpan stack⟩ :: threads) where
  bounds := List.forall_mem_cons.mpr ⟨⟨ht, hst⟩, h.bounds⟩
  outside := by
    refine List.forall_mem_cons.mpr ⟨List.forall_mem_cons.mpr ⟨hts, fun v hv => (hnew v hv).2.1⟩, ?_⟩
    exact fun u hu => List.forall_mem_cons.mpr ⟨(hnew u hu).2.2.1.symm, h.outside u hu⟩
  apart := by
    refine List.forall_mem_cons.mpr ⟨List.forall_mem_cons.mpr ⟨fun hne => absurd rfl hne, ?_⟩, ?_⟩
    · exact fun v hv _ => ⟨(hnew v hv).1, (hnew v hv).2.2.2⟩
    · refine fun u hu => List.forall_mem_cons.mpr ⟨fun _ => ?_, h.apart u hu⟩
      exact ⟨(hnew u hu).1.symm, (hnew u hu).2.2.2.symm⟩

end Layout

/-- A task made by `task_create` waits on its first frame. -/
theorem waits_installTask {cur t stack entry pid : ℕ}
    (hst : stack + taskStackSize ≤ 2 ^ 32) (hts : (descriptor t).Apart (stackSpan stack))
    (hct : (descriptor cur).Apart (descriptor t)) (hcs : (descriptor cur).Apart (stackSpan stack)) :
    Waits (installTask tramp m cur t stack entry pid) ⟨t, stackSpan stack⟩
      ((Suspension.created stack).context tramp) := by
  have hsp : initialSp stack + 20 = stack + taskStackSize := by
    rw [initialSp_eq hst]
    unfold taskStackSize
    omega
  have hesp : espOf (installTask tramp m cur t stack entry pid) t = initialSp stack := by
    change cur + 24 ≤ t ∨ t + 24 ≤ cur at hct
    refine (readWord_writeWord_of_disjoint (by omega)).trans ?_
    refine (readWord_writeWord_of_disjoint (by omega)).trans ?_
    refine (espOf_fillTask (m := _) (t := _) (s := .ready)).trans ?_
    exact u32_of_lt (by omega)
  refine ⟨?_, ?_, ?_⟩
  · rw [hesp]
    change stack ≤ initialSp stack
    unfold taskStackSize at hsp
    omega
  · rw [hesp, hsp]
    rfl
  · rw [hesp, Suspension.context, ← hsp, ← frameAt_initialFrame (m := m)]
    apply frameAt_congr
    intro x hx hx'
    have hin : (stackSpan stack).Has x := by
      rw [stackSpan_has]
      unfold taskStackSize at hsp
      omega
    rw [installTask, insertTask_outside (hts.symm.not_has hin) (hcs.symm.not_has hin),
      fillTask_outside (hts.symm.not_has hin)]

namespace Suspended

theorem compute {regs : Reg → ℕ} {mem : Mem} (h : Suspended tramp s)
    (ha : s.allowed (.compute regs mem)) : Suspended tramp (s.step tramp (.compute regs mem)) where
  wf _ := u32_lt _
  layout := h.layout
  current := h.current
  waits u hu hne := (h.waits u hu hne).congr (ha u hu hne)

theorem release {t : ℕ} (h : Suspended tramp s) (ha : t ≠ s.current) :
    Suspended tramp (s.step tramp (.release t)) where
  wf := h.wf
  layout := h.layout.mono (fun u hu => (List.mem_filter.mp hu).1)
  current := by
    obtain ⟨u, hu, hcur⟩ := h.current
    refine ⟨u, List.mem_filter.mpr ⟨hu, ?_⟩, hcur⟩
    simpa [hcur] using ha.symm
  waits u hu hne := h.waits u (List.mem_filter.mp hu).1 hne

theorem new_ne_current {t stack entry pid : ℕ} (h : Suspended tramp s)
    (ha : s.allowed (.create t stack entry pid)) : t ≠ s.current := by
  obtain ⟨u, hu, hcur⟩ := h.current
  rintro rfl
  have hself := (ha.2.2.2 u hu).1
  rw [hcur] at hself
  exact hself.not_self (show 0 < taskSize by decide)

theorem create {t stack entry pid : ℕ} (h : Suspended tramp s)
    (ha : s.allowed (.create t stack entry pid)) :
    Suspended tramp (s.step tramp (.create t stack entry pid)) := by
  obtain ⟨ht, hst, hts, hnew⟩ := ha
  obtain ⟨w, hw, hcur⟩ := h.current
  refine ⟨h.wf, h.layout.cons ht hst hts hnew, ⟨w, List.mem_cons_of_mem _ hw, hcur⟩, ?_⟩
  refine List.forall_mem_cons.mpr ⟨fun _ => ?_, fun u hu hne => ?_⟩
  · change Waits (installTask tramp s.cpu.mem s.current t stack entry pid) ⟨t, stackSpan stack⟩
      ((Function.update s.suspension t (.created stack) t).context tramp)
    rw [Function.update_self]
    apply waits_installTask hst hts
    · exact hcur ▸ (hnew w hw).1.symm
    · exact hcur ▸ (hnew w hw).2.2.1.symm
  · change Waits (installTask tramp s.cpu.mem s.current t stack entry pid) u
      ((Function.update s.suspension t (.created stack) u.addr).context tramp)
    obtain ⟨htu, htus, hsu, hss⟩ := hnew u hu
    have hut : u.addr ≠ t := by
      rintro rfl
      exact htu.not_self (show 0 < taskSize by decide)
    rw [Function.update_of_ne hut]
    apply (h.waits u hu hne).congr
    intro x hx
    have hcx : ¬ (descriptor s.current).Has x :=
      hcur ▸ (h.layout.not_owned hu hw (hcur ▸ hne) hx).2
    obtain hx | hx := hx.has
    · exact installTask_outside hst (hss.symm.not_has hx) (htus.symm.not_has hx) hcx
    · exact installTask_outside hst (hsu.symm.not_has hx) (htu.symm.not_has hx) hcx

/-- Behind a switch the task goes on in the context in which it was suspended. -/
theorem switch {next ra : ℕ} (h : Suspended tramp s) (ha : s.allowed (.switch next ra)) :
    Suspended tramp (s.step tramp (.switch next ra)) ∧
      contextOf (s.step tramp (.switch next ra)).cpu = (s.suspension next).context tramp := by
  obtain ⟨hne, ⟨n, hn, rfl⟩, p, hp, hcur, hroom, htop⟩ := ha
  obtain ⟨e, he⟩ : ∃ e, s.cpu.regs .esp = e + 28 := ⟨s.cpu.regs .esp - 28, by omega⟩
  have hpb := h.layout.bounds p hp
  have hpo : p.addr + 24 ≤ p.stack.addr ∨ p.stack.addr + p.stack.size ≤ p.addr :=
    h.layout.outside p hp p hp
  have hw := h.waits n hn hne
  have hprev : s.current + 24 ≤ 2 ^ 32 := hcur ▸ hpb.1
  rw [hcur] at hpo
  obtain ⟨hesp, hframe, hkeep, hctx⟩ := callSwitch_spec n.addr ra h.wf he
    (show s.current < 2 ^ 32 by omega) (by omega) (hw.below.trans (h.layout.bounds n hn).2)
  -- the frame lies on the caller's stack, and only its saved stack pointer changes besides
  have hmem : ∀ u ∈ s.threads, u.addr ≠ s.current → ∀ x, u.Owns x →
      (callSwitch s.cpu s.current n.addr ra).mem x = s.cpu.mem x := by
    intro u hu hus x hx
    obtain ⟨hstack, hdesc⟩ := h.layout.not_owned hu hp (hcur ▸ hus) hx
    rw [hcur, descriptor_has] at hdesc
    unfold Span.Has at hstack
    apply hkeep <;> omega
  refine ⟨⟨?_, h.layout, ⟨n, hn, rfl⟩, ?_⟩, ?_⟩
  · exact Cpu.Wf.run (entered_wf h.wf) _
  · intro u hu hun
    change Waits (callSwitch s.cpu s.current n.addr ra).mem u
      ((Function.update s.suspension s.current _ u.addr).context tramp)
    by_cases hus : u.addr = s.current
    · rw [hus, Function.update_self]
      obtain rfl := h.layout.eq_of_addr hu hp (hus.trans hcur.symm)
      rw [← hus] at hesp hframe ⊢
      refine ⟨?_, ?_, ?_⟩
      · rw [hesp]
        omega
      · rw [hesp]
        omega
      · rw [hesp]
        exact hframe
    · rw [Function.update_of_ne hus]
      exact (h.waits u hu hus).congr (hmem u hu hus)
  · refine hctx.trans ?_
    have hn' := hw.congr (hmem n hn hne)
    have hesp' := espOf_congr (fun x hx hx' => hmem n hn hne x (.inr ⟨hx, hx'⟩))
    rw [← hesp']
    exact hn'.frame

theorem start (hs : (machine tramp).init s) : Suspended tramp s := by
  obtain ⟨hwf, stack, hth, hout, hb, hsb⟩ := hs
  have hmem : ∀ u, u ∈ s.threads ↔ u = ⟨s.current, stack⟩ := by
    intro u
    rw [hth, List.mem_singleton]
  refine ⟨hwf, ⟨?_, ?_, ?_⟩, ⟨_, (hmem _).mpr rfl, rfl⟩, ?_⟩
  · intro u hu
    rw [(hmem u).mp hu]
    exact ⟨hb, hsb⟩
  · intro u hu v hv
    rw [(hmem u).mp hu, (hmem v).mp hv]
    exact hout
  · intro u hu v hv hne
    exact absurd (((hmem u).mp hu).trans ((hmem v).mp hv).symm) hne
  · intro u hu hne
    rw [(hmem u).mp hu] at hne
    exact absurd rfl hne

theorem step {e : Event} (h : Suspended tramp s) (ha : s.allowed e) :
    Suspended tramp (s.step tramp e) := by
  cases e with
  | compute regs mem => exact h.compute ha
  | create t stack entry pid => exact h.create ha
  | release t => exact h.release ha
  | switch next ra => exact (h.switch ha).1

end Suspended

theorem suspended_of_reaches (hs : (machine tramp).Reaches s) : Suspended tramp s := by
  apply hs.invariant
  · exact fun s hs => Suspended.start hs
  · intro s e s' h ha hstep
    obtain rfl := Option.some.inj hstep
    exact h.step ha

/-- The event neither resumes the task nor gives its memory back. -/
def Event.Spares (t : ℕ) : Event → Prop
  | .switch next _ => next ≠ t
  | .release u => u ≠ t
  | _ => True

theorem State.step_spares (tramp : ℕ) {t : ℕ} {e : Event} (ha : s.allowed e)
    (ht : ∃ u ∈ s.threads, u.addr = t) (hne : t ≠ s.current) (he : e.Spares t) :
    (∃ u ∈ (s.step tramp e).threads, u.addr = t) ∧ t ≠ (s.step tramp e).current ∧
      (s.step tramp e).suspension t = s.suspension t := by
  obtain ⟨u, hu, rfl⟩ := ht
  cases e with
  | compute regs mem => exact ⟨⟨u, hu, rfl⟩, hne, rfl⟩
  | create t stack entry pid =>
    have hut : u.addr ≠ t := by
      rintro rfl
      exact (ha.2.2.2 u hu).1.not_self (show 0 < taskSize by decide)
    exact ⟨⟨u, List.mem_cons_of_mem _ hu, rfl⟩, hne, Function.update_of_ne hut _ _⟩
  | release t => exact ⟨⟨u, List.mem_filter.mpr ⟨hu, by simpa using Ne.symm he⟩, rfl⟩, hne, rfl⟩
  | switch next ra => exact ⟨⟨u, hu, rfl⟩, Ne.symm he, Function.update_of_ne hne _ _⟩

namespace Suspended

/-- Until a task is resumed, its suspension stays the last one. -/
theorem exec_spares {t : ℕ} {es : List Event} {s' : State} (h : Suspended tramp s)
    (he : (machine tramp).Executes s es) (hs' : (machine tramp).exec s es = some s')
    (ht : ∃ u ∈ s.threads, u.addr = t) (hne : t ≠ s.current) (hes : ∀ e ∈ es, e.Spares t) :
    Suspended tramp s' ∧ s'.suspension t = s.suspension t := by
  have hrun : Suspended tramp s' ∧ (∃ u ∈ s'.threads, u.addr = t) ∧ t ≠ s'.current ∧
      s'.suspension t = s.suspension t := by
    apply he.invariant (P := fun s' => Suspended tramp s' ∧ (∃ u ∈ s'.threads, u.addr = t) ∧
      t ≠ s'.current ∧ s'.suspension t = s.suspension t) hs' hes ⟨h, ht, hne, rfl⟩
    rintro s₁ e s₂ ⟨h₁, ht₁, hne₁, hsus₁⟩ he₁ ha₁ hstep
    obtain rfl := Option.some.inj hstep
    obtain ⟨ht₂, hne₂, hsus₂⟩ := s₁.step_spares tramp ha₁ ht₁ hne₁ he₁
    exact ⟨h₁.step ha₁, ht₂, hne₂, hsus₂.trans hsus₁⟩
  exact ⟨hrun.1, hrun.2.2.2⟩

end Suspended

/-- A task that calls `switch_to` and is resumed after any run of the other tasks goes on
at its return address, with the registers of its call; a task resumed for the first
time since `task_create` made it enters `task_trampoline` at the top of its stack. -/
theorem switch_preserves_contexts (hs : (machine tramp).Reaches s) :
    (∀ next ra es s' ra', s.allowed (.switch next ra) →
      (machine tramp).Executes (s.step tramp (.switch next ra)) es →
      (machine tramp).exec (s.step tramp (.switch next ra)) es = some s' →
      (∀ e ∈ es, e.Spares s.current) → s'.allowed (.switch s.current ra') →
      contextOf (s'.step tramp (.switch s.current ra')).cpu =
        { contextOf (pushArgs s.cpu s.current next) with eip := u32 ra }) ∧
    ∀ t stack entry pid es s' ra', s.allowed (.create t stack entry pid) →
      (machine tramp).Executes (s.step tramp (.create t stack entry pid)) es →
      (machine tramp).exec (s.step tramp (.create t stack entry pid)) es = some s' →
      (∀ e ∈ es, e.Spares t) → s'.allowed (.switch t ra') →
      contextOf (s'.step tramp (.switch t ra')).cpu =
        ⟨u32 tramp, 0, 0, 0, 0, u32 (stack + taskStackSize)⟩ := by
  have h := suspended_of_reaches hs
  constructor
  · intro next ra es s' ra' ha he hs' hes ha'
    obtain ⟨h', hsus⟩ := (h.switch ha).1.exec_spares he hs' h.current ha.1.symm hes
    have hself : (s.step tramp (.switch next ra)).suspension s.current =
        .called { contextOf (pushArgs s.cpu s.current next) with eip := u32 ra } :=
      Function.update_self _ _ _
    rw [(h'.switch ha').2, hsus, hself]
    rfl
  · intro t stack entry pid es s' ra' ha he hs' hes ha'
    obtain ⟨h', hsus⟩ := (h.create ha).exec_spares he hs'
      ⟨⟨t, stackSpan stack⟩, List.mem_cons_self, rfl⟩ (h.new_ne_current ha) hes
    have hself : (s.step tramp (.create t stack entry pid)).suspension t = .created stack :=
      Function.update_self _ _ _
    rw [(h'.switch ha').2, hsus, hself]
    rfl

/-- Task 0 alone, on a kernel stack of 64 KiB. -/
def bootState : State where
  cpu := ⟨fun r => if r = .esp then 0x90000 else 7, 0, fun _ => 0⟩
  current := 0x10000c
  threads := [⟨0x10000c, ⟨0x80000, 0x10000⟩⟩]
  suspension := fun _ => .created 0

/-- Task 0 creates a task, switches to it, and is switched to. -/
theorem switch_preserves_contexts_boot :
    contextOf ((bootState.step 0x100500 (.create 0x100030 0x100054 0 1)).step 0x100500
        (.switch 0x100030 0x100900)).cpu = ⟨0x100500, 0, 0, 0, 0, 0x102054⟩ ∧
      contextOf (((bootState.step 0x100500 (.create 0x100030 0x100054 0 1)).step 0x100500
        (.switch 0x100030 0x100900)).step 0x100500 (.switch 0x10000c 0x100a00)).cpu =
        ⟨0x100900, 7, 7, 7, 7, 0x8fff8⟩ := by
  have hinit : (machine 0x100500).Reaches bootState := by
    refine .start ⟨fun r => ?_, ⟨0x80000, 0x10000⟩, rfl, .inr (by decide), by decide, by decide⟩
    cases r <;> decide
  have hcreate : bootState.allowed (.create 0x100030 0x100054 0 1) := by
    refine ⟨by decide, by decide, .inl (by decide), ?_⟩
    intro u hu
    obtain rfl := List.mem_singleton.mp hu
    exact ⟨.inr (by decide), .inr (by decide), .inr (by decide), .inr (by decide)⟩
  have hswitch : (bootState.step 0x100500 (.create 0x100030 0x100054 0 1)).allowed
      (.switch 0x100030 0x100900) := by
    refine ⟨by decide, ⟨_, List.mem_cons_self, rfl⟩, ⟨0x10000c, ⟨0x80000, 0x10000⟩⟩, ?_, rfl, ?_, ?_⟩
    · exact List.mem_cons_of_mem _ List.mem_cons_self
    · exact (by decide : 0x80000 + 28 ≤ 0x90000)
    · exact (by decide : 0x90000 ≤ 0x80000 + 0x10000)
  have hfirst := (switch_preserves_contexts hinit).2 0x100030 0x100054 0 1 [] _ 0x100900 hcreate
    trivial rfl (by simp) hswitch
  have hesp : ((bootState.step 0x100500 (.create 0x100030 0x100054 0 1)).step 0x100500
      (.switch 0x100030 0x100900)).cpu.regs .esp = 0x102054 := congrArg Context.esp hfirst
  have hback : ((bootState.step 0x100500 (.create 0x100030 0x100054 0 1)).step 0x100500
      (.switch 0x100030 0x100900)).allowed (.switch 0x10000c 0x100a00) := by
    refine ⟨by decide, ⟨⟨0x10000c, ⟨0x80000, 0x10000⟩⟩, ?_, rfl⟩, ⟨0x100030, stackSpan 0x100054⟩,
      List.mem_cons_self, rfl, ?_, ?_⟩
    · exact List.mem_cons_of_mem _ List.mem_cons_self
    · rw [hesp]
      decide
    · rw [hesp]
      decide
  have hcreated : (machine 0x100500).Reaches
      (bootState.step 0x100500 (.create 0x100030 0x100054 0 1)) := by
    apply hinit.step (e := .create 0x100030 0x100054 0 1)
    · exact hcreate
    · rfl
  have hthen := (switch_preserves_contexts hcreated).1 0x100030 0x100900 [] _ 0x100a00 hswitch trivial
    rfl (by simp) hback
  refine ⟨hfirst, hthen.trans ?_⟩
  rfl

end ShadOS.Switch

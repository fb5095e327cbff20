import ShadOS.Preempt.Source

/-! # An interrupted task goes on as if nothing had happened

The frame of an interrupt stays on the stack of its task. The task itself runs
below it until the handler returns, and no other task reaches it, so the stub
finds every register again, however many switches lie between.
-/

namespace ShadOS.Preempt
open Machine Tasking
open Usermode (Seg)
open Switch (Thread Suspended)

variable {tramp r line entry afterCall : ℕ} {s s' : State} {e : Event} {v : Thread}

/-- The bytes of the frame from `r` on. -/
def FrameKept (r : ℕ) (m m' : Mem) : Prop := ∀ x, r ≤ x → x < r + 56 → m' x = m x

/-- A stack with the frame on it. -/
def Holds (v : Thread) (r : ℕ) : Prop :=
  v.stack.addr ≤ r ∧ r + 56 ≤ v.stack.addr + v.stack.size

theorem Holds.owns (h : Holds v r) {x : ℕ} (hx : r ≤ x) (hx' : x < r + 56) : v.Owns x := by
  obtain ⟨hlo, hhi⟩ := h
  exact .inl ⟨by omega, by omega⟩

theorem Holds.has (h : Holds v r) {x : ℕ} (hx : r ≤ x) (hx' : x < r + 56) : v.stack.Has x := by
  obtain ⟨hlo, hhi⟩ := h
  exact ⟨by omega, by omega⟩

theorem stackTop_inner {u : Usermode.State} (h : ¬ Stubs.Outer u) :
    Stubs.stackTop u = u.cpu.regs .esp := if_neg h

theorem frameSize_inner {u : Usermode.State} (h : ¬ Stubs.Outer u) : Stubs.frameSize u = 56 := if_neg h

/-- Where the frame of an allowed interrupt lies. -/
theorem interrupt_stack (h : Suspended tramp s.core) (ha : s.allowed (.interrupt line entry afterCall)) :
    ∃ e, Stubs.stackTop s.processor = e + 8 + Stubs.frameSize s.processor ∧
      s.core.cpu.regs .esp = e + 64 ∧ e + 64 < 2 ^ 32 ∧
      ∃ v ∈ s.core.threads, v.addr = s.core.current ∧ v.stack.addr ≤ e ∧
        e + 64 ≤ v.stack.addr + v.stack.size := by
  obtain ⟨-, -, hinner, v, hv, hcur, hroom, htop⟩ := ha
  have hlt := h.wf .esp
  refine ⟨s.core.cpu.regs .esp - 64, ?_, by omega, by omega, v, hv, hcur, by omega, by omega⟩
  rw [stackTop_inner hinner, frameSize_inner hinner]
  change s.core.cpu.regs .esp = _
  omega

theorem stub_line (hline : line < 16) : ∃ code, Stubs.stub (32 + line) = some code := by
  have hno : 32 + line ∉ Stubs.errcodeVectors := by
    simp only [Stubs.errcodeVectors, List.mem_cons, List.not_mem_nil, or_false]
    omega
  exact ⟨Stubs.irq (32 + line), by
    rw [Stubs.stub, if_neg hno, if_neg (by omega), if_pos (by omega)]⟩

/-- The step of an allowed interrupt. -/
theorem interrupt_step (tramp : ℕ) (ha : s.allowed (.interrupt line entry afterCall)) :
    ∃ h, Stubs.atHandler s.processor (32 + line) 0 entry afterCall = some h ∧
      s.step tramp (.interrupt line entry afterCall) = some (s.withProcessor h) := by
  obtain ⟨code, hcode⟩ := stub_line ha.1
  have hh : ∃ h, Stubs.atHandler s.processor (32 + line) 0 entry afterCall = some h :=
    ⟨_, by rw [Stubs.atHandler, hcode]; rfl⟩
  obtain ⟨h, hh⟩ := hh
  exact ⟨h, hh, by rw [State.step, hh]; rfl⟩

/-! ## Steps -/

/-- Memory changes of the current task keep what the others wait on. -/
theorem suspended_withProcessor (h : Suspended tramp s.core) {u : Usermode.State} (hu : u.cpu.Wf)
    (hm : ∀ v ∈ s.core.threads, v.addr ≠ s.core.current →
      ∀ x, v.Owns x → u.cpu.mem x = s.core.cpu.mem x) :
    Suspended tramp (s.withProcessor u).core :=
  ⟨hu, h.layout, h.current, fun v hv hne => (h.waits v hv hne).congr (hm v hv hne)⟩

theorem resume_eq (ha : s.allowed .resume) :
    Stubs.leave s.processor = Stubs.restored s.processor (s.core.cpu.regs .esp + 4) :=
  Stubs.leave_eq rfl (by have : s.core.cpu.regs .esp + 60 ≤ 2 ^ 32 := ha; omega)

theorem interrupt_outside (h : Suspended tramp s.core)
    (ha : s.allowed (.interrupt line entry afterCall)) {u : Usermode.State}
    (hu : Stubs.atHandler s.processor (32 + line) 0 entry afterCall = some u) {x : ℕ}
    (hx : x + 64 < s.core.cpu.regs .esp ∨ s.core.cpu.regs .esp ≤ x) :
    u.cpu.mem x = s.core.cpu.mem x := by
  obtain ⟨e, he, hesp, hlt, -⟩ := interrupt_stack h ha
  have htop := stackTop_inner ha.2.2.1
  change Stubs.stackTop s.processor = s.core.cpu.regs .esp at htop
  apply Stubs.atHandler_outside hu he <;> omega

theorem suspended_step (h : Suspended tramp s.core) (ha : s.allowed e)
    (hs : s.step tramp e = some s') : Suspended tramp s'.core := by
  cases e with
  | run u =>
    obtain rfl := Option.some.inj hs
    exact suspended_withProcessor h ha.1 ha.2
  | interrupt line entry afterCall =>
    obtain ⟨u, hu, hstep⟩ := interrupt_step tramp ha
    obtain rfl := Option.some.inj (hstep.symm.trans hs)
    have htop := stackTop_inner ha.2.2.1
    obtain ⟨e, -, hesp, hlt, w, hw, hcur, hlo, hhi⟩ := interrupt_stack h ha
    apply suspended_withProcessor h
    · exact Stubs.atHandler_wf h.wf (htop ▸ h.wf .esp) hu
    · intro v hv hne x hx
      have hno := (h.layout.not_owned hv hw (hcur ▸ hne) hx).1
      apply interrupt_outside h ha hu
      unfold Span.Has at hno
      omega
  | resume =>
    obtain rfl := Option.some.inj hs
    rw [resume_eq ha]
    exact suspended_withProcessor h (Stubs.restored_wf _ _) (fun _ _ _ _ _ => rfl)
  | task e =>
    obtain rfl := Option.some.inj hs
    exact h.step ha

theorem suspended_of_reaches (hs : (preemption tramp).Reaches s) : Suspended tramp s.core := by
  apply hs.invariant
  · exact fun s hs => Suspended.start hs
  · exact fun s e s' h ha hstep => suspended_step h ha hstep

/-- A switch writes below the stack pointer of the task it leaves, and its saved stack pointer. -/
theorem switch_outside (h : Suspended tramp s.core) {next ra : ℕ}
    (ha : s.core.allowed (.switch next ra)) {x : ℕ}
    (hx : x + 28 < s.core.cpu.regs .esp ∨ s.core.cpu.regs .esp ≤ x)
    (hx' : ¬ (descriptor s.core.current).Has x) :
    (Switch.callSwitch s.core.cpu s.core.current next ra).mem x = s.core.cpu.mem x := by
  obtain ⟨hne, ⟨n, hn, rfl⟩, p, hp, hcur, hroom, htop⟩ := ha
  have hpb := h.layout.bounds p hp
  have hpo : p.addr + 24 ≤ p.stack.addr ∨ p.stack.addr + p.stack.size ≤ p.addr :=
    h.layout.outside p hp p hp
  have hw := h.waits n hn hne
  have hprev : s.core.current + 24 ≤ 2 ^ 32 := hcur ▸ hpb.1
  rw [hcur] at hpo
  rw [descriptor_has] at hx'
  obtain ⟨-, -, hkeep, -⟩ := Switch.callSwitch_spec n.addr ra h.wf
    (e := s.core.cpu.regs .esp - 28) (by omega) (show s.core.current < 2 ^ 32 by omega) (by omega)
    (hw.below.trans (h.layout.bounds n hn).2)
  apply hkeep <;> omega

/-- An event that spares the frame keeps its bytes and its stack. -/
theorem frame_step (h : Suspended tramp s.core) (ha : s.allowed e) (hs : s.step tramp e = some s')
    (hv : v ∈ s.core.threads) (hr : Holds v r) (he : Spares v.addr r s e) :
    v ∈ s'.core.threads ∧ FrameKept r s.core.cpu.mem s'.core.cpu.mem := by
  cases e with
  | run u =>
    obtain rfl := Option.some.inj hs
    refine ⟨hv, fun x hx hx' => ?_⟩
    by_cases hc : s.core.current = v.addr
    · exact he hc x hx hx'
    · exact ha.2 v hv (Ne.symm hc) x (hr.owns hx hx')
  | interrupt line entry afterCall =>
    obtain ⟨u, hu, hstep⟩ := interrupt_step tramp ha
    obtain rfl := Option.some.inj (hstep.symm.trans hs)
    obtain ⟨e, -, hesp, hlt, w, hw, hcur, hlo, hhi⟩ := interrupt_stack h ha
    refine ⟨hv, fun x hx hx' => interrupt_outside h ha hu ?_⟩
    by_cases hc : s.core.current = v.addr
    · exact .inr ((he hc).trans hx)
    · have hno := (h.layout.not_owned hv hw (hcur ▸ Ne.symm hc) (hr.owns hx hx')).1
      unfold Span.Has at hno
      omega
  | resume =>
    obtain rfl := Option.some.inj hs
    rw [resume_eq ha]
    exact ⟨hv, fun _ _ _ => rfl⟩
  | task e =>
    obtain rfl := Option.some.inj hs
    obtain ⟨w, hw, hcur⟩ := h.current
    cases e with
    | compute regs mem =>
      refine ⟨hv, fun x hx hx' => ?_⟩
      by_cases hc : s.core.current = v.addr
      · exact he hc x hx hx'
      · exact ha v hv (Ne.symm hc) x (hr.owns hx hx')
    | create t stack entry pid =>
      obtain ⟨ht, hst, hts, hnew⟩ := ha
      refine ⟨List.mem_cons_of_mem _ hv, fun x hx hx' => ?_⟩
      have hstack := hr.has hx hx'
      obtain ⟨-, htv, -, hsv⟩ := hnew v hv
      have hdesc := (h.layout.outside w hw v hv).symm.not_has hstack
      rw [hcur] at hdesc
      exact installTask_outside hst (hsv.symm.not_has hstack) (htv.symm.not_has hstack) hdesc
    | release t =>
      refine ⟨List.mem_filter.mpr ⟨hv, ?_⟩, fun _ _ _ => rfl⟩
      simpa using Ne.symm he
    | switch next ra =>
      refine ⟨hv, fun x hx hx' => switch_outside h ha ?_ ?_⟩
      · by_cases hc : s.core.current = v.addr
        · exact .inr ((he hc).trans hx)
        · obtain ⟨-, -, p, hp, hpc, hroom, htop⟩ := ha
          have hno := (h.layout.not_owned hv hp (hpc ▸ Ne.symm hc) (hr.owns hx hx')).1
          unfold Span.Has at hno
          omega
      · have hdesc := (h.layout.outside w hw v hv).symm.not_has (hr.has hx hx')
        rwa [hcur] at hdesc

/-! ## Runs -/

theorem frame_run {es : List Event} (h : Suspended tramp s.core)
    (he : (preemption tramp).Executes s es) (hexec : (preemption tramp).exec s es = some s')
    (hv : v ∈ s.core.threads) (hr : Holds v r)
    (hes : (preemption tramp).EachStep (Spares v.addr r) s es) :
    FrameKept r s.core.cpu.mem s'.core.cpu.mem := by
  have hrun : Suspended tramp s'.core ∧ v ∈ s'.core.threads ∧
      FrameKept r s.core.cpu.mem s'.core.cpu.mem := by
    apply he.invariant_of_eachStep (P := fun s' => Suspended tramp s'.core ∧ v ∈ s'.core.threads ∧
      FrameKept r s.core.cpu.mem s'.core.cpu.mem) hexec hes ⟨h, hv, fun _ _ _ => rfl⟩
    rintro s₁ e s₂ ⟨h₁, hv₁, hk₁⟩ hC ha hstep
    obtain ⟨hv₂, hk₂⟩ := frame_step h₁ ha hstep hv₁ hr hC
    exact ⟨suspended_step h₁ ha hstep, hv₂,
      fun x hx hx' => (hk₂ x hx hx').trans (hk₁ x hx hx')⟩
  exact hrun.2.2

/-- `irq_handler`, called in `s₁`, returns in `s₂`: to the same task, with the return address
popped and the segments of the kernel. -/
structure HandlerReturns (s₁ s₂ : State) : Prop where
  current : s₂.core.current = s₁.core.current
  esp : s₂.core.cpu.regs .esp = s₁.core.cpu.regs .esp + 4
  cs : s₂.segs .cs = s₁.segs .cs
  ss : s₂.segs .ss = s₁.segs .ss

/-- The task goes on in `s'` where it was in `s`; its data segments are reloaded with `ds`. -/
structure GoesOn (s s' : State) : Prop where
  current : s'.core.current = s.core.current
  regs : s'.core.cpu.regs = s.core.cpu.regs
  eip : s'.core.cpu.eip = s.core.cpu.eip
  eflags : s'.eflags = s.eflags
  segs : s'.segs = Stubs.reload s.segs (s.segs .ds)

/-- A task interrupted anywhere, and resumed after any run of interrupts, switches, creations and
other tasks in which its own code spares the frame, goes on with every register and flag. -/
theorem preempted_goes_on (hs : (preemption tramp).Reaches s)
    (ha : s.allowed (.interrupt line entry afterCall)) {s₁ s₂ : State} {es : List Event}
    (hstep : s.step tramp (.interrupt line entry afterCall) = some s₁)
    (he : (preemption tramp).Executes s₁ es) (hexec : (preemption tramp).exec s₁ es = some s₂)
    (hes : (preemption tramp).EachStep
      (Spares s.core.current (s.core.cpu.regs .esp - 56)) s₁ es)
    (hback : HandlerReturns s₁ s₂) :
    ∃ s₃, s₂.step tramp .resume = some s₃ ∧ GoesOn s s₃ ∧
      s₃.core.cpu.mem = s₂.core.cpu.mem := by
  have h := suspended_of_reaches hs
  obtain ⟨u, hu, hstep'⟩ := interrupt_step tramp ha
  obtain rfl := Option.some.inj (hstep'.symm.trans hstep)
  obtain ⟨e, htop, hesp, hlt, v, hv, hcur, hlo, hhi⟩ := interrupt_stack h ha
  have h₁ : Suspended tramp (s.withProcessor u).core := suspended_step h ha hstep'
  obtain ⟨-, hsized, hinner, -⟩ := ha
  have hsp : Stubs.stackTop s.processor = e + 64 := (stackTop_inner hinner).trans hesp
  have hr : s.core.cpu.regs .esp - 56 = e + 8 := by omega
  have hkept : FrameKept (e + 8) u.cpu.mem s₂.core.cpu.mem := by
    apply frame_run h₁ he hexec hv ⟨by omega, by omega⟩
    rw [hcur, ← hr]
    exact hes
  have hret : Stubs.Returned s.processor u s₂.processor (e + 8) :=
    ⟨⟨hback.esp, hback.cs, hback.ss⟩, fun x hx hx' _ => hkept x hx (by omega)⟩
  have hleave := Stubs.handler_transparent hsized hu htop (by omega) (by decide) hret
  have heax := Stubs.eax_kept (t := s₂.processor) hsized hu htop (by omega) (by decide)
    (fun x hx hx' => hkept x (by omega) (by omega))
  refine ⟨_, rfl, ⟨hback.current, ?_, ?_, ?_, ?_⟩, ?_⟩
  all_goals rw [hleave, heax]
  · exact Function.update_eq_self _ _
  · rfl
  · rfl
  · rfl
  · rfl

/-- Task 0 alone, before a timer interrupt. -/
def bootState : State where
  core := Switch.bootState
  segs := fun g => if g = .cs then 0x08 else 0x10
  eflags := 0x202
  ss0 := 0x10
  esp0 := 0

/-- `irq_handler` of the timer interrupt starts. -/
def timerState : State := bootState.withProcessor
  (((Stubs.gate bootState.processor 32 0 0x100600).run (Stubs.irq 32)).run
    (Stubs.commonEntry 0x100620))

/-- `irq_handler` has created a task, has switched to it, and is back on the stack of task 0. -/
def backState : State :=
  { timerState with
    core := ((timerState.core.step 0x100500 (.create 0x100030 0x100054 0 1)).step 0x100500
      (.switch 0x100030 0x100900)).step 0x100500 (.switch 0x10000c 0x100a00) }

/-- It has returned to the stub. -/
def returnState : State :=
  backState.withProcessor { backState.processor with cpu := backState.core.cpu.set .esp 0x8ffc4 }

theorem preempted_goes_on_boot : ∃ s₃, returnState.step 0x100500 .resume = some s₃ ∧
    GoesOn bootState s₃ ∧ s₃.core.cpu.mem = returnState.core.cpu.mem := by
  have hinit : (preemption 0x100500).Reaches bootState := by
    refine .start ⟨fun r => ?_, ⟨0x80000, 0x10000⟩, rfl, .inr (by decide), by decide, by decide⟩
    cases r <;> decide
  have ha : bootState.allowed (.interrupt 0 0x100600 0x100620) := by
    refine ⟨by decide, ⟨fun r => ?_, by decide, by decide, fun g => ?_⟩, by decide, ?_⟩
    · cases r <;> decide
    · cases g <;> decide
    · exact ⟨⟨0x10000c, ⟨0x80000, 0x10000⟩⟩, List.mem_cons_self, rfl, by decide, by decide⟩
  have hstep : bootState.step 0x100500 (.interrupt 0 0x100600 0x100620) = some timerState := rfl
  have hsus := suspended_step (suspended_of_reaches hinit) ha hstep
  have hesp : timerState.core.cpu.regs .esp = 0x8ffc0 := by
    have hh : Stubs.atHandler bootState.processor 32 0 0x100600 0x100620 =
      some timerState.processor := rfl
    exact (Stubs.atHandler_words hh rfl (by decide)).2.1
  have hcreate : timerState.core.allowed (.create 0x100030 0x100054 0 1) := by
    refine ⟨by decide, by decide, .inl (by decide), ?_⟩
    intro u hu
    obtain rfl := List.mem_singleton.mp hu
    exact ⟨.inr (by decide), .inr (by decide), .inr (by decide), .inr (by decide)⟩
  have hsus' := hsus.create hcreate
  have hswitch : (timerState.core.step 0x100500 (.create 0x100030 0x100054 0 1)).allowed
      (.switch 0x100030 0x100900) := by
    refine ⟨by decide, ⟨_, List.mem_cons_self, rfl⟩, ⟨0x10000c, ⟨0x80000, 0x10000⟩⟩, ?_, rfl, ?_, ?_⟩
    · exact List.mem_cons_of_mem _ List.mem_cons_self
    · change 0x80000 + 28 ≤ timerState.core.cpu.regs .esp
      rw [hesp]
      decide
    · change timerState.core.cpu.regs .esp ≤ 0x80000 + 0x10000
      rw [hesp]
      decide
  obtain ⟨hsus₂, hctx₂⟩ := hsus'.switch hswitch
  have hesp₂ : ((timerState.core.step 0x100500 (.create 0x100030 0x100054 0 1)).step 0x100500
      (.switch 0x100030 0x100900)).cpu.regs .esp = 0x102054 := congrArg Switch.Context.esp hctx₂
  have hback : ((timerState.core.step 0x100500 (.create 0x100030 0x100054 0 1)).step 0x100500
      (.switch 0x100030 0x100900)).allowed (.switch 0x10000c 0x100a00) := by
    refine ⟨by decide, ⟨⟨0x10000c, ⟨0x80000, 0x10000⟩⟩, ?_, rfl⟩, ⟨0x100030, stackSpan 0x100054⟩,
      List.mem_cons_self, rfl, ?_, ?_⟩
    · exact List.mem_cons_of_mem _ List.mem_cons_self
    · rw [hesp₂]
      decide
    · rw [hesp₂]
      decide
  have hrun : backState.allowed (.run { backState.processor with
      cpu := backState.core.cpu.set .esp 0x8ffc4 }) :=
    ⟨(hsus₂.switch hback).1.wf.set (by decide), fun _ _ _ x _ => congrFun Cpu.set_mem x⟩
  have hexec : (preemption 0x100500).Executes timerState [.task (.create 0x100030 0x100054 0 1),
      .task (.switch 0x100030 0x100900), .task (.switch 0x10000c 0x100a00),
      .run { backState.processor with cpu := backState.core.cpu.set .esp 0x8ffc4 }] := by
    refine ⟨hcreate, _, rfl, ?_⟩
    refine ⟨hswitch, _, rfl, ?_⟩
    refine ⟨hback, _, rfl, ?_⟩
    exact ⟨hrun, _, rfl, trivial⟩
  apply preempted_goes_on hinit ha hstep hexec
  · rfl
  · refine ⟨trivial, ?_⟩
    rintro s ⟨⟩
    refine ⟨fun _ => ?_, ?_⟩
    · exact hesp.trans_le (by decide)
    · rintro s ⟨⟩
      refine ⟨fun hcur => absurd hcur (by decide), ?_⟩
      rintro s ⟨⟩
      exact ⟨fun _ x _ _ => congrFun Cpu.set_mem x, fun _ _ => trivial⟩
  · refine ⟨rfl, ?_, rfl, rfl⟩
    change 0x8ffc4 = timerState.core.cpu.regs .esp + 4
    rw [hesp]

end ShadOS.Preempt

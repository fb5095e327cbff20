import ShadOS.Stubs.Frame

/-! # Interrupts are transparent

Whatever ring and vector, the interrupted code goes on with what the C handler
left in the frame. A handler that leaves the frame alone resumes the code with
its registers, its flags and its stack; the dispatcher stores the result of a
system call there.
-/

namespace ShadOS.Stubs
open Machine
open Usermode (Seg State)

/-- The C handler, entered in `h`, has returned in `t`: its return address is popped, and the
segments are those of the kernel. -/
structure Popped (h t : State) : Prop where
  esp : t.cpu.regs .esp = h.cpu.regs .esp + 4
  cs : t.segs .cs = h.segs .cs
  ss : t.segs .ss = h.segs .ss

/-- It also left the frame from `r` on alone, but for `regs->eax`. -/
structure Returned (s h t : State) (r : ℕ) : Prop extends Popped h t where
  kept : ∀ x, r ≤ x → x < stackTop s → x < r + 32 ∨ r + 36 ≤ x → t.cpu.mem x = h.cpu.mem x

/-- The interrupted state going on, with `v` in `eax` and the memory of `t`. -/
def resumed (s t : State) (v : ℕ) : State :=
  { s with
    cpu := { s.cpu.set .eax v with mem := t.cpu.mem }
    segs := reload s.segs (s.segs .ds)
    ss0 := t.ss0
    esp0 := t.esp0 }

variable {s t h : State} {vector errCode entry afterCall e r : ℕ}

/-- Whatever a handler left in the frame, the stub restores. -/
theorem Popped.leave_eq (ht : Popped h t)
    (hh : atHandler s vector errCode entry afterCall = some h)
    (he : stackTop s = e + 8 + frameSize s) (hlt : stackTop s < 2 ^ 32) :
    leave t = restored t (e + 8) := by
  obtain ⟨-, hesp, -⟩ := atHandler_words hh he hlt
  have hsize : 56 ≤ frameSize s := by
    unfold frameSize
    split <;> decide
  exact Stubs.leave_eq (by rw [ht.esp, hesp]) (by omega)

/-- Words of the frame other than `regs->eax` are read back as they were saved. -/
theorem Returned.word (ht : Returned s h t r) {k : ℕ} (hk : r + k + 4 ≤ stackTop s)
    (hax : k + 4 ≤ 32 ∨ 36 ≤ k) : readWord t.cpu.mem (r + k) = readWord h.cpu.mem (r + k) := by
  apply readWord_congr
  intro x hx hx'
  apply ht.kept <;> omega

theorem Returned.registersAt (ht : Returned s h t r) (htop : r + 56 ≤ stackTop s) :
    registersAt t.cpu.mem r =
      { registersAt h.cpu.mem r with eax := readWord t.cpu.mem (r + 32) } := by
  have hw (k : ℕ) (hk : k + 4 ≤ 32 ∨ 36 ≤ k ∧ k + 4 ≤ 56) :
      readWord t.cpu.mem (r + k) = readWord h.cpu.mem (r + k) := by
    apply ht.word <;> omega
  ext
  · exact congrArg (· % 2 ^ 16) (hw 0 (by decide))
  · exact hw 4 (by decide)
  · exact hw 8 (by decide)
  · exact hw 12 (by decide)
  · exact hw 20 (by decide)
  · exact hw 24 (by decide)
  · exact hw 28 (by decide)
  · rfl
  · exact hw 36 (by decide)
  · exact hw 40 (by decide)
  · exact hw 44 (by decide)
  · exact hw 48 (by decide)
  · exact hw 52 (by decide)

/-- The stack pointer and the stack segment of an outer ring. -/
theorem Returned.outerWords (hs : Sized s) (ht : Returned s h t (e + 8))
    (hh : atHandler s vector errCode entry afterCall = some h)
    (he : stackTop s = e + 8 + frameSize s) (hlt : stackTop s < 2 ^ 32) (ho : Outer s) :
    readWord t.cpu.mem (e + 8 + 56) = s.cpu.regs .esp ∧
      readWord t.cpu.mem (e + 8 + 60) = s.segs .ss := by
  have hsize : frameSize s = 64 := if_pos ho
  have hlen : (frame s vector errCode (e + 8)).length = 16 := by simp [frame, ho]
  have hesp : (frame s vector errCode (e + 8))[14] = s.cpu.regs .esp := by simp [frame, ho]
  have hss : (frame s vector errCode (e + 8))[15] = s.segs .ss := by simp [frame, ho]
  constructor
  · rw [ht.word (by omega) (by omega)]
    have hword := atHandler_word hh he hlt (k := 14) (by omega)
    rw [hesp, u32_of_lt (hs.regs .esp)] at hword
    exact hword
  · rw [ht.word (by omega) (by omega)]
    have hword := atHandler_word hh he hlt (k := 15) (by omega)
    rw [hss, u32_of_lt ((hs.segs .ss).trans (by decide))] at hword
    exact hword

/-- From any ring and for any vector with a stub: when the handler returns, the interrupted code
goes on with every register and flag it had, only `eax` being what the handler left in
`regs->eax`, and the extra data segments being reloaded with `ds`. -/
theorem handler_transparent (hs : Sized s)
    (hh : atHandler s vector errCode entry afterCall = some h)
    (he : stackTop s = e + 8 + frameSize s) (hlt : stackTop s < 2 ^ 32) (herr : errCode < 2 ^ 32)
    (ht : Returned s h t (e + 8)) :
    leave t = resumed s t (readWord t.cpu.mem (e + 8 + 32)) := by
  obtain ⟨-, -, hcs, hss⟩ := atHandler_words hh he hlt
  have hsize : 56 ≤ frameSize s := by
    unfold frameSize
    split <;> decide
  have hregs := ht.registersAt (by omega)
  rw [registersAt_atHandler hs hh he hlt herr] at hregs
  have hring : (s.segs .cs &&& 3 = t.segs .cs &&& 3) ↔ ¬ Outer s := by
    rw [ht.cs, hcs]
    exact not_not.symm
  rw [ht.toPopped.leave_eq hh he hlt, restored, hregs, resumed]
  simp only [saved, State.mk.injEq, Cpu.mk.injEq, and_true, hring]
  refine ⟨⟨?_, rfl⟩, ?_⟩
  · funext x
    by_cases ho : Outer s
    · obtain ⟨hsp, -⟩ := ht.outerWords hs hh he hlt ho
      have hu : u32 (e + 8 + 56) = e + 8 + 56 := u32_of_lt (by omega)
      cases x <;> simp [ho, hu, hsp]
    · have hsp : s.cpu.regs .esp = e + 8 + 56 := by
        rw [stackTop, if_neg ho, frameSize, if_neg ho] at he
        exact he
      have hu : u32 (e + 8 + 56) = e + 8 + 56 := u32_of_lt (hsp ▸ hs.regs .esp)
      cases x <;> simp [ho, hu, hsp]
  · funext g
    by_cases ho : Outer s
    · obtain ⟨-, hseg⟩ := ht.outerWords hs hh he hlt ho
      have hu : u32 (e + 8 + 60) = e + 8 + 60 := u32_of_lt (by
        rw [frameSize, if_pos ho] at he
        omega)
      cases g <;> simp [ho, hu, hseg, reload]
    · rw [if_neg ho] at hss
      cases g <;> simp [ho, ht.ss, hss, reload]

/-- A handler that also leaves `regs->eax` alone changes nothing. -/
theorem eax_kept (hs : Sized s) (hh : atHandler s vector errCode entry afterCall = some h)
    (he : stackTop s = e + 8 + frameSize s) (hlt : stackTop s < 2 ^ 32) (herr : errCode < 2 ^ 32)
    (hax : ∀ x, e + 8 + 32 ≤ x → x < e + 8 + 36 → t.cpu.mem x = h.cpu.mem x) :
    readWord t.cpu.mem (e + 8 + 32) = s.cpu.regs .eax := by
  have hword : readWord t.cpu.mem (e + 8 + 32) = readWord h.cpu.mem (e + 8 + 32) := by
    apply readWord_congr
    exact fun x hx hx' => hax x hx hx'
  rw [hword]
  exact congrArg Registers.eax (registersAt_atHandler hs hh he hlt herr)

/-- The handler finds the interrupted code in `struct registers`, and behind it the code goes on with
whatever the handler left there. When that is all but `regs->eax` as it was, the code goes on with
every register and flag it had and this `eax`, the extra data segments reloaded with `ds`. -/
theorem interrupt_transparent (hs : Sized s)
    (hh : atHandler s vector errCode entry afterCall = some h)
    (he : stackTop s = e + 8 + frameSize s) (hlt : stackTop s < 2 ^ 32) (herr : errCode < 2 ^ 32)
    (ht : Popped h t) :
    registersAt h.cpu.mem (e + 8) = saved s vector errCode ∧
      leave t = restored t (e + 8) ∧
      (Returned s h t (e + 8) →
        leave t = resumed s t (registersAt t.cpu.mem (e + 8)).eax ∧
          ((registersAt t.cpu.mem (e + 8)).eax = (registersAt h.cpu.mem (e + 8)).eax →
            leave t = resumed s t (s.cpu.regs .eax))) := by
  have hfound := registersAt_atHandler hs hh he hlt herr
  refine ⟨hfound, ht.leave_eq hh he hlt, fun hkept => ?_⟩
  have hleave := handler_transparent hs hh he hlt herr hkept
  refine ⟨hleave, fun hax => ?_⟩
  rw [hfound] at hax
  exact hleave.trans (congrArg (resumed s t) hax)

/-- A program in ring 3. -/
def ringThree : State where
  cpu := ⟨fun r => if r = .esp then 0x400000 else 3, 0x300000, fun _ => 0⟩
  segs := fun g => if g = .cs then 0x1b else 0x23
  eflags := 0x202
  ss0 := 0x10
  esp0 := 0x90000

/-- `isr_handler` of its software interrupt starts. -/
def dispatched : State :=
  ((gate ringThree 128 0 0x100700).run (isrNoerrcode 128)).run (commonEntry 0x100720)

/-- `isr_handler`, started in `h` with its return address at 0x8ffb8, returns 7 in `regs->eax`. -/
def answered (h : State) : State :=
  { h with cpu := (h.cpu.set .esp 0x8ffbc).write 0x8ffe0 7 }

theorem answered_returned (hesp : h.cpu.regs .esp = 0x8ffb8) :
    Returned s h (answered h) 0x8ffc0 := by
  refine ⟨⟨?_, rfl, rfl⟩, fun x hx hx' hout => ?_⟩
  · rw [hesp]
    rfl
  · have hout' : x < 0x8ffe0 ∨ 0x8ffe0 + 4 ≤ x := by omega
    exact writeWord_outside hout'

theorem answered_eax : (registersAt (answered h).cpu.mem 0x8ffc0).eax = 7 :=
  readWord_writeWord_same h.cpu.mem 0x8ffe0 7

theorem interrupt_transparent_syscall :
    registersAt dispatched.cpu.mem 0x8ffc0 = saved ringThree 128 0 ∧
      leave (answered dispatched) = restored (answered dispatched) 0x8ffc0 ∧
      leave (answered dispatched) = resumed ringThree (answered dispatched) 7 := by
  have hh : atHandler ringThree 128 0 0x100700 0x100720 = some dispatched := rfl
  have hsized : Sized ringThree := by
    refine ⟨fun r => ?_, by decide, by decide, fun g => ?_⟩
    · cases r <;> decide
    · cases g <;> decide
  have htop : stackTop ringThree = 0x8ffb8 + 8 + frameSize ringThree := by decide
  have hlt : stackTop ringThree < 2 ^ 32 := by decide
  have hesp : dispatched.cpu.regs .esp = 0x8ffb8 := (atHandler_words hh htop hlt).2.1
  have hret := answered_returned (s := ringThree) hesp
  obtain ⟨hfound, hframe, hkept⟩ :=
    interrupt_transparent hsized hh htop hlt (by decide) hret.toPopped
  exact ⟨hfound, hframe,
    (hkept hret).1.trans (congrArg (resumed ringThree (answered dispatched)) answered_eax)⟩

end ShadOS.Stubs

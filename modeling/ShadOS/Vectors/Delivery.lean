import ShadOS.Preempt.Resume
import ShadOS.Vectors.Idt
import ShadOS.Vectors.Service

/-! # From a device to its routine

The request of a device goes through the controllers, the table of idt.c and the
stub of its vector to `irq_handler`, which calls the routine of the line.
-/

namespace ShadOS.Vectors
open Machine Interrupts

variable {s : State} {v idt e line : ℕ} {q p : Controllers} {stubs : ℕ → ℕ} {m : Mem}
  {u : Usermode.State}

/-- The processor finds the gates where nothing overwrote the table. -/
theorem gateOf_kept (hkept : ∀ x, idt ≤ x → x < idt + 2048 →
      u.cpu.mem x = (idtInit idt stubs m p).2.1 x) {vector : ℕ} (hv : vector < idtEntries) :
    gateOf (idtInit idt stubs m p).1 u.cpu.mem vector = (Stubs.stub vector).map (fun _ =>
      ⟨u32 (stubs vector), 0x08, if vector = 128 then 3 else 0, 14⟩) := by
  rw [← idtInit_gateOf idt stubs m p]
  apply gateOf_congr
  intro x hx hx'
  have hbase : (idtInit idt stubs m p).1.base = idt := rfl
  rw [hbase] at hx hx'
  unfold idtEntries at hv
  apply hkept <;> omega

theorem irqHandler_line (t : Routines) (hline : line < 16) : irqHandler t (32 + line) =
    (if t line ≠ 0 then some (t line) else none, picSendEoi line) := by
  simp only [irqHandler, irqOf_line hline]

/-- Whatever handlers run: the interrupt the controllers offer leads through the table to
`irq_handler`, which finds the interrupted code in `struct registers`, calls the routine of the line
that asked, and ends the interrupt of that line and no other. -/
theorem interrupt_reaches_routine (hs : service.Reaches s) (hv : s.chips.interrupt = some (v, q))
    (hkept : ∀ x, idt ≤ x → x < idt + 2048 → u.cpu.mem x = (idtInit idt stubs m p).2.1 x)
    (hu : Stubs.Sized u) (he : Stubs.stackTop u = e + 8 + Stubs.frameSize u)
    (hlt : Stubs.stackTop u < 2 ^ 32) (t : Routines) (afterCall : ℕ) :
    ∃ line gate h, v = 32 + line ∧ s.chips.Open line ∧
      gateOf (idtInit idt stubs m p).1 u.cpu.mem v = some gate ∧ gate.offset = u32 (stubs v) ∧
      Stubs.atHandler u v 0 gate.offset afterCall = some h ∧
      Stubs.registersAt h.cpu.mem (e + 8) = Stubs.saved u v 0 ∧
      irqHandler t (Stubs.registersAt h.cpu.mem (e + 8)).intNo =
        (if t line ≠ 0 then some (t line) else none, picSendEoi line) ∧
      (sendEoi q line).Nested s.running := by
  have hserving := serving_of_reaches hs
  obtain ⟨line, hline, rfl, -, rfl⟩ := hserving.interrupt_iff.mp hv
  obtain ⟨hopen, -⟩ := (hserving.nested.pending_iff hserving.programmed.ready).mp hline
  obtain ⟨code, hcode⟩ := Preempt.stub_line hopen.1
  have hvector : 32 + line < idtEntries := by
    have hlt := hopen.1
    unfold idtEntries
    omega
  have hgate := gateOf_kept hkept hvector
  rw [hcode, Option.map_some] at hgate
  have hh : ∃ h, Stubs.atHandler u (32 + line) 0 (u32 (stubs (32 + line))) afterCall = some h :=
    ⟨_, by rw [Stubs.atHandler, hcode, Option.map_some]⟩
  obtain ⟨h, hh⟩ := hh
  have hregs := Stubs.registersAt_atHandler hu hh he hlt (by decide)
  refine ⟨line, _, h, rfl, hopen, hgate, rfl, hh, hregs, ?_, ?_⟩
  · rw [hregs]
    exact irqHandler_line t hopen.1
  · exact sendEoi_nested (hserving.nested.serve hserving.programmed hline)

/-- A program in ring 3 below the table that `idt_init` wrote at 0x100800. -/
def userState : Usermode.State :=
  { Stubs.ringThree with
    cpu := { Stubs.ringThree.cpu with
      mem := (idtInit 0x100800 (fun n => 0x100000 + 16 * n) (fun _ => 0) strayChips).2.1 } }

/-- A key is pressed. -/
theorem interrupt_reaches_routine_key : ∃ h,
    Stubs.atHandler userState 33 0 0x100210 0x100620 = some h ∧
      Stubs.registersAt h.cpu.mem 0x8ffc0 = Stubs.saved userState 33 0 := by
  have hinit : service.Reaches ⟨picRemap strayChips, [], true, []⟩ :=
    .start ⟨⟨strayChips, rfl⟩, rfl, rfl⟩
  have hraise := hinit.step (e := .raise 1) (by exact ⟨by decide, by decide⟩) rfl
  have hunmask := hraise.step (e := .unmask 1) (by exact (by decide : 1 < 16)) rfl
  have hsized : Stubs.Sized userState := by
    refine ⟨fun r => ?_, by decide, by decide, fun g => ?_⟩
    · cases r <;> decide
    · cases g <;> decide
  have htop : Stubs.stackTop userState = 0x8ffb8 + 8 + Stubs.frameSize userState := by decide
  have hlt : Stubs.stackTop userState < 2 ^ 32 := by decide
  have hkept : ∀ x, 0x100800 ≤ x → x < 0x100800 + 2048 → userState.cpu.mem x =
      (idtInit 0x100800 (fun n => 0x100000 + 16 * n) (fun _ => 0) strayChips).2.1 x :=
    fun _ _ _ => rfl
  obtain ⟨line, gate, h, -, -, -, hgate, hh, hregs, -⟩ :=
    interrupt_reaches_routine (v := 33) hunmask rfl hkept hsized htop hlt (fun _ => 0x100900) 0x100620
  have hentry : gate.offset = 0x100210 := hgate
  rw [hentry] at hh
  exact ⟨h, hh, hregs⟩

end ShadOS.Vectors

import ShadOS.Switch.Source

/-! # The frame of a suspended task

`switch_to` leaves five words on the stack of the task it suspends and takes five
words from the stack of the task it resumes. `task_create` lays out the same five
words for a task that never ran.
-/

namespace ShadOS.Switch
open Machine Tasking

/-- The context that the pops of `switch_to` take from the frame at `sp`. -/
def frameAt (m : Mem) (sp : ℕ) : Context :=
  ⟨readWord m (sp + 16), readWord m (sp + 12), readWord m (sp + 8), readWord m (sp + 4),
    readWord m sp, u32 (sp + 20)⟩

variable {m m' : Mem} {c : Cpu} {sp tramp : ℕ}

theorem frameAt_congr (h : ∀ x, sp ≤ x → x < sp + 20 → m' x = m x) :
    frameAt m' sp = frameAt m sp := by
  have hword {k : ℕ} (hk : k + 4 ≤ 20) : readWord m' (sp + k) = readWord m (sp + k) := by
    apply readWord_congr
    intro x _ _
    apply h <;> omega
  unfold frameAt
  rw [hword (k := 16) le_rfl, hword (k := 12) (by decide), hword (k := 8) (by decide),
    hword (k := 4) (by decide), show readWord m' sp = readWord m sp from hword (k := 0) (by decide)]

/-- The frame of `task_create` leads to `task_trampoline` with empty registers. -/
theorem frameAt_initialFrame : frameAt (initialFrame tramp m sp) sp =
    ⟨u32 tramp, 0, 0, 0, 0, u32 (sp + 20)⟩ := by
  obtain ⟨hedi, hesi, hebx, hebp, heip⟩ := initialFrame_words m tramp sp
  rw [frameAt, hedi, hesi, hebx, hebp, heip]

/-- The four pushes at the start of `switch_to`. -/
def saves : List Instr := [.push .ebp, .push .ebx, .push .esi, .push .edi]

/-- From the new stack pointer on. -/
def restores : List Instr := [.pop .edi, .pop .esi, .pop .ebx, .pop .ebp, .ret]

theorem run_restores (h : c.regs .esp + 20 ≤ 2 ^ 32) :
    contextOf (c.run restores) = frameAt c.mem (c.regs .esp) ∧ (c.run restores).mem = c.mem := by
  have h4 : u32 (c.regs .esp + 4) = c.regs .esp + 4 := u32_of_lt (by omega)
  have h8 : u32 (c.regs .esp + 8) = c.regs .esp + 8 := u32_of_lt (by omega)
  have h12 : u32 (c.regs .esp + 12) = c.regs .esp + 12 := u32_of_lt (by omega)
  have h16 : u32 (c.regs .esp + 16) = c.regs .esp + 16 := u32_of_lt (by omega)
  refine ⟨?_, rfl⟩
  ext <;> simp [contextOf, frameAt, restores, Cpu.run, Cpu.exec, Cpu.top, h4, h8, h12, h16]

/-- The memory behind the pushes, the first one innermost. -/
def savedRegs (c : Cpu) (e : ℕ) : Mem :=
  writeWord (writeWord (writeWord (writeWord c.mem (e + 12) (c.regs .ebp)) (e + 8) (c.regs .ebx))
    (e + 4) (c.regs .esi)) e (c.regs .edi)

theorem run_saves {e : ℕ} (he : c.regs .esp = e + 16) (hlt : e + 16 < 2 ^ 32) :
    (c.run saves).regs .esp = e ∧ (c.run saves).mem = savedRegs c e := by
  have h4 : sub32 (e + 16) 4 = e + 12 := sub32_of_le (by omega) hlt
  have h8 : sub32 (e + 12) 4 = e + 8 := sub32_of_le (by omega) (by omega)
  have h12 : sub32 (e + 8) 4 = e + 4 := sub32_of_le (by omega) (by omega)
  have h16 : sub32 (e + 4) 4 = e := sub32_of_le (by omega) (by omega)
  simp [saves, savedRegs, Cpu.run, Cpu.exec, he, h4, h8, h12, h16]

theorem savedRegs_outside {e x : ℕ} (h : x < e ∨ e + 16 ≤ x) : savedRegs c e x = c.mem x := by
  unfold savedRegs
  rw [writeWord_outside (by omega), writeWord_outside (by omega), writeWord_outside (by omega),
    writeWord_outside (by omega)]

/-- The frame holds the registers and the return address above them. -/
theorem frameAt_savedRegs (hc : c.Wf) {e : ℕ} : frameAt (savedRegs c e) e =
    ⟨readWord c.mem (e + 16), c.regs .ebp, c.regs .ebx, c.regs .esi, c.regs .edi, u32 (e + 20)⟩ := by
  have hret : readWord (savedRegs c e) (e + 16) = readWord c.mem (e + 16) := by
    apply readWord_congr
    intro x hx _
    apply savedRegs_outside
    omega
  have hebp : readWord (savedRegs c e) (e + 12) = c.regs .ebp := by
    unfold savedRegs
    rw [readWord_writeWord_of_disjoint (by omega), readWord_writeWord_of_disjoint (by omega),
      readWord_writeWord_of_disjoint (by omega), readWord_writeWord_same, u32_of_lt (hc _)]
  have hebx : readWord (savedRegs c e) (e + 8) = c.regs .ebx := by
    unfold savedRegs
    rw [readWord_writeWord_of_disjoint (by omega), readWord_writeWord_of_disjoint (by omega),
      readWord_writeWord_same, u32_of_lt (hc _)]
  have hesi : readWord (savedRegs c e) (e + 4) = c.regs .esi := by
    unfold savedRegs
    rw [readWord_writeWord_of_disjoint (by omega), readWord_writeWord_same, u32_of_lt (hc _)]
  have hedi : readWord (savedRegs c e) e = c.regs .edi := by
    unfold savedRegs
    rw [readWord_writeWord_same, u32_of_lt (hc _)]
  rw [frameAt, hret, hebp, hebx, hesi, hedi]

/-- The stack pointer goes to where the first argument points, and comes from the second. -/
def exchange : List Instr := [.load 20 .esp .eax, .store .esp .eax, .load 24 .esp .esp]

theorem run_exchange {e p n : ℕ} (he : c.regs .esp = e) (hlt : e + 28 ≤ 2 ^ 32)
    (hp : readWord c.mem (e + 20) = p) (hn : readWord c.mem (e + 24) = n)
    (hout : p + 4 ≤ e + 24 ∨ e + 28 ≤ p) :
    (c.run exchange).regs .esp = n ∧ (c.run exchange).mem = writeWord c.mem p e := by
  have h20 : u32 (e + 20) = e + 20 := u32_of_lt (by omega)
  have h24 : u32 (e + 24) = e + 24 := u32_of_lt (by omega)
  have hn' : readWord (writeWord c.mem p e) (e + 24) = n := by
    rw [readWord_writeWord_of_disjoint (by omega), hn]
  simp [exchange, Cpu.run, Cpu.exec, he, h20, h24, hp, hn']

theorem switchTo_eq : switchTo = saves ++ (exchange ++ restores) := rfl

/-- `switch_to` as a whole, entered with two arguments above its return address. -/
theorem run_switchTo {e p n : ℕ} (he : c.regs .esp = e + 16) (hlt : e + 28 < 2 ^ 32)
    (hp : readWord c.mem (e + 20) = p) (hn : readWord c.mem (e + 24) = n)
    (hout : p + 4 ≤ e ∨ e + 28 ≤ p) (hnext : n + 20 ≤ 2 ^ 32) :
    (c.run switchTo).mem = writeWord (savedRegs c e) p e ∧
      contextOf (c.run switchTo) = frameAt (writeWord (savedRegs c e) p e) n := by
  obtain ⟨hesp, hmem⟩ := run_saves he (by omega)
  have hread {k : ℕ} (hk : e + 16 ≤ k) : readWord (c.run saves).mem k = readWord c.mem k := by
    rw [hmem]
    apply readWord_congr
    intro x _ _
    apply savedRegs_outside
    omega
  obtain ⟨hesp', hmem'⟩ := run_exchange hesp hlt.le ((hread (by omega)).trans hp)
    ((hread (by omega)).trans hn) (by omega)
  obtain ⟨hctx, hmem''⟩ := run_restores (hesp'.symm ▸ hnext)
  rw [switchTo_eq, Cpu.run_append, Cpu.run_append, hmem'', hctx, hesp', hmem', hmem]
  exact ⟨rfl, rfl⟩

/-- The processor at the first instruction of `switch_to`. -/
def entered (c : Cpu) (prev next ra : ℕ) : Cpu := (pushArgs c prev next).pushWord ra

section call
variable {e prev next ra : ℕ}

theorem entered_spec (prev next ra : ℕ) (he : c.regs .esp = e + 28) (hlt : e + 28 < 2 ^ 32) :
    (pushArgs c prev next).regs .esp = e + 20 ∧ (entered c prev next ra).regs .esp = e + 16 ∧
      (entered c prev next ra).mem = writeWord (writeWord (writeWord c.mem (e + 24)
        (espOf c.mem next)) (e + 20) prev) (e + 16) ra := by
  have h24 : sub32 (e + 28) 4 = e + 24 := sub32_of_le (by omega) hlt
  have h20 : sub32 (e + 24) 4 = e + 20 := sub32_of_le (by omega) (by omega)
  have h16 : sub32 (e + 20) 4 = e + 16 := sub32_of_le (by omega) (by omega)
  simp [entered, pushArgs, he, h24, h20, h16]

theorem entered_wf (hc : c.Wf) : (entered c prev next ra).Wf := hc.pushWord.pushWord.pushWord

/-- A call of `switch_to` for a frame of `next`: where `prev` is left, what changes in
memory, and where the processor goes on. -/
theorem callSwitch_spec (next ra : ℕ) (hc : c.Wf) (he : c.regs .esp = e + 28) (hprev : prev < 2 ^ 32)
    (hout : prev + 4 ≤ e ∨ e + 28 ≤ prev) (hnext : espOf c.mem next + 20 ≤ 2 ^ 32) :
    espOf (callSwitch c prev next ra).mem prev = e ∧
      frameAt (callSwitch c prev next ra).mem e =
        { contextOf (pushArgs c prev next) with eip := u32 ra } ∧
      (∀ x, x < e ∨ e + 28 ≤ x → x < prev ∨ prev + 4 ≤ x →
        (callSwitch c prev next ra).mem x = c.mem x) ∧
      contextOf (callSwitch c prev next ra) =
        frameAt (callSwitch c prev next ra).mem (espOf c.mem next) := by
  have hlt : e + 28 < 2 ^ 32 := he ▸ hc .esp
  obtain ⟨hargs, hesp, hmem⟩ := entered_spec prev next ra he hlt
  have hp : readWord (entered c prev next ra).mem (e + 20) = prev := by
    rw [hmem, readWord_writeWord_of_disjoint (by omega), readWord_writeWord_same, u32_of_lt hprev]
  have hn : readWord (entered c prev next ra).mem (e + 24) = espOf c.mem next := by
    rw [hmem, readWord_writeWord_of_disjoint (by omega), readWord_writeWord_of_disjoint (by omega),
      readWord_writeWord_same]
    exact u32_of_lt (readWord_lt _ _)
  have hra : readWord (entered c prev next ra).mem (e + 16) = u32 ra := by
    rw [hmem, readWord_writeWord_same]
  obtain ⟨hmem', hctx⟩ := run_switchTo hesp hlt hp hn hout hnext
  rw [show callSwitch c prev next ra = (entered c prev next ra).run switchTo from rfl, hctx, hmem']
  refine ⟨?_, ?_, ?_, rfl⟩
  · exact (readWord_writeWord_same _ _ _).trans (u32_of_lt (by omega))
  · have hframe : frameAt (writeWord (savedRegs (entered c prev next ra) e) prev e) e =
        frameAt (savedRegs (entered c prev next ra) e) e := by
      apply frameAt_congr
      intro x _ _
      apply writeWord_outside
      omega
    have h20 : u32 (e + 20) = e + 20 := u32_of_lt (by omega)
    rw [hframe, frameAt_savedRegs (entered_wf hc), hra, contextOf, hargs, h20]
    simp [entered, pushArgs]
  · intro x hx hx'
    rw [writeWord_outside (by omega), savedRegs_outside (by omega), hmem, writeWord_outside (by omega),
      writeWord_outside (by omega), writeWord_outside (by omega)]

end call
end ShadOS.Switch

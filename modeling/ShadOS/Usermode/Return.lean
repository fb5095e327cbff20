import ShadOS.Usermode.Source

/-! # What the caller of `enter_usermode` gets back

The two saved words bring back the stack pointer, the return address and `ebp`.
Nothing brings back the other registers a C caller relies on: they arrive as
they were when `return_to_kernel` was called.
-/

namespace ShadOS.Usermode
open Machine

variable (img : Image) {s : State} {u : Ring3} {e x : ℕ}

/-- Where stacks and saved words lie when `enter_usermode` is called: the kernel stack of the TSS
overlaps neither the return address of the caller nor `km_esp` and `km_ebp`. -/
structure Placed (img : Image) (s : State) : Prop where
  wf : s.cpu.Wf
  room : 20 ≤ s.cpu.regs .esp
  args : s.cpu.regs .esp + 12 ≤ 2 ^ 32
  kmStack : img.km + 8 ≤ s.cpu.regs .esp - 20 ∨ s.cpu.regs .esp + 12 ≤ img.km
  tssRoom : 72 ≤ s.esp0
  tssLt : s.esp0 < 2 ^ 32
  tssFrame : s.esp0 ≤ s.cpu.regs .esp ∨ s.cpu.regs .esp + 4 ≤ s.esp0 - 72
  tssKm : s.esp0 ≤ img.km ∨ img.km + 8 ≤ s.esp0 - 72

/-- The bytes the way back depends on. -/
def Needed (img : Image) (s : State) (x : ℕ) : Prop :=
  (img.km ≤ x ∧ x < img.km + 8) ∨ (s.cpu.regs .esp ≤ x ∧ x < s.cpu.regs .esp + 4)

theorem run_append (s : State) (code code' : List Op) :
    s.run (code ++ code') = (s.run code).run code' := List.foldl_append

/-! ## On the way out -/

/-- The frame for `iret`, with the flags pushed twice to the same place. -/
def frameMem (m : Mem) (e ecx flags flags' eax : ℕ) : Mem :=
  writeWord (writeWord (writeWord (writeWord (writeWord (writeWord m (e + 16) 0x23) (e + 12) ecx)
    (e + 8) flags) (e + 8) flags') (e + 4) 0x1B) e eax

theorem frameMem_outside {m : Mem} {ecx flags flags' eax : ℕ} (h : x < e ∨ e + 20 ≤ x) :
    frameMem m e ecx flags flags' eax x = m x := by
  unfold frameMem
  rw [writeWord_outside (by omega), writeWord_outside (by omega), writeWord_outside (by omega),
    writeWord_outside (by omega), writeWord_outside (by omega), writeWord_outside (by omega)]

theorem frameMem_cs {m : Mem} {ecx flags flags' eax : ℕ} :
    readWord (frameMem m e ecx flags flags' eax) (e + 4) = 0x1B := by
  unfold frameMem
  rw [readWord_writeWord_of_disjoint (by omega), readWord_writeWord_same]
  rfl

/-- The two saved words. -/
def savedMem (img : Image) (s : State) : Mem :=
  writeWord (writeWord s.cpu.mem img.km (s.cpu.regs .esp)) (img.km + 4) (s.cpu.regs .ebp)

/-- `enter_usermode` without its `iret`. -/
def buildFrame (img : Image) : List Op := (enterUsermode img).take 17

@[simp] theorem iret_mem (s : State) : s.iret.cpu.mem = s.cpu.mem := rfl
@[simp] theorem iret_cs (s : State) : s.iret.segs .cs = s.word 1 := rfl
@[simp] theorem iret_esp0 (s : State) : s.iret.esp0 = s.esp0 := rfl

theorem entered_eq (img : Image) (s : State) : entered img s = (s.run (buildFrame img)).iret := rfl

theorem run_buildFrame (he : s.cpu.regs .esp = e + 20) (hlt : e + 32 ≤ 2 ^ 32) :
    (s.run (buildFrame img)).cpu.mem = frameMem (savedMem img s) e
      (readWord s.cpu.mem (u32 (e + 20 + 8))) s.eflags (u32 s.eflags ||| 0x200)
      (readWord s.cpu.mem (u32 (e + 20 + 4))) ∧
    (s.run (buildFrame img)).cpu.regs .esp = e ∧
    (s.run (buildFrame img)).segs .cs = s.segs .cs ∧ (s.run (buildFrame img)).esp0 = s.esp0 := by
  have h4 : sub32 (e + 20) 4 = e + 16 := sub32_of_le (by omega) (by omega)
  have h8 : sub32 (e + 16) 4 = e + 12 := sub32_of_le (by omega) (by omega)
  have h12 : sub32 (e + 12) 4 = e + 8 := sub32_of_le (by omega) (by omega)
  have h12' : u32 (e + 8 + 4) = e + 12 := u32_of_lt (by omega)
  have h16 : sub32 (e + 8) 4 = e + 4 := sub32_of_le (by omega) (by omega)
  have h20 : sub32 (e + 4) 4 = e := sub32_of_le (by omega) (by omega)
  refine ⟨?_, ?_, ?_, rfl⟩ <;>
    simp [buildFrame, enterUsermode, State.run, State.exec, State.setSeg, Cpu.exec, Cpu.top,
      frameMem, savedMem, he, h4, h8, h12, h12', h16, h20]

/-- Ring 3 begins with its code segment, and with what the way back needs in memory. -/
theorem entered_spec (hp : Placed img s) : (entered img s).segs .cs = 0x1B ∧
    (entered img s).esp0 = s.esp0 ∧
    readWord (entered img s).cpu.mem img.km = s.cpu.regs .esp ∧
    readWord (entered img s).cpu.mem (img.km + 4) = s.cpu.regs .ebp ∧
    readWord (entered img s).cpu.mem (s.cpu.regs .esp) = s.cpu.top := by
  have hroom := hp.room
  have hargs := hp.args
  have hkm := hp.kmStack
  obtain ⟨e, he⟩ : ∃ e, s.cpu.regs .esp = e + 20 := ⟨_, (Nat.sub_add_cancel hroom).symm⟩
  obtain ⟨hmem, hesp, hcs, hesp0⟩ := run_buildFrame img he (by omega)
  have hword : (s.run (buildFrame img)).word 1 = 0x1B := by
    rw [State.word, hesp, hmem, show u32 (e + 4 * 1) = e + 4 from u32_of_lt (by omega)]
    exact frameMem_cs
  have hread {a : ℕ} (h : a + 4 ≤ e ∨ e + 20 ≤ a) :
      readWord (entered img s).cpu.mem a = readWord (savedMem img s) a := by
    apply readWord_congr
    intro x hx hx'
    rw [entered_eq, iret_mem, hmem]
    exact frameMem_outside (by omega)
  refine ⟨?_, ?_, ?_, ?_, ?_⟩
  · rw [entered_eq, iret_cs, hword]
  · rw [entered_eq, iret_esp0, hesp0]
  · rw [hread (by omega), savedMem, readWord_writeWord_of_disjoint (by omega),
      readWord_writeWord_same, u32_of_lt (hp.wf _)]
  · rw [hread (by omega), savedMem, readWord_writeWord_same, u32_of_lt (hp.wf _)]
  · rw [hread (by omega), savedMem, readWord_writeWord_of_disjoint (by omega),
      readWord_writeWord_of_disjoint (by omega)]
    rfl

/-! ## On the way in -/

/-- The start of the stub, up to `pusha`. -/
def saveFrame (img : Image) : List Op := (isrStub img).take 4

/-- The vector and `eax` lie where `struct registers` has them. -/
theorem run_saveFrame {f : ℕ} (hf : s.cpu.regs .esp = f + 40) (hlt : f + 40 < 2 ^ 32) :
    readWord (s.run (saveFrame img)).cpu.mem (f + 32) = 128 ∧
    readWord (s.run (saveFrame img)).cpu.mem (f + 28) = u32 (s.cpu.regs .eax) ∧
    (s.run (saveFrame img)).cpu.regs .esp = f ∧
    ∀ x, x < f ∨ f + 40 ≤ x → (s.run (saveFrame img)).cpu.mem x = s.cpu.mem x := by
  obtain ⟨c, hc⟩ : ∃ c, c = s.cpu.pushAll [0, 128] := ⟨_, rfl⟩
  have hrun : (s.run (saveFrame img)).cpu = c.pushAll (pushaOrder.map c.regs) := by
    rw [hc]
    simp only [saveFrame, isrStub, List.take_succ_cons, List.take_zero, State.run, List.foldl_cons,
      List.foldl_nil, State.exec, Cpu.pushAll_cons, Cpu.pushAll_nil]
  have hesp : c.regs .esp = f + 32 := hc ▸ Cpu.pushAll_esp hf (by simp; omega)
  have hlt' : f + 32 < 2 ^ 32 := by omega
  have hout {x : ℕ} (hx : x < f ∨ f + 32 ≤ x) :
      (c.pushAll (pushaOrder.map c.regs)).mem x = c.mem x := Cpu.pushAll_outside hesp hlt' hx
  rw [hrun]
  refine ⟨?_, ?_, Cpu.pushAll_esp hesp hlt', fun x hx => ?_⟩
  · have hvector : readWord c.mem (f + 32) = 128 := by
      rw [hc]
      exact Cpu.pushAll_word (e := f + 32) (i := 1) hf (by simp; omega) (by decide)
    rw [← hvector]
    apply readWord_congr
    intro x hx _
    exact hout (.inr hx)
  · have heax : c.regs .eax = s.cpu.regs .eax := by
      rw [hc, Cpu.pushAll_regs_of_ne (by decide)]
    rw [← heax]
    exact Cpu.pushAll_word (e := f) (i := 0) hesp (by simp [pushaOrder]; omega)
      (by simp [pushaOrder])
  · rw [hout (by omega), hc]
    exact Cpu.pushAll_outside hf (by simp; omega) (by simp; omega)

/-- The end of the stub, behind `pusha`. -/
def passFrame (img : Image) : List Op := (isrStub img).drop 4

theorem run_passFrame {f : ℕ} (hf : s.cpu.regs .esp = f + 12) (hlt : f + 12 < 2 ^ 32) :
    (s.run (passFrame img)).cpu.mem = writeWord (writeWord (writeWord s.cpu.mem (f + 8)
      (low16 (s.cpu.regs .eax) (s.segs .ds))) (f + 4) (f + 8)) f img.afterCall ∧
    (s.run (passFrame img)).cpu.regs .esp = f := by
  have h4 : sub32 (f + 12) 4 = f + 8 := sub32_of_le (by omega) (by omega)
  have h8 : sub32 (f + 8) 4 = f + 4 := sub32_of_le (by omega) (by omega)
  have h12 : sub32 (f + 4) 4 = f := sub32_of_le (by omega) (by omega)
  constructor <;>
    simp [passFrame, isrStub, State.run, State.exec, State.setSeg, Cpu.exec, hf, h4, h8, h12]

/-- The stub of vector 128 builds a `struct registers` with the vector and `eax`, and passes its
address. -/
theorem run_isrStub {f : ℕ} (hf : s.cpu.regs .esp = f + 52) (hlt : f + 52 < 2 ^ 32) :
    readWord (s.run (isrStub img)).cpu.mem (f + 44) = 128 ∧
    readWord (s.run (isrStub img)).cpu.mem (f + 40) = u32 (s.cpu.regs .eax) ∧
    readWord (s.run (isrStub img)).cpu.mem (f + 4) = f + 8 ∧
    (s.run (isrStub img)).cpu.regs .esp = f ∧
    ∀ x, x < f ∨ f + 52 ≤ x → (s.run (isrStub img)).cpu.mem x = s.cpu.mem x := by
  have hrun : s.run (isrStub img) = (s.run (saveFrame img)).run (passFrame img) := by
    rw [← run_append, saveFrame, passFrame, List.take_append_drop]
  obtain ⟨hvector, heax, hesp₁, hout₁⟩ := run_saveFrame img (f := f + 12) hf (by omega)
  obtain ⟨hmem, hesp⟩ := run_passFrame img hesp₁ (by omega)
  rw [← hrun] at hmem hesp
  have hout : ∀ x, x < f ∨ f + 12 ≤ x →
      (s.run (isrStub img)).cpu.mem x = (s.run (saveFrame img)).cpu.mem x := by
    intro x hx
    rw [hmem, writeWord_outside (by omega), writeWord_outside (by omega),
      writeWord_outside (by omega)]
  refine ⟨?_, ?_, ?_, hesp, ?_⟩
  · rw [← hvector]
    apply readWord_congr
    intro x hx _
    exact hout x (by omega)
  · rw [← heax]
    apply readWord_congr
    intro x hx _
    exact hout x (by omega)
  · rw [hmem, readWord_writeWord_of_disjoint (by omega), readWord_writeWord_same,
      u32_of_lt (by omega)]
  · intro x hx
    rw [hout x (by omega), hout₁ x (by omega)]

/-- The interrupt pushes five words onto the stack of the TSS. -/
theorem interrupt_spec {f : ℕ} (hf : s.esp0 = f + 20) (hlt : f + 20 < 2 ^ 32)
    (hring : s.segs .cs = 0x1B) (isr128 : ℕ) :
    (s.interrupt isr128).cpu.regs .esp = f ∧
    (s.interrupt isr128).cpu.regs .eax = s.cpu.regs .eax ∧
    ∀ x, x < f ∨ f + 20 ≤ x → (s.interrupt isr128).cpu.mem x = s.cpu.mem x := by
  have houter : s.segs .cs &&& 3 ≠ 0 := by
    rw [hring]
    decide
  obtain ⟨ws, hws⟩ : ∃ ws, ws = [s.segs .ss, s.cpu.regs .esp, s.eflags, s.segs .cs, s.cpu.eip] :=
    ⟨_, rfl⟩
  have hlen : 4 * ws.length = 20 := by simp [hws]
  have hesp : (s.cpu.set .esp s.esp0).regs .esp = f + 4 * ws.length := by
    rw [Cpu.set_regs_self, hf, hlen]
  have hpush : (s.interrupt isr128).cpu =
      { (s.cpu.set .esp s.esp0).pushAll ws with eip := isr128 } := by
    simp only [State.interrupt, if_pos houter, List.cons_append, List.nil_append, hws]
  rw [hpush]
  rw [← hlen] at hlt
  refine ⟨Cpu.pushAll_esp hesp hlt, ?_, fun x hx => Cpu.pushAll_outside hesp hlt (by omega)⟩
  exact (Cpu.pushAll_regs_of_ne (by decide)).trans (Cpu.set_regs_of_ne (by decide))

theorem leave_esp0 (u : Ring3) (s : State) : (u.leave s).esp0 = s.esp0 := rfl

theorem leave_cs (u : Ring3) (s : State) : (u.leave s).segs .cs = s.segs .cs := by
  simp [Ring3.leave]

theorem u32_u32 (n : ℕ) : u32 (u32 n) = u32 n := u32_of_lt (u32_lt n)

/-- The dispatcher finds the exit system call, and everything needed is still in memory. -/
theorem atHandler_spec (hp : Placed img s)
    (hu : ∀ x, Needed img s x → u.mem x = (entered img s).cpu.mem x)
    (heax : u32 (u.regs .eax) = sysExit) :
    isrHandler (atHandler img s u).cpu.mem ((atHandler img s u).word 1) = .exit ∧
    (atHandler img s u).cpu.regs .esp = s.esp0 - 72 ∧
    ∀ x, Needed img s x → (atHandler img s u).cpu.mem x = (entered img s).cpu.mem x := by
  obtain ⟨hcs, hesp0, -⟩ := entered_spec img hp
  obtain ⟨f, hf⟩ : ∃ f, s.esp0 = f + 72 := ⟨_, (Nat.sub_add_cancel hp.tssRoom).symm⟩
  have hlt := hp.tssLt
  have htssFrame := hp.tssFrame
  have htssKm := hp.tssKm
  have hstack : (u.leave (entered img s)).esp0 = f + 52 + 20 := by rw [leave_esp0, hesp0, hf]
  obtain ⟨hesp, heax', hout⟩ :=
    interrupt_spec hstack (by omega) ((leave_cs _ _).trans hcs) img.isr128
  obtain ⟨hvector, hfax, hregs, hespf, houtf⟩ := run_isrStub img hesp (by omega)
  refine ⟨?_, ?_, ?_⟩
  · have hword : (atHandler img s u).word 1 = f + 8 := by
      rw [State.word, atHandler, hespf, show u32 (f + 4 * 1) = f + 4 from u32_of_lt (by omega),
        hregs]
    have heax₃ : readWord (atHandler img s u).cpu.mem (f + 8 + 32) = sysExit := by
      apply hfax.trans
      rw [heax', ← heax]
      exact u32_u32 _
    have hvector₃ : readWord (atHandler img s u).cpu.mem (f + 8 + 36) = 128 := hvector
    rw [isrHandler, hword, hvector₃, heax₃]
    rfl
  · rw [atHandler, hespf, hf, Nat.add_sub_cancel]
  · intro x hx
    have hx' : x < f ∨ f + 72 ≤ x := by
      unfold Needed at hx
      omega
    rw [atHandler, houtf x (by omega), hout x (by omega)]
    exact hu x hx

/-- The registers of ring 3 come through the gate and the stub. -/
theorem atHandler_regs {r : Reg} (hsp : r ≠ .esp) (hax : r ≠ .eax) :
    (atHandler img s u).cpu.regs r = u32 (u.regs r) := by
  have hstub (t : State) : (t.run (isrStub img)).cpu.regs r = t.cpu.regs r := by
    simp [isrStub, State.run, State.exec, State.setSeg, Cpu.exec, Cpu.pushAll_regs_of_ne, hsp, hax]
  have hgate (t : State) : (t.interrupt img.isr128).cpu.regs r = t.cpu.regs r := by
    by_cases houter : t.segs .cs &&& 3 ≠ 0 <;>
      simp [State.interrupt, hsp, houter]
  rw [atHandler, hstub, hgate]
  rfl

/-! ## Back in the caller -/

theorem run_returnToKernel (t : State) :
    (t.run (returnToKernel img)).cpu.eip = readWord t.cpu.mem (readWord t.cpu.mem img.km) ∧
    (t.run (returnToKernel img)).cpu.regs .esp = u32 (readWord t.cpu.mem img.km + 4) ∧
    (t.run (returnToKernel img)).cpu.regs .ebp = readWord t.cpu.mem (img.km + 4) ∧
    ∀ r, r ≠ .esp → r ≠ .ebp → (t.run (returnToKernel img)).cpu.regs r = t.cpu.regs r := by
  refine ⟨?_, ?_, ?_, fun r hr hr' => ?_⟩ <;>
    simp [returnToKernel, State.run, State.exec, Cpu.exec, Cpu.top, Cpu.drop, *]

/-- The callee-saved registers that are not saved. -/
def unsaved : List Reg := [.ebx, .esi, .edi]

/-- The saved words and the return address make all but the unsaved registers right. -/
theorem likeRet_iff {t : State} (hkm : readWord t.cpu.mem img.km = s.cpu.regs .esp)
    (hkm' : readWord t.cpu.mem (img.km + 4) = s.cpu.regs .ebp)
    (htop : readWord t.cpu.mem (s.cpu.regs .esp) = s.cpu.top) :
    LikeRet s (t.run (returnToKernel img)) ↔ ∀ r ∈ unsaved, t.cpu.regs r = s.cpu.regs r := by
  obtain ⟨heip, hesp, hebp, hrest⟩ := run_returnToKernel img t
  rw [hkm] at heip hesp
  have hne : ∀ r ∈ unsaved, r ≠ .esp ∧ r ≠ .ebp := by decide
  constructor
  · intro h r hr
    rw [← hrest r (hne r hr).1 (hne r hr).2]
    simp only [unsaved, List.mem_cons, List.not_mem_nil, or_false] at hr
    rcases hr with rfl | rfl | rfl
    · exact h.ebx
    · exact h.esi
    · exact h.edi
  · intro h
    have hkeep (r : Reg) (hr : r ∈ unsaved) :
        (t.run (returnToKernel img)).cpu.regs r = s.cpu.regs r :=
      (hrest r (hne r hr).1 (hne r hr).2).trans (h r hr)
    constructor
    · exact heip.trans htop
    · exact hesp
    · exact hkeep .ebx (by decide)
    · exact hkeep .esi (by decide)
    · exact hkeep .edi (by decide)
    · exact hebp.trans hkm'

theorem dispatch_exit {h : State} (compiled : State → State)
    (hpath : isrHandler h.cpu.mem (h.word 1) = .exit) :
    dispatch img compiled h = some ((compiled h).run (returnToKernel img)) := by
  rw [dispatch, hpath]

/-- The run comes back to the caller. It comes back as from an ordinary `ret` exactly when `ebx`,
`esi` and `edi` hold the values of the caller at the call of `return_to_kernel`; a dispatcher that
leaves them alone passes on what the user code left there. -/
theorem returns_iff (hp : Placed img s)
    (hu : ∀ x, Needed img s x → u.mem x = (entered img s).cpu.mem x)
    (heax : u32 (u.regs .eax) = sysExit) {compiled : State → State}
    (hc : ∀ x, Needed img s x →
      (compiled (atHandler img s u)).cpu.mem x = (atHandler img s u).cpu.mem x) :
    ∃ t, usermodeRun img compiled s u = some t ∧
      (LikeRet s t ↔
        ∀ r ∈ unsaved, (compiled (atHandler img s u)).cpu.regs r = s.cpu.regs r) ∧
      ((∀ r ∈ unsaved, (compiled (atHandler img s u)).cpu.regs r =
          (atHandler img s u).cpu.regs r) →
        (LikeRet s t ↔ ∀ r ∈ unsaved, u32 (u.regs r) = s.cpu.regs r)) := by
  obtain ⟨hpath, -, hmem⟩ := atHandler_spec img hp hu heax
  obtain ⟨-, -, hkm, hkm', htop⟩ := entered_spec img hp
  have hregs : ∀ r ∈ unsaved, (atHandler img s u).cpu.regs r = u32 (u.regs r) := by
    intro r hr
    apply atHandler_regs <;> rintro rfl <;> simp [unsaved] at hr
  have hrun := dispatch_exit img compiled hpath
  have hread {a : ℕ} (ha : ∀ x, a ≤ x → x < a + 4 → Needed img s x) :
      readWord (compiled (atHandler img s u)).cpu.mem a = readWord (entered img s).cpu.mem a := by
    apply readWord_congr
    intro x hx hx'
    have hn := ha x hx hx'
    rw [hc x hn, hmem x hn]
  have hiff := likeRet_iff img
    ((hread fun x hx hx' => .inl (by omega)).trans hkm)
    ((hread fun x hx hx' => .inl (by omega)).trans hkm')
    ((hread fun x hx hx' => .inr (by omega)).trans htop)
  refine ⟨_, hrun, hiff, fun hkeep => hiff.trans ?_⟩
  apply forall₂_congr
  intro r hr
  rw [hkeep r hr, hregs r hr]

/-! ## One call -/

def loadedImage : Image := ⟨0x200000, 0x100100, 0x100200⟩

/-- A call with 5 in `ebx`. -/
def callSite : State where
  cpu := ⟨fun
    | .esp => 0x300000
    | .ebp => 0x300040
    | .ebx => 5
    | _ => 0, 0x100300, fun _ => 0⟩
  segs
    | .cs => 0x08
    | _ => 0x10
  eflags := 0x202
  ss0 := 0x10
  esp0 := 0x280000

/-- The user code asks for the exit with `v` in `ebx`. -/
def exitWith (v : ℕ) : Ring3 where
  regs
    | .eax => sysExit
    | .ebx => v
    | _ => 0
  mem := (entered loadedImage callSite).cpu.mem
  eip := 0x100400
  eflags := 0x202
  segs _ := 0x23

/-- The calls of `isr_handler` and `syscall_dispatch`: an argument and two return addresses. -/
def callsOnly (t : State) : State :=
  { t with cpu := t.cpu.pushAll [t.word 1, 0x100500, 0x100600] }

theorem placed_callSite : Placed loadedImage callSite := by
  constructor
  · intro r
    cases r <;> decide
  all_goals decide

theorem exitWith_mem (v : ℕ) : (exitWith v).mem = (entered loadedImage callSite).cpu.mem := by
  rw [exitWith]

theorem exitWith_eax (v : ℕ) : u32 ((exitWith v).regs .eax) = sysExit := rfl

theorem callsOnly_keeps (v x : ℕ) (h : Needed loadedImage callSite x) :
    (callsOnly (atHandler loadedImage callSite (exitWith v))).cpu.mem x =
      (atHandler loadedImage callSite (exitWith v)).cpu.mem x := by
  obtain ⟨-, hesp, -⟩ := atHandler_spec loadedImage placed_callSite (u := exitWith v)
    (fun x _ => congrFun (exitWith_mem v) x) (exitWith_eax v)
  have hx : (0x200000 ≤ x ∧ x < 0x200008) ∨ (0x300000 ≤ x ∧ x < 0x300004) := h
  exact Cpu.pushAll_outside (e := 0x27FFAC) hesp (by simp) (by simp; omega)

/-- A user program that happens to leave 5 in `ebx`. -/
theorem returns_kept : ∃ t, usermodeRun loadedImage callsOnly callSite (exitWith 5) = some t ∧
    LikeRet callSite t := by
  obtain ⟨t, ht, -, hiff⟩ := returns_iff loadedImage placed_callSite (u := exitWith 5)
    (fun x _ => congrFun (exitWith_mem 5) x) (exitWith_eax 5) (callsOnly_keeps 5)
  refine ⟨t, ht, (hiff ?_).2 (by decide)⟩
  intro r hr
  apply Cpu.pushAll_regs_of_ne
  rintro rfl
  simp [unsaved] at hr

/-- A user program that clears `ebx`: the caller gets it back cleared. -/
theorem ebx_lost : Placed loadedImage callSite ∧
    (exitWith 0).mem = (entered loadedImage callSite).cpu.mem ∧
    ∃ t, usermodeRun loadedImage callsOnly callSite (exitWith 0) = some t ∧
      t.cpu.regs .ebx = 0 ∧ callSite.cpu.regs .ebx = 5 ∧ ¬ LikeRet callSite t := by
  obtain ⟨hpath, -, -⟩ := atHandler_spec loadedImage placed_callSite (u := exitWith 0)
    (fun x _ => congrFun (exitWith_mem 0) x) (exitWith_eax 0)
  have hebx : (atHandler loadedImage callSite (exitWith 0)).cpu.regs .ebx = 0 :=
    atHandler_regs loadedImage (by decide) (by decide)
  obtain ⟨-, -, -, hrest⟩ := run_returnToKernel loadedImage
    (callsOnly (atHandler loadedImage callSite (exitWith 0)))
  have hlost := (hrest .ebx (by decide) (by decide)).trans
    ((Cpu.pushAll_regs_of_ne (by decide)).trans hebx)
  refine ⟨placed_callSite, exitWith_mem 0, _, dispatch_exit loadedImage callsOnly hpath, hlost, rfl,
    ?_⟩
  intro h
  have hkept := h.ebx
  rw [hlost] at hkept
  cases hkept

end ShadOS.Usermode

import ShadOS.Stubs.Source
import ShadOS.Usermode.Return

/-! # The frame of an interrupt

On the way in, gate and stub put `struct registers` on the stack; on the way
back, the stub takes every register from there. A handler that leaves the frame
alone returns to the interrupted code as it was.
-/

namespace ShadOS.Stubs
open Machine
open Usermode (Seg State low16 pushaOrder passFrame run_passFrame)
open Heap (not32)

/-- The processor comes from an outer ring. -/
def Outer (s : State) : Prop := s.segs .cs &&& 3 ≠ 0

instance (s : State) : Decidable (Outer s) := inferInstanceAs (Decidable (_ ≠ _))

/-- Where the frame is pushed: on the stack of the TSS, coming from an outer ring. -/
def stackTop (s : State) : ℕ := if Outer s then s.esp0 else s.cpu.regs .esp

/-- The error code of the vector, or the stub's zero. -/
def errorWord (vector errCode : ℕ) : ℕ := if vector ∈ errcodeVectors then errCode else 0

/-- The words from `struct registers` on. -/
def frame (s : State) (vector errCode r : ℕ) : List ℕ :=
  [low16 (s.cpu.regs .eax) (s.segs .ds), s.cpu.regs .edi, s.cpu.regs .esi, s.cpu.regs .ebp, r + 36,
    s.cpu.regs .ebx, s.cpu.regs .edx, s.cpu.regs .ecx, s.cpu.regs .eax, vector,
    errorWord vector errCode, s.cpu.eip, s.segs .cs, s.eflags] ++
  if Outer s then [s.cpu.regs .esp, s.segs .ss] else []

/-- What `struct registers` says of the interrupted code. -/
def saved (s : State) (vector errCode : ℕ) : Registers where
  ds := s.segs .ds
  edi := s.cpu.regs .edi
  esi := s.cpu.regs .esi
  ebp := s.cpu.regs .ebp
  ebx := s.cpu.regs .ebx
  edx := s.cpu.regs .edx
  ecx := s.cpu.regs .ecx
  eax := s.cpu.regs .eax
  intNo := vector
  errCode := errorWord vector errCode
  eip := s.cpu.eip
  cs := s.segs .cs
  eflags := s.eflags

/-- Registers, flags and selectors hold values of their widths. -/
structure Sized (s : State) : Prop where
  regs : s.cpu.Wf
  eip : s.cpu.eip < 2 ^ 32
  eflags : s.eflags < 2 ^ 32
  segs : ∀ g, s.segs g < 2 ^ 16

variable {s t h : State} {vector errCode entry afterCall r : ℕ} {code : List Usermode.Op}

/-! ## On the way in -/

/-- What the gate pushes, first word first. -/
def gateWords (s : State) : List ℕ :=
  (if Outer s then [s.segs .ss, s.cpu.regs .esp] else []) ++ [s.eflags, s.segs .cs, s.cpu.eip]

theorem interrupt_cpu : (s.interrupt entry).cpu =
    { (s.cpu.set .esp (stackTop s)).pushAll (gateWords s) with eip := entry } := by
  by_cases ho : Outer s
  · simp [State.interrupt, show s.segs .cs &&& 3 ≠ 0 from ho, stackTop, ho, gateWords]
  · simp [State.interrupt, show s.segs .cs &&& 3 = 0 from not_not.mp ho, stackTop, ho, gateWords,
      Cpu.set]

theorem interrupt_segs : (s.interrupt entry).segs =
    Function.update (Function.update s.segs .cs 0x08) .ss
      (if Outer s then s.ss0 else s.segs .ss) := rfl

/-- With the words of gate and stub the stack looks the same for every vector. -/
theorem gate_stub (s : State) (errCode entry : ℕ) (hcode : stub vector = some code) :
    ((gate s vector errCode entry).run code).cpu =
        { (s.cpu.set .esp (stackTop s)).pushAll
            (gateWords s ++ [errorWord vector errCode, vector]) with eip := entry } ∧
      ((gate s vector errCode entry).run code).segs = (s.interrupt entry).segs ∧
      ((gate s vector errCode entry).run code).ss0 = s.ss0 ∧
      ((gate s vector errCode entry).run code).esp0 = s.esp0 := by
  by_cases hv : vector ∈ errcodeVectors
  · obtain rfl : isrErrcode vector = code := by simpa [stub, hv] using hcode
    rw [gate, if_pos hv, errorWord, if_pos hv, Cpu.pushAll_append, ← Cpu.pushAll_withEip,
      ← interrupt_cpu]
    exact ⟨rfl, rfl, rfl, rfl⟩
  · obtain rfl : [.cli, .pushImm 0, .pushImm vector] = code := by
      simp only [stub, if_neg hv, isrNoerrcode, irq] at hcode
      split at hcode
      · exact Option.some.inj hcode
      · split at hcode
        · exact Option.some.inj hcode
        · cases hcode
    rw [gate, if_neg hv, errorWord, if_neg hv, Cpu.pushAll_append, ← Cpu.pushAll_withEip,
      ← interrupt_cpu]
    exact ⟨rfl, rfl, rfl, rfl⟩

/-- The common stub saves the registers and passes the address of what it saved. -/
theorem run_commonEntry (afterCall : ℕ) {u : State} {e : ℕ} (he : u.cpu.regs .esp = e + 44) (hlt : e + 44 < 2 ^ 32) :
    (u.run (commonEntry afterCall)).cpu.mem = (u.cpu.pushAll (pushaOrder.map u.cpu.regs ++
        [low16 (u.cpu.regs .eax) (u.segs .ds), e + 8, afterCall])).mem ∧
      (u.run (commonEntry afterCall)).cpu.regs .esp = e ∧
      (u.run (commonEntry afterCall)).segs .cs = u.segs .cs ∧
      (u.run (commonEntry afterCall)).segs .ss = u.segs .ss := by
  obtain ⟨c, hc⟩ : ∃ c, c = u.cpu.pushAll (pushaOrder.map u.cpu.regs) := ⟨_, rfl⟩
  have hesp : c.regs .esp = e + 12 := hc ▸ Cpu.pushAll_esp he hlt
  have heax : c.regs .eax = u.cpu.regs .eax := hc ▸ Cpu.pushAll_regs_of_ne (by decide)
  obtain ⟨hmem, hsp⟩ := run_passFrame ⟨0, 0, afterCall⟩ (s := { u with cpu := c }) hesp (by omega)
  have h8 : sub32 (e + 12) 4 = e + 8 := sub32_of_le (by omega) (by omega)
  have h4 : sub32 (e + 8) 4 = e + 4 := sub32_of_le (by omega) (by omega)
  have h0 : sub32 (e + 4) 4 = e := sub32_of_le (by omega) (by omega)
  have hrun : u.run (commonEntry afterCall) =
      State.run { u with cpu := c } (passFrame ⟨0, 0, afterCall⟩) := by
    rw [hc, State.run, show commonEntry afterCall = .pusha :: passFrame ⟨0, 0, afterCall⟩ from rfl,
      List.foldl_cons, State.exec, State.run]
  rw [hrun]
  refine ⟨hmem.trans ?_, hsp, rfl, rfl⟩
  rw [Cpu.pushAll_append, ← hc]
  simp [hesp, heax, h8, h4, h0]

/-- How many bytes the frame takes behind the argument of the handler. -/
def frameSize (s : State) : ℕ := if Outer s then 64 else 56

theorem frame_length (s : State) (vector errCode r : ℕ) :
    4 * (frame s vector errCode r).length = frameSize s := by
  by_cases ho : Outer s <;> simp [frame, frameSize, ho]

/-- Return address, argument and frame lie on the stack when the handler starts. -/
theorem atHandler_words {e : ℕ} (hh : atHandler s vector errCode entry afterCall = some h)
    (he : stackTop s = e + 8 + frameSize s) (hlt : stackTop s < 2 ^ 32) :
    h.cpu.mem = ((s.cpu.set .esp (stackTop s)).pushAll
        ([afterCall, e + 8] ++ frame s vector errCode (e + 8)).reverse).mem ∧
      h.cpu.regs .esp = e ∧ h.segs .cs = 0x08 ∧
      h.segs .ss = (if Outer s then s.ss0 else s.segs .ss) := by
  obtain ⟨code, hcode, rfl⟩ := Option.map_eq_some_iff.mp hh
  obtain ⟨hcpu, hsegs, -, -⟩ := gate_stub s errCode entry hcode
  obtain ⟨u, hu⟩ : ∃ u, u = (gate s vector errCode entry).run code := ⟨_, rfl⟩
  obtain ⟨c, hc⟩ : ∃ c, c = (s.cpu.set .esp (stackTop s)).pushAll
    (gateWords s ++ [errorWord vector errCode, vector]) := ⟨_, rfl⟩
  rw [← hu, ← hc] at hcpu
  rw [← hu] at hsegs
  have hlen : 4 * (gateWords s ++ [errorWord vector errCode, vector]).length + 44 =
      8 + frameSize s := by
    by_cases ho : Outer s <;> simp [frameSize, gateWords, ho]
  have hesp : c.regs .esp = e + 44 := by
    have htop : (s.cpu.set .esp (stackTop s)).regs .esp = e + 44 +
        4 * (gateWords s ++ [errorWord vector errCode, vector]).length := by
      rw [Cpu.set_regs_self]
      omega
    exact hc ▸ Cpu.pushAll_esp htop (by omega)
  have hregs {r : Reg} (hr : r ≠ .esp) : c.regs r = s.cpu.regs r := by
    rw [hc, Cpu.pushAll_regs_of_ne hr, Cpu.set_regs_of_ne hr]
  have hregsu : u.cpu.regs = c.regs := by rw [hcpu]
  have hds : u.segs .ds = s.segs .ds := by
    rw [hsegs, interrupt_segs]
    rfl
  obtain ⟨hmem, hsp, hcs, hss⟩ := run_commonEntry afterCall (u := u)
    (hregsu ▸ hesp) (by omega)
  have hwords : gateWords s ++ [errorWord vector errCode, vector] ++ (pushaOrder.map c.regs ++
      [low16 (c.regs .eax) (s.segs .ds), e + 8, afterCall]) =
      ([afterCall, e + 8] ++ frame s vector errCode (e + 8)).reverse := by
    simp only [pushaOrder, List.map_cons, List.map_nil, hregs, hesp, ne_eq, reduceCtorEq,
      not_false_eq_true]
    by_cases ho : Outer s <;> simp [frame, gateWords, ho, Nat.add_assoc]
  rw [← hu]
  refine ⟨?_, hsp, ?_, ?_⟩
  · rw [hmem, hds, hregsu, hcpu, Cpu.pushAll_withEip, hc, ← Cpu.pushAll_append, ← hc, hwords]
  · rw [hcs, hsegs, interrupt_segs]
    rfl
  · rw [hss, hsegs, interrupt_segs]
    rfl

/-- The instructions whose results have the width of the registers by themselves. -/
def Plain : Usermode.Op → Prop
  | .orImm _ _ => False
  | .iret => False
  | _ => True

theorem low16_lt {old v : ℕ} (h : old < 2 ^ 32) : low16 old v < 2 ^ 32 := by
  unfold low16
  omega

theorem run_wf {code : List Usermode.Op} (hs : s.cpu.Wf) (hcode : ∀ o ∈ code, Plain o) :
    (s.run code).cpu.Wf := by
  induction code generalizing s with
  | nil => exact hs
  | cons o code ih =>
    apply ih (s := s.exec o) _ (fun o ho => hcode o (List.mem_cons_of_mem _ ho))
    have ho := hcode o List.mem_cons_self
    cases o with
    | base i => exact hs.exec i
    | pushImm v => exact hs.pushWord
    | pushf => exact hs.pushWord
    | pusha => exact hs.pushAll _
    | orImm v dst => cases ho
    | movImm16 v dst => exact hs.set (low16_lt (hs dst))
    | toSeg src dst => exact hs
    | fromSeg src dst => exact hs.set (low16_lt (hs dst))
    | storeAbs src addr => exact hs.write
    | loadAbs addr dst => exact hs.set (readWord_lt _ _)
    | cli => exact hs
    | iret => cases ho

theorem atHandler_wf (hs : s.cpu.Wf) (htop : stackTop s < 2 ^ 32)
    (hh : atHandler s vector errCode entry afterCall = some h) : h.cpu.Wf := by
  obtain ⟨code, hcode, rfl⟩ := Option.map_eq_some_iff.mp hh
  apply run_wf
  · rw [(gate_stub s errCode entry hcode).1]
    exact (hs.set htop).pushAll _
  · intro o ho
    simp only [commonEntry, List.mem_cons, List.not_mem_nil, or_false] at ho
    rcases ho with rfl | rfl | rfl | rfl | rfl | rfl | rfl | rfl | rfl | rfl <;> trivial

section entry
variable {e : ℕ}

theorem atHandler_word (hh : atHandler s vector errCode entry afterCall = some h)
    (he : stackTop s = e + 8 + frameSize s) (hlt : stackTop s < 2 ^ 32) {k : ℕ}
    (hk : k < (frame s vector errCode (e + 8)).length) :
    readWord h.cpu.mem (e + 8 + 4 * k) = u32 (frame s vector errCode (e + 8))[k] := by
  have hlen := frame_length s vector errCode (e + 8)
  have htop : (s.cpu.set .esp (stackTop s)).regs .esp =
      e + 4 * ([afterCall, e + 8] ++ frame s vector errCode (e + 8)).length := by
    rw [Cpu.set_regs_self, List.length_append, List.length_cons, List.length_cons, List.length_nil]
    omega
  have hword := Cpu.pushAll_reverse_word htop (by rwa [← htop, Cpu.set_regs_self]) (k := k + 2)
    (by rw [List.length_append, List.length_cons, List.length_cons, List.length_nil]; omega)
  rw [(atHandler_words hh he hlt).1, show e + 8 + 4 * k = e + 4 * (k + 2) by omega, hword]
  rfl

/-- Nothing else changes in memory. -/
theorem atHandler_outside (hh : atHandler s vector errCode entry afterCall = some h)
    (he : stackTop s = e + 8 + frameSize s) (hlt : stackTop s < 2 ^ 32) {x : ℕ}
    (hx : x < e ∨ stackTop s ≤ x) : h.cpu.mem x = s.cpu.mem x := by
  have hlen := frame_length s vector errCode (e + 8)
  have hlen' : 4 * ([afterCall, e + 8] ++ frame s vector errCode (e + 8)).reverse.length =
      8 + frameSize s := by
    rw [List.length_reverse, List.length_append, List.length_cons, List.length_cons, List.length_nil]
    omega
  have htop : (s.cpu.set .esp (stackTop s)).regs .esp =
      e + 4 * ([afterCall, e + 8] ++ frame s vector errCode (e + 8)).reverse.length := by
    rw [Cpu.set_regs_self]
    omega
  rw [(atHandler_words hh he hlt).1, Cpu.pushAll_outside htop (by omega) (by omega)]
  rfl

theorem low16_mod (old v : ℕ) : low16 old v % 2 ^ 16 = v % 2 ^ 16 := by
  rw [low16, Nat.mul_add_mod_self_right, Nat.mod_mod]

/-- The handler finds the interrupted code in `struct registers`. -/
theorem registersAt_atHandler (hs : Sized s)
    (hh : atHandler s vector errCode entry afterCall = some h)
    (he : stackTop s = e + 8 + frameSize s) (hlt : stackTop s < 2 ^ 32) (herr : errCode < 2 ^ 32) :
    registersAt h.cpu.mem (e + 8) = saved s vector errCode := by
  have hlen := frame_length s vector errCode (e + 8)
  have hw {k : ℕ} (hk : k < 14) : readWord h.cpu.mem (e + 8 + 4 * k) =
      u32 ((frame s vector errCode (e + 8)).getD k 0) := by
    have hk' : k < (frame s vector errCode (e + 8)).length := by
      by_cases ho : Outer s <;> simp [frame, ho] <;> omega
    rw [atHandler_word hh he hlt hk', List.getD_eq_getElem?_getD, List.getElem?_eq_getElem hk',
      Option.getD_some]
  have hreg (r : Reg) : u32 (s.cpu.regs r) = s.cpu.regs r := u32_of_lt (hs.regs r)
  have hvector : vector < 2 ^ 32 := by
    obtain ⟨code, hcode, -⟩ := Option.map_eq_some_iff.mp hh
    unfold stub errcodeVectors at hcode
    grind
  have herror : errorWord vector errCode < 2 ^ 32 := by
    unfold errorWord
    split
    · exact herr
    · decide
  ext
  · have hds := hw (k := 0) (by decide)
    change readWord h.cpu.mem (e + 8) % 2 ^ 16 = s.segs .ds
    rw [show readWord h.cpu.mem (e + 8) = _ from hds]
    change low16 (s.cpu.regs .eax) (s.segs .ds) % 2 ^ 32 % 2 ^ 16 = s.segs .ds
    rw [Nat.mod_mod_of_dvd _ (by decide), low16_mod, Nat.mod_eq_of_lt (hs.segs .ds)]
  · exact (hw (k := 1) (by decide)).trans (hreg _)
  · exact (hw (k := 2) (by decide)).trans (hreg _)
  · exact (hw (k := 3) (by decide)).trans (hreg _)
  · exact (hw (k := 5) (by decide)).trans (hreg _)
  · exact (hw (k := 6) (by decide)).trans (hreg _)
  · exact (hw (k := 7) (by decide)).trans (hreg _)
  · exact (hw (k := 8) (by decide)).trans (hreg _)
  · exact (hw (k := 9) (by decide)).trans (u32_of_lt hvector)
  · exact (hw (k := 10) (by decide)).trans (u32_of_lt herror)
  · exact (hw (k := 11) (by decide)).trans (u32_of_lt hs.eip)
  · exact (hw (k := 12) (by decide)).trans (u32_of_lt ((hs.segs .cs).trans (by decide)))
  · exact (hw (k := 13) (by decide)).trans (u32_of_lt hs.eflags)

end entry

/-! ## On the way back -/

/-- The state that the frame at `r` describes, in the memory of `t`. -/
def restored (t : State) (r : ℕ) : State :=
  let q := registersAt t.cpu.mem r
  let inner := q.cs &&& 3 = t.segs .cs &&& 3
  { t with
    cpu :=
      { regs := fun
          | .eax => q.eax
          | .ecx => q.ecx
          | .edx => q.edx
          | .ebx => q.ebx
          | .esp => if inner then u32 (r + 56) else readWord t.cpu.mem (u32 (r + 56))
          | .ebp => q.ebp
          | .esi => q.esi
          | .edi => q.edi
        eip := q.eip
        mem := t.cpu.mem }
    segs := fun
      | .cs => q.cs
      | .ss => if inner then t.segs .ss else readWord t.cpu.mem (u32 (r + 60))
      | _ => q.ds
    eflags := q.eflags }

/-- The registers popped behind the saved selector. -/
theorem popa_regs {c : Cpu} (hc : c.regs .esp = r + 4) (hlt : r + 36 < 2 ^ 32) (i : ℕ)
    (hi : i < pushaOrder.reverse.length) (hsp : pushaOrder.reverse[i] ≠ .esp) :
    (c.popAll pushaOrder.reverse).regs pushaOrder.reverse[i] = readWord c.mem (r + 4 + 4 * i) := by
  have hend : r + 4 + 4 * pushaOrder.reverse.length < 2 ^ 32 := hlt
  exact Cpu.popAll_regs hc hend (by decide) hi hsp

/-- The data selectors reloaded. -/
def reload (segs : Seg → ℕ) (v : ℕ) : Seg → ℕ :=
  Function.update (Function.update (Function.update (Function.update segs .ds v) .es v) .fs v) .gs v

/-- What the stub does before its `iret`. -/
theorem leave_iret (ht : t.cpu.regs .esp + 4 = r) (hlt : r + 56 ≤ 2 ^ 32) :
    ∃ c : Cpu, c.mem = t.cpu.mem ∧ c.regs .esp = r + 44 ∧
      (∀ i (hi : i < pushaOrder.reverse.length), pushaOrder.reverse[i] ≠ .esp →
        c.regs pushaOrder.reverse[i] = readWord t.cpu.mem (r + 4 + 4 * i)) ∧
      leave t = State.iret
        { t with
          cpu := c
          segs := reload t.segs (readWord t.cpu.mem r % 2 ^ 16)
          eflags := t.eflags ||| 0x200 } := by
  have hr : u32 (t.cpu.regs .esp + 4) = r := by
    rw [ht]
    exact u32_of_lt (by omega)
  obtain ⟨c, hc⟩ : ∃ c, c = (t.cpu.set .esp r).exec (.pop .eax) := ⟨_, rfl⟩
  have hmem : c.mem = t.cpu.mem := by rw [hc]; rfl
  have hesp : c.regs .esp = r + 4 := by
    rw [hc, Cpu.exec, Cpu.set_regs_of_ne (by decide), Cpu.drop_esp, Cpu.set_regs_self,
      u32_of_lt (by omega)]
  have heax : c.regs .eax = readWord t.cpu.mem r := by
    rw [hc, Cpu.exec, Cpu.set_regs_self, Cpu.top, Cpu.set_regs_self, Cpu.set_mem]
  have hend : (c.popAll pushaOrder.reverse).regs .esp = r + 36 :=
    Cpu.popAll_esp hesp (show r + 4 + 4 * 8 < 2 ^ 32 by omega)
  have h44 : u32 (r + 36 + 8) = r + 44 := u32_of_lt (by omega)
  refine ⟨(c.popAll pushaOrder.reverse).set .esp (r + 44), ?_, Cpu.set_regs_self, ?_, ?_⟩
  · rw [Cpu.set_mem, Cpu.popAll_mem, hmem]
  · intro i hi hsp
    rw [Cpu.set_regs_of_ne hsp, popa_regs hesp (by omega) i hi hsp, hmem]
  · simp only [leave, commonExit, run, List.foldl_cons, List.foldl_nil, exec, State.exec,
      State.setSeg, hr, ← hc, hend, h44, heax, reload]

/-- The stub takes every register from the frame above its argument. -/
theorem leave_eq (ht : t.cpu.regs .esp + 4 = r) (hlt : r + 56 ≤ 2 ^ 32) : leave t = restored t r := by
  obtain ⟨c, hmem, hesp, hregs, hrun⟩ := leave_iret ht hlt
  have h48 : u32 (r + 44 + 4 * 1) = r + 48 := u32_of_lt (by omega)
  have h52 : u32 (r + 44 + 4 * 2) = r + 52 := u32_of_lt (by omega)
  have h44 : u32 (r + 44 + 4 * 0) = r + 44 := u32_of_lt (by omega)
  rw [hrun, State.iret, restored]
  simp only [State.word, hmem, hesp, h44, h48, h52, State.mk.injEq, Cpu.mk.injEq, Cpu.set_mem,
    and_true]
  refine ⟨⟨?_, rfl⟩, ?_, rfl⟩
  · funext x
    cases x with
    | esp => exact Cpu.set_regs_self
    | edi => exact (Cpu.set_regs_of_ne (by decide)).trans (hregs 0 (by decide) (by decide))
    | esi => exact (Cpu.set_regs_of_ne (by decide)).trans (hregs 1 (by decide) (by decide))
    | ebp => exact (Cpu.set_regs_of_ne (by decide)).trans (hregs 2 (by decide) (by decide))
    | ebx => exact (Cpu.set_regs_of_ne (by decide)).trans (hregs 4 (by decide) (by decide))
    | edx => exact (Cpu.set_regs_of_ne (by decide)).trans (hregs 5 (by decide) (by decide))
    | ecx => exact (Cpu.set_regs_of_ne (by decide)).trans (hregs 6 (by decide) (by decide))
    | eax => exact (Cpu.set_regs_of_ne (by decide)).trans (hregs 7 (by decide) (by decide))
  · funext g
    cases g <;> rfl

theorem restored_wf (t : State) (r : ℕ) : (restored t r).cpu.Wf := by
  intro x
  cases x with
  | esp =>
    change (if _ then u32 (r + 56) else readWord t.cpu.mem (u32 (r + 56))) < 2 ^ 32
    split
    · exact u32_lt _
    · exact readWord_lt _ _
  | _ => exact readWord_lt _ _

end ShadOS.Stubs

import ShadOS.Machine.Memory
import Mathlib.Logic.Function.Basic

/-! # A processor with a stack

Eight 32-bit registers, an instruction pointer and the moves, pushes, pops and
returns that a context switch needs. The stack grows downwards and the stack
pointer names its last word.
-/

namespace ShadOS.Machine

inductive Reg where
  | eax
  | ecx
  | edx
  | ebx
  | esp
  | ebp
  | esi
  | edi
  deriving DecidableEq, Repr

@[ext] structure Cpu where
  regs : Reg → ℕ
  eip : ℕ
  mem : Mem

/-- Operands in the order of the assembly text. -/
inductive Instr where
  /-- `push %src` -/
  | push (src : Reg)
  /-- `pop %dst` -/
  | pop (dst : Reg)
  /-- `mov disp(%base), %dst` -/
  | load (disp : ℕ) (base dst : Reg)
  /-- `mov %src, (%base)` -/
  | store (src base : Reg)
  | ret
  deriving Repr

namespace Cpu

def set (c : Cpu) (r : Reg) (v : ℕ) : Cpu := { c with regs := Function.update c.regs r v }

def write (c : Cpu) (a v : ℕ) : Cpu := { c with mem := writeWord c.mem a v }

/-- The word the stack pointer names. -/
def top (c : Cpu) : ℕ := readWord c.mem (c.regs .esp)

def drop (c : Cpu) : Cpu := c.set .esp (u32 (c.regs .esp + 4))

def pushWord (c : Cpu) (v : ℕ) : Cpu :=
  (c.set .esp (sub32 (c.regs .esp) 4)).write (sub32 (c.regs .esp) 4) v

def exec (c : Cpu) : Instr → Cpu
  | .push src => c.pushWord (c.regs src)
  | .pop dst => c.drop.set dst c.top
  | .load disp base dst => c.set dst (readWord c.mem (u32 (c.regs base + disp)))
  | .store src base => c.write (c.regs base) (c.regs src)
  | .ret => { c.drop with eip := c.top }

/-- Straight-line code. -/
def run (c : Cpu) (code : List Instr) : Cpu := code.foldl exec c

variable {c : Cpu} {r r' : Reg} {v : ℕ}

theorem run_append (c : Cpu) (code code' : List Instr) :
    c.run (code ++ code') = (c.run code).run code' := List.foldl_append

@[simp] theorem set_regs_self : (c.set r v).regs r = v := Function.update_self _ _ _
@[simp] theorem set_regs_of_ne (h : r' ≠ r) : (c.set r v).regs r' = c.regs r' :=
  Function.update_of_ne h _ _
@[simp] theorem set_mem : (c.set r v).mem = c.mem := rfl

@[simp] theorem write_regs {a : ℕ} : (c.write a v).regs = c.regs := rfl
@[simp] theorem write_mem {a : ℕ} : (c.write a v).mem = writeWord c.mem a v := rfl

@[simp] theorem drop_esp : c.drop.regs .esp = u32 (c.regs .esp + 4) := set_regs_self
@[simp] theorem drop_regs_of_ne (h : r ≠ .esp) : c.drop.regs r = c.regs r := set_regs_of_ne h
@[simp] theorem drop_mem : c.drop.mem = c.mem := rfl

@[simp] theorem pushWord_esp : (c.pushWord v).regs .esp = sub32 (c.regs .esp) 4 := by
  rw [pushWord, write_regs, set_regs_self]

@[simp] theorem pushWord_regs_of_ne (h : r ≠ .esp) : (c.pushWord v).regs r = c.regs r := by
  rw [pushWord, write_regs, set_regs_of_ne h]

@[simp] theorem pushWord_mem :
    (c.pushWord v).mem = writeWord c.mem (sub32 (c.regs .esp) 4) v := write_mem

/-! ## Several words at once -/

/-- The words, pushed in turn. -/
def pushAll (c : Cpu) (ws : List ℕ) : Cpu := ws.foldl pushWord c

@[simp] theorem pushAll_nil : c.pushAll [] = c := rfl

@[simp] theorem pushAll_cons {w : ℕ} {ws : List ℕ} :
    c.pushAll (w :: ws) = (c.pushWord w).pushAll ws := rfl

theorem pushAll_regs_of_ne {ws : List ℕ} (h : r ≠ .esp) : (c.pushAll ws).regs r = c.regs r := by
  induction ws generalizing c with
  | nil => rfl
  | cons w ws ih => rw [pushAll_cons, ih, pushWord_regs_of_ne h]

section pushAll
variable {e : ℕ} {ws : List ℕ}

theorem pushWord_esp_eq (he : c.regs .esp = e + 4) (hlt : e + 4 < 2 ^ 32) :
    (c.pushWord v).regs .esp = e := by
  rw [pushWord_esp, he, sub32_of_le (by omega) hlt, Nat.add_sub_cancel]

theorem pushAll_esp (he : c.regs .esp = e + 4 * ws.length) (hlt : e + 4 * ws.length < 2 ^ 32) :
    (c.pushAll ws).regs .esp = e := by
  induction ws generalizing c with
  | nil => simpa using he
  | cons w ws ih =>
    rw [List.length_cons] at he hlt
    exact ih (pushWord_esp_eq (by omega) (by omega)) (by omega)

theorem pushAll_outside (he : c.regs .esp = e + 4 * ws.length) (hlt : e + 4 * ws.length < 2 ^ 32)
    {x : ℕ} (hx : x < e ∨ e + 4 * ws.length ≤ x) : (c.pushAll ws).mem x = c.mem x := by
  induction ws generalizing c with
  | nil => rfl
  | cons w ws ih =>
    rw [List.length_cons] at he hlt hx
    have he' : c.regs .esp = e + 4 * ws.length + 4 := by omega
    rw [pushAll_cons, ih (pushWord_esp_eq he' (by omega)) (by omega) (by omega), pushWord_mem, he',
      sub32_of_le (by omega) (by omega)]
    exact writeWord_outside (by omega)

/-- The `i`-th word pushed. -/
theorem pushAll_word (he : c.regs .esp = e + 4 * ws.length) (hlt : e + 4 * ws.length < 2 ^ 32)
    {i : ℕ} (hi : i < ws.length) :
    readWord (c.pushAll ws).mem (e + 4 * (ws.length - 1 - i)) = u32 ws[i] := by
  induction ws generalizing c i with
  | nil => cases hi
  | cons w ws ih =>
    rw [List.length_cons] at he hlt hi
    have he' : c.regs .esp = e + 4 * ws.length + 4 := by omega
    have hesp := pushWord_esp_eq (v := w) he' (by omega)
    rw [List.length_cons]
    cases i with
    | zero =>
      have hkeep : readWord ((c.pushWord w).pushAll ws).mem (e + 4 * ws.length) =
          readWord (c.pushWord w).mem (e + 4 * ws.length) := by
        apply readWord_congr
        intro x hx _
        exact pushAll_outside hesp (by omega) (.inr hx)
      rw [pushAll_cons, Nat.sub_zero, Nat.add_sub_cancel, hkeep, pushWord_mem, he',
        sub32_of_le (by omega) (by omega), Nat.add_sub_cancel, readWord_writeWord_same]
      rfl
    | succ i =>
      rw [show ws.length + 1 - 1 - (i + 1) = ws.length - 1 - i by omega]
      exact ih hesp (by omega) (by omega)

end pushAll

/-- Registers hold 32-bit values. -/
def Wf (c : Cpu) : Prop := ∀ r, c.regs r < 2 ^ 32

theorem Wf.set (h : c.Wf) (hv : v < 2 ^ 32) : (c.set r v).Wf := by
  intro r'
  by_cases hr : r' = r
  · subst hr
    rwa [set_regs_self]
  · rw [set_regs_of_ne hr]
    apply h

theorem Wf.drop (h : c.Wf) : c.drop.Wf := h.set (u32_lt _)

theorem Wf.write {a : ℕ} (h : c.Wf) : (c.write a v).Wf := h

theorem Wf.pushWord (h : c.Wf) : (c.pushWord v).Wf := (h.set (sub32_lt _ _)).write

theorem Wf.exec (h : c.Wf) (i : Instr) : (c.exec i).Wf := by
  cases i with
  | push src => exact h.pushWord
  | pop dst => exact h.drop.set (readWord_lt _ _)
  | load disp base dst => exact h.set (readWord_lt _ _)
  | store src base => exact h.write
  | ret => exact h.drop

theorem Wf.run (h : c.Wf) (code : List Instr) : (c.run code).Wf := by
  induction code generalizing c with
  | nil => exact h
  | cons i code ih => exact ih (h.exec i)

end Cpu
end ShadOS.Machine

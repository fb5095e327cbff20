import ShadOS.Interrupts.Source
import ShadOS.Heap.Source

/-! # Interrupt lines

A driver stores its routine for a line in the table of idt.c and clears the bit
of the line in a mask register of pic.c. Neither checks the number of the line.
-/

namespace ShadOS.Interrupts
open Machine
open Heap (not32)

def pic1Data : ℕ := 0x21
def pic2Data : ℕ := 0xA1

/-- The mask registers of the two controllers. -/
structure Masks where
  master : ℕ
  slave : ℕ
  deriving DecidableEq, Repr

namespace Masks

def inb (m : Masks) (port : ℕ) : ℕ :=
  if port = pic1Data then m.master % 2 ^ 8 else if port = pic2Data then m.slave % 2 ^ 8 else 0

def outb (m : Masks) (port v : ℕ) : Masks :=
  if port = pic1Data then { m with master := v % 2 ^ 8 }
  else if port = pic2Data then { m with slave := v % 2 ^ 8 }
  else m

/-- The bit that holds a line back: lines 8 to 15 are those of the slave. -/
def masked (m : Masks) (line : ℕ) : Bool :=
  if line < 8 then m.master.testBit line else m.slave.testBit (line - 8)

end Masks

/-- The shift count of `1 << irq_line` is taken modulo 32 by the processor. -/
def picUnmaskIrq (m : Masks) (irq : ℕ) : Masks :=
  let port := if irq < 8 then pic1Data else pic2Data
  let irqLine := if irq < 8 then irq else (irq - 8) % 2 ^ 8
  m.outb port (m.inb port &&& not32 (u32 (1 <<< (irqLine % 32))))

/-- The words from `irq_routines` on; the array has 16 of them. -/
abbrev Routines := ℕ → ℕ

def irqRoutinesSize : ℕ := 16

def irqInstallHandler (t : Routines) (irq handler : ℕ) : Routines := Function.update t irq handler

/-- The routine `irq_handler` calls, if any, and the end of interrupt it writes. -/
def irqHandler (t : Routines) (intNo : ℕ) : Option ℕ × List (ℕ × ℕ) :=
  let irq := irqOf intNo
  (if t irq ≠ 0 then some (t irq) else none, picSendEoi irq)

variable {m : Masks} {irq line i x : ℕ}

theorem not32_testBit {v : ℕ} (hv : v < 2 ^ 32) (hi : i < 32) :
    (not32 v).testBit i = !v.testBit i := by
  have hsub : not32 v = 2 ^ 32 - (v + 1) := by
    unfold not32
    omega
  rw [hsub, Nat.testBit_two_pow_sub_succ hv, decide_eq_true hi, Bool.true_and]

/-- Clearing one bit of a byte. -/
theorem clear_testBit (hn : line < 32) (hi : i < 8) :
    ((x % 2 ^ 8 &&& not32 (u32 (1 <<< line))) % 2 ^ 8).testBit i =
      (x.testBit i && !decide (line = i)) := by
  have hpow : u32 (1 <<< line) = 2 ^ line := by
    rw [Nat.one_shiftLeft, u32_of_lt (Nat.pow_lt_pow_right (by decide) hn)]
  rw [Nat.testBit_mod_two_pow, Nat.testBit_and, Nat.testBit_mod_two_pow, hpow,
    not32_testBit (Nat.pow_lt_pow_right (by decide) hn) (by omega), Nat.testBit_two_pow,
    decide_eq_true hi, Bool.true_and, Bool.true_and]

/-- A line below 16 is let through; the other lines stay as they were. -/
theorem picUnmaskIrq_masked (hirq : irq < 16) (hline : line < 16) :
    (picUnmaskIrq m irq).masked line = (m.masked line && !decide (irq = line)) := by
  by_cases h8 : irq < 8
  · by_cases hl : line < 8
    · simp only [picUnmaskIrq, if_pos h8, Masks.outb, Masks.inb, if_true, Masks.masked, if_pos hl]
      rw [clear_testBit (by omega) hl, Nat.mod_eq_of_lt (by omega)]
    · have hne : irq ≠ line := by omega
      simp [picUnmaskIrq, h8, hl, Masks.outb, Masks.masked, hne]
  · have hport : pic2Data ≠ pic1Data := by decide
    by_cases hl : line < 8
    · have hne : irq ≠ line := by omega
      simp [picUnmaskIrq, h8, hl, Masks.outb, Masks.masked, hne, hport]
    · simp only [picUnmaskIrq, if_neg h8, Masks.outb, Masks.inb, if_neg hport, if_true, Masks.masked,
        if_neg hl]
      have hmod : (irq - 8) % 2 ^ 8 % 32 = irq - 8 := by omega
      rw [hmod, clear_testBit (by omega) (by omega)]
      congr 2
      exact decide_eq_decide.mpr (by omega)

/-- `irq_handler` finds the routine installed for a line. -/
theorem irqHandler_installed (t : Routines) {handler : ℕ} (hline : line < 16) (h0 : handler ≠ 0) :
    (irqHandler (irqInstallHandler t line handler) (32 + line)).1 = some handler := by
  have hirq : irqOf (32 + line) = line := by
    rw [irqOf, sub32_of_le (by omega) (by omega)]
    omega
  simp only [irqHandler, hirq, irqInstallHandler, Function.update_self, ne_eq, h0, not_false_iff,
    if_true]

end ShadOS.Interrupts

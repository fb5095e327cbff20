import ShadOS.Machine.Memory

/-! # The kernel allocator of heap.c

Block headers `{ size, free, next }` lie in the same memory as the payloads.
Every loop follows 32-bit pointers, so it is given one step per pointer value;
running out of steps means that the loop does not end.
-/

namespace ShadOS.Heap
open Machine

def heapSize : ℕ := 8 * 1024 * 1024
def alignment : ℕ := 8
def minBlockData : ℕ := 16
/-- `sizeof(block_header_t)` with 32-bit `size_t`, `int` and pointers. -/
def headerSize : ℕ := 12

/-- One loop step per pointer value. -/
def loopFuel : ℕ := 2 ^ 32

/-- `~n` on a 32-bit word. -/
def not32 (n : ℕ) : ℕ := 2 ^ 32 - 1 - n

def alignUp (n align : ℕ) : ℕ := u32 (n + align - 1) &&& not32 (align - 1)

/-- The static variables of heap.c. -/
structure HeapVars where
  heapStart : ℕ
  heapBaseAddr : ℕ
  heapTotalSize : ℕ
  deriving DecidableEq, Repr

section header
variable (m : Mem) (b v : ℕ)

def sizeOf : ℕ := readWord m b
def freeOf : ℕ := readWord m (b + 4)
def nextOf : ℕ := readWord m (b + 8)
def setSize : Mem := writeWord m b v
def setFree : Mem := writeWord m (b + 4) v
def setNext : Mem := writeWord m (b + 8) v

end header

def heapInit (kernelEnd : ℕ) (m : Mem) : HeapVars × Mem :=
  let heapBaseAddr := alignUp kernelEnd 4096
  let m := setSize m heapBaseAddr (heapSize - headerSize)
  let m := setFree m heapBaseAddr 1
  let m := setNext m heapBaseAddr 0
  (⟨heapBaseAddr, heapBaseAddr, heapSize⟩, m)

/-- The split of `cur` when enough of it remains, then its payload pointer. -/
def takeBlock (size : ℕ) (m : Mem) (cur : ℕ) : ℕ × Mem :=
  let remaining := sizeOf m cur - size
  let m :=
    if headerSize + minBlockData ≤ remaining then
      let newBlock := u32 (cur + headerSize + size)
      let m := setSize m newBlock (remaining - headerSize)
      let m := setFree m newBlock 1
      let m := setNext m newBlock (nextOf m cur)
      let m := setSize m cur size
      setNext m cur newBlock
    else m
  (u32 (cur + headerSize), setFree m cur 0)

def kmallocLoop (size : ℕ) : ℕ → Mem → ℕ → Option (ℕ × Mem)
  | 0, _, _ => none
  | fuel + 1, m, cur =>
    if cur = 0 then some (0, m)
    else if freeOf m cur ≠ 0 ∧ size ≤ sizeOf m cur then some (takeBlock size m cur)
    else kmallocLoop size fuel m (nextOf m cur)

/-- The payload pointer, or 0 for `NULL`; no result when the search does not end. -/
def kmalloc (h : HeapVars) (m : Mem) (size : ℕ) : Option (ℕ × Mem) :=
  if size = 0 then some (0, m)
  else kmallocLoop (alignUp size alignment) loopFuel m h.heapStart

/-- `cur` absorbs its successor, header included. -/
def absorbNext (m : Mem) (cur : ℕ) : Mem :=
  let m := setSize m cur (u32 (sizeOf m cur + (headerSize + sizeOf m (nextOf m cur))))
  setNext m cur (nextOf m (nextOf m cur))

def coalesceLoop : ℕ → Mem → ℕ → Option Mem
  | 0, _, _ => none
  | fuel + 1, m, cur =>
    if cur = 0 ∨ nextOf m cur = 0 then some m
    else if freeOf m cur ≠ 0 ∧ freeOf m (nextOf m cur) ≠ 0 then
      -- cur stays: its new successor is tested next
      coalesceLoop fuel (absorbNext m cur) cur
    else coalesceLoop fuel m (nextOf m cur)

def coalesce (h : HeapVars) (m : Mem) : Option Mem := coalesceLoop loopFuel m h.heapStart

def kfree (h : HeapVars) (m : Mem) (ptr : ℕ) : Option Mem :=
  if ptr = 0 then some m
  else coalesce h (setFree m (sub32 ptr headerSize) 1)

/-! ## Rounding -/

theorem and_not32_two_pow {x k : ℕ} (hx : x < 2 ^ 32) (hk : k ≤ 32) :
    x &&& not32 (2 ^ k - 1) = x / 2 ^ k * 2 ^ k := by
  have hmask : not32 (2 ^ k - 1) = (2 ^ (32 - k) - 1) <<< k := by
    have h1 : 2 ^ (32 - k) * 2 ^ k = 2 ^ 32 := by rw [← Nat.pow_add, Nat.sub_add_cancel hk]
    have h2 : 0 < 2 ^ k := Nat.two_pow_pos k
    have h3 : 2 ^ k ≤ 2 ^ 32 := Nat.pow_le_pow_right (by decide) hk
    rw [not32, Nat.shiftLeft_eq, Nat.sub_mul, h1]
    omega
  rw [hmask, ← Nat.shiftLeft_eq, ← Nat.shiftRight_eq_div_pow]
  apply Nat.eq_of_testBit_eq
  intro i
  simp only [Nat.testBit_and, Nat.testBit_shiftLeft, Nat.testBit_two_pow_sub_one,
    Nat.testBit_shiftRight]
  by_cases hi : k ≤ i
  · by_cases h32 : i < 32
    · simp [hi, show i - k < 32 - k by omega, Nat.add_sub_cancel' hi]
    · have : x.testBit i = false := Nat.testBit_lt_two_pow
        (lt_of_lt_of_le hx (Nat.pow_le_pow_right (by decide) (by omega)))
      simp [hi, this, Nat.add_sub_cancel' hi]
  · simp [hi]

theorem alignUp_two_pow (n : ℕ) {k : ℕ} (hk : k ≤ 32) :
    alignUp n (2 ^ k) = u32 (n + 2 ^ k - 1) / 2 ^ k * 2 ^ k :=
  and_not32_two_pow (u32_lt _) hk

/-- The rounding of a request, with the wrap of its addition. -/
theorem alignUp_alignment (n : ℕ) : alignUp n alignment = u32 (n + 7) / 8 * 8 :=
  alignUp_two_pow n (k := 3) (by decide)

theorem alignUp_page (n : ℕ) : alignUp n 4096 = u32 (n + 4095) / 4096 * 4096 :=
  alignUp_two_pow n (k := 12) (by decide)

/-- A request whose rounding does not wrap is rounded to the next multiple of 8. -/
theorem alignUp_of_lt {n : ℕ} (h : n + 7 < 2 ^ 32) :
    n ≤ alignUp n alignment ∧ alignUp n alignment < n + 8 := by
  rw [alignUp_alignment, u32_of_lt h]
  omega

end ShadOS.Heap

import Mathlib.Data.Set.Function
import Mathlib.Order.Interval.Set.Defs
import Mathlib.Tactic.Ring

/-! # Byte-addressed memory with little-endian 32-bit words

A memory assigns a byte to every address. Words are natural numbers below
`2 ^ 32`; a store keeps the low 32 bits of its value. Two accesses to ranges
that do not overlap never influence each other.
-/

namespace ShadOS.Machine

/-- The value of `n` kept in a 32-bit register. -/
def u32 (n : ℕ) : ℕ := n % 2 ^ 32

/-- `a - b` in wrapping 32-bit arithmetic. -/
def sub32 (a b : ℕ) : ℕ := u32 (a + (2 ^ 32 - b))

theorem u32_lt (n : ℕ) : u32 n < 2 ^ 32 := Nat.mod_lt n (by decide)

theorem sub32_lt (a b : ℕ) : sub32 a b < 2 ^ 32 := by
  unfold sub32
  apply u32_lt

theorem u32_of_lt {n : ℕ} (h : n < 2 ^ 32) : u32 n = n := Nat.mod_eq_of_lt h

theorem sub32_of_le {a b : ℕ} (hab : b ≤ a) (ha : a < 2 ^ 32) : sub32 a b = a - b := by
  unfold sub32 u32
  rw [show a + (2 ^ 32 - b) = (a - b) + 2 ^ 32 by omega, Nat.add_mod_right]
  exact Nat.mod_eq_of_lt (by omega)

abbrev Mem := ℕ → UInt8

def readWord (m : Mem) (a : ℕ) : ℕ :=
  (m a).toNat + 2 ^ 8 * (m (a + 1)).toNat + 2 ^ 16 * (m (a + 2)).toNat + 2 ^ 24 * (m (a + 3)).toNat

def writeWord (m : Mem) (a v : ℕ) : Mem := fun x =>
  if a ≤ x ∧ x < a + 4 then UInt8.ofNat (v / 2 ^ (8 * (x - a))) else m x

theorem readWord_lt (m : Mem) (a : ℕ) : readWord m a < 2 ^ 32 := by
  have h0 := (m a).toNat_lt
  have h1 := (m (a + 1)).toNat_lt
  have h2 := (m (a + 2)).toNat_lt
  have h3 := (m (a + 3)).toNat_lt
  unfold readWord
  omega

@[simp] theorem u32_readWord (m : Mem) (a : ℕ) : u32 (readWord m a) = readWord m a :=
  u32_of_lt (readWord_lt m a)

/-- A word depends on its own four bytes only. -/
theorem readWord_congr {m m' : Mem} {a : ℕ} (h : ∀ x, a ≤ x → x < a + 4 → m' x = m x) :
    readWord m' a = readWord m a := by
  unfold readWord
  rw [h a (by omega) (by omega), h (a + 1) (by omega) (by omega), h (a + 2) (by omega) (by omega),
    h (a + 3) (by omega) (by omega)]

theorem writeWord_outside {m : Mem} {a v x : ℕ} (h : x < a ∨ a + 4 ≤ x) :
    writeWord m a v x = m x := if_neg (by omega)

@[simp] theorem readWord_writeWord_same (m : Mem) (a v : ℕ) :
    readWord (writeWord m a v) a = u32 v := by
  have hb (k : ℕ) (hk : k < 4) :
      (writeWord m a v (a + k)).toNat = v / 2 ^ (8 * k) % 2 ^ 8 := by
    rw [writeWord, if_pos (by omega), Nat.add_sub_cancel_left, UInt8.toNat_ofNat']
  have h0 := hb 0 (by decide)
  rw [Nat.add_zero] at h0
  unfold readWord u32
  rw [h0, hb 1 (by decide), hb 2 (by decide), hb 3 (by decide)]
  simp only [Nat.mul_zero, Nat.pow_zero, Nat.div_one, Nat.reduceMul, Nat.reducePow]
  omega

theorem readWord_writeWord_of_disjoint {m : Mem} {a b v : ℕ} (h : b + 4 ≤ a ∨ a + 4 ≤ b) :
    readWord (writeWord m a v) b = readWord m b :=
  readWord_congr (fun _ _ _ => writeWord_outside (by omega))

/-- Words of an array whose cells are written apart from each other. -/
theorem readWord_writeWord_cell {m : Mem} {base i j v : ℕ} :
    readWord (writeWord m (base + 4 * i) v) (base + 4 * j) =
      if j = i then u32 v else readWord m (base + 4 * j) := by
  by_cases h : j = i
  · rw [if_pos h, h, readWord_writeWord_same]
  · rw [if_neg h, readWord_writeWord_of_disjoint (by omega)]

/-- `base[i] = v(i)` for the indices listed, in turn. -/
def fillWords (m : Mem) (base : ℕ) (v : ℕ → ℕ) (is : List ℕ) : Mem :=
  is.foldl (fun m i => writeWord m (base + 4 * i) (v i)) m

theorem fillWords_cell {m : Mem} {base j : ℕ} {v : ℕ → ℕ} {is : List ℕ} :
    readWord (fillWords m base v is) (base + 4 * j) =
      if j ∈ is then u32 (v j) else readWord m (base + 4 * j) := by
  induction is generalizing m with
  | nil => rfl
  | cons i is ih =>
    rw [fillWords, List.foldl_cons]
    apply ih.trans
    by_cases hj : j ∈ is
    · simp [hj]
    · by_cases hi : j = i
      · simp [hi]
      · simp [hj, hi, readWord_writeWord_cell]

theorem fillWords_of_disjoint {m : Mem} {base b : ℕ} {v : ℕ → ℕ} {is : List ℕ}
    (h : ∀ i ∈ is, b + 4 ≤ base + 4 * i ∨ base + 4 * i + 4 ≤ b) :
    readWord (fillWords m base v is) b = readWord m b := by
  induction is generalizing m with
  | nil => rfl
  | cons i is ih =>
    rw [fillWords, List.foldl_cons]
    apply (ih (fun i hi => h i (List.mem_cons_of_mem _ hi))).trans
    exact readWord_writeWord_of_disjoint (h i List.mem_cons_self)

theorem fillWords_outside {m : Mem} {base x : ℕ} {v : ℕ → ℕ} {is : List ℕ}
    (h : ∀ i ∈ is, x < base + 4 * i ∨ base + 4 * i + 4 ≤ x) : fillWords m base v is x = m x := by
  induction is generalizing m with
  | nil => rfl
  | cons i is ih =>
    rw [fillWords, List.foldl_cons]
    apply (ih (fun i hi => h i (List.mem_cons_of_mem _ hi))).trans
    exact writeWord_outside (h i List.mem_cons_self)

/-- The bytes of `[a, a + n)`. -/
def readBytes (m : Mem) (a n : ℕ) : List UInt8 := (List.range n).map (fun i => m (a + i))

@[simp] theorem readBytes_length (m : Mem) (a n : ℕ) : (readBytes m a n).length = n := by
  simp [readBytes]

theorem readBytes_congr {m m' : Mem} {a b n : ℕ} (h : ∀ i < n, m' (b + i) = m (a + i)) :
    readBytes m' b n = readBytes m a n :=
  List.map_congr_left (fun i hi => h i (List.mem_range.mp hi))

@[simp] theorem readBytes_getElem {m : Mem} {a n i : ℕ} (h : i < (readBytes m a n).length) :
    (readBytes m a n)[i] = m (a + i) := by
  simp [readBytes]

theorem readBytes_take {m : Mem} {a n k : ℕ} (h : k ≤ n) :
    (readBytes m a n).take k = readBytes m a k := by
  rw [readBytes, ← List.map_take, List.take_range, Nat.min_eq_left h, readBytes]

theorem readBytes_drop {m : Mem} {a n k : ℕ} :
    (readBytes m a n).drop k = readBytes m (a + k) (n - k) := by
  apply List.ext_getElem
  · simp
  · intro i h h'
    simp [Nat.add_assoc]

/-- A 16-bit load. -/
def readHalf (m : Mem) (a : ℕ) : ℕ := (m a).toNat + 2 ^ 8 * (m (a + 1)).toNat

theorem readHalf_congr {m m' : Mem} {a : ℕ} (h0 : m' a = m a) (h1 : m' (a + 1) = m (a + 1)) :
    readHalf m' a = readHalf m a := by
  rw [readHalf, readHalf, h0, h1]

/-- The bytes laid out from `a` on. -/
def writeBytes (m : Mem) (a : ℕ) (bs : List UInt8) : Mem := fun x =>
  if a ≤ x ∧ x < a + bs.length then bs.getD (x - a) 0 else m x

theorem writeBytes_outside {m : Mem} {a x : ℕ} {bs : List UInt8} (h : x < a ∨ a + bs.length ≤ x) :
    writeBytes m a bs x = m x := if_neg (by omega)

theorem writeBytes_inside {m : Mem} {a i : ℕ} {bs : List UInt8} (h : i < bs.length) :
    writeBytes m a bs (a + i) = bs.getD i 0 := by
  rw [writeBytes, if_pos (by omega), Nat.add_sub_cancel_left]

end ShadOS.Machine

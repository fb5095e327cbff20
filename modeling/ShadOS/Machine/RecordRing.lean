import Mathlib.Data.Nat.Basic
import Mathlib.Order.Monotone.Basic
import Mathlib.Tactic.Common
import Mathlib.Tactic.Ring

/-! # Records of various sizes in a circular buffer

A writer lays records one after the other around a ring of `N` bytes and a
reader follows. Positions count all bytes ever written; offsets are positions
modulo `N`. While the records not yet read take less than `N` bytes, equal
offsets mean that nothing is left to read, and a new record touches none of
the others.
-/

namespace ShadOS.Machine.RecordRing

variable (size : ℕ → ℕ) (N : ℕ)

/-- The bytes of the first `k` records. -/
def position : ℕ → ℕ
  | 0 => 0
  | k + 1 => position k + size k

def offset (k : ℕ) : ℕ := position size k % N

variable {size N} {k m w : ℕ}

theorem position_mono (size : ℕ → ℕ) : Monotone (position size) :=
  monotone_nat_of_le_succ (fun _ => Nat.le_add_right _ _)

theorem position_strictMono (hpos : ∀ k, 0 < size k) : StrictMono (position size) :=
  strictMono_nat_of_lt_succ (fun k => Nat.lt_add_of_pos_right (hpos k))

theorem dvd_position {d : ℕ} (h : ∀ k, d ∣ size k) (k : ℕ) : d ∣ position size k := by
  induction k with
  | zero => exact dvd_zero d
  | succ k ih => exact Nat.dvd_add ih (h k)

theorem offset_succ (k : ℕ) : offset size N (k + 1) = (offset size N k + size k) % N := by
  rw [offset, offset, position, Nat.mod_add_mod]

theorem offset_lt (size : ℕ → ℕ) (hN : 0 < N) (k : ℕ) : offset size N k < N := Nat.mod_lt _ hN

theorem dvd_offset {d : ℕ} (h : ∀ k, d ∣ size k) (hN : d ∣ N) (k : ℕ) : d ∣ offset size N k :=
  (Nat.dvd_mod_iff hN).mpr (dvd_position h k)

/-- The bytes between reader and writer, from the offsets. -/
theorem pending_eq (hmw : m ≤ w) (hroom : position size w < position size m + N) :
    (offset size N w + N - offset size N m) % N = position size w - position size m := by
  have hmono := position_mono size hmw
  have hN : 0 < N := by omega
  obtain ⟨d, hd⟩ : ∃ d, position size w = position size m + d := ⟨_, (Nat.add_sub_of_le hmono).symm⟩
  have hlt := Nat.mod_lt (position size m) hN
  have hlw := Nat.mod_lt (position size m + d) hN
  have hsum : (position size m % N + d) % N = (position size m + d) % N := Nat.mod_add_mod _ _ _
  unfold offset
  rw [hd, Nat.add_sub_cancel_left, ← hsum]
  generalize position size m % N = r at *
  by_cases hwrap : r + d < N
  · rw [Nat.mod_eq_of_lt hwrap, show r + d + N - r = d + N by omega, Nat.add_mod_right,
      Nat.mod_eq_of_lt (by omega)]
  · have hval : (r + d) % N = r + d - N := by
      rw [Nat.mod_eq_sub_mod (by omega), Nat.mod_eq_of_lt (by omega)]
    rw [hval, show r + d - N + N - r = d by omega, Nat.mod_eq_of_lt (by omega)]

/-- The reader has caught up exactly when the offsets are equal. -/
theorem offset_eq_iff (hpos : ∀ k, 0 < size k) (hmw : m ≤ w)
    (hroom : position size w < position size m + N) :
    offset size N m = offset size N w ↔ m = w := by
  constructor
  · intro heq
    have hpend := pending_eq hmw hroom
    rw [heq, Nat.add_sub_cancel_left, Nat.mod_self] at hpend
    by_contra hne
    have := position_strictMono hpos (lt_of_le_of_ne hmw hne)
    omega
  · rintro rfl
    rfl

/-- A record that fits lies apart from a part of `c` bytes at the start of one not yet read. -/
theorem apart {c : ℕ} (hkw : k < w) (hc : c ≤ size k)
    (hroom : position size (w + 1) < position size k + N) :
    offset size N k + c ≤ offset size N w ∨ offset size N w + size w ≤ offset size N k := by
  have hstep : position size k + size k ≤ position size w := position_mono size hkw
  have hw : position size (w + 1) = position size w + size w := rfl
  have hpend := pending_eq (N := N) hkw.le (show position size w < position size k + N by omega)
  have hlt := offset_lt size (show 0 < N by omega) w
  have hltk := offset_lt size (show 0 < N by omega) k
  by_cases hle : offset size N k ≤ offset size N w
  · rw [show offset size N w + N - offset size N k = offset size N w - offset size N k + N by omega,
      Nat.add_mod_right, Nat.mod_eq_of_lt (by omega)] at hpend
    omega
  · rw [Nat.mod_eq_of_lt (by omega)] at hpend
    omega

end ShadOS.Machine.RecordRing

import Mathlib.Data.Nat.Digits.Defs
import Mathlib.Data.List.Induction

/-! # Numbers written in a base

A text denotes the number of its digits, the highest one first. Which characters
are digits is a parameter.
-/

namespace ShadOS.Machine

universe u

variable {α : Type u} {digit : α → Option ℕ} {base : ℕ}

/-- The number of a text; none where a character is not a digit. -/
def numeral (digit : α → Option ℕ) (base : ℕ) (s : List α) : Option ℕ :=
  s.foldlM (fun v c => (digit c).map (base * v + ·)) 0

theorem numeral_snoc (s : List α) (c : α) :
    numeral digit base (s ++ [c]) =
      (numeral digit base s).bind (fun v => (digit c).map (base * v + ·)) := by
  simp [numeral, List.foldlM_append]

/-- A text with a number has digits only. -/
theorem numeral_digits {s : List α} {v : ℕ} (h : numeral digit base s = some v) :
    ∀ c ∈ s, (digit c).isSome := by
  induction s using List.reverseRecOn generalizing v with
  | nil => exact fun c hc => absurd hc List.not_mem_nil
  | append_singleton s c ih =>
    rw [numeral_snoc] at h
    obtain ⟨w, hw, hv⟩ := Option.bind_eq_some_iff.mp h
    obtain ⟨d, hd, -⟩ := Option.map_eq_some_iff.mp hv
    intro x hx
    rcases List.mem_append.mp hx with hx | hx
    · exact ih hw x hx
    · obtain rfl := List.mem_singleton.mp hx
      simp [hd]

/-- Written digits are read back. -/
theorem numeral_map {write : ℕ → α} (ds : List ℕ) (h : ∀ d ∈ ds, digit (write d) = some d) :
    numeral digit base (ds.map write) = some (Nat.ofDigits base ds.reverse) := by
  induction ds using List.reverseRecOn with
  | nil => rfl
  | append_singleton ds d ih =>
    rw [List.map_append, List.map_singleton, numeral_snoc,
      ih fun e he => h e (List.mem_append_left _ he), h d (by simp), List.reverse_append]
    simp [Nat.ofDigits_cons, Nat.add_comm]

/-- The lowest `k` digits of a number, the units first. -/
def lowDigits (base : ℕ) : ℕ → ℕ → List ℕ
  | 0, _ => []
  | k + 1, n => n % base :: lowDigits base k (n / base)

theorem ofDigits_lowDigits (base k n : ℕ) :
    Nat.ofDigits base (lowDigits base k n) = n % base ^ k := by
  induction k generalizing n with
  | zero => simp [lowDigits, Nat.mod_one]
  | succ k ih => rw [lowDigits, Nat.ofDigits_cons, ih, Nat.pow_succ', Nat.mod_mul]

theorem lowDigits_lt {k n : ℕ} (hbase : 0 < base) : ∀ d ∈ lowDigits base k n, d < base := by
  induction k generalizing n with
  | zero => exact fun d hd => absurd hd List.not_mem_nil
  | succ k ih =>
    intro d hd
    rcases List.mem_cons.mp hd with rfl | hd
    · exact Nat.mod_lt n hbase
    · exact ih d hd

@[simp] theorem lowDigits_length (base k n : ℕ) : (lowDigits base k n).length = k := by
  induction k generalizing n with
  | zero => rfl
  | succ k ih => rw [lowDigits, List.length_cons, ih]

end ShadOS.Machine

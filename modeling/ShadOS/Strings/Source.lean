import Mathlib.Data.List.Basic
import Mathlib.Data.Int.Notation

/-! # The string functions of string.c

A string argument is the memory from its pointer on. A function that reads past
the end of that memory has no result.
-/

namespace ShadOS.Strings

def strlen : List UInt8 → Option ℕ
  | [] => none
  | c :: s => if c ≠ 0 then (strlen s).map (· + 1) else some 0

def strcmp : List UInt8 → List UInt8 → Option ℤ
  | a :: s, b :: t => if a ≠ 0 ∧ a = b then strcmp s t else some (a.toNat - b.toNat)
  | _, _ => none

/-- A string without its terminator. -/
@[ext] structure CString where
  bytes : List UInt8
  noNul : 0 ∉ bytes
  deriving DecidableEq

/-- The string in memory. -/
def CString.buffer (s : CString) : List UInt8 := s.bytes ++ [0]

/-- The string that starts a buffer. -/
def untilNul (l : List UInt8) : List UInt8 := l.takeWhile (· ≠ 0)

variable {a b : UInt8} {s t : List UInt8}

@[simp] theorem untilNul_nul : untilNul (0 :: s) = [] := rfl

theorem untilNul_cons (ha : a ≠ 0) : untilNul (a :: s) = a :: untilNul s :=
  List.takeWhile_cons_of_pos (by simpa using ha)

theorem untilNul_append {rest : List UInt8} (h : 0 ∉ s) : untilNul (s ++ 0 :: rest) = s := by
  induction s with
  | nil => rfl
  | cons a s ih =>
    rw [List.mem_cons, not_or] at h
    rw [List.cons_append, untilNul_cons (Ne.symm h.1), ih h.2]

@[simp] theorem untilNul_buffer (s : CString) : untilNul s.buffer = s.bytes :=
  untilNul_append s.noNul

theorem nul_mem_buffer (s : CString) : 0 ∈ s.buffer := by
  simp [CString.buffer]

/-- `strlen` finds the first terminator. -/
theorem strlen_eq (h : 0 ∈ s) : strlen s = some (untilNul s).length := by
  induction s with
  | nil => cases h
  | cons a s ih =>
    rw [strlen]
    by_cases ha : a = 0
    · rw [if_neg (not_not.mpr ha), ha]
      rfl
    · rw [if_pos ha, untilNul_cons ha, ih ((List.mem_cons.mp h).resolve_left (Ne.symm ha))]
      rfl

/-- `strcmp` reads neither string past its terminator, and is zero on equal strings only. -/
theorem strcmp_spec (hs : 0 ∈ s) (ht : 0 ∈ t) :
    ∃ r, strcmp s t = some r ∧ (r = 0 ↔ untilNul s = untilNul t) := by
  induction s generalizing t with
  | nil => cases hs
  | cons a s ih =>
    obtain - | ⟨b, t⟩ := t
    · cases ht
    by_cases hab : a ≠ 0 ∧ a = b
    · obtain ⟨ha, rfl⟩ := hab
      obtain ⟨r, hr, hiff⟩ := ih ((List.mem_cons.mp hs).resolve_left (Ne.symm ha))
        ((List.mem_cons.mp ht).resolve_left (Ne.symm ha))
      refine ⟨r, by rw [strcmp, if_pos ⟨ha, rfl⟩, hr], ?_⟩
      rw [hiff, untilNul_cons ha, untilNul_cons ha, List.cons_inj_right]
    · refine ⟨a.toNat - b.toNat, by rw [strcmp, if_neg hab], ?_⟩
      rw [Int.sub_eq_zero, Int.ofNat_inj, UInt8.toNat_inj]
      constructor
      · rintro rfl
        have ha : a = 0 := by simpa using hab
        rw [ha]
        rfl
      · intro h
        by_cases ha : a = 0 <;> by_cases hb : b = 0
        · rw [ha, hb]
        · rw [ha, untilNul_nul, untilNul_cons hb] at h
          cases h
        · rw [hb, untilNul_nul, untilNul_cons ha] at h
          cases h
        · rw [untilNul_cons ha, untilNul_cons hb] at h
          exact (List.cons.inj h).1

/-- What follows a terminator is not read. -/
theorem strcmp_tail (s t rest : List UInt8) : strcmp s (t ++ 0 :: rest) = strcmp s (t ++ [0]) := by
  induction t generalizing s with
  | nil =>
    cases s with
    | nil => rfl
    | cons a s =>
      have hno : ¬ (a ≠ 0 ∧ a = 0) := fun h => h.1 h.2
      simp only [List.nil_append, strcmp, if_neg hno]
  | cons b t ih =>
    cases s with
    | nil => rfl
    | cons a s => simp only [List.cons_append, strcmp, ih]

theorem strlen_tail (s rest : List UInt8) : strlen (s ++ 0 :: rest) = strlen (s ++ [0]) := by
  induction s with
  | nil => rfl
  | cons a s ih => simp only [List.cons_append, strlen, ih]

end ShadOS.Strings

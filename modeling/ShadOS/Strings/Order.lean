import ShadOS.Strings.Source
import Mathlib.Data.List.Lex
import Mathlib.Order.Lattice
import Mathlib.Algebra.Order.Group.Int

/-! # The order of strings

`strcmp` and `strncmp` return the difference of the first bytes that differ, with
the end of a string below every byte. This is the lexicographic order.
-/

namespace ShadOS.Strings

def strncmp : List UInt8 → List UInt8 → ℕ → Option ℤ
  | _, _, 0 => some 0
  | a :: s, b :: t, n + 1 =>
    if a ≠ 0 ∧ a = b then strncmp s t n else some (a.toNat - b.toNat)
  | _, _, _ => none

/-- The difference of the first bytes that differ, the end of a string counted as zero. -/
def difference : List UInt8 → List UInt8 → ℤ
  | [], [] => 0
  | a :: _, [] => a.toNat
  | [], b :: _ => -b.toNat
  | a :: s, b :: t => if a = b then difference s t else a.toNat - b.toNat

/-- Behind a common beginning the strings go on with these bytes. -/
def FirstDiffer (s t : List UInt8) (x y : UInt8) : Prop :=
  x ≠ y ∧ ∃ pre s' t', s = pre ++ x :: s' ∧ t = pre ++ y :: t'

namespace CString

theorem values_injective : Function.Injective (fun s : CString => s.bytes.map UInt8.toNat) :=
  fun _ _ h => CString.ext (List.map_injective_iff.mpr (fun _ _ => UInt8.toNat.inj) h)

/-- The lexicographic order of the bytes as unsigned numbers. -/
instance : LinearOrder CString := LinearOrder.lift' _ values_injective

theorem lt_iff {a b : CString} : a < b ↔ a.bytes.map UInt8.toNat < b.bytes.map UInt8.toNat :=
  Iff.rfl

/-- The first bytes of a string, a shorter string as a whole. -/
def take (s : CString) (n : ℕ) : CString := ⟨s.bytes.take n, fun h => s.noNul (List.mem_of_mem_take h)⟩

end CString

variable {a b : UInt8} {s t : List UInt8}

@[simp] theorem difference_cons_self (a : UInt8) (s t : List UInt8) :
    difference (a :: s) (a :: t) = difference s t := by
  rw [difference, if_pos rfl]

theorem difference_cons_of_ne (h : a ≠ b) (s t : List UInt8) :
    difference (a :: s) (b :: t) = a.toNat - b.toNat := by
  rw [difference, if_neg h]

/-! ## What the loops return -/

theorem strcmp_difference (hs : 0 ∉ s) (ht : 0 ∉ t) (rs rt : List UInt8) :
    strcmp (s ++ 0 :: rs) (t ++ 0 :: rt) = some (difference s t) := by
  induction s generalizing t with
  | nil =>
    cases t with
    | nil => simp [strcmp, difference]
    | cons b t => simp [strcmp, difference]
  | cons a s ih =>
    have ha : a ≠ 0 := fun h => hs (h ▸ List.mem_cons_self)
    cases t with
    | nil => simp [strcmp, difference, ha]
    | cons b t =>
      rw [List.cons_append, List.cons_append, strcmp]
      by_cases hab : a = b
      · subst hab
        rw [if_pos ⟨ha, rfl⟩, difference_cons_self]
        exact ih (fun h => hs (List.mem_cons_of_mem a h)) (fun h => ht (List.mem_cons_of_mem a h))
      · rw [if_neg (fun h => hab h.2), difference_cons_of_ne hab]

theorem strncmp_difference (hs : 0 ∉ s) (ht : 0 ∉ t) (n : ℕ) (rs rt : List UInt8) :
    strncmp (s ++ 0 :: rs) (t ++ 0 :: rt) n = some (difference (s.take n) (t.take n)) := by
  induction n generalizing s t with
  | zero => simp [strncmp, difference]
  | succ n ih =>
    cases s with
    | nil =>
      cases t with
      | nil => simp [strncmp, difference]
      | cons b t => simp [strncmp, difference]
    | cons a s =>
      have ha : a ≠ 0 := fun h => hs (h ▸ List.mem_cons_self)
      cases t with
      | nil => simp [strncmp, difference, ha]
      | cons b t =>
        rw [List.cons_append, List.cons_append, strncmp, List.take_succ_cons, List.take_succ_cons]
        by_cases hab : a = b
        · subst hab
          rw [if_pos ⟨ha, rfl⟩, difference_cons_self]
          exact ih (fun h => hs (List.mem_cons_of_mem a h)) (fun h => ht (List.mem_cons_of_mem a h))
        · rw [if_neg (fun h => hab h.2), difference_cons_of_ne hab]

/-! ## The sign of the difference -/

theorem toNat_pos (ha : a ≠ 0) : 0 < a.toNat :=
  Nat.pos_of_ne_zero fun h => ha (UInt8.toNat.inj h)

theorem difference_swap (s t : List UInt8) : difference t s = -difference s t := by
  induction s generalizing t with
  | nil => cases t <;> simp [difference]
  | cons a s ih =>
    cases t with
    | nil => simp [difference]
    | cons b t =>
      by_cases hab : a = b
      · subst hab
        rw [difference_cons_self, difference_cons_self, ih]
      · rw [difference_cons_of_ne hab, difference_cons_of_ne (Ne.symm hab), Int.neg_sub]

theorem difference_neg_iff (ht : 0 ∉ t) :
    difference s t < 0 ↔ s.map UInt8.toNat < t.map UInt8.toNat := by
  induction s generalizing t with
  | nil =>
    cases t with
    | nil => simp [difference]
    | cons b t =>
      have hb := toNat_pos (a := b) fun h => ht (h ▸ List.mem_cons_self)
      simp [difference, hb]
  | cons a s ih =>
    cases t with
    | nil => simp [difference]
    | cons b t =>
      rw [List.map_cons, List.map_cons, List.cons_lt_cons_iff]
      by_cases hab : a = b
      · subst hab
        rw [difference_cons_self, ih fun h => ht (List.mem_cons_of_mem a h)]
        simp
      · have hne : a.toNat ≠ b.toNat := fun h => hab (UInt8.toNat.inj h)
        rw [difference_cons_of_ne hab]
        omega

/-- Different strings differ first in two bytes, one of which may be a terminator. -/
theorem exists_firstDiffer (hs : 0 ∉ s) (ht : 0 ∉ t) (hne : s ≠ t) :
    ∃ x y, FirstDiffer (s ++ [0]) (t ++ [0]) x y ∧ difference s t = x.toNat - y.toNat := by
  induction s generalizing t with
  | nil =>
    cases t with
    | nil => exact absurd rfl hne
    | cons b t =>
      have hb : (0 : UInt8) ≠ b := fun h => ht (h ▸ List.mem_cons_self)
      exact ⟨0, b, ⟨hb, [], [], t ++ [0], rfl, rfl⟩, by simp [difference]⟩
  | cons a s ih =>
    have ha : a ≠ 0 := fun h => hs (h ▸ List.mem_cons_self)
    cases t with
    | nil => exact ⟨a, 0, ⟨ha, [], s ++ [0], [], rfl, rfl⟩, by simp [difference]⟩
    | cons b t =>
      by_cases hab : a = b
      · subst hab
        obtain ⟨x, y, ⟨hxy, pre, s', t', hs', ht'⟩, hdiff⟩ :=
          ih (fun h => hs (List.mem_cons_of_mem a h)) (fun h => ht (List.mem_cons_of_mem a h))
            (fun h => hne (congrArg (a :: ·) h))
        refine ⟨x, y, ⟨hxy, a :: pre, s', t', ?_, ?_⟩, by rw [difference_cons_self, hdiff]⟩
        · rw [List.cons_append, hs', List.cons_append]
        · rw [List.cons_append, ht', List.cons_append]
      · exact ⟨a, b, ⟨hab, [], s ++ [0], t ++ [0], rfl, rfl⟩, difference_cons_of_ne hab s t⟩

namespace CString
variable {a b : CString}

theorem difference_neg : difference a.bytes b.bytes < 0 ↔ a < b :=
  (difference_neg_iff b.noNul).trans lt_iff.symm

theorem difference_pos : 0 < difference a.bytes b.bytes ↔ b < a := by
  rw [← difference_neg, difference_swap a.bytes b.bytes, Int.neg_neg_iff_pos]

theorem difference_nonpos : difference a.bytes b.bytes ≤ 0 ↔ a ≤ b := by
  rw [← not_lt, difference_pos, not_lt]

theorem difference_nonneg : 0 ≤ difference a.bytes b.bytes ↔ b ≤ a := by
  rw [← not_lt, difference_neg, not_lt]

theorem difference_eq_zero : difference a.bytes b.bytes = 0 ↔ a = b := by
  rw [le_antisymm_iff, difference_nonpos, difference_nonneg, ← le_antisymm_iff]

end CString

/-- `strcmp` and `strncmp` read two strings up to their terminators at most, whatever lies behind,
and return the sign of the lexicographic order. -/
theorem strcmp_lexicographic (a b c : CString) (n : ℕ) (ra rb : List UInt8) :
    strcmp (a.buffer ++ ra) (b.buffer ++ rb) = some (difference a.bytes b.bytes) ∧
    strncmp (a.buffer ++ ra) (b.buffer ++ rb) n =
      strcmp ((a.take n).buffer ++ ra) ((b.take n).buffer ++ rb) ∧
    (difference a.bytes b.bytes = 0 ↔ a = b) ∧
    (a ≠ b → ∃ x y, FirstDiffer a.buffer b.buffer x y ∧
      difference a.bytes b.bytes = x.toNat - y.toNat) ∧
    (difference a.bytes b.bytes < 0 ↔ a < b) ∧
    difference b.bytes a.bytes = -difference a.bytes b.bytes ∧
    (difference a.bytes b.bytes ≤ 0 → difference b.bytes c.bytes ≤ 0 →
      difference a.bytes c.bytes ≤ 0) ∧
    (difference a.bytes b.bytes < 0 → difference b.bytes c.bytes < 0 →
      difference a.bytes c.bytes < 0) := by
  have hcmp (a b : CString) : strcmp (a.buffer ++ ra) (b.buffer ++ rb) =
      some (difference a.bytes b.bytes) := by
    simpa [CString.buffer] using strcmp_difference a.noNul b.noNul ra rb
  refine ⟨hcmp a b, ?_, CString.difference_eq_zero, ?_, CString.difference_neg,
    difference_swap _ _, ?_, ?_⟩
  · rw [hcmp]
    simpa [CString.buffer, CString.take] using strncmp_difference a.noNul b.noNul n ra rb
  · exact fun hne => exists_firstDiffer a.noNul b.noNul fun h => hne (CString.ext h)
  · simp only [CString.difference_nonpos]
    exact le_trans
  · simp only [CString.difference_neg]
    exact lt_trans

end ShadOS.Strings

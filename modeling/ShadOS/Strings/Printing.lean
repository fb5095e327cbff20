import ShadOS.Strings.Source
import ShadOS.Machine.Memory
import Mathlib.Data.Nat.Digits.Defs

/-! # Numbers as text

`terminal_write_uint` fills its buffer from the end, `terminal_write_hex` from
the last digit. Both pass a terminated string on.
-/

namespace ShadOS.Strings
open Machine

/-- The bytes of a string literal, without the terminator. -/
def text (s : String) : List UInt8 := s.toList.map (fun c => UInt8.ofNat c.toNat)

/-- The digit loop of `terminal_write_uint`, one above the index written next; then the string at
`&buf[i + 1]`. No result where the digits leave the buffer. -/
def uintLoop : ℕ → ℕ → Vector UInt8 11 → Option (List UInt8)
  | 0, n, buf => if 0 < n then none else some buf.toList
  | i + 1, n, buf =>
    if 0 < n then uintLoop i (n / 10) (buf.setIfInBounds i (UInt8.ofNat (48 + n % 10)))
    else some (buf.toList.drop (i + 1))

/-- The string that `terminal_write_uint` passes to `terminal_writestring`, from a buffer with any
contents. -/
def uintText (buf : Vector UInt8 11) (n : ℕ) : Option (List UInt8) :=
  let buf := buf.setIfInBounds 10 0
  if n = 0 then some ((buf.setIfInBounds 9 48).toList.drop 9) else uintLoop 10 n buf

/-- One digit of `terminal_write_hex`. -/
def hexStep (r : Vector UInt8 11 × ℕ) (i : ℕ) : Vector UInt8 11 × ℕ :=
  (r.1.setIfInBounds i ((text "0123456789abcdef").getD (r.2 &&& 0xF) 0), r.2 >>> 4)

/-- The string that `terminal_write_hex` passes to `terminal_writestring`. -/
def hexText (n : ℕ) : List UInt8 :=
  ([9, 8, 7, 6, 5, 4, 3, 2].foldl hexStep
    (#v[48, 120, 48, 48, 48, 48, 48, 48, 48, 48, 0], n)).1.toList

/-- The decimal numeral. -/
def decimal (n : ℕ) : List UInt8 :=
  if n = 0 then [48] else (Nat.digits 10 n).reverse.map (fun d => UInt8.ofNat (48 + d))

variable {n i : ℕ} {buf : Vector UInt8 11}

theorem drop_setIfInBounds (hi : i < 11) (c : UInt8) :
    (buf.setIfInBounds i c).toList.drop i = c :: buf.toList.drop (i + 1) := by
  have hlt : i < buf.toList.length := by simpa using hi
  rw [Vector.toList_setIfInBounds, List.drop_eq_getElem_cons (by simpa using hi),
    List.getElem_set_self, List.drop_set_of_lt (Nat.lt_succ_self i)]

theorem uintLoop_spec (hn : n < 10 ^ i) (hi : i < 11) : uintLoop i n buf =
    some ((Nat.digits 10 n).reverse.map (fun d => UInt8.ofNat (48 + d)) ++ buf.toList.drop i) := by
  induction i generalizing n buf with
  | zero =>
    obtain rfl : n = 0 := by simpa using hn
    simp [uintLoop]
  | succ i ih =>
    by_cases h0 : 0 < n
    · have hdiv : n / 10 < 10 ^ i := by
        rw [Nat.pow_succ] at hn
        omega
      rw [uintLoop, if_pos h0, ih hdiv (by omega), drop_setIfInBounds (by omega),
        Nat.digits_def' (by decide) h0]
      simp
    · obtain rfl : n = 0 := by omega
      simp [uintLoop]

theorem uintText_spec (hn : n < 2 ^ 32) : uintText buf n = some (decimal n ++ [0]) := by
  by_cases h0 : n = 0
  · rw [uintText, if_pos h0, drop_setIfInBounds (by decide), drop_setIfInBounds (by decide),
      decimal, if_pos h0]
    simp
  · rw [uintText, if_neg h0, uintLoop_spec (by omega) (by decide), drop_setIfInBounds (by decide),
      decimal, if_neg h0]
    simp

theorem decimal_noNul (n : ℕ) : 0 ∉ decimal n := by
  unfold decimal
  split
  · decide
  · intro h
    obtain ⟨d, hd, h0⟩ := List.mem_map.mp h
    have hlt := Nat.digits_lt_base (by decide) (List.mem_reverse.mp hd)
    have hval := congrArg UInt8.toNat h0
    rw [UInt8.toNat_ofNat', Nat.mod_eq_of_lt (by omega)] at hval
    simp at hval

/-- The digits are put before the terminator. -/
theorem nul_mem_hexText (n : ℕ) : 0 ∈ hexText n := by
  have hkeep : ∀ (is : List ℕ) (r : Vector UInt8 11 × ℕ), (∀ i ∈ is, i ≠ 10) →
      (is.foldl hexStep r).1[10] = r.1[10] := by
    intro is
    induction is with
    | nil => exact fun _ _ => rfl
    | cons i is ih =>
      intro r h
      rw [List.foldl_cons, ih _ (fun j hj => h j (List.mem_cons_of_mem i hj)), hexStep]
      exact Vector.getElem_setIfInBounds_ne _ (h i List.mem_cons_self)
  have h10 := hkeep [9, 8, 7, 6, 5, 4, 3, 2]
    (#v[48, 120, 48, 48, 48, 48, 48, 48, 48, 48, 0], n) (by decide)
  rw [hexText, Vector.mem_toList_iff]
  exact Vector.mem_iff_getElem.mpr ⟨10, by decide, h10⟩

end ShadOS.Strings

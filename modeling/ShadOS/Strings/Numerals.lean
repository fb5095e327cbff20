import ShadOS.Strings.Printing
import ShadOS.Machine.Numerals
import Mathlib.Data.Nat.Digits.Lemmas

/-! # The numbers that the printing routines show

The digits are read back: `terminal_write_uint` writes the decimal numeral, and
`terminal_write_hex` and `serial_write_hex` the same eight hexadecimal digits.
-/

namespace ShadOS.Strings
open Machine

/-- The bytes of a string on the serial line. -/
def serialWritestring : List UInt8 → Option (List UInt8)
  | [] => none
  | c :: s =>
    if c ≠ 0 then (serialWritestring s).map ((if c = 10 then [13, c] else [c]) ++ ·) else some []

/-- The bytes that go to `serial_putc`, one after another. -/
def serialWriteHex (n : ℕ) : Option (List UInt8) :=
  (serialWritestring (text "0x" ++ [0])).map (· ++ [28, 24, 20, 16, 12, 8, 4, 0].map
    (fun i => (text "0123456789ABCDEF").getD ((n >>> i) &&& 0xF) 0))

/-- The digits from 0 to 9. -/
def decDigit (c : UInt8) : Option ℕ :=
  if 48 ≤ c.toNat ∧ c.toNat ≤ 57 then some (c.toNat - 48) else none

/-- The digits from 0 to 9, and the letters from a to f in both cases. -/
def hexDigit (c : UInt8) : Option ℕ :=
  if 48 ≤ c.toNat ∧ c.toNat ≤ 57 then some (c.toNat - 48)
  else if 65 ≤ c.toNat ∧ c.toNat ≤ 70 then some (c.toNat - 55)
  else if 97 ≤ c.toNat ∧ c.toNat ≤ 102 then some (c.toNat - 87)
  else none

def toLower (c : UInt8) : UInt8 := if 65 ≤ c.toNat ∧ c.toNat ≤ 90 then c + 32 else c

/-- The eight digits of a word in base 16, the highest first. -/
def nibbles (n : ℕ) : List ℕ := (lowDigits 16 8 n).reverse

def lowerHex (d : ℕ) : UInt8 := (text "0123456789abcdef").getD d 0
def upperHex (d : ℕ) : UInt8 := (text "0123456789ABCDEF").getD d 0

variable {n : ℕ}

/-! ## Decimal -/

theorem decDigit_write {d : ℕ} (hd : d < 10) : decDigit (UInt8.ofNat (48 + d)) = some d := by
  have hval : (UInt8.ofNat (48 + d)).toNat = 48 + d := by
    rw [UInt8.toNat_ofNat', Nat.mod_eq_of_lt (by omega)]
  rw [decDigit, hval, if_pos (by omega), Nat.add_sub_cancel_left]

theorem decimal_numeral (n : ℕ) : numeral decDigit 10 (decimal n) = some n := by
  unfold decimal
  split
  · next h =>
    subst h
    decide
  · rw [numeral_map _ fun d hd => decDigit_write (Nat.digits_lt_base (by decide)
      (List.mem_reverse.mp hd)), List.reverse_reverse, Nat.ofDigits_digits]

/-- A numeral begins with 0 only for zero itself. -/
theorem decimal_head (h : (decimal n).head? = some 48) : n = 0 ∧ decimal n = [48] := by
  unfold decimal at h ⊢
  split at h
  · next h0 => exact ⟨h0, if_pos h0⟩
  · next h0 =>
    have hne : Nat.digits 10 n ≠ [] := Nat.digits_ne_nil_iff_ne_zero.mpr h0
    have hlast := Nat.getLast_digit_ne_zero 10 h0
    have hlt := Nat.digits_lt_base (by decide) (List.getLast_mem hne)
    rw [List.head?_map, List.head?_reverse, List.getLast?_eq_getLast_of_ne_nil hne] at h
    have hval := congrArg UInt8.toNat (Option.some_inj.mp h)
    rw [UInt8.toNat_ofNat', Nat.mod_eq_of_lt (by omega)] at hval
    exact absurd (Nat.add_left_cancel hval) hlast

theorem decimal_ne_nil (n : ℕ) : decimal n ≠ [] := by
  unfold decimal
  split
  · exact List.cons_ne_nil _ _
  · next h0 => simpa [Nat.digits_ne_nil_iff_ne_zero] using h0

/-! ## Hexadecimal -/

theorem hexDigit_lowerHex : ∀ d < 16, hexDigit (lowerHex d) = some d := by decide

theorem hexDigit_upperHex : ∀ d < 16, hexDigit (upperHex d) = some d := by decide

theorem toLower_upperHex : ∀ d < 16, toLower (upperHex d) = lowerHex d := by decide

theorem and_fifteen (n : ℕ) : n &&& 0xF = n % 16 := Nat.and_two_pow_sub_one_eq_mod n 4

/-- The loop of `terminal_write_hex` over the last `k` places. -/
theorem hexLoop_spec (k : ℕ) (hk : k ≤ 8) (buf : Vector UInt8 11) (n : ℕ) :
    ((List.range' 2 k).reverse.foldl hexStep (buf, n)).1.toList =
      buf.toList.take 2 ++ (lowDigits 16 k n).reverse.map lowerHex ++ buf.toList.drop (k + 2) := by
  induction k generalizing buf n with
  | zero => simp [lowDigits]
  | succ k ih =>
    have hshift : n >>> 4 = n / 16 := Nat.shiftRight_eq_div_pow n 4
    have hdigit : (text "0123456789abcdef").getD (n &&& 0xF) 0 = lowerHex (n % 16) := by
      rw [and_fifteen, lowerHex]
    rw [List.range'_concat, List.reverse_append, List.reverse_singleton, List.singleton_append,
      List.foldl_cons, hexStep, ih (by omega), hshift, hdigit]
    have hdrop : (buf.setIfInBounds (k + 2) (lowerHex (n % 16))).toList.drop (k + 2) =
        lowerHex (n % 16) :: buf.toList.drop (k + 2 + 1) := drop_setIfInBounds (by omega) _
    have htake : (buf.setIfInBounds (2 + 1 * k) (lowerHex (n % 16))).toList.take 2 =
        buf.toList.take 2 := by
      rw [Vector.toList_setIfInBounds, List.take_set_of_le (by omega)]
    rw [htake, show 2 + 1 * k = k + 2 by omega, hdrop, lowDigits]
    simp

theorem hexText_eq (n : ℕ) : hexText n = text "0x" ++ (nibbles n).map lowerHex ++ [0] :=
  hexLoop_spec 8 (le_refl 8) #v[48, 120, 48, 48, 48, 48, 48, 48, 48, 48, 0] n

/-- The digits sent from the highest one on. -/
theorem serialWriteHex_eq (n : ℕ) :
    serialWriteHex n = some (text "0x" ++ (nibbles n).map upperHex) := by
  have hdigits : [28, 24, 20, 16, 12, 8, 4, 0].map (fun i => n >>> i &&& 0xF) = nibbles n := by
    simp [nibbles, lowDigits, and_fifteen, Nat.shiftRight_eq_div_pow, Nat.div_div_eq_div_mul]
  rw [← hdigits, List.map_map]
  rfl

/-- What the three routines print denotes the number. -/
theorem numbers_printed (buf : Vector UInt8 11) (n : UInt32) :
    (∃ s, uintText buf n.toNat = some (s ++ [0]) ∧ s ≠ [] ∧ (∀ c ∈ s, (decDigit c).isSome) ∧
      (s.head? = some 48 → n = 0 ∧ s = [48]) ∧ numeral decDigit 10 s = some n.toNat) ∧
    ∃ low up, hexText n.toNat = text "0x" ++ low ++ [0] ∧
      serialWriteHex n.toNat = some (text "0x" ++ up) ∧
      (low.length = 8 ∧ (∀ c ∈ low, (hexDigit c).isSome) ∧ numeral hexDigit 16 low = some n.toNat) ∧
      (up.length = 8 ∧ (∀ c ∈ up, (hexDigit c).isSome) ∧ numeral hexDigit 16 up = some n.toNat) ∧
      up.map toLower = low := by
  have hvalue : Nat.ofDigits 16 (nibbles n.toNat).reverse = n.toNat := by
    rw [nibbles, List.reverse_reverse, ofDigits_lowDigits]
    exact Nat.mod_eq_of_lt n.toNat_lt
  have hlt : ∀ d ∈ nibbles n.toNat, d < 16 :=
    fun d hd => lowDigits_lt (by decide) d (List.mem_reverse.mp hd)
  have hlow : numeral hexDigit 16 ((nibbles n.toNat).map lowerHex) = some n.toNat := by
    rw [numeral_map _ fun d hd => hexDigit_lowerHex d (hlt d hd), hvalue]
  have hup : numeral hexDigit 16 ((nibbles n.toNat).map upperHex) = some n.toNat := by
    rw [numeral_map _ fun d hd => hexDigit_upperHex d (hlt d hd), hvalue]
  refine ⟨⟨decimal n.toNat, uintText_spec n.toNat_lt, decimal_ne_nil _,
    numeral_digits (decimal_numeral _), fun h => ?_, decimal_numeral _⟩,
    _, _, hexText_eq _, serialWriteHex_eq _, ⟨?_, numeral_digits hlow, hlow⟩,
    ⟨?_, numeral_digits hup, hup⟩, ?_⟩
  · obtain ⟨h0, hd⟩ := decimal_head h
    exact ⟨UInt32.toNat.inj h0, hd⟩
  · simp [nibbles]
  · simp [nibbles]
  · rw [List.map_map]
    exact List.map_congr_left fun d hd => toLower_upperHex d (hlt d hd)

end ShadOS.Strings

import ShadOS.Shell.Source

/-! # Splitting a line in place

A line in the buffer is followed by its terminator and by what earlier lines
left. The split puts a terminator behind the first word and returns where the
rest starts; it reads no character behind the terminator of the line.
-/

namespace ShadOS.Shell
open Machine Strings

/-- The characters before the first space. -/
def word (l : List UInt8) : List UInt8 := l.takeWhile (· ≠ space)

/-- What follows the first word and the spaces behind it. -/
def rest (l : List UInt8) : List UInt8 := (l.dropWhile (· ≠ space)).dropWhile (· = space)

def InBuffer (buf x : ℕ) : Prop := buf ≤ x ∧ x < buf + cmdBufferSize

variable {buf p i line : ℕ} {m : Mem} {l old : List UInt8} {c d : UInt8}

@[simp] theorem chars_length : (chars buf m p).length = cmdBufferSize - p := readBytes_length _ _ _

theorem chars_drop (n : ℕ) : (chars buf m p).drop n = chars buf m (p + n) := by
  rw [chars, readBytes_drop, chars, Nat.add_assoc, Nat.sub_sub]

/-- A known character of the buffer. -/
theorem chars_at (h : chars buf m p = l ++ c :: old) :
    m (buf + (p + l.length)) = c ∧ p + l.length < cmdBufferSize := by
  have hlen := congrArg List.length h
  rw [chars_length, List.length_append, List.length_cons] at hlen
  have hget := congrArg (fun s => s[l.length]?) h
  rw [chars, List.getElem?_eq_getElem (by rw [readBytes_length]; omega)] at hget
  refine ⟨?_, by omega⟩
  simpa [Nat.add_assoc] using hget

/-- The terminator of what is known lies in the buffer. -/
theorem length_lt_of_chars (h : chars buf m p = l ++ c :: old) : l.length < cmdBufferSize - p := by
  have hlt := (chars_at h).2
  omega

theorem chars_append (h : chars buf m p = l ++ old) : chars buf m (p + l.length) = old := by
  rw [← chars_drop, h, List.drop_left]

/-- A character is stored over a known one. -/
theorem chars_update (h : chars buf m p = l ++ d :: old) :
    chars buf (Function.update m (buf + (p + l.length)) c) p = l ++ c :: old := by
  have hset : l ++ c :: old = (chars buf m p).set l.length c := by
    rw [h, List.set_append_right _ _ le_rfl, Nat.sub_self, List.set_cons_zero]
  rw [hset]
  apply List.ext_getElem
  · simp
  · intro k hk hk'
    rw [List.getElem_set]
    by_cases hkl : l.length = k
    · subst hkl
      simp [chars, Nat.add_assoc]
    · rw [if_neg hkl]
      simp only [chars, readBytes_getElem]
      exact Function.update_of_ne (by omega) _ _

theorem word_noNul (hl : 0 ∉ l) : 0 ∉ word l := fun h => hl (List.takeWhile_subset _ h)

theorem rest_noNul (hl : 0 ∉ l) : 0 ∉ rest l := fun h =>
  hl ((List.dropWhile_suffix _).subset ((List.dropWhile_suffix _).subset h))

theorem skipWord_spec (old : List UInt8) (h : 0 ∉ l) :
    skipWord (l ++ 0 :: old) = some (word l).length := by
  induction l with
  | nil => rfl
  | cons c l ih =>
    rw [List.mem_cons, not_or] at h
    by_cases hc : c = space
    · simp [skipWord, word, hc]
    · simp [skipWord, word, hc, Ne.symm h.1, ih h.2]

theorem skipSpaces_spec :
    skipSpaces (l ++ 0 :: old) = some (l.takeWhile (· = space)).length := by
  induction l with
  | nil => rfl
  | cons c l ih =>
    by_cases hc : c = space
    · simp [skipSpaces, hc, ih]
    · simp [skipSpaces, hc]

theorem storeChar_some (h : i < cmdBufferSize) :
    storeChar buf m i c = some (Function.update m (buf + i) c) := if_pos h

/-- The first word gets its own terminator, the rest keeps the one of the line. -/
theorem splitCommand_spec (hl : 0 ∉ l) (h : chars buf m line = l ++ 0 :: old) :
    ∃ p m', splitCommand buf m line = some (p, m') ∧
      (∃ old', chars buf m' line = word l ++ 0 :: old') ∧ chars buf m' p = rest l ++ 0 :: old ∧
      ∀ x, ¬ InBuffer buf x → m' x = m x := by
  have hword : word l ++ l.dropWhile (· ≠ space) = l := List.takeWhile_append_dropWhile
  have hskip := skipWord_spec old hl
  rw [← h] at hskip
  cases hdrop : l.dropWhile (· ≠ space) with
  | nil =>
    rw [hdrop, List.append_nil] at hword
    obtain ⟨hat, -⟩ := chars_at h
    refine ⟨line + l.length, m, ?_, ⟨old, by rw [hword, h]⟩, ?_, fun _ _ => rfl⟩
    · rw [splitCommand, hskip, hword, Option.bind_some, hat, if_neg (by decide)]
    · rw [chars_append h, rest, hdrop]
      rfl
  | cons c tail =>
    have hc : c = space := by
      have hhead := List.head?_dropWhile_not (· ≠ space) l
      rw [hdrop] at hhead
      simpa using hhead
    rw [hdrop, hc] at hword
    have hsplit : chars buf m line = word l ++ space :: (tail ++ 0 :: old) := by
      rw [h]
      simpa using (congrArg (· ++ 0 :: old) hword).symm
    obtain ⟨hat, hlt⟩ := chars_at hsplit
    have hstored := chars_update (c := 0) hsplit
    generalize hm : Function.update m (buf + (line + (word l).length)) 0 = m' at hstored
    have htail : chars buf m' (line + (word l).length + 1) = tail ++ 0 :: old := by
      rw [List.append_cons] at hstored
      simpa [Nat.add_assoc] using chars_append hstored
    refine ⟨line + (word l).length + 1 + (tail.takeWhile (· = space)).length, m', ?_, ⟨_, hstored⟩,
      ?_, ?_⟩
    · rw [splitCommand, hskip, Option.bind_some, hat, if_pos rfl, storeChar_some hlt, hm,
        Option.bind_some, htail, skipSpaces_spec, Option.map_some]
    · rw [rest, hdrop, hc, List.dropWhile_cons_of_pos (by simp)]
      apply chars_append
      rw [htail, ← List.append_assoc, List.takeWhile_append_dropWhile]
    · intro x hx
      rw [← hm]
      apply Function.update_of_ne
      rintro rfl
      exact hx ⟨Nat.le_add_right _ _, Nat.add_lt_add_left hlt _⟩

end ShadOS.Shell

import ShadOS.Ramfs.Source

/-! # Names in the file table

Used slots hold terminated names, so that `ramfs_find` compares strings and
never reads past a name. The copy of a short name into a slot is such a name.
-/

namespace ShadOS.Ramfs
open Machine Strings

/-- The name in the slot. -/
def RamfsFile.title (f : RamfsFile) : List UInt8 := untilNul f.name.toList

/-- The slot belongs to the file with this name. -/
def RamfsFile.Is (f : RamfsFile) (name : List UInt8) : Prop := f.used = true ∧ f.title = name

variable {files : Files} {f : CString} {name : List UInt8} {i : Fin ramfsMaxFiles}

theorem findLoop_spec (h : ∀ i, (files i).used = true → 0 ∈ (files i).name.toList) (hn : 0 ∈ name)
    (is : List (Fin ramfsMaxFiles)) :
    (∃ i, findLoop files name is = some (some i) ∧ (files i).Is (untilNul name)) ∨
      findLoop files name is = some none ∧ ∀ i ∈ is, ¬ (files i).Is (untilNul name) := by
  induction is with
  | nil => exact .inr ⟨rfl, by simp⟩
  | cons i is ih =>
    simp only [List.forall_mem_cons]
    by_cases hu : (files i).used = true
    · obtain ⟨c, hc, hiff⟩ := strcmp_spec (h i hu) hn
      rw [findLoop, if_pos hu, hc, Option.bind_some]
      by_cases h0 : c = 0
      · exact .inl ⟨i, if_pos h0, hu, hiff.mp h0⟩
      · rw [if_neg h0]
        apply ih.imp_right
        exact fun hr => ⟨hr.1, fun hi => h0 (hiff.mpr hi.2), hr.2⟩
    · rw [findLoop, if_neg hu]
      apply ih.imp_right
      exact fun hr => ⟨hr.1, fun hi => hu hi.1, hr.2⟩

/-- `ramfs_find` finds the slot of the name, if there is one. -/
theorem ramfsFind_spec (h : ∀ i, (files i).used = true → 0 ∈ (files i).name.toList) (f : CString) :
    (∃ i, ramfsFind files f.buffer = some (some i) ∧ (files i).Is f.bytes) ∨
      ramfsFind files f.buffer = some none ∧ ∀ i, ¬ (files i).Is f.bytes := by
  have hspec := findLoop_spec h (nul_mem_buffer f) (List.finRange ramfsMaxFiles)
  rw [untilNul_buffer] at hspec
  apply hspec.imp_right
  exact fun hr => ⟨hr.1, fun i => hr.2 i (List.mem_finRange i)⟩

theorem ramfsFindFree_spec (files : Files) :
    (∃ i, ramfsFindFree files = some i ∧ (files i).used = false) ∨
    ramfsFindFree files = none ∧ ∀ i, (files i).used = true := by
  cases hr : ramfsFindFree files with
  | none =>
    refine .inr ⟨rfl, fun i => ?_⟩
    simpa using List.find?_eq_none.mp hr i (List.mem_finRange i)
  | some i => exact .inl ⟨i, rfl, by simpa using List.find?_some hr⟩

/-- The copy puts the name and its terminator over the old bytes. -/
theorem copyName_toList {bs : List UInt8} (hb : 0 ∉ bs) (dst : Vector UInt8 ramfsMaxName) (k : ℕ)
    (hk : k + bs.length < ramfsMaxName) : ∃ v, copyName dst k (bs ++ [0]) = some v ∧
      v.toList = dst.toList.take k ++ bs ++ 0 :: dst.toList.drop (k + bs.length + 1) := by
  induction bs generalizing dst k with
  | nil =>
    refine ⟨dst.setIfInBounds k 0, by simp [copyName], ?_⟩
    have hlt : k < dst.toList.length := by simpa using hk
    rw [Vector.toList_setIfInBounds, List.set_eq_take_append_cons_drop, if_pos hlt]
    simp
  | cons b bs ih =>
    rw [List.mem_cons, not_or] at hb
    rw [List.length_cons] at hk
    have hk' : k < ramfsMaxName - 1 := by omega
    obtain ⟨v, hv, hl⟩ := ih hb.2 (dst.setIfInBounds k b) (k + 1) (by omega)
    refine ⟨v, ?_, ?_⟩
    · rw [List.cons_append, copyName, if_pos ⟨Ne.symm hb.1, hk'⟩, hv]
    · have hlt : k < dst.toList.length := by
        rw [Vector.length_toList]
        omega
      have htake : (dst.toList.set k b).take (k + 1) = dst.toList.take k ++ [b] := by
        rw [List.set_eq_take_append_cons_drop, if_pos hlt, List.append_cons]
        apply List.take_left'
        rw [List.length_append, List.length_take_of_le hlt.le, List.length_singleton]
      rw [hl, Vector.toList_setIfInBounds, List.drop_set_of_lt (by omega), htake]
      simp [Nat.add_assoc, Nat.add_comm 1]

/-- The name that `ramfs_write` leaves in a slot. -/
theorem copyName_spec (f : CString) (hf : f.bytes.length < ramfsMaxName)
    (dst : Vector UInt8 ramfsMaxName) : ∃ v, copyName dst 0 f.buffer = some v ∧
      0 ∈ v.toList ∧ untilNul v.toList = f.bytes := by
  obtain ⟨v, hv, hl⟩ := copyName_toList f.noNul dst 0 (by omega)
  refine ⟨v, hv, ?_, ?_⟩
  · rw [hl]
    simp
  · rw [hl, List.take_zero, List.nil_append, untilNul_append f.noNul]

/-! ## Names with other bytes behind them -/

variable {tail : List UInt8}

theorem ramfsFind_tail : ramfsFind files (name ++ 0 :: tail) = ramfsFind files (name ++ [0]) := by
  have hloop (is : List (Fin ramfsMaxFiles)) :
      findLoop files (name ++ 0 :: tail) is = findLoop files (name ++ [0]) is := by
    induction is with
    | nil => rfl
    | cons i is ih => simp only [findLoop, strcmp_tail, ih]
  exact hloop _

theorem copyName_tail (dst : Vector UInt8 ramfsMaxName) (k : ℕ) :
    copyName dst k (name ++ 0 :: tail) = copyName dst k (name ++ [0]) := by
  induction name generalizing dst k with
  | nil => simp [copyName]
  | cons c name ih => simp only [List.cons_append, copyName, ih]

section tail
universe u
variable {H : Type u} {A : Allocator H} {s : FileSystem H} {data size : ℕ}

theorem ramfsRead_tail : ramfsRead s (name ++ 0 :: tail) = ramfsRead s (name ++ [0]) := by
  rw [ramfsRead, ramfsFind_tail, ramfsRead]

theorem ramfsDelete_tail : ramfsDelete A s (name ++ 0 :: tail) = ramfsDelete A s (name ++ [0]) := by
  rw [ramfsDelete, ramfsFind_tail, ramfsDelete]

theorem ramfsWrite_tail :
    ramfsWrite A s (name ++ 0 :: tail) data size = ramfsWrite A s (name ++ [0]) data size := by
  simp only [ramfsWrite, claimSlot, strlen_tail, ramfsFind_tail, copyName_tail]

end tail

end ShadOS.Ramfs

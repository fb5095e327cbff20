import ShadOS.Paging.Source

/-! # What the tables say

Every entry of the directory is empty or names a table of the kernel, and no
table twice; every entry of such a table is empty or maps its own page. The
translation of the processor is then an identity wherever it is defined, and it
is defined on low memory, where the tables themselves lie.
-/

namespace ShadOS.Paging
open Machine
open Heap (not32 and_not32_two_pow)

/-! ## Bits of an entry -/

theorem and_frameMask {x : ℕ} (hx : x < 2 ^ 32) : x &&& frameMask = x / 4096 * 4096 :=
  and_not32_two_pow (k := 12) hx (by decide)

theorem and_present (x : ℕ) : x &&& pagePresent = x % 2 := Nat.and_two_pow_sub_one_eq_mod x 1

theorem pdIndex_eq (va : ℕ) : va >>> 22 = va / 2 ^ 22 := Nat.shiftRight_eq_div_pow va 22

theorem ptIndex_eq (va : ℕ) : (va >>> 12) &&& 0x3FF = va / 2 ^ 12 % 1024 := by
  rw [Nat.shiftRight_eq_div_pow]
  exact Nat.and_two_pow_sub_one_eq_mod _ 10

theorem entry_eq {addr : ℕ} (h : addr % 4096 = 0) : entry addr = addr + 7 := by
  have hor : addr + 7 = addr ||| 7 := by
    have hadd := Nat.two_pow_add_eq_or_of_lt (i := 12) (b := 7) (by decide) (addr / 4096)
    rwa [show 2 ^ 12 * (addr / 4096) = addr by omega] at hadd
  rw [hor, entry, Nat.or_assoc, Nat.or_assoc]
  rfl

/-- Both entries grant all access. -/
theorem access_eq {x y : ℕ} (hx : x % 8 = 7) (hy : y % 8 = 7) :
    x &&& y &&& (pagePresent ||| pageWrite ||| pageUser) = 7 := by
  have hmod : x &&& y &&& 7 = (x % 2 ^ 3) &&& (y % 2 ^ 3) := by
    rw [← Nat.and_mod_two_pow]
    exact Nat.and_two_pow_sub_one_eq_mod _ 3
  rw [show pagePresent ||| pageWrite ||| pageUser = 7 from rfl, hmod, show x % 2 ^ 3 = 7 from hx,
    show y % 2 ^ 3 = 7 from hy]
  rfl

/-! ## The frames of the tables -/

/-- All tables, those of `page_tables` first. -/
def Arrays.frame (a : Arrays) (k : ℕ) : ℕ :=
  if k < numPageTables then a.pageTable k else a.extraTable (k - numPageTables)

section frames
variable {a : Arrays} {k l i j : ℕ}

theorem frame_low (hk : k < 8) : a.frame k % 4096 = 0 ∧ a.frame k + 4096 ≤ lowMemory := by
  have h1 := a.tables_aligned
  have h2 := a.extra_aligned
  have h3 := a.tables_low
  have h4 := a.extra_low
  unfold numPageTables at h3
  unfold numExtraTables at h4
  unfold Arrays.frame Arrays.pageTable Arrays.extraTable numPageTables
  split_ifs <;> omega

theorem frame_ne (hk : k < 8) (hl : l < 8) (h : k ≠ l) :
    a.frame k + 4096 ≤ a.frame l ∨ a.frame l + 4096 ≤ a.frame k := by
  have h1 := a.tables_extra
  unfold numPageTables numExtraTables at h1
  unfold Arrays.frame Arrays.pageTable Arrays.extraTable numPageTables
  split_ifs <;> omega

theorem frame_directory (hk : k < 8) :
    a.frame k + 4096 ≤ a.pageDirectory ∨ a.pageDirectory + 4096 ≤ a.frame k := by
  have h1 := a.directory_tables
  have h2 := a.directory_extra
  unfold numPageTables at h1
  unfold numExtraTables at h2
  unfold Arrays.frame Arrays.pageTable Arrays.extraTable numPageTables
  split_ifs <;> omega

theorem lowMemory_eq : lowMemory = 2 ^ 24 := rfl

end frames

/-! ## The invariant -/

/-- Entry `i` of the directory. -/
def Arrays.dir (a : Arrays) (m : Mem) (i : ℕ) : ℕ := readWord m (a.pageDirectory + 4 * i)

/-- Entry `j` of table `k`. -/
def Arrays.page (a : Arrays) (m : Mem) (k j : ℕ) : ℕ := readWord m (a.frame k + 4 * j)

/-- `m` holds tables of which `used` reserve tables may be in use. -/
structure Tables (a : Arrays) (m : Mem) (used : ℕ) : Prop where
  bound : used ≤ numExtraTables
  entries : ∀ i < 1024, a.dir m i = 0 ∨ ∃ k < numPageTables + used, a.dir m i = a.frame k + 7
  low : ∀ i < numPageTables, a.dir m i = a.frame i + 7
  once : ∀ i < 1024, ∀ j < 1024, a.dir m i ≠ 0 → a.dir m i = a.dir m j → i = j
  pages : ∀ i < 1024, ∀ k < 8, a.dir m i = a.frame k + 7 → ∀ j < 1024,
    a.page m k j = 0 ∨ a.page m k j = i * 2 ^ 22 + j * 2 ^ 12 + 7
  lowPages : ∀ i < numPageTables, ∀ j < 1024, a.page m i j = i * 2 ^ 22 + j * 2 ^ 12 + 7

/-- The address has a table, and its page an entry there. -/
def Mapped (a : Arrays) (m : Mem) (va : ℕ) : Prop :=
  ∃ k < 8, a.dir m (va / 2 ^ 22) = a.frame k + 7 ∧ a.page m k (va / 2 ^ 12 % 1024) ≠ 0

/-- Paging is on, over well-formed tables. -/
structure Ready (a : Arrays) (s : State) : Prop where
  on : s.pagingOn = true
  cr3 : s.cr3 = a.pageDirectory
  tables : Tables a s.mem s.extraTablesUsed

variable {a : Arrays} {m m' : Mem} {used va : ℕ} {s : State}

theorem Tables.frame_of_ne (h : Tables a m used) {i : ℕ} (hi : i < 1024) (h0 : a.dir m i ≠ 0) :
    ∃ k < numPageTables + used, k < 8 ∧ a.dir m i = a.frame k + 7 := by
  obtain ⟨k, hk, he⟩ := (h.entries i hi).resolve_left h0
  have hu := h.bound
  unfold numExtraTables at hu
  exact ⟨k, hk, by unfold numPageTables at hk; omega, he⟩

theorem frame_inj {k l : ℕ} (hk : k < 8) (hl : l < 8) (h : a.frame k = a.frame l) : k = l := by
  by_contra hne
  have := frame_ne (a := a) hk hl hne
  omega

theorem Tables.mapped_low (h : Tables a m used) (hva : va < lowMemory) : Mapped a m va := by
  rw [lowMemory_eq] at hva
  have hi : va / 2 ^ 22 < numPageTables := by
    unfold numPageTables
    omega
  refine ⟨va / 2 ^ 22, by unfold numPageTables at hi; omega, h.low _ hi, ?_⟩
  rw [h.lowPages _ hi _ (Nat.mod_lt _ (by decide))]
  omega

namespace Ready

theorem directoryEntry (h : Ready a s) (i : ℕ) : s.directoryEntry i = a.dir s.mem i := by
  have hlow := a.directory_low
  have hal := a.directory_aligned
  rw [lowMemory_eq] at hlow
  rw [State.directoryEntry, h.cr3, and_frameMask (by omega), Arrays.dir]
  congr 2
  omega

theorem tableEntry {k : ℕ} (hk : k < 8) (j : ℕ) :
    s.tableEntry (a.frame k + 7) j = a.page s.mem k j := by
  obtain ⟨hal, hlow⟩ := frame_low (a := a) hk
  rw [lowMemory_eq] at hlow
  rw [State.tableEntry, and_frameMask (by omega), Arrays.page]
  congr 2
  omega

/-- Where there is a page, it is translated to itself, with all access. -/
theorem translate_mapped (h : Ready a s) (hva : va < 2 ^ 32) (hm : Mapped a s.mem va) :
    s.translate va = some (va, 7) := by
  obtain ⟨k, hk, hdir, hpage⟩ := hm
  obtain ⟨hal, hlow⟩ := frame_low (a := a) hk
  have hi : va / 2 ^ 22 < 1024 := by omega
  have hj : va / 2 ^ 12 % 1024 < 1024 := Nat.mod_lt _ (by decide)
  have hpte := (h.tables.pages _ hi k hk hdir _ hj).resolve_left hpage
  rw [State.translate, h.on, if_neg (by decide)]
  simp only [pdIndex_eq, ptIndex_eq, h.directoryEntry, hdir, tableEntry hk, hpte, and_present]
  rw [if_neg (by omega), if_neg (by omega), access_eq (by omega) (by omega), and_frameMask (by omega)]
  rw [show va &&& 0xFFF = va % 2 ^ 12 from Nat.and_two_pow_sub_one_eq_mod va 12]
  congr 2
  omega

/-- Where there is none, the access faults. -/
theorem translate_unmapped (h : Ready a s) (hva : va < 2 ^ 32) (hm : ¬ Mapped a s.mem va) :
    s.translate va = none := by
  have hi : va / 2 ^ 22 < 1024 := by omega
  have hj : va / 2 ^ 12 % 1024 < 1024 := Nat.mod_lt _ (by decide)
  rw [State.translate, h.on, if_neg (by decide)]
  simp only [pdIndex_eq, ptIndex_eq, h.directoryEntry, and_present]
  by_cases h0 : a.dir s.mem (va / 2 ^ 22) = 0
  · rw [if_pos (by omega)]
  · obtain ⟨k, -, hk, hdir⟩ := h.tables.frame_of_ne hi h0
    have hpage : a.page s.mem k (va / 2 ^ 12 % 1024) = 0 := by
      by_contra hne
      exact hm ⟨k, hk, hdir, hne⟩
    have hal := (frame_low (a := a) hk).1
    rw [hdir, tableEntry hk, hpage, if_neg (by omega)]
    rfl

theorem translate_isSome (h : Ready a s) (hva : va < 2 ^ 32) :
    s.translate va ≠ none ↔ Mapped a s.mem va := by
  constructor
  · intro hs
    by_contra hm
    exact hs (h.translate_unmapped hva hm)
  · intro hm
    rw [h.translate_mapped hva hm]
    simp

/-- The kernel reaches low memory under its physical addresses. -/
theorem load_low (h : Ready a s) (hva : va < lowMemory) : s.load va = some (readWord s.mem va) := by
  have hlt : va < 2 ^ 32 := by
    rw [lowMemory_eq] at hva
    omega
  rw [State.load, h.translate_mapped hlt (h.tables.mapped_low hva)]
  rfl

theorem store_low (h : Ready a s) (hva : va < lowMemory) (v : ℕ) :
    s.store va v = some { s with mem := writeWord s.mem va v } := by
  have hlt : va < 2 ^ 32 := by
    rw [lowMemory_eq] at hva
    omega
  rw [State.store, h.translate_mapped hlt (h.tables.mapped_low hva)]
  rfl

end Ready

/-! ## Writes to the tables -/

section writes
variable {k l i j v : ℕ}

theorem dir_writePage (hk : k < 8) (hj : j < 1024) (hi : i < 1024) :
    a.dir (writeWord m (a.frame k + 4 * j) v) i = a.dir m i := by
  have := frame_directory (a := a) hk
  apply readWord_writeWord_of_disjoint
  omega

theorem page_writePage (hk : k < 8) (hl : l < 8) (hj : j < 1024) (hi : i < 1024) :
    a.page (writeWord m (a.frame k + 4 * j) v) l i =
      if l = k ∧ i = j then u32 v else a.page m l i := by
  by_cases h : l = k
  · subst h
    simp only [Arrays.page, readWord_writeWord_cell, true_and]
  · have := frame_ne (a := a) hl hk h
    rw [if_neg (fun hh => h hh.1)]
    apply readWord_writeWord_of_disjoint
    omega

theorem dir_writeDir : a.dir (writeWord m (a.pageDirectory + 4 * j) v) i =
    if i = j then u32 v else a.dir m i := readWord_writeWord_cell

theorem page_writeDir (hl : l < 8) (hj : j < 1024) (hi : i < 1024) :
    a.page (writeWord m (a.pageDirectory + 4 * j) v) l i = a.page m l i := by
  have := frame_directory (a := a) hl
  apply readWord_writeWord_of_disjoint
  omega

end writes

end ShadOS.Paging

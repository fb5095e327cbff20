import ShadOS.Paging.Tables

/-! # One call of `paging_identity_map_region`

The loop is followed page by page. A page adds its own addresses to the mapped
ones, a fresh table adds none, and the loop stops at the end of the region or
at the first address for which no table is left.
-/

namespace ShadOS.Paging
open Machine
open Heap (not32)

variable {a : Arrays} {s s' t : State} {m : Mem} {used k i lo mid hi va addr stop : ℕ}

/-! ## Writes that keep the tables -/

/-- No directory entry names table `k`. -/
def Unnamed (a : Arrays) (m : Mem) (k : ℕ) : Prop := ∀ i < 1024, a.dir m i ≠ a.frame k + 7

theorem Tables.mono (h : Tables a m used) (hused : used < numExtraTables) :
    Tables a m (used + 1) where
  bound := hused
  entries := fun i hi => (h.entries i hi).imp_right (fun ⟨l, hl, he⟩ => ⟨l, by omega, he⟩)
  low := h.low
  once := h.once
  pages := h.pages
  lowPages := h.lowPages

theorem Tables.unnamed (h : Tables a m used) (hk : numPageTables + used ≤ k) (hk8 : k < 8) :
    Unnamed a m k := by
  intro i hi hdir
  have hne : a.dir m i ≠ 0 := by omega
  obtain ⟨l, hl, hl8, hdir'⟩ := h.frame_of_ne hi hne
  have : k = l := frame_inj (a := a) hk8 hl8 (by omega)
  omega

section fill
variable {v : ℕ → ℕ} {is : List ℕ}

theorem dir_fill (hk8 : k < 8) (his : ∀ i ∈ is, i < 1024) (hi : i < 1024) :
    a.dir (fillWords m (a.frame k) v is) i = a.dir m i := by
  have hap := frame_directory (a := a) hk8
  apply fillWords_of_disjoint
  intro j hj
  have := his j hj
  omega

theorem page_fill {l j : ℕ} (hk8 : k < 8) (hl : l < 8) (hne : l ≠ k) (his : ∀ i ∈ is, i < 1024)
    (hj : j < 1024) : a.page (fillWords m (a.frame k) v is) l j = a.page m l j := by
  have hap := frame_ne (a := a) hl hk8 hne
  apply fillWords_of_disjoint
  intro i hi
  have := his i hi
  omega

/-- A table that no entry names may hold anything. -/
theorem Tables.fill (h : Tables a m used) (hk8 : k < 8) (hk : Unnamed a m k)
    (his : ∀ i ∈ is, i < 1024) : Tables a (fillWords m (a.frame k) v is) used := by
  have hdir : ∀ i < 1024, a.dir (fillWords m (a.frame k) v is) i = a.dir m i :=
    fun i hi => dir_fill hk8 his hi
  have hpage : ∀ l < 8, l ≠ k → ∀ j < 1024,
      a.page (fillWords m (a.frame k) v is) l j = a.page m l j :=
    fun l hl hne j hj => page_fill hk8 hl hne his hj
  constructor
  · exact h.bound
  · intro i hi
    rw [hdir i hi]
    exact h.entries i hi
  · intro i hi
    rw [hdir i (by unfold numPageTables at hi; omega)]
    exact h.low i hi
  · intro i hi j hj
    rw [hdir i hi, hdir j hj]
    exact h.once i hi j hj
  · intro i hi l hl hil j hj
    rw [hdir i hi] at hil
    have hne : l ≠ k := by
      rintro rfl
      exact hk i hi hil
    rw [hpage l hl hne j hj]
    exact h.pages i hi l hl hil j hj
  · intro i hi j hj
    have hi8 : i < 8 := by unfold numPageTables at hi; omega
    have hne : i ≠ k := by
      rintro rfl
      exact hk i (by omega) (h.low i hi)
    rw [hpage i hi8 hne j hj]
    exact h.lowPages i hi j hj

theorem mapped_fill (hk8 : k < 8) (hk : Unnamed a m k) (his : ∀ i ∈ is, i < 1024)
    (hva : va < 2 ^ 32) : Mapped a (fillWords m (a.frame k) v is) va ↔ Mapped a m va := by
  have hi : va / 2 ^ 22 < 1024 := by omega
  have hj : va / 2 ^ 12 % 1024 < 1024 := Nat.mod_lt _ (by decide)
  unfold Mapped
  apply exists_congr
  intro l
  apply and_congr_right
  intro hl
  rw [dir_fill hk8 his hi]
  apply and_congr_right
  intro hdir
  have hne : l ≠ k := by
    rintro rfl
    exact hk _ hi hdir
  rw [page_fill hk8 hl hne his hj]

/-- The loop that clears table `k` writes nothing else. -/
theorem Ready.storeLoop (h : Ready a s) (hk8 : k < 8) (hk : Unnamed a s.mem k)
    (his : ∀ i ∈ is, i < 1024) :
    State.storeLoop (a.frame k) v is s =
      some { s with mem := fillWords s.mem (a.frame k) v is } := by
  induction is generalizing s with
  | nil => rfl
  | cons i is ih =>
    have hi : i < 1024 := his i List.mem_cons_self
    obtain ⟨hal, hlow⟩ := frame_low (a := a) hk8
    have hfill : Tables a (fillWords s.mem (a.frame k) v [i]) s.extraTablesUsed :=
      h.tables.fill hk8 hk (by simpa using hi)
    rw [State.storeLoop, h.store_low (by omega)]
    apply ih (s := { s with mem := writeWord s.mem (a.frame k + 4 * i) (v i) })
    · exact ⟨h.on, h.cr3, hfill⟩
    · intro j hj
      rw [dir_writePage hk8 hi hj]
      exact hk j hj
    · exact fun j hj => his j (List.mem_cons_of_mem _ hj)

end fill

/-- A cleared table gets an entry that had none. -/
theorem Tables.claim (h : Tables a m used) (hused : used < numExtraTables) (hi : i < 1024)
    (h0 : a.dir m i = 0) (hk : k = numPageTables + used)
    (hclear : ∀ j < 1024, a.page m k j = 0) :
    Tables a (writeWord m (a.pageDirectory + 4 * i) (a.frame k + 7)) (used + 1) := by
  unfold numExtraTables at hused
  unfold numPageTables at hk
  have hk8 : k < 8 := by omega
  have hfree : Unnamed a m k := h.unnamed (by unfold numPageTables; omega) hk8
  have hlow := (frame_low (a := a) hk8).2
  rw [lowMemory_eq] at hlow
  have hu : u32 (a.frame k + 7) = a.frame k + 7 := u32_of_lt (by omega)
  constructor
  · unfold numExtraTables
    omega
  · intro j hj
    rw [dir_writeDir, hu]
    split
    · exact Or.inr ⟨k, by unfold numPageTables; omega, rfl⟩
    · exact (h.entries j hj).imp_right (fun ⟨l, hl, he⟩ => ⟨l, by omega, he⟩)
  · intro j hj
    have hji : j ≠ i := by
      rintro rfl
      have := h.low j hj
      omega
    rw [dir_writeDir, if_neg hji]
    exact h.low j hj
  · intro j hj l hl hne heq
    rw [dir_writeDir, dir_writeDir, hu] at heq
    rw [dir_writeDir, hu] at hne
    by_cases hji : j = i <;> by_cases hli : l = i
    · omega
    · rw [if_pos hji, if_neg hli] at heq
      exact absurd heq.symm (hfree l hl)
    · rw [if_neg hji, if_pos hli] at heq
      exact absurd heq (hfree j hj)
    · rw [if_neg hji, if_neg hli] at heq
      rw [if_neg hji] at hne
      exact h.once j hj l hl hne heq
  · intro j hj l hl hdir b hb
    rw [page_writeDir hl hi hb]
    rw [dir_writeDir, hu] at hdir
    by_cases hji : j = i
    · rw [if_pos hji] at hdir
      have hlk : k = l := frame_inj (a := a) hk8 hl (by omega)
      exact Or.inl (hlk ▸ hclear b hb)
    · rw [if_neg hji] at hdir
      exact h.pages j hj l hl hdir b hb
  · intro j hj b hb
    rw [page_writeDir (by unfold numPageTables at hj; omega) hi hb]
    exact h.lowPages j hj b hb

/-- An entry of a named table gets its own page. -/
theorem Tables.writePage (h : Tables a m used) (haddr : addr < 2 ^ 32) (hpage : addr % 4096 = 0)
    (hk8 : k < 8) (hdir : a.dir m (addr / 2 ^ 22) = a.frame k + 7) :
    Tables a (writeWord m (a.frame k + 4 * (addr / 2 ^ 12 % 1024)) (addr + 7)) used := by
  have hi : addr / 2 ^ 22 < 1024 := by omega
  have hj : addr / 2 ^ 12 % 1024 < 1024 := Nat.mod_lt _ (by decide)
  have hu : u32 (addr + 7) = addr + 7 := u32_of_lt (by omega)
  -- The entry written belongs to the only directory entry that names the table.
  have hown : ∀ b < 1024, a.dir m b = a.frame k + 7 → b = addr / 2 ^ 22 := by
    intro b hb hbk
    exact h.once b hb _ hi (by omega) (hbk.trans hdir.symm)
  constructor
  · exact h.bound
  · intro b hb
    rw [dir_writePage hk8 hj hb]
    exact h.entries b hb
  · intro b hb
    rw [dir_writePage hk8 hj (by unfold numPageTables at hb; omega)]
    exact h.low b hb
  · intro b hb c hc
    rw [dir_writePage hk8 hj hb, dir_writePage hk8 hj hc]
    exact h.once b hb c hc
  · intro b hb l hl hbl c hc
    rw [dir_writePage hk8 hj hb] at hbl
    rw [page_writePage hk8 hl hj hc, hu]
    split
    · rename_i hw
      rw [hown b hb (hw.1 ▸ hbl)]
      omega
    · exact h.pages b hb l hl hbl c hc
  · intro b hb c hc
    have hb8 : b < 8 := by unfold numPageTables at hb; omega
    rw [page_writePage hk8 hb8 hj hc, hu]
    split
    · rename_i hw
      rw [hown b (by omega) (hw.1 ▸ h.low b hb)]
      omega
    · exact h.lowPages b hb c hc

/-! ## What a step adds -/

/-- `t` maps what `s` maps, and the pages of `[lo, hi)`. -/
structure Adds (a : Arrays) (s t : State) (lo hi : ℕ) : Prop where
  ready : Ready a t
  mapped : ∀ va < 2 ^ 32, Mapped a t.mem va ↔ Mapped a s.mem va ∨ (lo ≤ va ∧ va < hi)
  named : ∀ i < 1024, a.dir s.mem i ≠ 0 → a.dir t.mem i = a.dir s.mem i
  used : s.extraTablesUsed ≤ t.extraTablesUsed

theorem Adds.refl (h : Ready a s) (lo : ℕ) : Adds a s s lo lo where
  ready := h
  mapped := by
    intro va _
    have : ¬ (lo ≤ va ∧ va < lo) := by omega
    simp [this]
  named := by simp
  used := le_rfl

theorem Adds.trans (h : Adds a s s' lo mid) (h' : Adds a s' t mid hi) (hlo : lo ≤ mid)
    (hhi : mid ≤ hi) : Adds a s t lo hi where
  ready := h'.ready
  mapped := by
    intro va hva
    rw [h'.mapped va hva, h.mapped va hva, or_assoc]
    apply or_congr_right
    omega
  named := by
    intro i hi h0
    have hs := h.named i hi h0
    exact (h'.named i hi (hs ▸ h0)).trans hs
  used := h.used.trans h'.used

theorem extraTable_eq (used : ℕ) : a.extraTable used = a.frame (numPageTables + used) := by
  rw [Arrays.frame, if_neg (by omega), Nat.add_sub_cancel_left]

/-- A new table maps nothing yet. -/
theorem mapped_claim (hk8 : k < 8) (hi : i < 1024) (h0 : a.dir m i = 0)
    (hclear : ∀ j < 1024, a.page m k j = 0) :
    Mapped a (writeWord m (a.pageDirectory + 4 * i) (a.frame k + 7)) va ↔ Mapped a m va := by
  have hj : va / 2 ^ 12 % 1024 < 1024 := Nat.mod_lt _ (by decide)
  have hlow := (frame_low (a := a) hk8).2
  rw [lowMemory_eq] at hlow
  unfold Mapped
  apply exists_congr
  intro l
  apply and_congr_right
  intro hl
  rw [dir_writeDir, page_writeDir hl hi hj, u32_of_lt (by omega)]
  by_cases hd : va / 2 ^ 22 = i
  · rw [if_pos hd, hd, h0]
    constructor
    · rintro ⟨heq, hne⟩
      obtain rfl : k = l := frame_inj (a := a) hk8 hl (by omega)
      exact absurd (hclear _ hj) hne
    · intro hh
      omega
  · rw [if_neg hd]

/-- The next reserve table is cleared; nothing names it yet. -/
theorem Ready.clearTable (h : Ready a s) (hused : s.extraTablesUsed < numExtraTables)
    (hk : k = numPageTables + s.extraTablesUsed) :
    ∃ m, State.storeLoop (a.frame k) (fun _ => 0) (List.range 1024)
        { s with extraTablesUsed := s.extraTablesUsed + 1 } =
          some { s with mem := m, extraTablesUsed := s.extraTablesUsed + 1 } ∧
      Tables a m s.extraTablesUsed ∧ (∀ va < 2 ^ 32, Mapped a m va ↔ Mapped a s.mem va) ∧
      (∀ j < 1024, a.dir m j = a.dir s.mem j) ∧ ∀ j < 1024, a.page m k j = 0 := by
  have hk8 : k < 8 := by
    unfold numExtraTables at hused
    unfold numPageTables at hk
    omega
  have hfree : Unnamed a s.mem k := h.tables.unnamed hk.ge hk8
  have hrange : ∀ j ∈ List.range 1024, j < 1024 := fun j hj => List.mem_range.mp hj
  have hstart : Ready a { s with extraTablesUsed := s.extraTablesUsed + 1 } :=
    ⟨h.on, h.cr3, h.tables.mono hused⟩
  refine ⟨_, hstart.storeLoop hk8 hfree hrange, h.tables.fill hk8 hfree hrange,
    fun va hva => mapped_fill hk8 hfree hrange hva, fun j hj => dir_fill hk8 hrange hj, ?_⟩
  intro j hj
  rw [Arrays.page, fillWords_cell, if_pos (List.mem_range.mpr hj)]
  rfl

/-- A fresh table for entry `i`: the counter, the cleared table, the directory. -/
theorem claim_adds (h : Ready a s) (hi : i < 1024) (h0 : a.dir s.mem i = 0)
    (hused : s.extraTablesUsed < numExtraTables) (lo : ℕ) :
    ∃ t, (State.storeLoop (a.extraTable s.extraTablesUsed) (fun _ => 0) (List.range 1024)
        { s with extraTablesUsed := s.extraTablesUsed + 1 }).bind (fun s' =>
          (s'.store (a.pageDirectory + 4 * i) (entry (a.extraTable s.extraTablesUsed))).map
            (·, true)) = some (t, true) ∧ Adds a s t lo lo ∧ a.dir t.mem i ≠ 0 := by
  obtain ⟨k, hk⟩ : ∃ k, k = numPageTables + s.extraTablesUsed := ⟨_, rfl⟩
  have hk8 : k < 8 := by
    unfold numExtraTables at hused
    unfold numPageTables at hk
    omega
  obtain ⟨hal, hlow⟩ := frame_low (a := a) hk8
  have hdlow := a.directory_low
  rw [lowMemory_eq] at hlow hdlow
  have hu : u32 (a.frame k + 7) = a.frame k + 7 := u32_of_lt (by omega)
  obtain ⟨m, hloop, htables, hsame, hdir, hclear⟩ := h.clearTable hused hk
  have hcleared : Ready a { s with mem := m, extraTablesUsed := s.extraTablesUsed + 1 } :=
    ⟨h.on, h.cr3, htables.mono hused⟩
  rw [extraTable_eq, ← hk, hloop, Option.bind_some, entry_eq hal,
    hcleared.store_low (by rw [lowMemory_eq]; omega), Option.map_some]
  refine ⟨_, rfl, ⟨⟨h.on, h.cr3, ?_⟩, ?_, ?_, Nat.le_succ _⟩, ?_⟩
  · exact htables.claim hused hi ((hdir i hi).trans h0) hk hclear
  · intro va hva
    have hno : ¬ (lo ≤ va ∧ va < lo) := by omega
    rw [mapped_claim hk8 hi ((hdir i hi).trans h0) hclear, hsame va hva]
    simp [hno]
  · intro j hj hne
    have hji : j ≠ i := by
      rintro rfl
      exact hne h0
    rw [dir_writeDir, if_neg hji, hdir j hj]
  · rw [dir_writeDir, if_pos rfl, hu]
    omega

/-- After the first test of the loop body the directory has an entry, or no table is left. -/
theorem claimTable_spec (h : Ready a s) (hi : i < 1024) (lo : ℕ) :
    (∃ t, claimTable a s i = some (t, true) ∧ Adds a s t lo lo ∧ a.dir t.mem i ≠ 0) ∨
      (claimTable a s i = some (s, false) ∧ s.extraTablesUsed = numExtraTables ∧
        a.dir s.mem i = 0) := by
  have hdlow := a.directory_low
  have hload : s.load (a.pageDirectory + 4 * i) = some (a.dir s.mem i) := h.load_low (by omega)
  have hbound := h.tables.bound
  rw [claimTable, hload, Option.bind_some, and_present]
  by_cases h0 : a.dir s.mem i = 0
  · rw [if_neg (by simp [h0])]
    by_cases hused : numExtraTables ≤ s.extraTablesUsed
    · rw [if_pos hused]
      exact Or.inr ⟨rfl, by omega, h0⟩
    · rw [if_neg hused]
      exact Or.inl (claim_adds h hi h0 (by omega) lo)
  · obtain ⟨k, -, hk8, hdir⟩ := h.tables.frame_of_ne hi h0
    have hal := (frame_low (a := a) hk8).1
    rw [if_pos (by omega)]
    exact Or.inl ⟨s, rfl, Adds.refl h lo, h0⟩

/-- An entry for a page maps this page, and nothing else. -/
theorem mapped_writePage (h : Tables a m used) (haddr : addr < 2 ^ 32) (hpage : addr % 4096 = 0)
    (hk8 : k < 8) (hdir : a.dir m (addr / 2 ^ 22) = a.frame k + 7) (hva : va < 2 ^ 32) :
    Mapped a (writeWord m (a.frame k + 4 * (addr / 2 ^ 12 % 1024)) (addr + 7)) va ↔
      Mapped a m va ∨ (addr ≤ va ∧ va < addr + 4096) := by
  have hi : addr / 2 ^ 22 < 1024 := by omega
  have hj : addr / 2 ^ 12 % 1024 < 1024 := Nat.mod_lt _ (by decide)
  have hvj : va / 2 ^ 12 % 1024 < 1024 := Nat.mod_lt _ (by decide)
  have hu : u32 (addr + 7) = addr + 7 := u32_of_lt (by omega)
  have hin : addr ≤ va ∧ va < addr + 4096 ↔
      va / 2 ^ 22 = addr / 2 ^ 22 ∧ va / 2 ^ 12 % 1024 = addr / 2 ^ 12 % 1024 := by omega
  rw [hin]
  constructor
  · rintro ⟨l, hl, hvd, hvp⟩
    rw [dir_writePage hk8 hj (by omega)] at hvd
    rw [page_writePage hk8 hl hj hvj] at hvp
    by_cases hw : l = k ∧ va / 2 ^ 12 % 1024 = addr / 2 ^ 12 % 1024
    · have hsame : a.dir m (va / 2 ^ 22) = a.dir m (addr / 2 ^ 22) := by
        rw [hvd, hdir, hw.1]
      exact Or.inr ⟨h.once _ (by omega) _ hi (by omega) hsame, hw.2⟩
    · rw [if_neg hw] at hvp
      exact Or.inl ⟨l, hl, hvd, hvp⟩
  · have hkeep : ∀ l < 8, a.page m l (va / 2 ^ 12 % 1024) ≠ 0 ∨
        (l = k ∧ va / 2 ^ 12 % 1024 = addr / 2 ^ 12 % 1024) →
        a.page (writeWord m (a.frame k + 4 * (addr / 2 ^ 12 % 1024)) (addr + 7)) l
          (va / 2 ^ 12 % 1024) ≠ 0 := by
      intro l hl hh
      rw [page_writePage hk8 hl hj hvj, hu]
      split <;> omega
    rintro (⟨l, hl, hvd, hvp⟩ | ⟨hd, hp⟩)
    · exact ⟨l, hl, by rw [dir_writePage hk8 hj (by omega), hvd], hkeep l hl (Or.inl hvp)⟩
    · refine ⟨k, hk8, ?_, hkeep k hk8 (Or.inr ⟨rfl, hp⟩)⟩
      rw [dir_writePage hk8 hj (by omega), hd, hdir]

/-- The rest of the loop body maps one page. -/
theorem mapPage_spec (h : Ready a s) (haddr : addr < 2 ^ 32) (hpage : addr % 4096 = 0)
    (h0 : a.dir s.mem (addr / 2 ^ 22) ≠ 0) :
    ∃ t, (s.load (a.pageDirectory + 4 * (addr / 2 ^ 22))).bind (fun pde =>
        s.store ((pde &&& frameMask) + 4 * (addr / 2 ^ 12 % 1024)) (entry addr)) = some t ∧
      Adds a s t addr (addr + 4096) := by
  have hi : addr / 2 ^ 22 < 1024 := by omega
  have hj : addr / 2 ^ 12 % 1024 < 1024 := Nat.mod_lt _ (by decide)
  have hdlow := a.directory_low
  obtain ⟨k, -, hk8, hdir⟩ := h.tables.frame_of_ne hi h0
  obtain ⟨hal, hlow⟩ := frame_low (a := a) hk8
  have hload : s.load (a.pageDirectory + 4 * (addr / 2 ^ 22)) = some (a.frame k + 7) := by
    rw [h.load_low (by omega), ← hdir]
    rfl
  have hmask : (a.frame k + 7) &&& frameMask = a.frame k := by
    rw [lowMemory_eq] at hlow
    rw [and_frameMask (by omega)]
    omega
  rw [hload, Option.bind_some, hmask, h.store_low (by omega), entry_eq hpage]
  refine ⟨_, rfl, ⟨h.on, h.cr3, h.tables.writePage haddr hpage hk8 hdir⟩, ?_, ?_, le_rfl⟩
  · exact fun va hva => mapped_writePage h.tables haddr hpage hk8 hdir hva
  · exact fun b hb _ => dir_writePage hk8 hj hb

/-! ## The loop -/

/-- What the loop leaves: the pages up to some address are mapped, and the loop went on to
the end unless no table was left there. -/
structure Stops (a : Arrays) (s t : State) (start mid stop : ℕ) : Prop where
  adds : Adds a s t start mid
  start_le : start ≤ mid
  le_max : mid ≤ max start stop
  exhausted : mid < stop → t.extraTablesUsed = numExtraTables ∧ a.dir t.mem (mid / 2 ^ 22) = 0

theorem mapLoop_spec (h : Ready a s) (hstop : stop < 2 ^ 32) (hstop4 : stop % 4096 = 0)
    (haddr4 : addr % 4096 = 0) {n fuel : ℕ} (hn : stop ≤ addr + 4096 * n) (hfuel : n < fuel) :
    ∃ t mid, mapLoop a stop fuel s addr = some t ∧ Stops a s t addr mid stop := by
  induction n generalizing s addr fuel with
  | zero =>
    obtain ⟨f, rfl⟩ : ∃ f, fuel = f + 1 := ⟨fuel - 1, by omega⟩
    rw [mapLoop, if_neg (by omega)]
    exact ⟨s, addr, rfl, Adds.refl h addr, le_rfl, by omega, by omega⟩
  | succ n ih =>
    obtain ⟨f, rfl⟩ : ∃ f, fuel = f + 1 := ⟨fuel - 1, by omega⟩
    by_cases hlt : addr < stop
    · have hi : addr / 2 ^ 22 < 1024 := by omega
      simp only [mapLoop, if_pos hlt, pdIndex_eq, ptIndex_eq]
      rcases claimTable_spec h hi addr with ⟨s₁, he, hadd, h0⟩ | ⟨he, hused, h0⟩
      · obtain ⟨s₂, he₂, hadd₂⟩ := mapPage_spec hadd.ready (by omega) haddr4 h0
        have hnext : u32 (addr + 0x1000) = addr + 4096 := u32_of_lt (by omega)
        obtain ⟨t, mid, hloop, hs⟩ : ∃ t mid, mapLoop a stop f s₂ (addr + 4096) = some t ∧
            Stops a s₂ t (addr + 4096) mid stop :=
          ih hadd₂.ready (by omega) (by omega) (by omega)
        have hle := hs.start_le
        have hmax := hs.le_max
        have hall := (hadd.trans hadd₂ le_rfl (by omega)).trans hs.adds (by omega) hle
        refine ⟨t, mid, ?_, hall, by omega, by omega, hs.exhausted⟩
        rw [he, Option.bind_some]
        simp only [← Option.bind_assoc, he₂, Option.bind_some, hnext, hloop]
      · rw [he]
        exact ⟨s, addr, rfl, Adds.refl h addr, le_rfl, by omega, fun _ => ⟨hused, h0⟩⟩
    · rw [mapLoop, if_neg hlt]
      exact ⟨s, addr, rfl, Adds.refl h addr, le_rfl, by omega, by omega⟩

/-- The end the function computes. -/
def regionEnd (physAddr size : ℕ) : ℕ := u32 (physAddr + size + 0xFFF) / 4096 * 4096

theorem region_spec (h : Ready a s) {physAddr : ℕ} (size : ℕ) (hphys : physAddr < 2 ^ 32) :
    ∃ t mid, pagingIdentityMapRegion a s physAddr size = some t ∧
      Stops a s t (physAddr / 4096 * 4096) mid (regionEnd physAddr size) := by
  have hend := u32_lt (physAddr + size + 0xFFF)
  rw [pagingIdentityMapRegion, and_frameMask hphys, and_frameMask hend]
  apply mapLoop_spec h (n := 2 ^ 20) <;>
    first | omega | decide

/-- The wrapped end does not leave the region. -/
theorem regionEnd_le {physAddr size : ℕ} (hphys : physAddr < 2 ^ 32) (hsize : size < 2 ^ 32)
    (hlt : physAddr / 4096 * 4096 < regionEnd physAddr size) :
    regionEnd physAddr size ≤ (physAddr + size + 4095) / 4096 * 4096 := by
  unfold regionEnd u32 at *
  omega

/-- No page is mapped at the top of the address space. -/
theorem regionEnd_top (physAddr size : ℕ) : regionEnd physAddr size ≤ 0xFFFFF000 := by
  unfold regionEnd u32
  omega

end ShadOS.Paging

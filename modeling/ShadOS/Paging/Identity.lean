import ShadOS.Paging.Region

/-! # The identity map over all runs

`paging_init` builds well-formed tables with paging still off. Every later call
keeps them, whatever its arguments, so each run has the identity translation on
a growing set of pages.
-/

namespace ShadOS.Paging
open Machine
open Heap (not32)

variable {a : Arrays} {s s' t : State} {m : Mem} {used k i j lo mid hi va addr stop : ℕ}

/-! ## `paging_init` -/

theorem storeLoop_off (h : s.pagingOn = false) (base : ℕ) (v : ℕ → ℕ) (is : List ℕ) :
    State.storeLoop base v is s = some { s with mem := fillWords s.mem base v is } := by
  induction is generalizing s with
  | nil => rfl
  | cons i is ih =>
    have hstore : s.store (base + 4 * i) (v i) =
        some { s with mem := writeWord s.mem (base + 4 * i) (v i) } := by
      simp [State.store, State.translate, h]
    rw [State.storeLoop, hstore]
    exact ih h

/-- Entry `j` of table `t` of the low memory. -/
def lowEntry (t j : ℕ) : ℕ := t * 2 ^ 22 + j * 2 ^ 12 + 7

theorem page_fillTable (hi : i < numPageTables) (hk : k < numPageTables) (hj : j < 1024) :
    a.page (fillWords m (a.pageTable i) (fun b => entry (i * 0x400000 + b * 0x1000))
      (List.range 1024)) k j = if k = i then lowEntry k j else a.page m k j := by
  unfold numPageTables at hi hk
  have hframe : a.pageTable i = a.frame i := (if_pos hi).symm
  rw [hframe]
  by_cases h : k = i
  · rw [h, if_pos rfl, Arrays.page, fillWords_cell, if_pos (List.mem_range.mpr hj),
      entry_eq (by omega), lowEntry, u32_of_lt (by omega)]
    omega
  · rw [if_neg h]
    exact page_fill (by omega) (by omega) h (fun b hb => List.mem_range.mp hb) hj

theorem fillTables_spec (h : s.pagingOn = false) {ts : List ℕ} (hts : ∀ i ∈ ts, i < numPageTables) :
    ∃ m, fillTables a ts s = some { s with mem := m } ∧ ∀ k < numPageTables, ∀ j < 1024,
      (k ∈ ts ∨ a.page s.mem k j = lowEntry k j) → a.page m k j = lowEntry k j := by
  induction ts generalizing s with
  | nil => exact ⟨s.mem, rfl, fun k _ j _ hor => by simpa using hor⟩
  | cons i ts ih =>
    have hi := hts i List.mem_cons_self
    have hpage := fun k hk j hj => page_fillTable (a := a) (m := s.mem) (k := k) (j := j) hi hk hj
    rw [fillTables, storeLoop_off h, Option.bind_some]
    generalize fillWords s.mem (a.pageTable i) _ _ = m at *
    obtain ⟨m, he, hm⟩ := ih (s := { s with mem := m }) h
      (fun b hb => hts b (List.mem_cons_of_mem _ hb))
    refine ⟨m, he, fun k hk j hj hor => hm k hk j hj ?_⟩
    rw [hpage k hk j hj]
    by_cases hki : k = i
    · simp [hki]
    · simpa [hki] using hor

/-- The directory after the two loops over it. -/
theorem dir_fillDirectory (hi : i < 1024) :
    a.dir (fillWords (fillWords m a.pageDirectory (fun _ => 0) (List.range 1024)) a.pageDirectory
      (fun t => entry (a.pageTable t)) (List.range numPageTables)) i =
      if i < numPageTables then a.frame i + 7 else 0 := by
  rw [Arrays.dir, fillWords_cell, fillWords_cell, if_pos (List.mem_range.mpr hi)]
  simp only [List.mem_range]
  by_cases h : i < numPageTables
  · have h8 : i < 8 := by unfold numPageTables at h; omega
    obtain ⟨hal, hlow⟩ := frame_low (a := a) h8
    rw [lowMemory_eq] at hlow
    rw [if_pos h, if_pos h, show a.pageTable i = a.frame i from (if_pos h).symm, entry_eq hal,
      u32_of_lt (by omega)]
  · rw [if_neg h, if_neg h]
    rfl

theorem page_fillDirectory (hk : k < 8) (hj : j < 1024) {v : ℕ → ℕ} {is : List ℕ}
    (his : ∀ i ∈ is, i < 1024) : a.page (fillWords m a.pageDirectory v is) k j = a.page m k j := by
  have hap := frame_directory (a := a) hk
  apply fillWords_of_disjoint
  intro i hi
  have := his i hi
  omega

/-- The first tables and nothing else. -/
theorem tables_low (hdir : ∀ i < 1024, a.dir m i = if i < numPageTables then a.frame i + 7 else 0)
    (hlow : ∀ k < numPageTables, ∀ j < 1024, a.page m k j = lowEntry k j) : Tables a m 0 := by
  have hlt : ∀ i < numPageTables, i < 8 := fun i hi => by unfold numPageTables at hi; omega
  -- Only the entries of the first tables are there.
  have hsome : ∀ i < 1024, ∀ b, a.dir m i = b + 7 → i < numPageTables ∧ a.frame i = b := by
    intro i hi b hb
    have hd := hdir i hi
    by_cases hi4 : i < numPageTables
    · rw [if_pos hi4] at hd
      omega
    · rw [if_neg hi4] at hd
      omega
  constructor
  · exact Nat.zero_le _
  · intro i hi
    rw [hdir i hi]
    split
    · rename_i hi4
      exact Or.inr ⟨i, hi4, rfl⟩
    · exact Or.inl rfl
  · intro i hi
    rw [hdir i (by have := hlt i hi; omega), if_pos hi]
  · intro i hi j hj hne heq
    have hi4 : i < numPageTables := by
      by_contra hi4
      exact hne ((hdir i hi).trans (if_neg hi4))
    rw [hdir i hi, if_pos hi4] at heq
    obtain ⟨hj4, hframe⟩ := hsome j hj _ heq.symm
    exact frame_inj (hlt i hi4) (hlt j hj4) hframe.symm
  · intro i hi k hk hdk j hj
    obtain ⟨hi4, hframe⟩ := hsome i hi _ hdk
    obtain rfl : i = k := frame_inj (hlt i hi4) hk hframe
    exact Or.inr (hlow i hi4 j hj)
  · exact hlow

/-- After `paging_init`, paging is on and exactly the low memory is mapped. -/
theorem pagingInit_spec (hoff : s.pagingOn = false) (hused : s.extraTablesUsed = 0) :
    ∃ t, pagingInit a s = some t ∧ Ready a t ∧ t.extraTablesUsed = 0 ∧
      ∀ va < 2 ^ 32, Mapped a t.mem va → va < lowMemory := by
  have hts : ∀ i ∈ List.range numPageTables, i < numPageTables := fun i hi => List.mem_range.mp hi
  obtain ⟨m, he, hm⟩ := fillTables_spec (a := a) hoff hts
  have hpage : ∀ k < numPageTables, ∀ j < 1024, a.page m k j = lowEntry k j :=
    fun k hk j hj => hm k hk j hj (Or.inl (List.mem_range.mpr hk))
  have hempty := fun m => storeLoop_off (s := { s with mem := m }) hoff a.pageDirectory
    (fun _ => 0) (List.range 1024)
  have hfill := fun m => storeLoop_off (s := { s with mem := m }) hoff a.pageDirectory
    (fun t => entry (a.pageTable t)) (List.range numPageTables)
  have hdir := fun i hi => dir_fillDirectory (a := a) (m := m) (i := i) hi
  have hpage' : ∀ k < 8, ∀ j < 1024, a.page (fillWords (fillWords m a.pageDirectory (fun _ => 0)
      (List.range 1024)) a.pageDirectory (fun t => entry (a.pageTable t))
      (List.range numPageTables)) k j = a.page m k j := by
    intro k hk j hj
    rw [page_fillDirectory hk hj, page_fillDirectory hk hj]
    · exact fun i hi => List.mem_range.mp hi
    · intro i hi
      have := List.mem_range.mp hi
      unfold numPageTables at this
      omega
  simp only [pagingInit, he, hempty, hfill, Option.bind_some, Option.map_some]
  generalize fillWords (fillWords m _ _ _) _ _ _ = m₁ at *
  have hlow : ∀ k < numPageTables, ∀ j < 1024, a.page m₁ k j = lowEntry k j := by
    intro k hk j hj
    rw [hpage' k (by unfold numPageTables at hk; omega) j hj, hpage k hk j hj]
  refine ⟨_, rfl, ⟨rfl, rfl, ?_⟩, hused, ?_⟩
  · rw [hused]
    exact tables_low hdir hlow
  · rintro va hva ⟨k, hk, hd, -⟩
    rw [hdir _ (by omega)] at hd
    rw [lowMemory_eq]
    split at hd
    · rename_i h4
      unfold numPageTables at h4
      omega
    · omega

/-! ## Runs -/

theorem has_frame (hk : k < 8) {x : ℕ} (hx : a.frame k ≤ x) (hx' : x < a.frame k + 4096) :
    a.Has x := by
  unfold Arrays.frame Arrays.pageTable Arrays.extraTable numPageTables at hx hx'
  unfold Arrays.Has numPageTables numExtraTables
  split_ifs at hx hx' <;> omega

theorem dir_congr {m' : Mem} (h : ∀ x, m' x ≠ m x → ¬ a.Has x) (hi : i < 1024) :
    a.dir m' i = a.dir m i := by
  apply readWord_congr
  intro x hx hx'
  by_contra hne
  apply h x hne
  unfold Arrays.Has
  omega

theorem page_congr {m' : Mem} (h : ∀ x, m' x ≠ m x → ¬ a.Has x) (hk : k < 8) (hj : j < 1024) :
    a.page m' k j = a.page m k j := by
  apply readWord_congr
  intro x hx hx'
  by_contra hne
  exact h x hne (has_frame hk (by omega) (by omega))

/-- Memory outside the arrays plays no part. -/
theorem Tables.congr {m' : Mem} (h : Tables a m used) (hm : ∀ x, m' x ≠ m x → ¬ a.Has x) :
    Tables a m' used := by
  have hdir : ∀ i < 1024, a.dir m' i = a.dir m i := fun i hi => dir_congr hm hi
  have hpage : ∀ k < 8, ∀ j < 1024, a.page m' k j = a.page m k j :=
    fun k hk j hj => page_congr hm hk hj
  have h4 : ∀ i < numPageTables, i < 8 := fun i hi => by unfold numPageTables at hi; omega
  constructor
  · exact h.bound
  · intro i hi
    rw [hdir i hi]
    exact h.entries i hi
  · intro i hi
    rw [hdir i (by have := h4 i hi; omega)]
    exact h.low i hi
  · intro i hi j hj
    rw [hdir i hi, hdir j hj]
    exact h.once i hi j hj
  · intro i hi k hk hd j hj
    rw [hdir i hi] at hd
    rw [hpage k hk j hj]
    exact h.pages i hi k hk hd j hj
  · intro i hi j hj
    rw [hpage i (h4 i hi) j hj]
    exact h.lowPages i hi j hj

theorem mapped_congr {m' : Mem} (hm : ∀ x, m' x ≠ m x → ¬ a.Has x) (hva : va < 2 ^ 32) :
    Mapped a m' va ↔ Mapped a m va := by
  have hj : va / 2 ^ 12 % 1024 < 1024 := Nat.mod_lt _ (by decide)
  unfold Mapped
  apply exists_congr
  intro k
  apply and_congr_right
  intro hk
  rw [dir_congr hm (by omega), page_congr hm hk hj]

/-- What every run keeps: paging over well-formed tables, never up to the top. -/
structure Sound (a : Arrays) (s : State) : Prop where
  ready : Ready a s
  top : ∀ va < 2 ^ 32, Mapped a s.mem va → va < 0xFFFFF000

theorem reaches_sound (h : (paging a).Reaches s) : Sound a s := by
  apply h.invariant (P := Sound a)
  · rintro t ⟨s₀, hoff, hused, he⟩
    obtain ⟨t', he', hready, -, hlow⟩ := pagingInit_spec (a := a) hoff hused
    obtain rfl : t' = t := Option.some.inj (he'.symm.trans he)
    refine ⟨hready, fun va hva hm => ?_⟩
    have := hlow va hva hm
    rw [lowMemory_eq] at this
    omega
  · intro s e t hs ha he
    cases e with
    | map physAddr size =>
      obtain ⟨t', mid, he', hstops⟩ := region_spec hs.ready size ha.1
      obtain rfl : t' = t := Option.some.inj (he'.symm.trans he)
      refine ⟨hstops.adds.ready, fun va hva hm => ?_⟩
      have htop := regionEnd_top physAddr size
      have hmax := hstops.le_max
      rcases (hstops.adds.mapped va hva).mp hm with hm | hin
      · exact hs.top va hva hm
      · omega
    | store mem =>
      obtain rfl := Option.some.inj he
      have hr := hs.ready
      exact ⟨⟨hr.on, hr.cr3, hr.tables.congr ha⟩,
        fun va hva hm => hs.top va hva ((mapped_congr ha hva).mp hm)⟩

/-- All access bits. -/
def allAccess : ℕ := pagePresent ||| pageWrite ||| pageUser

/-- The physical frame of the table that entry `i` of the directory names. -/
def State.tableFrame (s : State) (i : ℕ) : ℕ := s.directoryEntry i &&& frameMask

/-- Entry `i` of the directory is present. -/
def State.HasTable (s : State) (i : ℕ) : Prop := s.directoryEntry i &&& pagePresent ≠ 0

theorem Ready.hasTable_iff (h : Ready a s) (hi : i < 1024) :
    s.HasTable i ↔ a.dir s.mem i ≠ 0 := by
  rw [State.HasTable, h.directoryEntry, and_present]
  by_cases h0 : a.dir s.mem i = 0
  · simp [h0]
  · obtain ⟨k, -, hk, hd⟩ := h.tables.frame_of_ne hi h0
    have hal := (frame_low (a := a) hk).1
    simp only [ne_eq, h0, not_false_eq_true, iff_true]
    omega

theorem Ready.tableFrame_inj (h : Ready a s) (hi : i < 1024) (hj : j < 1024) (hti : s.HasTable i)
    (htj : s.HasTable j) (heq : s.tableFrame i = s.tableFrame j) : i = j := by
  have hi0 := (h.hasTable_iff hi).mp hti
  obtain ⟨k, -, hk, hdi⟩ := h.tables.frame_of_ne hi hi0
  obtain ⟨l, -, hl, hdj⟩ := h.tables.frame_of_ne hj ((h.hasTable_iff hj).mp htj)
  obtain ⟨hki, hlk⟩ := frame_low (a := a) hk
  obtain ⟨hlj, hll⟩ := frame_low (a := a) hl
  rw [lowMemory_eq] at hlk hll
  rw [State.tableFrame, State.tableFrame, h.directoryEntry, h.directoryEntry, hdi, hdj,
    and_frameMask (by omega), and_frameMask (by omega)] at heq
  exact h.tables.once i hi j hj hi0 (by omega)

/-- In every run the translation is the identity, with all access, on a set of addresses that
contains the low memory and only grows; a call returns and adds pages of its region only. -/
theorem identity_map (h : (paging a).Reaches s) :
    (∀ va < 2 ^ 32, ∀ p, s.translate va = some p → p = (va, allAccess)) ∧
    (∀ va < lowMemory, s.translate va ≠ none) ∧
    s.extraTablesUsed ≤ numExtraTables ∧
    (∀ i < 1024, ∀ j < 1024, s.HasTable i → s.HasTable j → s.tableFrame i = s.tableFrame j → i = j) ∧
    ∀ physAddr < 2 ^ 32, ∀ size < 2 ^ 32, ∃ t, pagingIdentityMapRegion a s physAddr size = some t ∧
      (∀ va < 2 ^ 32, s.translate va ≠ none → t.translate va ≠ none) ∧
      ∀ va < 2 ^ 32, s.translate va = none → t.translate va ≠ none →
        physAddr / 4096 * 4096 ≤ va ∧ va < (physAddr + size + 4095) / 4096 * 4096 := by
  have hready := (reaches_sound h).ready
  refine ⟨?_, ?_, hready.tables.bound, fun i hi j hj => hready.tableFrame_inj hi hj, ?_⟩
  · intro va hva p hp
    have hm := (hready.translate_isSome hva).mp (by simp [hp])
    exact (Option.some.inj ((hready.translate_mapped hva hm).symm.trans hp)).symm
  · intro va hva
    have hlt : va < 2 ^ 32 := by
      rw [lowMemory_eq] at hva
      omega
    exact (hready.translate_isSome hlt).mpr (hready.tables.mapped_low hva)
  · intro physAddr hphys size hsize
    obtain ⟨t, mid, he, hstops⟩ := region_spec hready size hphys
    have hadds := hstops.adds
    refine ⟨t, he, ?_, ?_⟩
    · intro va hva hs
      rw [hadds.ready.translate_isSome hva, hadds.mapped va hva]
      exact Or.inl ((hready.translate_isSome hva).mp hs)
    · intro va hva hs ht
      have hnot : ¬ Mapped a s.mem va := by
        intro hm
        exact (hready.translate_isSome hva).mpr hm hs
      have hmt := (hadds.mapped va hva).mp ((hadds.ready.translate_isSome hva).mp ht)
      have hin := hmt.resolve_left hnot
      have hmax := hstops.le_max
      have hend := regionEnd_le hphys hsize (by omega)
      omega

/-- A place for the arrays, above the first megabyte. -/
def kernelArrays : Arrays where
  pageDirectory := 0x110000
  pageTables := 0x111000
  extraPageTables := 0x115000
  directory_aligned := by decide
  tables_aligned := by decide
  extra_aligned := by decide
  directory_low := by decide
  tables_low := by decide
  extra_low := by decide
  directory_tables := by decide
  directory_extra := by decide
  tables_extra := by decide

/-- The machine before `paging_init`. -/
def reset : State := ⟨fun _ => 0, 0, false, 0⟩

/-- The text screen stays reachable after the framebuffer is mapped. -/
theorem identity_map_kernel : ∃ s t, pagingInit kernelArrays reset = some s ∧
    pagingIdentityMapRegion kernelArrays s 0xFD000000 0x300000 = some t ∧
    t.translate 0xB8000 ≠ none := by
  obtain ⟨s, he, -⟩ := pagingInit_spec (a := kernelArrays) (s := reset) rfl rfl
  have h := identity_map (a := kernelArrays) (s := s) (.start ⟨reset, rfl, rfl, he⟩)
  obtain ⟨t, ht, hkeep, -⟩ := h.2.2.2.2 0xFD000000 (by decide) 0x300000 (by decide)
  exact ⟨s, t, he, ht, hkeep _ (by decide) (h.2.1 _ (by decide))⟩

end ShadOS.Paging

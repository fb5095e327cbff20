import ShadOS.Paging.Identity

/-! # Which regions are covered

The end of the region is rounded up in 32-bit arithmetic. When the last page of
the address space is touched it wraps to zero and the loop has no step; every
other region is mapped whole, or up to the point where the tables ran out.
-/

namespace ShadOS.Paging
open Machine

variable {a : Arrays} {s t : State} {physAddr size : ℕ}

/-- Every address of the region translates to itself, with all access. -/
def Covered (s : State) (physAddr size : ℕ) : Prop :=
  ∀ va, physAddr ≤ va → va < physAddr + size → s.translate va = some (va, allAccess)

/-- All reserve tables are used, and some address of the region has no table. -/
def Exhausted (s : State) (physAddr size : ℕ) : Prop :=
  s.extraTablesUsed = numExtraTables ∧
    ∃ va, physAddr ≤ va ∧ va < physAddr + size ∧ ¬ s.HasTable (va / 2 ^ 22)

theorem regionEnd_of_le (h : physAddr + size ≤ 0xFFFFF000) :
    regionEnd physAddr size = (physAddr + size + 4095) / 4096 * 4096 := by
  rw [regionEnd, u32_of_lt (by omega)]

theorem regionEnd_wraps (h : 0xFFFFF000 < physAddr + size) (htop : physAddr + size ≤ 2 ^ 32) :
    regionEnd physAddr size = 0 := by
  unfold regionEnd u32
  omega

/-- Below the last page, the loop covers the region or runs out of tables in it. -/
theorem Stops.covered_or_exhausted {mid : ℕ} (hsize : 0 < size)
    (htop : physAddr + size ≤ 0xFFFFF000)
    (h : Stops a s t (physAddr / 4096 * 4096) mid (regionEnd physAddr size)) :
    Covered t physAddr size ∨ Exhausted t physAddr size := by
  have hready := h.adds.ready
  have hstart := h.start_le
  have hend := regionEnd_of_le htop
  by_cases hlt : mid < regionEnd physAddr size
  · obtain ⟨hused, hdir⟩ := h.exhausted hlt
    -- The address of the region on the page where the loop stopped.
    obtain ⟨va, hva⟩ : ∃ va, va = max physAddr (min mid (physAddr + size - 1)) := ⟨_, rfl⟩
    have hsame : va / 2 ^ 22 = mid / 2 ^ 22 := by omega
    refine Or.inr ⟨hused, va, by omega, by omega, ?_⟩
    rw [hsame, hready.hasTable_iff (by omega)]
    simpa using hdir
  · refine Or.inl (fun va hlo hhi => ?_)
    apply hready.translate_mapped (by omega)
    rw [h.adds.mapped va (by omega)]
    right
    omega

/-- A region that touches the last page leaves the tables as they are. -/
theorem region_wraps (hlast : 0xFFFFF000 < physAddr + size)
    (htop : physAddr + size ≤ 2 ^ 32) : pagingIdentityMapRegion a s physAddr size = some s := by
  have hzero : u32 (physAddr + size + 0xFFF) &&& frameMask = 0 := by
    rw [and_frameMask (u32_lt _)]
    exact regionEnd_wraps hlast htop
  have hfuel : loopFuel = (2 ^ 32 - 1) + 1 := rfl
  rw [pagingIdentityMapRegion, hzero, hfuel, mapLoop, if_neg (by omega)]

/-- No state covers the last page. -/
theorem Sound.not_covered (h : Sound a s) (hlast : 0xFFFFF000 < physAddr + size)
    (htop : physAddr + size ≤ 2 ^ 32) (hsize : 0 < size) : ¬ Covered s physAddr size := by
  intro hc
  have hva := hc (physAddr + size - 1) (by omega) (by omega)
  have hlt : physAddr + size - 1 < 2 ^ 32 := by omega
  have hm := (h.ready.translate_isSome hlt).mp (by simp [hva])
  have := h.top _ hlt hm
  omega

/-- A call covers its region or exhausts the reserve tables exactly when the region stays off
the last page of the address space, or the tables were exhausted before. -/
theorem covers_iff (h : (paging a).Reaches s) (hsize : 0 < size) (hsize32 : size < 2 ^ 32)
    (htop : physAddr + size ≤ 2 ^ 32) :
    (∃ t, pagingIdentityMapRegion a s physAddr size = some t ∧
      (Covered t physAddr size ∨ Exhausted t physAddr size)) ↔
      physAddr + size ≤ 0xFFFFF000 ∨ Exhausted s physAddr size := by
  have hsound := reaches_sound h
  have hphys : physAddr < 2 ^ 32 := by omega
  by_cases hlast : physAddr + size ≤ 0xFFFFF000
  · obtain ⟨t, mid, he, hstops⟩ := region_spec hsound.ready size hphys
    simp only [hlast, true_or, iff_true]
    exact ⟨t, he, hstops.covered_or_exhausted hsize hlast⟩
  · rw [region_wraps (by omega) htop]
    have hnot : ¬ Covered s physAddr size := hsound.not_covered (by omega) htop hsize
    simp [hlast, hnot]

/-- A framebuffer in the megabytes above 0xFD000000 is covered right after `paging_init`, unless
tables run out. -/
theorem covers_framebuffer : ∃ s, pagingInit kernelArrays reset = some s ∧
    ∃ t, pagingIdentityMapRegion kernelArrays s 0xFD000000 0x300000 = some t ∧
      (Covered t 0xFD000000 0x300000 ∨ Exhausted t 0xFD000000 0x300000) := by
  obtain ⟨s, he, -⟩ := pagingInit_spec (a := kernelArrays) (s := reset) rfl rfl
  refine ⟨s, he, ?_⟩
  exact (covers_iff (.start ⟨reset, rfl, rfl, he⟩) (by decide) (by decide) (by decide)).mpr
    (Or.inl (by decide))

/-- One that ends at the top of the address space is not mapped at all. -/
theorem top_region_not_covered : ∃ s, (paging kernelArrays).Reaches s ∧
    pagingIdentityMapRegion kernelArrays s 0xFF000000 0x1000000 = some s ∧
    ¬ Covered s 0xFF000000 0x1000000 ∧ ¬ Exhausted s 0xFF000000 0x1000000 := by
  obtain ⟨s, he, -, hused, -⟩ := pagingInit_spec (a := kernelArrays) (s := reset) rfl rfl
  have hreach : (paging kernelArrays).Reaches s := .start ⟨reset, rfl, rfl, he⟩
  refine ⟨s, hreach, region_wraps (by decide) (by decide), ?_, ?_⟩
  · exact (reaches_sound hreach).not_covered (by decide) (by decide) (by decide)
  · intro hex
    exact absurd (hused.symm.trans hex.1) (by decide)

end ShadOS.Paging

import ShadOS.Heap.Canonical

/-! # kmalloc is a first fit over the gaps between live blocks

The free blocks of a reachable heap are the maximal runs of bytes outside the
live blocks, so the walk over headers decides on the live set alone.
-/

namespace ShadOS.Heap
open Machine

/-- A maximal run of heap bytes outside every live block. -/
def Gap (k : KernelEnd) (s : Session) (lo hi : ℕ) : Prop :=
  geometry.IsGap s.liveBlocks (alignUp k.addr 4096) (alignUp k.addr 4096 + heapSize) lo hi

/-- `n` rounded up to a multiple of 8. -/
def align8 (n : ℕ) : ℕ := (n + 7) / 8 * 8

/-- The lowest gap with room for a header and `align8 n` bytes. -/
def LowestFit (k : KernelEnd) (s : Session) (n lo hi : ℕ) : Prop :=
  Gap k s lo hi ∧ headerSize + align8 n ≤ hi - lo ∧
    ∀ lo' hi', Gap k s lo' hi' → headerSize + align8 n ≤ hi' - lo' → lo ≤ lo'

/-- The block put at the start of the gap `[lo, hi)`: the whole gap, unless a
header and the least payload remain behind `align8 n` bytes. -/
def blockIn (n lo hi : ℕ) : Block where
  addr := lo
  size := if headerSize + minBlockData ≤ hi - lo - (headerSize + align8 n) then align8 n
    else hi - lo - headerSize
  free := false

variable {k : KernelEnd} {s : Session} {bs : List Block}

theorem SessionOk.gap_iff (hok : SessionOk s bs)
    (hv : s.vars = ⟨alignUp k.addr 4096, alignUp k.addr 4096, heapSize⟩) {lo hi : ℕ} :
    Gap k s lo hi ↔ ∃ b ∈ bs, b.free = true ∧ b.addr = lo ∧ geometry.stop b = hi := by
  have hheap := hok.heap
  rw [hv] at hheap
  rw [Gap, hok.liveBlocks]
  exact Geometry.isGap_iff hheap.tiles hheap.coalesced

theorem taken_eq_blockIn (n : ℕ) {b : Block} (h : align8 n ≤ b.size) :
    geometry.taken (align8 n) b = blockIn n b.addr (geometry.stop b) := by
  have h1 : geometry.stop b - b.addr - (headerSize + align8 n) = b.size - align8 n := by
    rw [stop_eq]
    unfold headerSize
    omega
  have h2 : geometry.stop b - b.addr - headerSize = b.size := by
    rw [stop_eq]
    unfold headerSize
    omega
  rw [blockIn, h1, h2]
  rfl

/-- In every reachable heap `kmalloc` fails exactly when no gap is large enough,
and else places the block at the start of the lowest gap that is; no other live
block, and no byte of its payload, changes. -/
theorem kmalloc_first_fit (k : KernelEnd) (s : Session) (hs : (clients k).Reaches s) (n : ℕ)
    (hn : 0 < n) (hlt : n + 7 < 2 ^ 32) :
    ∃ p m, kmalloc s.vars s.mem n = some (p, m) ∧
      (p = 0 ↔ ∀ lo hi, Gap k s lo hi → hi - lo < headerSize + align8 n) ∧
      (p = 0 → m = s.mem) ∧
      (p ≠ 0 → ∃ lo hi, LowestFit k s n lo hi ∧ p = lo + headerSize ∧
        (∀ b, b ∈ ({ s with mem := m } : Session).liveBlocks ↔
          b ∈ s.liveBlocks ∨ b = blockIn n lo hi) ∧
        ∀ b ∈ s.liveBlocks, SamePayload b s.mem m) := by
  obtain ⟨⟨bs, hok⟩, hv⟩ := reaches_ok hs
  have hround : alignUp n alignment = align8 n := by rw [alignUp_alignment, u32_of_lt hlt, align8]
  have hroom (b : Block) : headerSize + align8 n ≤ geometry.stop b - b.addr ↔ align8 n ≤ b.size := by
    rw [stop_eq]
    unfold headerSize
    omega
  rcases hok.malloc_cases n with ⟨hrun, -, hnone⟩ | ⟨d, cs, m, -, hf, hrun, -, hok', hframe⟩
  · refine ⟨0, s.mem, hrun, ⟨fun _ lo hi hg => ?_, fun _ => rfl⟩, fun _ => rfl, fun h => absurd rfl h⟩
    obtain ⟨b, hb, hbf, rfl, rfl⟩ := (hok.gap_iff hv).mp hg
    have := Geometry.firstFit_none.mp (hnone.resolve_left hn.ne') b hb hbf
    rw [hround] at this
    have := (hroom b).not.mpr (by omega)
    omega
  · rw [hround] at hf
    obtain ⟨pre, post, hbs, -, hdf, hfit, hpre⟩ := Geometry.firstFit_some hf
    have hd : d ∈ bs := hbs ▸ by simp
    have hgap := (hok.gap_iff hv).mpr ⟨d, hd, hdf, rfl, rfl⟩
    refine ⟨d.addr + 12, m, hrun, ⟨fun h => absurd h (by omega), fun h => ?_⟩,
      fun h => absurd h (by omega), fun _ => ⟨d.addr, geometry.stop d, ⟨hgap, ?_, ?_⟩, rfl, ?_, ?_⟩⟩
    · have := (hroom d).mpr hfit
      have := h _ _ hgap
      omega
    · exact (hroom d).mpr hfit
    · intro lo' hi' hg hle
      obtain ⟨b, hb, hbf, rfl, rfl⟩ := (hok.gap_iff hv).mp hg
      have hbfit := (hroom b).mp hle
      subst hbs
      rcases List.mem_append.mp hb with hb | hb
      · exact absurd (hpre b hb hbf) (by omega)
      · -- blocks behind the chosen one lie at higher addresses
        rcases List.mem_cons.mp hb with rfl | hb
        · exact le_rfl
        · have hpair := (List.pairwise_append.mp hok.heap.tiles.pairwise).2.1
          have := (List.pairwise_cons.mp hpair).1 b hb
          exact le_trans (geometry.addr_lt_stop d).le this
    · intro b
      have hblocks : ({ s with mem := m } : Session).liveBlocks = live cs := by
        rw [Session.liveBlocks, Session.blocks,
          readChain_eq hok'.heap.chain hok'.heap.length_lt, Option.getD_some]
      rw [hblocks, hok.liveBlocks, Geometry.firstFit_live hf, taken_eq_blockIn n hfit]
    · intro b hb x hlo hhi
      rw [hok.liveBlocks] at hb
      refine hframe x (fun hw => ?_)
      exact hok.heap.tiles.not_occupied hd hdf (takeWrites_bounds hw)
        ⟨b, hb, by omega, hhi⟩

/-- The first gap has 44 bytes, and 40 of them do not go with a header. -/
theorem kmalloc_first_fit_fragmented : ∃ s m, (clients smallImage).Reaches s ∧
    Gap smallImage s 0x100000 0x10002c ∧ kmalloc s.vars s.mem 40 = some (0x100090, m) ∧
    LowestFit smallImage s 40 0x100084 0x900000 ∧
    (∀ b, b ∈ ({ s with mem := m } : Session).liveBlocks ↔
      b ∈ s.liveBlocks ∨ b = ⟨0x100084, 40, false⟩) ∧
    ∀ b ∈ s.liveBlocks, SamePayload b s.mem m := by
  obtain ⟨s, hreach, hok, -⟩ := fragmented
  have hgap {lo hi : ℕ} : Gap smallImage s lo hi ↔ _ := hok.gap_iff (reaches_ok hreach).2
  have hlow : Gap smallImage s 0x100000 0x10002c :=
    hgap.mpr ⟨⟨0x100000, 32, true⟩, by decide, rfl, rfl, rfl⟩
  have hhigh : Gap smallImage s 0x100084 0x900000 :=
    hgap.mpr ⟨⟨0x100084, 8388464, true⟩, by decide, rfl, rfl, rfl⟩
  obtain ⟨p, m, hrun, hnull, -, hplaced⟩ :=
    kmalloc_first_fit smallImage s hreach 40 (by decide) (by decide)
  have hp : p ≠ 0 := fun h => absurd (hnull.mp h _ _ hhigh) (by decide)
  obtain ⟨lo, hi, hfit, rfl, hlive, hsame⟩ := hplaced hp
  obtain ⟨b, hb, hbf, rfl, rfl⟩ := hgap.mp hfit.1
  have hroom := hfit.2.1
  have hlast : b = ⟨0x100084, 8388464, true⟩ := by
    simp only [fragments, List.mem_cons, List.not_mem_nil, or_false] at hb
    rcases hb with rfl | rfl | rfl | rfl
    · exact absurd hroom (by decide)
    · cases hbf
    · cases hbf
    · rfl
  subst hlast
  have hblock : blockIn 40 0x100084 0x900000 = ⟨0x100084, 40, false⟩ := by decide
  refine ⟨s, m, hreach, hlow, hrun, hfit, fun b => ?_, hsame⟩
  rw [← hblock]
  exact hlive b

end ShadOS.Heap

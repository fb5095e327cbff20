import ShadOS.Heap.Canonical

/-! # What a pointer of kmalloc has room for

The rounding of a request wraps at the end of the 32-bit range, before any size
is compared. The requests it turns into size 0 are served with a block too
small for them as long as the heap has a free block at all.
-/

namespace ShadOS.Heap
open Machine

/-- The free blocks, in the order of their addresses. -/
def Session.freeBlocks (s : Session) : List Block := (s.blocks.getD []).filter (fun b => b.free)

/-- A pointer comes with a live block of the heap that holds `n > 0` bytes, and a request
larger than every free block gets none. -/
def Honours (k : KernelEnd) (s : Session) (n : ℕ) : Prop :=
  ∃ p m, kmalloc s.vars s.mem n = some (p, m) ∧
    (p ≠ 0 → 0 < n ∧ ∃ b ∈ ({ s with mem := m } : Session).liveBlocks,
      b.addr + headerSize = p ∧ n ≤ b.size ∧ alignUp k.addr 4096 ≤ b.addr ∧
        b.addr + headerSize + b.size ≤ alignUp k.addr 4096 + heapSize) ∧
    ((∀ b ∈ s.freeBlocks, b.size < n) → p = 0)

variable {k : KernelEnd} {s : Session} {bs cs : List Block} {n : ℕ}

/-- The block list of a session whose memory was changed by a call. -/
theorem HeapOk.blocks {m : Mem} (hok : HeapOk s.vars m cs) :
    ({ s with mem := m } : Session).blocks = some cs :=
  readChain_eq hok.chain hok.length_lt

theorem HeapOk.liveBlocks {m : Mem} (hok : HeapOk s.vars m cs) :
    ({ s with mem := m } : Session).liveBlocks = live cs := by
  rw [Session.liveBlocks, hok.blocks, Option.getD_some]

theorem SessionOk.mem_freeBlocks (hok : SessionOk s bs) {b : Block} :
    b ∈ s.freeBlocks ↔ b ∈ bs ∧ b.free = true := by
  rw [Session.freeBlocks, hok.blocks, Option.getD_some, List.mem_filter]

theorem SessionOk.freeBlocks_eq_nil (hok : SessionOk s bs) :
    s.freeBlocks = [] ↔ ∀ b ∈ bs, b.free = false := by
  simp only [List.eq_nil_iff_forall_not_mem, hok.mem_freeBlocks, not_and, Bool.not_eq_true]

/-- The requests whose rounding wraps are rounded to nothing. -/
theorem alignUp_of_wrap (hn : n < 2 ^ 32) (hwrap : 2 ^ 32 ≤ n + 7) : alignUp n alignment = 0 := by
  rw [alignUp_alignment, u32]
  omega

/-- A request too large to be rounded is served when any block is free. -/
theorem SessionOk.malloc_wrap (hok : SessionOk s bs) (hn : n < 2 ^ 32) (hwrap : 2 ^ 32 ≤ n + 7)
    (hfree : s.freeBlocks ≠ []) : ∃ p m, kmalloc s.vars s.mem n = some (p, m) ∧ p ≠ 0 := by
  rcases hok.malloc_cases n with ⟨-, -, hnone⟩ | ⟨d, cs, m, -, -, hrun, -⟩
  · have hnone := hnone.resolve_left (by omega)
    rw [alignUp_of_wrap hn hwrap] at hnone
    refine absurd (hok.freeBlocks_eq_nil.mpr fun b hb => ?_) hfree
    rw [← Bool.not_eq_true]
    intro hbf
    exact absurd (Geometry.firstFit_none.mp hnone b hb hbf) (Nat.not_lt_zero _)
  · exact ⟨d.addr + 12, m, hrun, by omega⟩

/-- No block of the heap has room for such a request. -/
theorem not_honours (hn : n < 2 ^ 32) (hwrap : 2 ^ 32 ≤ n + 7)
    (hserved : ∃ p m, kmalloc s.vars s.mem n = some (p, m) ∧ p ≠ 0) : ¬ Honours k s n := by
  rintro ⟨p, m, hrun, hroom, -⟩
  obtain ⟨q, m', hrun', hq⟩ := hserved
  cases hrun.symm.trans hrun'
  obtain ⟨-, b, -, -, hsize, hlo, hhi⟩ := hroom hq
  unfold heapSize at hhi
  omega

/-- In every reachable heap and for every 32-bit size, a pointer of `kmalloc` has room for the
request unless the rounding wraps while some block is free. -/
theorem kmalloc_honours_iff (k : KernelEnd) (s : Session) (hs : (clients k).Reaches s) (n : ℕ)
    (hn : n < 2 ^ 32) : Honours k s n ↔ n + 7 < 2 ^ 32 ∨ s.freeBlocks = [] := by
  obtain ⟨⟨bs, hok⟩, hv⟩ := reaches_ok hs
  constructor
  · intro hh
    by_contra hcon
    obtain ⟨hwrap, hfree⟩ := not_or.mp hcon
    exact not_honours hn (by omega) (hok.malloc_wrap hn (by omega) hfree) hh
  · intro hcond
    rcases hok.malloc_cases n with ⟨hrun, -⟩ | ⟨d, cs, m, hn0, hf, hrun, -, hok', -⟩
    · exact ⟨0, s.mem, hrun, fun h => absurd rfl h, fun _ => rfl⟩
    · obtain ⟨pre, post, hbs, -, hdf, hfit, -⟩ := Geometry.firstFit_some hf
      have hd : d ∈ bs := hbs ▸ by simp
      have hlt : n + 7 < 2 ^ 32 := hcond.resolve_right fun hnil => by
        rw [hok.freeBlocks_eq_nil.mp hnil d hd] at hdf
        cases hdf
      obtain ⟨hround, -⟩ := alignUp_of_lt hlt
      refine ⟨d.addr + 12, m, hrun, fun _ => ⟨Nat.pos_of_ne_zero hn0, ?_⟩, fun hsmall => ?_⟩
      · obtain ⟨b, hb, hbf, hbp, hbn⟩ := hok'.backed (d.addr + 12) n List.mem_cons_self
        have hheap : HeapOk s.vars m cs := hok'.heap
        have hbounds := hheap.bounds hb
        rw [hv] at hbounds
        refine ⟨b, ?_, hbp, hbn hlt, hbounds⟩
        rw [hheap.liveBlocks]
        exact mem_live.mpr ⟨hb, hbf⟩
      · have := hsmall d (hok.mem_freeBlocks.mpr ⟨hd, hdf⟩)
        omega

/-- A request of 32 bytes on the fresh heap. -/
theorem kmalloc_honours_fresh :
    Honours smallImage freshSession 32 ↔ 32 + 7 < 2 ^ 32 ∨ freshSession.freeBlocks = [] :=
  kmalloc_honours_iff smallImage freshSession freshSession_reaches 32 (by decide)

/-- The largest size gets a pointer to an empty block of the fresh heap. -/
theorem kmalloc_largest :
    ∃ m, kmalloc freshSession.vars freshSession.mem (2 ^ 32 - 1) = some (0x10000c, m) ∧
      ({ freshSession with mem := m } : Session).blocks =
        some [⟨0x100000, 0, false⟩, ⟨0x10000c, 8388584, true⟩] ∧
      ¬ Honours smallImage freshSession (2 ^ 32 - 1) := by
  have hok : SessionOk freshSession _ := SessionOk.start smallImage fun _ => 0
  have hfit : geometry.firstFit (alignUp (2 ^ 32 - 1) alignment)
      [⟨alignUp smallImage.addr 4096, heapSize - headerSize, true⟩] =
      some (⟨0x100000, 8388596, true⟩, [⟨0x100000, 0, false⟩, ⟨0x10000c, 8388584, true⟩]) := by
    decide
  obtain ⟨m, hrun, hheap, -⟩ := hok.heap.kmalloc_some (by decide) hfit
  exact ⟨m, hrun, hheap.blocks, not_honours (by decide) (by decide) ⟨_, m, hrun, by decide⟩⟩

end ShadOS.Heap

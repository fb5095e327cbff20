import ShadOS.Heap.Refinement

/-! # The heap invariant and the operations under it

Between calls the chain from `heap_start` tiles the heap and no two
neighbouring blocks are free. Under this invariant `kmalloc` is the first fit
on the block list and `kfree` releases a block, and both return.
-/

namespace ShadOS.Heap
open Machine

/-- The address the linker script gives `kernel_end`: behind an image loaded at
1 MiB, with room for the heap below the end of the address space. -/
structure KernelEnd where
  addr : ℕ
  loaded : 0x100000 ≤ addr
  room : addr + 4096 + heapSize ≤ 2 ^ 32

theorem KernelEnd.base_bounds (k : KernelEnd) :
    k.addr ≤ alignUp k.addr 4096 ∧ alignUp k.addr 4096 < k.addr + 4096 ∧
      alignUp k.addr 4096 % 4096 = 0 := by
  have := k.room
  rw [alignUp_page, u32_of_lt (by unfold heapSize at this; omega)]
  omega

structure HeapOk (h : HeapVars) (m : Mem) (bs : List Block) : Prop where
  chain : Chain m h.heapStart bs
  tiles : geometry.Tiles h.heapBaseAddr bs (h.heapBaseAddr + heapSize)
  coalesced : Coalesced bs
  start : h.heapStart = h.heapBaseAddr
  fits : h.heapBaseAddr + heapSize < 2 ^ 32

theorem heapInit_ok (k : KernelEnd) (m : Mem) :
    HeapOk (heapInit k.addr m).1 (heapInit k.addr m).2
      [⟨alignUp k.addr 4096, heapSize - headerSize, true⟩] := by
  obtain ⟨hlo, hhi, -⟩ := k.base_bounds
  have h0 := k.loaded
  have h1 := k.room
  refine ⟨⟨rfl, ?_, ?_, ?_, ?_⟩, ⟨rfl, ?_⟩, .singleton _, rfl, ?_⟩
  · change alignUp k.addr 4096 ≠ 0
    omega
  · simp only [heapInit, sizeOf_setNext, sizeOf_setFree, sizeOf_setSize]
    rfl
  · simp only [heapInit, freeOf_setNext, freeOf_setFree, u32]
    simp
  · simp only [heapInit, nextOf_setNext]
    rfl
  · change alignUp k.addr 4096 + headerSize + (heapSize - headerSize) =
      alignUp k.addr 4096 + heapSize
    unfold headerSize heapSize
    omega
  · change alignUp k.addr 4096 + heapSize < 2 ^ 32
    omega

namespace HeapOk
variable {h : HeapVars} {m : Mem} {bs cs : List Block} {b c : Block} {n : ℕ}

theorem length_lt (hok : HeapOk h m bs) : bs.length < loopFuel := by
  have := hok.tiles.length_le
  have := hok.fits
  unfold loopFuel
  omega

theorem bounds (hok : HeapOk h m bs) (hb : b ∈ bs) :
    h.heapBaseAddr ≤ b.addr ∧ b.addr + 12 + b.size ≤ h.heapBaseAddr + heapSize :=
  hok.tiles.bounds hb

theorem addr_lt (hok : HeapOk h m bs) (hb : b ∈ bs) : b.addr + 12 + b.size < 2 ^ 32 := by
  have := hok.bounds hb
  have := hok.fits
  omega

/-- The chain is the only one that can be read from the same memory. -/
theorem unique (hok : HeapOk h m bs) (hok' : HeapOk h m cs) : bs = cs := by
  have hu : ∀ {p : ℕ} {bs cs : List Block}, Chain m p bs → Chain m p cs → bs = cs := by
    intro p bs
    induction bs generalizing p with
    | nil =>
      intro cs hb hc
      cases cs with
      | nil => rfl
      | cons c cs => exact absurd hb hc.2.1
    | cons b bs ih =>
      intro cs hb hc
      cases cs with
      | nil => exact absurd hc hb.2.1
      | cons c cs =>
        obtain ⟨hba, -, hbs, hbf, hbn⟩ := hb
        obtain ⟨hca, -, hcs, hcf, hcn⟩ := hc
        rw [ih hbn hcn]
        congr 1
        cases b
        cases c
        simp only [Block.mk.injEq] at *
        exact ⟨hba.symm.trans hca, hbs.symm.trans hcs, Bool.eq_iff_iff.mpr (hbf.symm.trans hcf)⟩
  exact hu hok.chain hok'.chain

theorem kmalloc_none (hok : HeapOk h m bs) (hn : n ≠ 0)
    (hf : geometry.firstFit (alignUp n alignment) bs = none) : kmalloc h m n = some (0, m) := by
  rw [kmalloc, if_neg hn]
  exact kmallocLoop_none hok.chain hok.length_lt hf

theorem kmalloc_some (hok : HeapOk h m bs) (hn : n ≠ 0)
    (hf : geometry.firstFit (alignUp n alignment) bs = some (b, cs)) :
    ∃ m', kmalloc h m n = some (b.addr + 12, m') ∧ HeapOk h m' cs ∧
      ∀ x, ¬ TakeWrites (alignUp n alignment) b x → m' x = m x := by
  obtain ⟨m', hrun, hchain, hframe⟩ :=
    kmallocLoop_some hok.chain hok.tiles hok.fits hok.length_lt hf
  refine ⟨m', ?_, ⟨hchain, Geometry.firstFit_tiles hok.tiles hf,
    Geometry.firstFit_coalesced hok.coalesced hf, hok.start, hok.fits⟩, hframe⟩
  rw [kmalloc, if_neg hn, hrun]

/-- Writing the free flag of a listed block marks it free in the list. -/
theorem chain_markFree {p q : ℕ} (hc : Chain m p bs)
    (hq : ∀ d ∈ bs, d.addr = q ∨ d.addr + 12 ≤ q ∨ q + 12 ≤ d.addr) :
    Chain (setFree m q 1) p (markFree q bs) := by
  induction bs generalizing p with
  | nil => exact hc
  | cons d bs ih =>
    obtain ⟨rfl, hd0, hds, hdf, hrest⟩ := hc
    have htail := ih hrest (fun e he => hq e (List.mem_cons_of_mem d he))
    by_cases hd : d.addr = q
    · subst hd
      rw [markFree, List.map_cons, if_pos rfl]
      refine ⟨rfl, hd0, sizeOf_setFree.trans hds, ?_, ?_⟩
      · simp [u32]
      · rwa [nextOf_setFree]
    · have hkeep {x : ℕ} (hx : InHeader d.addr x) : setFree m q 1 x = m x := by
        refine setFree_outside ?_
        have := (hq d List.mem_cons_self).resolve_left hd
        unfold InHeader at *
        omega
      rw [markFree, List.map_cons, if_neg hd]
      refine ⟨rfl, hd0, (sizeOf_congr fun _ => hkeep).trans hds, ?_, ?_⟩
      · rwa [freeOf_congr fun _ => hkeep]
      · rwa [nextOf_congr fun _ => hkeep]

/-- `kfree` on a listed block; it writes headers of free blocks only. -/
theorem kfree_some (hok : HeapOk h m bs) (hb : b ∈ bs) :
    ∃ m', kfree h m (b.addr + 12) = some m' ∧ HeapOk h m' (geometry.release b.addr bs) ∧
      ∀ x, (∀ d ∈ bs, d.free = true ∨ d = b → ¬ InHeader d.addr x) → m' x = m x := by
  have hblt := hok.addr_lt hb
  have hptr : sub32 (b.addr + 12) headerSize = b.addr := by
    rw [sub32_of_le (by unfold headerSize; omega) (by omega)]
    rfl
  have hmark := chain_markFree (q := b.addr) hok.chain (fun d hd => by
    rcases hok.tiles.disjoint hd hb with rfl | hdb | hdb
    · exact .inl rfl
    · rw [stop_eq] at hdb
      omega
    · rw [stop_eq] at hdb
      omega)
  have htiles := Geometry.markFree_tiles b.addr hok.tiles
  obtain ⟨d, ds, hds⟩ : ∃ d ds, markFree b.addr bs = d :: ds := by
    cases bs with
    | nil => cases hb
    | cons d bs => exact ⟨_, _, rfl⟩
  rw [hds] at hmark htiles
  rw [hmark.head] at hmark
  have hlen : ds.length < loopFuel := by
    have hl : (markFree b.addr bs).length = bs.length := List.length_map _
    have := hok.length_lt
    rw [hds, List.length_cons] at hl
    omega
  obtain ⟨m', hrun, hchain, hframe⟩ :=
    coalesceLoop_spec hmark ⟨rfl, htiles.2⟩ hok.fits hlen
  have hstart : h.heapStart = d.addr := hok.start.trans htiles.1.symm
  have hrel : geometry.release b.addr bs = geometry.mergeFrom d ds := by
    rw [Geometry.release, hds, Geometry.merge]
  refine ⟨m', ?_, ⟨hstart ▸ hrel ▸ hchain, Geometry.release_tiles b.addr hok.tiles,
    geometry.merge_coalesced _, hok.start, hok.fits⟩, fun x hx => ?_⟩
  · rw [kfree, if_neg (by omega), hptr, coalesce, hstart, hrun]
  · have hfree : ∀ c ∈ d :: ds, c.free = true → ¬ InHeader c.addr x := by
      intro c hc hcf
      rw [← hds] at hc
      obtain ⟨o, ho, rfl⟩ := List.mem_map.mp hc
      by_cases hob : o.addr = b.addr
      · rw [if_pos hob]
        exact hx o ho (.inr (hok.tiles.eq_of_addr ho hb hob))
      · rw [if_neg hob] at hcf ⊢
        exact hx o ho (.inl hcf)
    exact (hframe x hfree).trans (setFree_outside (hx b hb (.inr rfl)))

end HeapOk
end ShadOS.Heap

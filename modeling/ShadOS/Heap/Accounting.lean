import ShadOS.Heap.Stats
import ShadOS.Heap.Runs
import ShadOS.Machine.Fragmentation
import Mathlib.Algebra.Order.BigOperators.Group.List
import Mathlib.Data.List.Nodup

/-! # What the statistics say of the clients

The live blocks are the allocations held, none of them 28 bytes larger than its
request was rounded up to. So the numbers of `heap_get_stats` can be told from
the requests, and they tell which requests cannot fail.
-/

namespace ShadOS.Heap
open Machine

/-- Each allocation has its own block, which exceeds the rounded request by less than a header and
the least payload. -/
def Fitted (s : Session) (bs : List Block) : Prop :=
  ∀ a ∈ s.owned, ∃ b ∈ live bs, b.addr + 12 = a.1 ∧ alignUp a.2 alignment ≤ b.size ∧
    b.size < alignUp a.2 alignment + 28

variable {k : KernelEnd} {s s' : Session} {bs cs : List Block} {e : Event}

theorem Fitted.mono (h : Fitted s bs) (howned : ∀ a ∈ s'.owned, a ∈ s.owned)
    (hlive : ∀ b ∈ live bs, (∃ a ∈ s'.owned, b.addr + 12 = a.1) → b ∈ live cs) : Fitted s' cs := by
  intro a ha
  obtain ⟨b, hb, haddr, hsize⟩ := h a (howned a ha)
  exact ⟨b, hlive b hb ⟨a, ha, haddr⟩, haddr, hsize⟩

theorem fitted_step (hok : SessionOk s bs) (h : Fitted s bs) (he : s.allowed e)
    (hs : s.step e = some s') : ∃ cs, SessionOk s' cs ∧ Fitted s' cs := by
  cases e with
  | malloc n =>
    rcases hok.malloc_cases n with ⟨-, hsame, -⟩ | ⟨d, cs, m, -, hf, -, hstep, hok', -⟩
    · cases hsame.symm.trans hs
      exact ⟨bs, hok, h⟩
    · cases hstep.symm.trans hs
      have hlive := Geometry.firstFit_live hf
      refine ⟨cs, hok', fun a ha => ?_⟩
      cases List.mem_cons.mp ha with
      | inl ha =>
        subst ha
        obtain ⟨pre, post, -, -, -, hfit, -⟩ := Geometry.firstFit_some hf
        exact ⟨_, (hlive _).mpr (.inr rfl), rfl, Geometry.taken_size hfit, Geometry.taken_slack _ d⟩
      | inr ha =>
        obtain ⟨b, hb, hfitted⟩ := h a ha
        exact ⟨b, (hlive b).mpr (.inl hb), hfitted⟩
  | free p =>
    by_cases hp : p = 0
    · subst hp
      obtain ⟨t, cs, hstep, hok', -⟩ := hok.step he
      cases hstep.symm.trans hs
      cases hs
      have hcs : cs = bs := hok'.heap.unique hok.heap
      subst hcs
      exact ⟨cs, hok', h.mono (fun a ha => (List.mem_filter.mp ha).1) (fun b hb _ => hb)⟩
    · obtain ⟨t, b, hb, rfl, hstep, hok', -, howned, -⟩ := hok.free (he.resolve_left hp)
      cases hstep.symm.trans hs
      refine ⟨_, hok', h.mono (fun a ha => ?_) (fun c hc hheld => ?_)⟩
      · rw [howned] at ha
        exact (List.mem_filter.mp ha).1
      · obtain ⟨a, ha, haddr⟩ := hheld
        rw [howned] at ha
        have hne : a.1 ≠ b.addr + 12 := by simpa using (List.mem_filter.mp ha).2
        rw [Geometry.live_release]
        exact List.mem_filter.mpr ⟨hc, by simp; omega⟩
  | store a v =>
    cases hs
    exact ⟨bs, hok.store he, h.mono (fun a ha => ha) (fun b hb _ => hb)⟩

theorem reaches_fitted (hs : (clients k).Reaches s) : ∃ bs, SessionOk s bs ∧ Fitted s bs := by
  apply hs.invariant
  · rintro s ⟨m, rfl⟩
    exact ⟨_, SessionOk.start k m, fun a ha => absurd ha List.not_mem_nil⟩
  · rintro s e s' ⟨bs, hok, hfitted⟩ ha hstep
    exact fitted_step hok hfitted ha hstep

/-! ## The sums -/

theorem blockStats_eq {a e : ℕ} (ht : geometry.Tiles a bs e) (t : Stats) (hused : t.used ≤ t.total)
    (hfree : t.freeBytes ≤ t.total) (hlt : t.total + (e - a) < 2 ^ 32) :
    blockStats bs t = ⟨t.total + totalSize bs, t.used + totalSize (live bs),
      t.freeBytes + totalSize (holes bs), t.freeBlocks + (holes bs).length⟩ := by
  induction bs generalizing a t with
  | nil => rfl
  | cons b bs ih =>
    obtain ⟨rfl, hrest⟩ := ht
    have hle := hrest.le
    rw [stop_eq] at hle
    have htotal : u32 (t.total + b.size) = t.total + b.size := u32_of_lt (by omega)
    cases hb : b.free with
    | true =>
      have hbytes : u32 (t.freeBytes + b.size) = t.freeBytes + b.size := u32_of_lt (by omega)
      have hadd : t.add b.size (b.free = true) =
          ⟨t.total + b.size, t.used, t.freeBytes + b.size, t.freeBlocks + 1⟩ := by
        rw [Stats.add, if_pos hb, htotal, hbytes]
      rw [blockStats, List.foldl_cons, hadd, ← blockStats,
        ih hrest _ (by dsimp only; omega) (by dsimp only; omega) (by rw [stop_eq]; dsimp only; omega),
        live_cons_of_free hb, holes_cons_of_free hb]
      simp [Nat.add_assoc, Nat.add_comm 1]
    | false =>
      have hbytes : u32 (t.used + b.size) = t.used + b.size := u32_of_lt (by omega)
      have hadd : t.add b.size (b.free = true) =
          ⟨t.total + b.size, t.used + b.size, t.freeBytes, t.freeBlocks⟩ := by
        rw [Stats.add, if_neg (by simp [hb]), htotal, hbytes]
      rw [blockStats, List.foldl_cons, hadd, ← blockStats,
        ih hrest _ (by dsimp only; omega) (by dsimp only; omega) (by rw [stop_eq]; dsimp only; omega),
        live_cons_of_live hb, holes_cons_of_live hb]
      simp [Nat.add_assoc]

theorem SessionOk.owned_perm (hok : SessionOk s bs) :
    ((live bs).map (fun b => b.addr + 12)).Perm (s.owned.map Prod.fst) := by
  apply (List.perm_ext_iff_of_nodup _ hok.nodup).mpr
  · intro p
    rw [List.mem_map, List.mem_map]
    constructor
    · rintro ⟨b, hb, rfl⟩
      obtain ⟨n, hn⟩ := hok.held b (mem_live.mp hb).1 (mem_live.mp hb).2
      exact ⟨_, hn, rfl⟩
    · rintro ⟨a, ha, rfl⟩
      obtain ⟨b, hb, hbf, haddr, -⟩ := hok.backed a.1 a.2 ha
      exact ⟨b, mem_live.mpr ⟨hb, hbf⟩, haddr⟩
  · refine List.Nodup.map_on (fun b hb c hc he => ?_) (List.Nodup.sublist List.filter_sublist ?_)
    · exact hok.heap.tiles.eq_of_addr (mem_live.mp hb).1 (mem_live.mp hc).1 (Nat.add_right_cancel he)
    · refine hok.heap.tiles.pairwise.imp (fun {b c} hbc => ?_)
      rintro rfl
      exact absurd (geometry.addr_lt_stop b) (Nat.not_lt.mpr hbc)

/-- The size of the block behind each pointer. -/
theorem exists_sizes (hok : SessionOk s bs) : ∃ f : ℕ → ℕ, ∀ b ∈ live bs, f (b.addr + 12) = b.size := by
  refine ⟨fun p => ((live bs).find? (fun b => b.addr + 12 = p)).elim 0 Block.size, fun b hb => ?_⟩
  dsimp only
  cases hfind : (live bs).find? (fun c => c.addr + 12 = b.addr + 12) with
  | none =>
    have hno := List.find?_eq_none.mp hfind b hb
    simp at hno
  | some c =>
    have haddr : c.addr + 12 = b.addr + 12 := by simpa using List.find?_some hfind
    have hc := List.mem_of_find?_eq_some hfind
    rw [hok.heap.tiles.eq_of_addr (mem_live.mp hc).1 (mem_live.mp hb).1 (Nat.add_right_cancel haddr)]
    rfl

/-- The bytes used are those of the requests, but for less than 28 each. -/
theorem SessionOk.used_bounds (hok : SessionOk s bs) (h : Fitted s bs) :
    (s.owned.map (fun a => alignUp a.2 alignment)).sum ≤ totalSize (live bs) ∧
      totalSize (live bs) ≤ (s.owned.map (fun a => alignUp a.2 alignment + 27)).sum := by
  obtain ⟨f, hf⟩ := exists_sizes hok
  have hused : totalSize (live bs) = (s.owned.map (fun a => f a.1)).sum := by
    have hperm := (hok.owned_perm.map f).sum_eq
    rw [List.map_map, List.map_map] at hperm
    refine Eq.trans ?_ hperm
    exact congrArg List.sum (List.map_congr_left (fun b hb => (hf b hb).symm))
  rw [hused]
  constructor
  · apply List.sum_le_sum
    intro a ha
    obtain ⟨b, hb, haddr, hlow, -⟩ := h a ha
    rw [← haddr, hf b hb]
    exact hlow
  · apply List.sum_le_sum
    intro a ha
    obtain ⟨b, hb, haddr, -, hhigh⟩ := h a ha
    rw [← haddr, hf b hb]
    exact Nat.le_of_lt_succ hhigh

/-- In every state `heap_get_stats` accounts for the whole heap, and the numbers are those of the
allocations held: nothing leaks, free space lies in at most one piece more than there are allocations,
and a request no larger than the average piece is served. -/
theorem heap_accounting (k : KernelEnd) (s : Session) (hs : (clients k).Reaches s) :
    ∃ t, heapGetStats s.vars s.mem = some t ∧ t.total = t.used + t.freeBytes ∧
      t.total + 12 * (s.owned.length + t.freeBlocks) = heapSize ∧
      t.freeBlocks ≤ s.owned.length + 1 ∧
      (s.owned.map (fun a => alignUp a.2 alignment)).sum ≤ t.used ∧
      t.used ≤ (s.owned.map (fun a => alignUp a.2 alignment + 27)).sum ∧
      ∀ n m, n ≠ 0 → kmalloc s.vars s.mem n = some (0, m) →
        t.freeBytes ≤ t.freeBlocks * (alignUp n alignment - 1) := by
  obtain ⟨bs, hok, hfitted⟩ := reaches_fitted hs
  have hstats := heapGetStats_spec hok.heap
  have hfits := hok.heap.fits
  rw [blockStats_eq hok.heap.tiles ⟨0, 0, 0, 0⟩ le_rfl le_rfl (by dsimp only; omega)] at hstats
  simp only [Nat.zero_add] at hstats
  have hlength : (live bs).length = s.owned.length := by simpa using hok.owned_perm.length_eq
  have hregion := hok.heap.tiles.totalSize_eq
  have hheader : geometry.header = 12 := rfl
  rw [← length_split bs, hlength, hheader] at hregion
  have hsplit := totalSize_split bs
  obtain ⟨hlow, hhigh⟩ := hok.used_bounds hfitted
  refine ⟨_, hstats, hsplit.symm, ?_, ?_, hlow, hhigh, ?_⟩
  · dsimp only
    omega
  · rw [← hlength]
    exact hok.heap.coalesced.holes_le
  · intro n m hn hnull
    have hsmall : ∀ b ∈ holes bs, b.size < alignUp n alignment := by
      rcases hf : geometry.firstFit (alignUp n alignment) bs with _ | ⟨d, cs⟩
      · intro b hb
        obtain ⟨hmem, hfree⟩ := List.mem_filter.mp hb
        exact Geometry.firstFit_none.mp hf b hmem hfree
      · obtain ⟨m', hsome, -⟩ := hok.heap.kmalloc_some hn hf
        cases hsome.symm.trans hnull
    exact totalSize_le_of_lt hsmall

/-- With two allocations held and two free pieces. -/
theorem heap_accounting_fragmented : ∃ s t, (clients smallImage).Reaches s ∧
    heapGetStats s.vars s.mem = some t ∧ t = ⟨8388560, 64, 8388496, 2⟩ ∧
    t.total + 12 * (2 + t.freeBlocks) = heapSize ∧ 64 ≤ t.used ∧ t.used ≤ 118 ∧
    ∃ m, kmalloc s.vars s.mem 0x7fffff = some (0, m) ∧ t.freeBytes ≤ t.freeBlocks * 0x7fffff := by
  obtain ⟨s, hreach, hok, howned⟩ := fragmented
  obtain ⟨t, hrun, -, htotal, -, hlow, hhigh, hrefused⟩ := heap_accounting smallImage s hreach
  have hstats := heapGetStats_spec hok.heap
  have ht : t = ⟨8388560, 64, 8388496, 2⟩ := by
    have hsum : blockStats fragments ⟨0, 0, 0, 0⟩ = ⟨8388560, 64, 8388496, 2⟩ := by decide
    rw [hsum] at hstats
    exact Option.some.inj (hrun.symm.trans hstats)
  have hnull := hok.heap.kmalloc_none (n := 0x7fffff) (by decide) (by decide)
  have hfree := hrefused _ _ (by decide) hnull
  rw [howned] at htotal hlow hhigh
  exact ⟨s, t, hreach, hrun, ht, htotal, hlow, hhigh, s.mem, hnull, hfree⟩

end ShadOS.Heap

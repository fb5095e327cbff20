import ShadOS.Heap.Runs

/-! # The heap layout is canonical

The block list read from memory depends only on the live blocks, not on the
history that produced them. Hence frees commute, a free undoes the allocation
before it, and an empty heap is the one `heap_init` built.
-/

namespace ShadOS.Heap
open Machine

/-- The blocks read from the header at `p` on. -/
def readChain : ℕ → Mem → ℕ → Option (List Block)
  | 0, _, _ => none
  | fuel + 1, m, p =>
    if p = 0 then some []
    else (readChain fuel m (nextOf m p)).map (⟨p, sizeOf m p, decide (freeOf m p ≠ 0)⟩ :: ·)

theorem readChain_eq {m : Mem} {fuel p : ℕ} {bs : List Block} (hc : Chain m p bs)
    (hf : bs.length < fuel) : readChain fuel m p = some bs := by
  induction bs generalizing p fuel with
  | nil =>
    obtain ⟨k, rfl⟩ : ∃ k, fuel = k + 1 := ⟨fuel - 1, by simp at hf; omega⟩
    rw [readChain, if_pos (show p = 0 from hc)]
  | cons b bs ih =>
    obtain ⟨k, rfl⟩ : ∃ k, fuel = k + 1 := ⟨fuel - 1, by simp at hf; omega⟩
    obtain ⟨rfl, hp, hs, hfree, hn⟩ := hc
    have hd : decide (freeOf m b.addr ≠ 0) = b.free := by
      rw [Bool.eq_iff_iff, decide_eq_true_iff, hfree]
    rw [readChain, if_neg hp, ih hn (by simp only [List.length_cons] at hf; omega), hs, hd]
    rfl

namespace Session

/-- The whole block list: address, size, free flag and order. -/
def blocks (s : Session) : Option (List Block) := readChain loopFuel s.mem s.vars.heapStart

/-- The live blocks: header address and block size. -/
def liveBlocks (s : Session) : List Block := live (s.blocks.getD [])

end Session

variable {s t : Session} {bs cs : List Block}

theorem SessionOk.blocks (hok : SessionOk s bs) : s.blocks = some bs :=
  readChain_eq hok.heap.chain hok.heap.length_lt

theorem SessionOk.liveBlocks (hok : SessionOk s bs) : s.liveBlocks = live bs := by
  rw [Session.liveBlocks, hok.blocks, Option.getD_some]

/-- Two heaps at the same place with the same live blocks have the same blocks. -/
theorem HeapOk.canonical {h : HeapVars} {m m' : Mem} (hb : HeapOk h m bs) (hc : HeapOk h m' cs)
    (hl : ∀ b, b ∈ live bs ↔ b ∈ live cs) : bs = cs :=
  Geometry.tiles_unique hb.tiles hc.tiles hb.coalesced hc.coalesced hl

/-- Freeing a list of held pointers takes exactly their blocks out of the live set. -/
theorem SessionOk.freeAll {k : KernelEnd} (hok : SessionOk s bs) {ps : List ℕ} (hn : ps.Nodup)
    (hp : ∀ p ∈ ps, ∃ n, (p, n) ∈ s.owned) :
    ∃ s' cs, (clients k).exec s (ps.map .free) = some s' ∧ SessionOk s' cs ∧ s'.vars = s.vars ∧
      ∀ b, b ∈ live cs ↔ b ∈ live bs ∧ b.addr + 12 ∉ ps := by
  induction ps generalizing s bs with
  | nil => exact ⟨s, bs, rfl, hok, rfl, by simp⟩
  | cons p ps ih =>
    obtain ⟨hpn, hnps⟩ := List.nodup_cons.mp hn
    obtain ⟨s₁, b, hb, rfl, hstep, hok₁, hv₁, how₁, -⟩ := hok.free (hp p List.mem_cons_self)
    obtain ⟨s₂, cs, hrun, hok₂, hv₂, hlive⟩ := ih hok₁ hnps (fun q hq => by
      obtain ⟨n, hqn⟩ := hp q (List.mem_cons_of_mem _ hq)
      refine ⟨n, how₁ ▸ List.mem_filter.mpr ⟨hqn, ?_⟩⟩
      simp only [ne_eq, decide_not, Bool.not_eq_true', decide_eq_false_iff_not]
      rintro rfl
      exact hpn hq)
    refine ⟨s₂, cs, ?_, hok₂, hv₂.trans hv₁, fun c => ?_⟩
    · change (Session.step s (.free (b.addr + 12))).bind _ = _
      rw [hstep]
      exact hrun
    · rw [hlive, Geometry.live_release, List.mem_filter]
      simp only [ne_eq, decide_not, Bool.not_eq_true', decide_eq_false_iff_not, List.mem_cons,
        not_or, Nat.add_right_cancel_iff]
      tauto

/-- Freeing the block an allocation took gives the list before it. -/
theorem release_firstFit {h : HeapVars} {m m' : Mem} {n : ℕ} {d : Block} (hok : HeapOk h m bs)
    (hf : geometry.firstFit n bs = some (d, cs))
    (hok' : HeapOk h m' (geometry.release d.addr cs)) : geometry.release d.addr cs = bs := by
  obtain ⟨pre, post, hbs, -, hdf, -, -⟩ := Geometry.firstFit_some hf
  have hd : d ∈ bs := hbs ▸ by simp
  refine hok'.canonical hok (fun b => ?_)
  rw [Geometry.live_release, List.mem_filter, Geometry.firstFit_live hf]
  simp only [ne_eq, decide_not, Bool.not_eq_true', decide_eq_false_iff_not]
  constructor
  · rintro ⟨hb | rfl, hne⟩
    · exact hb
    · exact absurd rfl hne
  · intro hb
    refine ⟨.inl hb, fun he => ?_⟩
    obtain ⟨hb, hbf⟩ := mem_live.mp hb
    rw [hok.tiles.eq_of_addr hb hd he, hdf] at hbf
    cases hbf

/-- Whatever the history, the layout is a function of the live blocks: the
order of frees does not matter, a free undoes the allocation before it, and a
heap without live blocks is the one `heap_init` built. -/
theorem heap_canonical (k : KernelEnd) :
    (∀ s t, (clients k).Reaches s → (clients k).Reaches t →
      s.blocks.isSome ∧ ((∀ b, b ∈ s.liveBlocks ↔ b ∈ t.liveBlocks) → s.blocks = t.blocks)) ∧
    (∀ (s : Session) (ps qs : List ℕ), (clients k).Reaches s → ps.Nodup → ps.Perm qs →
      (∀ p ∈ ps, ∃ n, (p, n) ∈ s.owned) →
      ∃ s₁ s₂, (clients k).exec s (ps.map .free) = some s₁ ∧
        (clients k).exec s (qs.map .free) = some s₂ ∧ s₁.blocks = s₂.blocks) ∧
    (∀ s n p m, (clients k).Reaches s → n < 2 ^ 32 → kmalloc s.vars s.mem n = some (p, m) →
      p ≠ 0 → ∃ m', kfree s.vars m p = some m' ∧
        ({ s with mem := m' } : Session).blocks = s.blocks) ∧
    (∀ s, (clients k).Reaches s → s.owned = [] →
      s.blocks = some [⟨alignUp k.addr 4096, heapSize - headerSize, true⟩]) := by
  have hvars {s t : Session} (hs : (clients k).Reaches s) (ht : (clients k).Reaches t) :
      s.vars = t.vars := (reaches_ok hs).2.trans (reaches_ok ht).2.symm
  refine ⟨fun s t hs ht => ?_, fun s ps qs hs hn hperm hp => ?_, fun s n p m hs hn hrun hp => ?_,
    fun s hs ho => ?_⟩
  · obtain ⟨⟨bs, hok⟩, -⟩ := reaches_ok hs
    obtain ⟨⟨cs, hok'⟩, -⟩ := reaches_ok ht
    rw [hok.liveBlocks, hok'.liveBlocks, hok.blocks, hok'.blocks]
    exact ⟨rfl, fun hl => congrArg some (hok.heap.canonical (hvars hs ht ▸ hok'.heap) hl)⟩
  · obtain ⟨⟨bs, hok⟩, -⟩ := reaches_ok hs
    obtain ⟨s₁, cs₁, hrun₁, hok₁, hv₁, hl₁⟩ := hok.freeAll (k := k) hn hp
    obtain ⟨s₂, cs₂, hrun₂, hok₂, hv₂, hl₂⟩ := hok.freeAll (k := k) (hperm.nodup hn)
      (fun q hq => hp q (hperm.mem_iff.mpr hq))
    refine ⟨s₁, s₂, hrun₁, hrun₂, ?_⟩
    have hheap := hok₂.heap
    rw [hv₂, ← hv₁] at hheap
    rw [hok₁.blocks, hok₂.blocks, hok₁.heap.canonical hheap]
    intro b
    rw [hl₁, hl₂, hperm.mem_iff]
  · obtain ⟨⟨bs, hok⟩, -⟩ := reaches_ok hs
    rcases hok.malloc_cases n with ⟨hnone, -⟩ | ⟨d, cs, m', -, hf, hsome, -, hok', -⟩
    · cases hnone.symm.trans hrun
      exact absurd rfl hp
    · cases hsome.symm.trans hrun
      have hd := Geometry.firstFit_live hf (geometry.taken (alignUp n alignment) d)
      have hmem := (mem_live.mp (hd.mpr (.inr rfl))).1
      obtain ⟨m₂, hfree, hok₂, -⟩ := hok'.heap.kfree_some hmem
      refine ⟨m₂, hfree, ?_⟩
      rw [hok.blocks, ← release_firstFit hok.heap hf hok₂]
      exact readChain_eq hok₂.chain hok₂.length_lt
  · obtain ⟨⟨bs, hok⟩, hv⟩ := reaches_ok hs
    have hinit := heapInit_ok k s.mem
    have hempty : ∀ b, b ∉ live bs := by
      intro b hb
      obtain ⟨n, hn⟩ := hok.held b (mem_live.mp hb).1 (mem_live.mp hb).2
      rw [ho] at hn
      cases hn
    have hheap := hok.heap
    rw [hv] at hheap
    rw [hok.blocks, hheap.canonical hinit (fun b => iff_of_false (hempty b) (by simp [live]))]

/-- Two releases commute, and an allocation is undone by its release. -/
theorem heap_canonical_fragmented : ∃ s, (clients smallImage).Reaches s ∧
    (∃ s₁ s₂, (clients smallImage).exec s [.free 0x10006c, .free 0x100038] = some s₁ ∧
      (clients smallImage).exec s [.free 0x100038, .free 0x10006c] = some s₂ ∧ s₁.blocks = s₂.blocks) ∧
    ∃ p m m', kmalloc s.vars s.mem 40 = some (p, m) ∧ kfree s.vars m p = some m' ∧
      ({ s with mem := m' } : Session).blocks = some fragments := by
  obtain ⟨s, hreach, hok, howned⟩ := fragmented
  obtain ⟨-, hcommute, hundo, -⟩ := heap_canonical smallImage
  obtain ⟨m, hrun, -⟩ := hok.heap.kmalloc_some (by decide) firstFit_fragments
  obtain ⟨m', hfree, hblocks⟩ := hundo s 40 _ m hreach (by decide) hrun (by decide)
  refine ⟨s, hreach, hcommute s [0x10006c, 0x100038] [0x100038, 0x10006c] hreach (by decide)
    (List.Perm.swap _ _ _) ?_, _, m, m', hrun, hfree, hblocks.trans hok.blocks⟩
  intro p hp
  rw [howned]
  simp only [List.mem_cons, List.not_mem_nil, or_false] at hp
  rcases hp with rfl | rfl
  · exact ⟨24, by simp⟩
  · exact ⟨40, by simp⟩

end ShadOS.Heap

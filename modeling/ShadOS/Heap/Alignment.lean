import ShadOS.Heap.Canonical

/-! # The alignment of the pointers of kmalloc

Sizes are rounded to multiples of 8, but a header has 12 bytes and the first
block starts at a page. So the pointer into a block is a multiple of 8 exactly
when an odd number of blocks with sizes that are multiples of 8 lies before it.
-/

namespace ShadOS.Heap
open Machine

/-- The blocks whose size is a multiple of the alignment. -/
def evenBlocks (bs : List Block) : ℕ := bs.countP fun b => b.size % alignment = 0

/-- A request of `n` bytes finds its block behind an odd number of blocks with aligned sizes. -/
def AlignedSpot (s : Session) (n : ℕ) : Prop :=
  ∀ pre b post, s.blocks = some (pre ++ b :: post) → n ≠ 0 → b.free = true →
    alignUp n alignment ≤ b.size → (∀ c ∈ pre, c.free = true → c.size < alignUp n alignment) →
      evenBlocks pre % 2 = 1

/-- A pointer `kmalloc` returns is a multiple of the alignment. -/
def AlignedPointer (s : Session) (n : ℕ) : Prop :=
  ∀ p m, kmalloc s.vars s.mem n = some (p, m) → p ≠ 0 → p % alignment = 0

/-- Every pointer held is a multiple of the alignment. -/
def AllAligned (s : Session) : Prop := ∀ a ∈ s.owned, a.1 % alignment = 0

/-- A request meets the condition on its block; other events need none. -/
def Event.Placed (s : Session) : Event → Prop
  | .malloc n => AlignedSpot s n
  | _ => True

variable {k : KernelEnd} {s s' : Session} {bs cs : List Block} {n : ℕ}

/-- Each block before `b` shifts it by 4 modulo 8, or not at all. -/
theorem tiles_residue {a e : ℕ} {pre post : List Block} {b : Block}
    (ht : geometry.Tiles a (pre ++ b :: post) e) (hg : Geometry.Graded 4 (pre ++ b :: post)) :
    b.addr % 8 = (a + 4 * evenBlocks pre) % 8 := by
  induction pre generalizing a with
  | nil => rw [ht.1]; rfl
  | cons c pre ih =>
    obtain ⟨hc, hrest⟩ := List.forall_mem_cons.mp hg
    have hcount : evenBlocks (c :: pre) = evenBlocks pre + if c.size % 8 = 0 then 1 else 0 := by
      by_cases h8 : c.size % 8 = 0 <;> simp [evenBlocks, alignment, h8]
    obtain ⟨haddr, htail⟩ := ht
    have hb := ih htail hrest
    rw [stop_eq] at hb
    rw [hb, hcount, haddr]
    split <;> omega

/-- No element with the property lies before the first one. -/
theorem first_length_le {α : Type*} {P : α → Bool} {xs ys us vs : List α} {x y : α}
    (he : xs ++ x :: us = ys ++ y :: vs) (hxs : ∀ c ∈ xs, P c = false) (hy : P y = true) :
    xs.length ≤ ys.length := by
  by_contra hlt
  have hget : (xs ++ x :: us)[ys.length]? = some y := by
    rw [he, List.getElem?_append_right le_rfl, Nat.sub_self, List.getElem?_cons_zero]
  rw [List.getElem?_append_left (by omega)] at hget
  rw [hxs y (List.mem_of_getElem? hget)] at hy
  cases hy

/-- The heap invariant, with sizes that are multiples of 4. -/
structure GradedOk (s : Session) (bs : List Block) : Prop where
  ok : SessionOk s bs
  graded : Geometry.Graded 4 bs

theorem alignUp_dvd (n : ℕ) : 4 ∣ alignUp n alignment := by
  rw [alignUp_alignment]
  omega

namespace GradedOk

theorem start (k : KernelEnd) (m : Mem) :
    GradedOk (Session.initial k m) [⟨alignUp k.addr 4096, heapSize - headerSize, true⟩] := by
  refine ⟨SessionOk.start k m, fun b hb => ?_⟩
  rw [List.mem_singleton.mp hb]
  change 4 ∣ heapSize - headerSize
  decide

theorem header_dvd : 4 ∣ geometry.header := by decide

/-- An allocation returns `NULL` and changes nothing, or a pointer behind a header. -/
theorem malloc (h : GradedOk s bs) (n : ℕ) :
    (kmalloc s.vars s.mem n = some (0, s.mem) ∧ s.step (.malloc n) = some s ∧
      (n = 0 ∨ geometry.firstFit (alignUp n alignment) bs = none)) ∨
    ∃ d cs m, n ≠ 0 ∧ geometry.firstFit (alignUp n alignment) bs = some (d, cs) ∧
      kmalloc s.vars s.mem n = some (d.addr + 12, m) ∧
      s.step (.malloc n) = some { s with mem := m, owned := (d.addr + 12, n) :: s.owned } ∧
      GradedOk { s with mem := m, owned := (d.addr + 12, n) :: s.owned } cs := by
  rcases h.ok.malloc_cases n with hnull | ⟨d, cs, m, hn, hf, hrun, hstep, hok, -⟩
  · exact .inl hnull
  · exact .inr ⟨d, cs, m, hn, hf, hrun, hstep, hok,
      Geometry.firstFit_graded header_dvd (alignUp_dvd n) h.graded hf⟩

theorem step (h : GradedOk s bs) {e : Event} (he : s.allowed e) (hs : s.step e = some s') :
    ∃ cs, GradedOk s' cs ∧ s'.vars = s.vars := by
  cases e with
  | malloc n =>
    rcases h.malloc n with ⟨-, hstep, -⟩ | ⟨d, cs, m, -, -, -, hstep, hok⟩
    · cases hs.symm.trans hstep
      exact ⟨bs, h, rfl⟩
    · cases hs.symm.trans hstep
      exact ⟨cs, hok, rfl⟩
  | free p =>
    rcases he with rfl | hp
    · obtain ⟨t, cs, hstep, hok, hv⟩ := h.ok.step (e := .free 0) (.inl rfl)
      obtain rfl : t = s' := Option.some.inj (hstep.symm.trans hs)
      cases hs
      have hcs : cs = bs := hok.heap.unique h.ok.heap
      exact ⟨cs, ⟨hok, hcs ▸ h.graded⟩, hv⟩
    · obtain ⟨t, b, -, -, hstep, hok, hv, -⟩ := h.ok.free hp
      obtain rfl : t = s' := Option.some.inj (hstep.symm.trans hs)
      exact ⟨_, ⟨hok, Geometry.release_graded header_dvd h.graded _⟩, hv⟩
  | store a v =>
    cases hs
    exact ⟨bs, ⟨h.ok.store he, h.graded⟩, rfl⟩

/-- The block of a request sits behind an odd number of blocks of aligned sizes exactly when
the pointer to it is aligned. -/
theorem pointer_iff (h : GradedOk s bs)
    (hv : s.vars = ⟨alignUp k.addr 4096, alignUp k.addr 4096, heapSize⟩) (hn : n ≠ 0) {d : Block}
    (hf : geometry.firstFit (alignUp n alignment) bs = some (d, cs)) :
    AlignedSpot s n ↔ (d.addr + 12) % alignment = 0 := by
  obtain ⟨pre, post, rfl, -, hdf, hfit, hpre⟩ := Geometry.firstFit_some hf
  have ht := h.ok.heap.tiles
  have hbase := k.base_bounds.2.2
  rw [hv] at ht
  have hres := tiles_residue ht h.graded
  have hmod : (d.addr + 12) % alignment = 0 ↔ evenBlocks pre % 2 = 1 := by
    dsimp only at hres
    unfold alignment
    omega
  rw [hmod]
  refine ⟨fun hspot => hspot pre d post h.ok.blocks hn hdf hfit hpre, fun hodd => ?_⟩
  intro pre' b' post' hblocks _ hbf hbfit hbpre
  rw [h.ok.blocks] at hblocks
  have hsplit : pre' ++ b' :: post' = pre ++ d :: post := (Option.some.inj hblocks).symm
  have hfits {b : Block} (hb : b.free = true) (hfit : alignUp n alignment ≤ b.size) :
      (b.free && decide (alignUp n alignment ≤ b.size)) = true := by
    rw [hb, Bool.true_and, decide_eq_true_iff]
    exact hfit
  have hlow {ds : List Block} (hds : ∀ c ∈ ds, c.free = true → c.size < alignUp n alignment) :
      ∀ c ∈ ds, (c.free && decide (alignUp n alignment ≤ c.size)) = false := by
    intro c hc
    rw [Bool.and_eq_false_imp]
    intro hcf
    exact decide_eq_false (by have := hds c hc hcf; omega)
  have hlen : pre'.length = pre.length := by
    apply le_antisymm
    · exact first_length_le hsplit (hlow hbpre) (hfits hdf hfit)
    · exact first_length_le hsplit.symm (hlow hpre) (hfits hbf hbfit)
  rw [(List.append_inj hsplit hlen).1]
  exact hodd

/-- The condition on the state before is exact for one request. -/
theorem aligned_iff (h : GradedOk s bs)
    (hv : s.vars = ⟨alignUp k.addr 4096, alignUp k.addr 4096, heapSize⟩) (n : ℕ) :
    AlignedPointer s n ↔ AlignedSpot s n := by
  rcases h.malloc n with ⟨hrun, -, hnone⟩ | ⟨d, cs, m, hn, hf, hrun, -⟩
  · refine iff_of_true (fun p m hp h0 => ?_) fun pre b post hblocks hn hbf hfit _ => ?_
    · cases hrun.symm.trans hp
      exact absurd rfl h0
    · have hmem : b ∈ bs := by
        rw [Option.some.inj (h.ok.blocks.symm.trans hblocks)]
        simp
      have := Geometry.firstFit_none.mp (hnone.resolve_left hn) b hmem hbf
      omega
  · rw [h.pointer_iff hv hn hf]
    refine ⟨fun hp => hp _ m hrun (by omega), fun hp p m' hrun' _ => ?_⟩
    cases hrun.symm.trans hrun'
    exact hp

end GradedOk

/-- The graded invariant holds in every state the clients reach. -/
theorem reaches_graded (hs : (clients k).Reaches s) : (∃ bs, GradedOk s bs) ∧
    s.vars = ⟨alignUp k.addr 4096, alignUp k.addr 4096, heapSize⟩ := by
  refine hs.invariant (P := fun s => (∃ bs, GradedOk s bs) ∧ s.vars = _) ?_ ?_
  · rintro s ⟨m, rfl⟩
    exact ⟨⟨_, GradedOk.start k m⟩, rfl⟩
  · rintro s e s' ⟨⟨bs, hok⟩, hv⟩ ha hstep
    obtain ⟨cs, hok', hv'⟩ := hok.step ha hstep
    exact ⟨⟨cs, hok'⟩, hv'.trans hv⟩

/-- The first pointer of every run lies 4 bytes behind a multiple of 8. -/
theorem first_pointer (k : KernelEnd) (m : Mem) (n : ℕ) {p : ℕ} {m' : Mem}
    (hrun : kmalloc (Session.initial k m).vars (Session.initial k m).mem n = some (p, m'))
    (hp : p ≠ 0) : p % alignment = 4 := by
  rcases (GradedOk.start k m).malloc n with ⟨hnull, -⟩ | ⟨d, cs, m₁, -, hf, hsome, -⟩
  · cases hnull.symm.trans hrun
    exact absurd rfl hp
  · cases hsome.symm.trans hrun
    obtain ⟨pre, post, hbs, -⟩ := Geometry.firstFit_some hf
    have hd : d ∈ [(⟨alignUp k.addr 4096, heapSize - headerSize, true⟩ : Block)] := hbs ▸ by simp
    have hbase := k.base_bounds.2.2
    rw [List.mem_singleton.mp hd]
    unfold alignment
    dsimp only
    omega

/-- In every reachable heap a pointer of `kmalloc` is aligned exactly when its block is found
behind an odd number of blocks of aligned sizes, and the runs that hold aligned pointers only
are those in which every request meets this. -/
theorem kmalloc_aligned_iff (k : KernelEnd) :
    (∀ s, (clients k).Reaches s → ∀ n, AlignedPointer s n ↔ AlignedSpot s n) ∧
    ∀ s es, (clients k).init s → (clients k).Executes s es →
      ((clients k).Always AllAligned s es ↔
        (clients k).EachStep (fun s e => e.Placed s) s es) := by
  refine ⟨fun s hs n => ?_, fun s es hinit hexec => ?_⟩
  · obtain ⟨⟨bs, hok⟩, hv⟩ := reaches_graded hs
    exact hok.aligned_iff hv n
  · refine System.always_iff_eachStep (I := fun s => (clients k).Reaches s ∧ AllAligned s)
      (fun s hI => hI.2) ?_ ?_ ⟨.start hinit, ?_⟩ hexec
    · rintro s e s' ⟨hs, hall⟩ ha hplaced hstep
      refine ⟨hs.step ha hstep, ?_⟩
      obtain ⟨⟨bs, hok⟩, hv⟩ := reaches_graded hs
      cases e with
      | malloc n =>
        rcases hok.malloc n with ⟨-, hsame, -⟩ | ⟨d, cs, m, hn, hf, -, hnew, -⟩
        · cases hstep.symm.trans hsame
          exact hall
        · cases hstep.symm.trans hnew
          exact List.forall_mem_cons.mpr ⟨(hok.pointer_iff hv hn hf).mp hplaced, hall⟩
      | free p =>
        obtain ⟨m, -, rfl⟩ := Option.map_eq_some_iff.mp hstep
        exact fun a ha => hall a (List.mem_filter.mp ha).1
      | store a v =>
        cases hstep
        exact hall
    · rintro s e s' ⟨hs, -⟩ ha hplaced hstep hall
      obtain ⟨⟨bs, hok⟩, hv⟩ := reaches_graded hs
      cases e with
      | malloc n =>
        refine hplaced ((hok.aligned_iff hv n).mp fun p m hrun hp => ?_)
        obtain ⟨r, hr, rfl⟩ := Option.map_eq_some_iff.mp hstep
        cases hrun.symm.trans hr
        exact hall (p, n) (by rw [if_neg hp]; exact List.mem_cons_self)
      | free p => exact hplaced trivial
      | store a v => exact hplaced trivial
    · obtain ⟨m, rfl⟩ := hinit
      exact fun a ha => absurd ha List.not_mem_nil

/-- Behind three blocks of aligned sizes the pointer is aligned, and in front of all it is not. -/
theorem kmalloc_aligned_fragmented : (∃ s m, (clients smallImage).Reaches s ∧
      kmalloc s.vars s.mem 40 = some (0x100090, m) ∧ AlignedSpot s 40) ∧
    ¬ (clients smallImage).EachStep (fun s e => e.Placed s) freshSession [.malloc 32] := by
  obtain ⟨hpointer, hruns⟩ := kmalloc_aligned_iff smallImage
  constructor
  · obtain ⟨s, hreach, hok, -⟩ := fragmented
    obtain ⟨m, hrun, -⟩ := hok.heap.kmalloc_some (by decide) firstFit_fragments
    refine ⟨s, m, hreach, hrun, (hpointer s hreach 40).mp fun p m' hrun' _ => ?_⟩
    cases hrun.symm.trans hrun'
    decide
  · rcases freshSession_ok.malloc_cases 32 with ⟨-, -, h0 | hnone⟩ | ⟨d, cs, m, -, hf, -, hstep, -⟩
    · cases h0
    · cases firstFit_fresh.symm.trans hnone
    · cases firstFit_fresh.symm.trans hf
      have hallowed : (clients smallImage).allowed freshSession (.malloc 32) :=
        show 32 < 2 ^ 32 by decide
      intro hplaced
      have hall := (hruns freshSession [.malloc 32] ⟨_, rfl⟩ ⟨hallowed, _, hstep, trivial⟩).mpr hplaced
      have hlast : AllAligned _ := hall.2 _ hstep
      have hmod : 0x10000c % alignment = 0 := hlast (0x10000c, 32) List.mem_cons_self
      exact absurd hmod (by decide)

/-- The first 32 bytes of the fresh heap are not aligned. -/
theorem first_misaligned : (∃ m, kmalloc freshSession.vars freshSession.mem 32 = some (0x10000c, m)) ∧
    (clients smallImage).Reaches freshSession ∧ ¬ AlignedPointer freshSession 32 := by
  obtain ⟨m, hrun, -⟩ := freshSession_ok.heap.kmalloc_some (by decide) firstFit_fresh
  refine ⟨⟨m, hrun⟩, freshSession_reaches, fun haligned => ?_⟩
  have h4 := first_pointer smallImage (fun _ => 0) 32 hrun (by decide)
  have h0 := haligned _ m hrun (by decide)
  omega

end ShadOS.Heap

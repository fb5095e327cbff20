import ShadOS.Heap.Invariant
import ShadOS.Machine.Allocator

/-! # heap.c as the allocator of the kernel

The other files of the kernel see heap.c through `kmalloc` and `kfree`. It is a
lawful allocator for every request whose rounding does not wrap. It writes its
headers only, so freed bytes stay as they are until a header or an allocation
is put over them.
-/

namespace ShadOS.Heap
open Machine

def heapC : Allocator HeapVars where
  kmalloc h m n := (kmalloc h m n).map (fun r => (r.1, h, r.2))
  kfree h m p := (kfree h m p).map (fun m' => (h, m'))

theorem heapC_kmalloc {h : HeapVars} {m m' : Mem} {n p : ℕ} (hrun : kmalloc h m n = some (p, m')) :
    heapC.kmalloc h m n = some (p, h, m') := congrArg (Option.map _) hrun

theorem heapC_kfree {h : HeapVars} {m m' : Mem} {p : ℕ} (hrun : kfree h m p = some m') :
    heapC.kfree h m p = some (h, m') := congrArg (Option.map _) hrun

/-- The bytes the heap built behind `kernel_end` may write. -/
def region (k : KernelEnd) : Set ℕ :=
  Set.Ico (alignUp k.addr 4096) (alignUp k.addr 4096 + heapSize)

/-- A block with its header, and the header that may be cut off behind it, miss `w`. -/
def FootprintClear (s w : Span) : Prop :=
  s.addr + alignUp s.size alignment + 12 ≤ w.addr ∨ w.addr + w.size + 12 ≤ s.addr

def InPayload (b : Block) (w : Span) : Prop :=
  b.addr + 12 ≤ w.addr ∧ w.addr + w.size ≤ geometry.stop b

/-- The live spans start live payloads; every kept span lies in some payload. -/
structure Holds (k : KernelEnd) (h : HeapVars) (m : Mem) (L W : Set Span) (bs : List Block) :
    Prop where
  heap : HeapOk h m bs
  base : h.heapBaseAddr = alignUp k.addr 4096
  live : ∀ s ∈ L, ∃ b ∈ bs, b.free = false ∧ b.addr + 12 = s.addr ∧ s.size ≤ b.size
  kept : ∀ w ∈ W, 0 < w.size ∧ ∃ b ∈ bs, InPayload b w
  sub : L ⊆ W
  apart : W.Pairwise Span.Apart

def HeapKeeps (k : KernelEnd) (h : HeapVars) (m : Mem) (L W : Set Span) : Prop :=
  ∃ bs, Holds k h m L W bs

namespace Holds
variable {k : KernelEnd} {h : HeapVars} {m m' : Mem} {L W : Set Span} {bs cs : List Block}
  {b d : Block} {s w : Span} {n x : ℕ}

theorem mem_region (hh : Holds k h m L W bs) (hb : b ∈ bs) (hx : b.addr ≤ x)
    (hx' : x < geometry.stop b) : x ∈ region k := by
  have := hh.heap.tiles.bounds hb
  rw [hh.base] at this
  exact ⟨by omega, by omega⟩

theorem header_region (hh : Holds k h m L W bs) (hb : b ∈ bs) (hx : InHeader b.addr x) :
    x ∈ region k :=
  hh.mem_region hb hx.1 (by rw [stop_eq]; have := hx.2; omega)

theorem bounds (hh : Holds k h m L W bs) (hw : w ∈ W) :
    0 < w.addr ∧ 0 < w.size ∧ w.addr + w.size ≤ 2 ^ 32 := by
  obtain ⟨hpos, b, hb, hlo, hhi⟩ := hh.kept w hw
  have := hh.heap.addr_lt hb
  rw [stop_eq] at hhi
  omega

/-- Bytes of kept spans are not header bytes. -/
theorem kept_not_inHeader (hh : Holds k h m L W bs) (hw : w ∈ W) (hx : w.Has x) (hb : b ∈ bs) :
    ¬ InHeader b.addr x := by
  obtain ⟨-, c, hc, hlo, hhi⟩ := hh.kept w hw
  rw [stop_eq] at hhi
  exact payload_not_inHeader hh.heap.tiles hc hb ⟨le_trans hlo hx.1, lt_of_lt_of_le hx.2 hhi⟩

theorem kept_region (hh : Holds k h m L W bs) (hw : w ∈ W) (hx : w.Has x) : x ∈ region k := by
  obtain ⟨-, b, hb, hlo, hhi⟩ := hh.kept w hw
  have h1 := hx.1
  have h2 := hx.2
  apply hh.mem_region hb <;> omega

/-- The first header is at the start of the heap. -/
theorem first (hh : Holds k h m L W bs) : ∃ b ∈ bs, b.addr = alignUp k.addr 4096 := by
  have ht := hh.heap.tiles
  cases bs with
  | nil =>
    have he : h.heapBaseAddr = h.heapBaseAddr + heapSize := ht
    unfold heapSize at he
    omega
  | cons b bs => exact ⟨b, List.mem_cons_self, ht.1.trans hh.base⟩

/-- No buffer of the clients reaches around the heap. -/
theorem readable_lt (hh : Holds k h m L L bs) (hr : Allocator.Readable (region k) L x n) :
    n + 7 < 2 ^ 32 := by
  obtain ⟨b, hb, hba⟩ := hh.first
  obtain ⟨hlo, hhi, -⟩ := k.base_bounds
  have hroom := k.room
  have hload := k.loaded
  unfold heapSize at hroom
  by_contra hlt
  have hhead : InHeader b.addr (b.addr + 8) := ⟨by omega, by omega⟩
  rcases hr.2 (b.addr + 8) (by have := hr.1; omega) (by omega) with hout | ⟨s, hs, hsx⟩
  · exact hout (hh.header_region hb hhead)
  · exact hh.kept_not_inHeader hs hsx hb hhead

/-- Client writes inside payloads or outside the heap keep it. -/
theorem store (hh : Holds k h m L W bs)
    (hm : ∀ x, m' x ≠ m x → x ∉ region k ∨ ∃ s ∈ L, s.Has x) : Holds k h m' L W bs := by
  refine ⟨⟨hh.heap.chain.congr (fun b hb x hx => ?_), hh.heap.tiles, hh.heap.coalesced,
    hh.heap.start, hh.heap.fits⟩, hh.base, hh.live, hh.kept, hh.sub, hh.apart⟩
  by_contra hne
  rcases hm x hne with hout | ⟨s, hs, hsx⟩
  · exact hout (hh.header_region hb hx)
  · exact hh.kept_not_inHeader (hh.sub hs) hsx hb hx

theorem mono (hh : Holds k h m L W bs) {V : Set Span} (hLV : L ⊆ V) (hVW : V ⊆ W) :
    Holds k h m L V bs :=
  ⟨hh.heap, hh.base, hh.live, fun w hw => hh.kept w (hVW hw), hLV, hh.apart.mono hVW⟩

/-- A live span never lies in a free block. -/
theorem not_live_of_free (hh : Holds k h m L W bs) (hd : d ∈ bs) (hdf : d.free = true) (hw : w ∈ W)
    (hwd : InPayload d w) : w ∉ L := by
  intro hl
  obtain ⟨b, hb, hbf, hba, hbs⟩ := hh.live w hl
  have hpos := (hh.kept w hw).1
  obtain ⟨hlo, hhi⟩ := hwd
  rw [stop_eq] at hhi
  have : b = d := hh.heap.tiles.eq_of_overlap hb hd (x := w.addr)
    ⟨by omega, by rw [stop_eq]; omega⟩ ⟨by omega, by rw [stop_eq]; omega⟩
  rw [this, hdf] at hbf
  cases hbf

/-- Where a kept span lies when the free block `d` is taken for `n` bytes. -/
theorem kept_cases (hh : Holds k h m L W bs) (hd : d ∈ bs) (hdf : d.free = true) (hw : w ∈ W)
    (hclear : w ∈ L ∨ FootprintClear ⟨d.addr + 12, n⟩ w) :
    (∃ b ∈ bs, b ≠ d ∧ InPayload b w) ∨
      InPayload d w ∧ d.addr + 12 + alignUp n alignment + 12 ≤ w.addr := by
  obtain ⟨hpos, b, hb, hbw⟩ := hh.kept w hw
  by_cases hbd : b = d
  · subst hbd
    have hfoot := hclear.resolve_left (hh.not_live_of_free hb hdf hw hbw)
    have hlo := hbw.1
    refine .inr ⟨hbw, ?_⟩
    rcases hfoot with hf | hf
    · exact hf
    · simp only at hf
      omega
  · exact .inl ⟨b, hb, hbd, hbw⟩

/-- A kept span in another block is apart from the block `d`. -/
theorem other_block (hh : Holds k h m L W bs) (hd : d ∈ bs) (hb : b ∈ bs) (hbd : b ≠ d)
    (hbw : InPayload b w) : w.addr + w.size ≤ d.addr ∨ geometry.stop d ≤ w.addr := by
  obtain ⟨hlo, hhi⟩ := hbw
  rcases hh.heap.tiles.disjoint hb hd with he | hdis | hdis
  · exact absurd he hbd
  · omega
  · omega

/-- Taking the block `d` keeps a span that is clear of the new block. -/
theorem kept_taken (hh : Holds k h m L W bs)
    (hf : geometry.firstFit (alignUp n alignment) bs = some (d, cs))
    (hframe : ∀ x, ¬ TakeWrites (alignUp n alignment) d x → m' x = m x) (hn : n ≤ alignUp n alignment)
    (hw : w ∈ W) (hclear : w ∈ L ∨ FootprintClear ⟨d.addr + 12, n⟩ w) :
    (∃ b ∈ cs, InPayload b w) ∧ (∀ x, w.Has x → m' x = m x) ∧
      Span.Apart ⟨d.addr + 12, n⟩ w := by
  obtain ⟨pre, post, hbs, hcs, hdf, hfit, -⟩ := Geometry.firstFit_some hf
  have hd : d ∈ bs := hbs ▸ by simp
  rcases hh.kept_cases hd hdf hw hclear with ⟨b, hb, hbd, hbw⟩ | ⟨⟨hlo, hhi⟩, hfoot⟩
  · have hoff := hh.other_block hd hb hbd hbw
    have hin := hbw
    unfold InPayload at hin
    rw [stop_eq] at hoff hin
    refine ⟨⟨b, ?_, hbw⟩, fun x hx => hframe x (fun ht => ?_), ?_⟩
    · rw [hbs] at hb
      rw [hcs]
      simp only [List.mem_append, List.mem_cons] at hb ⊢
      tauto
    · have := takeWrites_bounds ht
      rw [stop_eq] at this
      unfold Span.Has at hx
      omega
    · unfold Span.Apart
      dsimp only
      omega
  · rw [stop_eq] at hhi
    refine ⟨?_, fun x hx => hframe x (fun ht => ?_), .inl (by dsimp only; omega)⟩
    · by_cases hsplit : headerSize + minBlockData ≤ d.size - alignUp n alignment
      · -- the span goes to the remainder
        refine ⟨{ addr := d.addr + 12 + alignUp n alignment,
                  size := d.size - alignUp n alignment - headerSize, free := true }, ?_, ?_, ?_⟩
        · rw [hcs, place_split hsplit]
          simp
        · dsimp only
          omega
        · rw [stop_eq]
          unfold headerSize minBlockData at *
          dsimp only
          omega
      · refine ⟨{ d with free := false }, ?_, hlo, hhi⟩
        rw [hcs, place_whole hsplit]
        simp
    · unfold TakeWrites InHeader at ht
      unfold Span.Has at hx
      omega

/-- `kmalloc` refuses and changes nothing, or serves the request with a block
that joins the live and the kept spans. -/
theorem kmalloc (hh : Holds k h m L W bs) (hn : 0 < n) (hn' : n + 7 < 2 ^ 32) :
    (geometry.firstFit (alignUp n alignment) bs = none ∧ Heap.kmalloc h m n = some (0, m)) ∨
    ∃ d cs m', geometry.firstFit (alignUp n alignment) bs = some (d, cs) ∧
      Heap.kmalloc h m n = some (d.addr + 12, m') ∧ (∀ x, x ∉ region k → m' x = m x) ∧
      ((∀ w ∈ W, w ∈ L ∨ FootprintClear ⟨d.addr + 12, n⟩ w) →
        Holds k h m' (insert ⟨d.addr + 12, n⟩ L) (insert ⟨d.addr + 12, n⟩ W) cs ∧ Keeps W m m' ∧
          ∀ w ∈ W, Span.Apart ⟨d.addr + 12, n⟩ w) := by
  have hround := (alignUp_of_lt hn').1
  cases hf : geometry.firstFit (alignUp n alignment) bs with
  | none => exact .inl ⟨rfl, hh.heap.kmalloc_none hn.ne' hf⟩
  | some r =>
    obtain ⟨d, cs⟩ := r
    obtain ⟨m', hrun, hheap, hframe⟩ := hh.heap.kmalloc_some hn.ne' hf
    obtain ⟨pre, post, hbs, -, hdf, hfit, -⟩ := Geometry.firstFit_some hf
    have hd : d ∈ bs := hbs ▸ by simp
    refine .inr ⟨d, cs, m', rfl, hrun, fun x hx => hframe x (fun ht => ?_), fun hclear => ?_⟩
    · obtain ⟨hlo, hhi⟩ := takeWrites_bounds ht
      exact hx (hh.mem_region hd hlo hhi)
    have hold := fun w hw => hh.kept_taken hf hframe hround hw (hclear w hw)
    have htaken := mem_live.mp ((Geometry.firstFit_live hf _).mpr (.inr rfl))
    have hroom : n ≤ (geometry.taken (alignUp n alignment) d).size :=
      hround.trans (Geometry.taken_size hfit)
    refine ⟨⟨hheap, hh.base, ?_, ?_, Set.insert_subset_insert hh.sub, ?_⟩,
      fun w hw => (hold w hw).2.1, fun w hw => (hold w hw).2.2⟩
    · intro s hs
      rcases hs with rfl | hs
      · exact ⟨_, htaken.1, rfl, rfl, hroom⟩
      · obtain ⟨b, hb, hbf, hba, hbs⟩ := hh.live s hs
        have := (Geometry.firstFit_live hf b).mpr (.inl (mem_live.mpr ⟨hb, hbf⟩))
        exact ⟨b, (mem_live.mp this).1, hbf, hba, hbs⟩
    · intro w hw
      rcases hw with rfl | hw
      · refine ⟨hn, _, htaken.1, le_rfl, ?_⟩
        rw [stop_eq]
        exact Nat.add_le_add_left hroom _
      · exact ⟨(hh.kept w hw).1, (hold w hw).1⟩
    · refine Set.pairwise_insert_of_symm.mpr
        ⟨hh.apart, fun w hw _ => (hold w hw).2.2⟩

/-- `kfree` takes a live span out of the live ones and keeps the bytes of all. -/
theorem kfree (hh : Holds k h m L W bs) (hs : s ∈ L) :
    ∃ m', Heap.kfree h m s.addr = some m' ∧ (∀ x, x ∉ region k → m' x = m x) ∧
      Holds k h m' (L \ {s}) W (geometry.release (s.addr - 12) bs) ∧ Keeps W m m' := by
  obtain ⟨b, hb, hbf, hba, hbs⟩ := hh.live s hs
  obtain ⟨m', hrun, hheap, hframe⟩ := hh.heap.kfree_some hb
  have hkeep : Keeps W m m' := fun w hw x hx =>
    hframe x (fun d hd _ => hh.kept_not_inHeader hw hx hd)
  have hq : s.addr - 12 = b.addr := by omega
  rw [hq]
  refine ⟨m', hba ▸ hrun,
    fun x hx => hframe x (fun d hd _ hxd => hx (hh.header_region hd hxd)),
    ⟨hheap, hh.base, ?_, ?_, Set.sdiff_subset.trans hh.sub, hh.apart⟩, hkeep⟩
  · intro t ht
    obtain ⟨c, hc, hcf, hca, hcs⟩ := hh.live t ht.1
    have hne : c.addr ≠ b.addr := by
      intro he
      refine ht.2 (eq_of_addr_eq hh.apart (hh.sub ht.1) (hh.sub hs) (hh.kept t (hh.sub ht.1)).1
        (hh.kept s (hh.sub hs)).1 ?_)
      omega
    have hmem : c ∈ Machine.live (geometry.release b.addr bs) := by
      rw [Geometry.live_release]
      exact List.mem_filter.mpr ⟨mem_live.mpr ⟨hc, hcf⟩, by simpa using hne⟩
    exact ⟨c, (mem_live.mp hmem).1, hcf, hca, hcs⟩
  · intro w hw
    obtain ⟨hpos, c, hc, hlo, hhi⟩ := hh.kept w hw
    obtain ⟨f, hf, hfa, hfs⟩ := Geometry.release_covers b.addr hh.heap.tiles hc
    exact ⟨hpos, f, hf, by omega, by omega⟩

end Holds

/-- heap.c keeps freed spans until a header or an allocation is put over them. -/
theorem heapC_keeping (k : KernelEnd) : heapC.Keeping (HeapKeeps k) FootprintClear where
  live_sub := fun ⟨_, hh⟩ => hh.sub
  bounds := fun ⟨_, hh⟩ hw => hh.bounds hw
  apart := fun ⟨_, hh⟩ => hh.apart
  kmalloc := by
    rintro h m L W n ⟨bs, hh⟩ hn hn'
    rcases hh.kmalloc hn hn' with ⟨-, hrun⟩ | ⟨d, cs, m', -, hrun, -, hok⟩
    · exact ⟨0, h, m, heapC_kmalloc hrun, fun _ => ⟨⟨bs, hh⟩, Keeps.refl W m⟩,
        fun hp => absurd rfl hp⟩
    · refine ⟨_, h, m', heapC_kmalloc hrun, fun h0 => by omega, fun _ hclear => ?_⟩
      obtain ⟨hcs, hkeep, hapart⟩ := hok hclear
      exact ⟨⟨cs, hcs⟩, hkeep, fun hmem => (hapart _ hmem).not_self hn⟩
  kfree := by
    rintro h m L W s ⟨bs, hh⟩ hs
    obtain ⟨m', hrun, -, hcs, hkeep⟩ := hh.kfree hs
    exact ⟨h, m', heapC_kfree hrun, ⟨_, hcs⟩, hkeep⟩
  store := fun ⟨bs, hh⟩ hm => ⟨bs, hh.store (fun x hx => .inr (hm x hx))⟩
  forget := fun ⟨bs, hh⟩ hLV hVW => ⟨bs, hh.mono hLV hVW⟩

/-- heap.c is lawful for every request whose rounding does not wrap. -/
theorem heapC_lawful (k : KernelEnd) :
    heapC.Lawful (fun h m L => HeapKeeps k h m L L) (region k) (fun n => n + 7 < 2 ^ 32) where
  size_pos := fun ⟨_, hh⟩ hs => ⟨(hh.bounds hs).1, (hh.bounds hs).2.1⟩
  apart := fun ⟨_, hh⟩ => hh.apart
  inside := fun ⟨_, hh⟩ hs hx => hh.kept_region hs hx
  serves := fun ⟨_, hh⟩ hr => hh.readable_lt hr
  kmalloc := by
    rintro h m L n ⟨bs, hh⟩ hn hn'
    rcases hh.kmalloc hn hn' with ⟨-, hrun⟩ | ⟨d, cs, m', -, hrun, hout, hok⟩
    · exact ⟨0, h, m, heapC_kmalloc hrun, Keeps.refl L m, fun _ _ => rfl, .inl ⟨rfl, bs, hh⟩⟩
    · obtain ⟨hcs, hkeep, hapart⟩ := hok (fun w hw => .inl hw)
      exact ⟨_, h, m', heapC_kmalloc hrun, hkeep, hout, .inr ⟨by omega, hapart, cs, hcs⟩⟩
  kfree := by
    rintro h m L s ⟨bs, hh⟩ hs
    obtain ⟨m', hrun, hout, hcs, hkeep⟩ := hh.kfree hs
    exact ⟨h, m', heapC_kfree hrun, hkeep.mono Set.sdiff_subset, hout, _,
      hcs.mono le_rfl Set.sdiff_subset⟩
  store := fun ⟨bs, hh⟩ hm => ⟨bs, hh.store hm⟩

/-- `kmalloc` fails when no free block has the rounded size, and then changes nothing. -/
theorem Holds.kmalloc_null {k : KernelEnd} {h h' : HeapVars} {m m' : Mem} {L : Set Span}
    {bs : List Block} {n : ℕ} (hh : Holds k h m L L bs) (hn : 0 < n) (hn' : n + 7 < 2 ^ 32) :
    heapC.kmalloc h m n = some (0, h', m') ↔
      h' = h ∧ m' = m ∧ ∀ b ∈ bs, b.free = true → b.size < alignUp n alignment := by
  rcases hh.kmalloc hn hn' with ⟨hnone, hrun⟩ | ⟨d, cs, m₁, hsome, hrun, -⟩
  · rw [heapC_kmalloc hrun]
    have hno := Geometry.firstFit_none.mp hnone
    constructor
    · intro he
      cases he
      exact ⟨rfl, rfl, hno⟩
    · rintro ⟨rfl, rfl, -⟩
      rfl
  · rw [heapC_kmalloc hrun]
    constructor
    · intro he
      cases he
    · rintro ⟨-, -, hno⟩
      rw [Geometry.firstFit_none.mpr hno] at hsome
      cases hsome

/-! ## The block list as a function of the calls -/

/-- The blocks after the calls of the record, the last one first. -/
def replay (bs : List Block) : Allocator.Ledger → List Block
  | [] => bs
  | .malloc n _ :: l =>
    match geometry.firstFit (alignUp n alignment) (replay bs l) with
    | none => replay bs l
    | some r => r.2
  | .free p :: l => geometry.release (p - 12) (replay bs l)

/-- The same with the calls recorded: the heap holds the replayed blocks. -/
theorem heapC_replay (k : KernelEnd) (bs : List Block) :
    heapC.audited.Keeping (fun h m L W => Holds k h.1 m L W (replay bs h.2)) FootprintClear where
  live_sub hh := hh.sub
  bounds hh hw := hh.bounds hw
  apart hh := hh.apart
  kmalloc := by
    rintro ⟨h, l⟩ m L W n hh hn hn'
    rcases hh.kmalloc hn hn' with ⟨hnone, hrun⟩ | ⟨d, cs, m', hsome, hrun, -, hok⟩
    · refine ⟨0, (h, .malloc n 0 :: l), m, congrArg (Option.map _) (heapC_kmalloc hrun),
        fun _ => ⟨?_, Keeps.refl W m⟩, fun hp => absurd rfl hp⟩
      rwa [replay, hnone]
    · refine ⟨_, (h, .malloc n (d.addr + 12) :: l), m', congrArg (Option.map _) (heapC_kmalloc hrun),
        fun h0 => by omega, fun _ hclear => ?_⟩
      obtain ⟨hcs, hkeep, hapart⟩ := hok hclear
      refine ⟨?_, hkeep, fun hmem => (hapart _ hmem).not_self hn⟩
      rwa [replay, hsome]
  kfree := by
    rintro ⟨h, l⟩ m L W s hh hs
    obtain ⟨m', hrun, -, hcs, hkeep⟩ := hh.kfree hs
    exact ⟨(h, .free s.addr :: l), m', congrArg (Option.map _) (heapC_kfree hrun), hcs, hkeep⟩
  store hh hm := hh.store (fun x hx => .inr (hm x hx))
  forget hh hLV hVW := hh.mono hLV hVW

/-- After `heap_init` nothing is live and nothing is kept. -/
theorem heapInit_holds (k : KernelEnd) (m : Mem) :
    Holds k (heapInit k.addr m).1 (heapInit k.addr m).2 ∅ ∅
      [⟨alignUp k.addr 4096, heapSize - headerSize, true⟩] :=
  ⟨heapInit_ok k m, rfl, by simp, by simp, le_rfl, by simp⟩

end ShadOS.Heap

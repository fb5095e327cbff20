import Mathlib.Data.List.Chain
import Mathlib.Data.List.Pairwise
import Mathlib.Tactic.Common

/-! # Tilings of an interval by headed blocks

An allocator with in-line headers cuts an interval into consecutive blocks,
each free or live. Splitting a free block, marking a block free, and merging
neighbouring free blocks keep the tiling. A tiling without two neighbouring
free blocks is determined by its live blocks, and its free blocks are exactly
the gaps between them.
-/

namespace ShadOS.Machine

@[ext] structure Block where
  addr : ℕ
  size : ℕ
  free : Bool
  deriving DecidableEq, Repr

/-- Bytes of a header, and the least payload worth a block of its own. -/
structure Geometry where
  header : ℕ
  header_pos : 0 < header
  minData : ℕ

/-- No two neighbouring blocks are both free. -/
def Coalesced (bs : List Block) : Prop := bs.IsChain (fun b c => b.free = false ∨ c.free = false)

def live (bs : List Block) : List Block := bs.filter (fun b => !b.free)

@[simp] theorem mem_live {bs : List Block} {b : Block} : b ∈ live bs ↔ b ∈ bs ∧ b.free = false := by
  simp [live]

theorem live_append (bs cs : List Block) : live (bs ++ cs) = live bs ++ live cs :=
  List.filter_append bs cs

theorem coalesced_append_cons {b : Block} {pre post : List Block} :
    Coalesced (pre ++ b :: post) ↔ Coalesced (pre ++ [b]) ∧ Coalesced (b :: post) := by
  unfold Coalesced
  rw [List.isChain_split]

/-- Only the free flag at the seams matters. -/
theorem Coalesced.replace_live {b c : Block} {pre post : List Block}
    (h : Coalesced (pre ++ b :: post))
    (hc : c.free = false) : Coalesced (pre ++ c :: post) := by
  obtain ⟨hpre, hpost⟩ := coalesced_append_cons.mp h
  refine coalesced_append_cons.mpr ⟨?_, ?_⟩
  · refine List.isChain_append.mpr ⟨(List.isChain_append.mp hpre).1, .singleton c, ?_⟩
    intro x _ y hy
    cases hy
    exact .inr hc
  · exact List.isChain_cons.mpr ⟨fun _ _ => .inl hc, (List.isChain_cons.mp hpost).2⟩

/-- Mark the block at `q` free. -/
def markFree (q : ℕ) (bs : List Block) : List Block :=
  bs.map (fun b => if b.addr = q then { b with free := true } else b)

namespace Geometry
variable (G : Geometry)

def stop (b : Block) : ℕ := b.addr + G.header + b.size

def Tiles : ℕ → List Block → ℕ → Prop
  | a, [], e => a = e
  | a, b :: bs, e => b.addr = a ∧ Tiles (G.stop b) bs e

/-- Cut `n` bytes off a free block when the rest can hold a header and the least payload. -/
def place (n : ℕ) (b : Block) : List Block :=
  if G.header + G.minData ≤ b.size - n then
    [{ b with size := n, free := false },
      { addr := b.addr + G.header + n, size := b.size - n - G.header, free := true }]
  else [{ b with free := false }]

/-- The block `place` leaves live. -/
def taken (n : ℕ) (b : Block) : Block :=
  { b with size := if G.header + G.minData ≤ b.size - n then n else b.size, free := false }

/-- The first free block with room for `n` bytes, and the blocks once it is taken. -/
def firstFit (n : ℕ) : List Block → Option (Block × List Block)
  | [] => none
  | b :: bs =>
    if b.free ∧ n ≤ b.size then some (b, G.place n b ++ bs)
    else (firstFit n bs).map (fun r => (r.1, b :: r.2))

/-- Absorb the free neighbours that follow a free block. -/
def mergeFrom : Block → List Block → List Block
  | b, [] => [b]
  | b, c :: bs =>
    if b.free ∧ c.free then mergeFrom { b with size := b.size + (G.header + c.size) } bs
    else b :: mergeFrom c bs

def merge : List Block → List Block
  | [] => []
  | b :: bs => G.mergeFrom b bs

def release (q : ℕ) (bs : List Block) : List Block := G.merge (markFree q bs)

variable {G} {a e n q : ℕ} {b c : Block} {bs cs : List Block}

theorem addr_lt_stop (b : Block) : b.addr < G.stop b := by
  have := G.header_pos
  unfold stop
  omega

theorem tiles_append : G.Tiles a (bs ++ cs) e ↔ ∃ m, G.Tiles a bs m ∧ G.Tiles m cs e := by
  induction bs generalizing a with
  | nil => simp [Tiles]
  | cons b bs ih => simp [Tiles, ih, and_assoc]

theorem Tiles.le (h : G.Tiles a bs e) : a ≤ e := by
  induction bs generalizing a with
  | nil => exact h.le
  | cons b bs ih =>
    have hb := G.addr_lt_stop b
    have := ih h.2
    rw [← h.1]
    omega

theorem Tiles.tail (h : G.Tiles a (b :: c :: bs) e) : G.Tiles c.addr (c :: bs) e := ⟨rfl, h.2.2⟩

theorem Tiles.bounds (h : G.Tiles a bs e) (hb : b ∈ bs) : a ≤ b.addr ∧ G.stop b ≤ e := by
  obtain ⟨pre, post, rfl⟩ := List.append_of_mem hb
  obtain ⟨m, hpre, rfl, hpost⟩ := tiles_append.mp h
  exact ⟨hpre.le, hpost.le⟩

theorem Tiles.pairwise (h : G.Tiles a bs e) : bs.Pairwise (fun b c => G.stop b ≤ c.addr) := by
  induction bs generalizing a with
  | nil => exact .nil
  | cons b bs ih => exact .cons (fun c hc => (h.2.bounds hc).1) (ih h.2)

/-- Headers take room, so a tiling has at most as many blocks as bytes. -/
theorem Tiles.length_le (h : G.Tiles a bs e) : a + bs.length ≤ e := by
  induction bs generalizing a with
  | nil => exact h.le
  | cons b bs ih =>
    have hb := G.addr_lt_stop b
    have := ih h.2
    rw [List.length_cons, ← h.1]
    omega

/-- Distinct blocks of a tiling do not overlap. -/
theorem Tiles.disjoint (h : G.Tiles a bs e) (hb : b ∈ bs) (hc : c ∈ bs) :
    b = c ∨ G.stop b ≤ c.addr ∨ G.stop c ≤ b.addr := by
  induction bs generalizing a with
  | nil => cases hb
  | cons d bs ih =>
    rcases List.mem_cons.mp hb with hbd | hbs <;> rcases List.mem_cons.mp hc with hcd | hcs
    · exact .inl (hbd.trans hcd.symm)
    · exact .inr (.inl (hbd ▸ (h.2.bounds hcs).1))
    · exact .inr (.inr (hcd ▸ (h.2.bounds hbs).1))
    · exact ih h.2 hbs hcs

/-- A byte lies in at most one block. -/
theorem Tiles.eq_of_overlap (h : G.Tiles a bs e) (hb : b ∈ bs) (hc : c ∈ bs) {x : ℕ}
    (hbx : b.addr ≤ x ∧ x < G.stop b) (hcx : c.addr ≤ x ∧ x < G.stop c) : b = c := by
  rcases h.disjoint hb hc with he | hd | hd
  · exact he
  · omega
  · omega

theorem Tiles.eq_of_addr (h : G.Tiles a bs e) (hb : b ∈ bs) (hc : c ∈ bs)
    (hbc : b.addr = c.addr) : b = c :=
  h.eq_of_overlap hb hc ⟨le_rfl, G.addr_lt_stop b⟩ ⟨hbc.ge, hbc ▸ G.addr_lt_stop c⟩

/-- Every byte of the interval lies in some block. -/
theorem Tiles.cover (h : G.Tiles a bs e) {x : ℕ} (hax : a ≤ x) (hxe : x < e) :
    ∃ b ∈ bs, b.addr ≤ x ∧ x < G.stop b := by
  induction bs generalizing a with
  | nil => exact absurd (h ▸ hax : e ≤ x) (by omega)
  | cons b bs ih =>
    by_cases hx : x < G.stop b
    · exact ⟨b, List.mem_cons_self, h.1 ▸ hax, hx⟩
    · obtain ⟨c, hc, hcx⟩ := ih h.2 (by omega)
      exact ⟨c, List.mem_cons_of_mem b hc, hcx⟩

/-! ## Taking a block -/

theorem place_tiles (h : n ≤ b.size) : G.Tiles b.addr (G.place n b) (G.stop b) := by
  unfold place
  split
  · refine ⟨rfl, rfl, ?_⟩
    simp only [Tiles, stop]
    omega
  · exact ⟨rfl, rfl⟩

theorem firstFit_none : G.firstFit n bs = none ↔ ∀ b ∈ bs, b.free = true → b.size < n := by
  induction bs with
  | nil => simp [firstFit]
  | cons b bs ih =>
    rw [firstFit]
    split
    · rename_i h
      simp only [reduceCtorEq, List.mem_cons, forall_eq_or_imp, false_iff, not_and]
      exact fun hb => absurd (hb h.1) (by omega)
    · rename_i h
      simp only [Option.map_eq_none_iff, ih, List.mem_cons, forall_eq_or_imp]
      exact ⟨fun hs => ⟨fun hb => by by_contra hlt; exact h ⟨hb, by omega⟩, hs⟩, fun hs => hs.2⟩

/-- The chosen block is the first one that fits; nothing else moves. -/
theorem firstFit_some (h : G.firstFit n bs = some (b, cs)) :
    ∃ pre post, bs = pre ++ b :: post ∧ cs = pre ++ (G.place n b ++ post) ∧ b.free = true ∧
      n ≤ b.size ∧ ∀ c ∈ pre, c.free = true → c.size < n := by
  induction bs generalizing cs with
  | nil => cases h
  | cons d bs ih =>
    rw [firstFit] at h
    split at h
    · rename_i hd
      cases h
      exact ⟨[], bs, rfl, rfl, hd.1, hd.2, by simp⟩
    · rename_i hd
      obtain ⟨r, hr, he⟩ := Option.map_eq_some_iff.mp h
      cases he
      obtain ⟨pre, post, rfl, hcs, hfree, hfit, hpre⟩ := ih hr
      refine ⟨d :: pre, post, rfl, congrArg (d :: ·) hcs, hfree, hfit, ?_⟩
      intro c hc hcf
      rcases List.mem_cons.mp hc with rfl | hc
      · by_contra hlt
        exact hd ⟨hcf, by omega⟩
      · exact hpre c hc hcf

theorem firstFit_tiles (ht : G.Tiles a bs e) (h : G.firstFit n bs = some (b, cs)) :
    G.Tiles a cs e := by
  obtain ⟨pre, post, rfl, rfl, -, hfit, -⟩ := firstFit_some h
  obtain ⟨m, hpre, rfl, hpost⟩ := tiles_append.mp ht
  exact tiles_append.mpr ⟨_, hpre, tiles_append.mpr ⟨_, place_tiles hfit, hpost⟩⟩

theorem firstFit_coalesced (hc : Coalesced bs) (h : G.firstFit n bs = some (b, cs)) :
    Coalesced cs := by
  obtain ⟨pre, post, rfl, rfl, hfree, -, -⟩ := firstFit_some h
  unfold place
  split
  · have hpost := (coalesced_append_cons.mp hc).2
    have h1 := hc.replace_live (c := { b with size := n, free := false }) rfl
    obtain ⟨hpre, -⟩ := coalesced_append_cons.mp h1
    refine coalesced_append_cons.mpr ⟨hpre, ?_⟩
    refine List.isChain_cons.mpr ⟨fun _ _ => .inl rfl, List.isChain_cons.mpr ⟨?_, ?_⟩⟩
    · intro y hy
      have := (List.isChain_cons.mp hpost).1 y hy
      exact .inr (by simpa [hfree] using this)
    · exact (List.isChain_cons.mp hpost).2
  · exact hc.replace_live rfl

theorem live_place : live (G.place n b) = [G.taken n b] := by
  unfold place live taken
  split <;> rfl

theorem taken_addr (n : ℕ) (b : Block) : (G.taken n b).addr = b.addr := rfl

/-- Taking a block adds it to the live ones and leaves the others alone. -/
theorem firstFit_live (h : G.firstFit n bs = some (b, cs)) (c : Block) :
    c ∈ live cs ↔ c ∈ live bs ∨ c = G.taken n b := by
  obtain ⟨pre, post, rfl, rfl, hfree, -, -⟩ := firstFit_some h
  have hb : live (b :: post) = live post := List.filter_cons_of_neg (by simp [hfree])
  rw [live_append, live_append, live_append, hb, live_place]
  simp only [List.mem_append, List.mem_singleton]
  tauto

/-- A block is taken with room for the request. -/
theorem taken_size (h : n ≤ b.size) : n ≤ (G.taken n b).size := by
  unfold taken
  dsimp only
  split
  · exact le_rfl
  · exact h

/-- The block taken was not live before. -/
theorem taken_not_live (ht : G.Tiles a bs e) (h : G.firstFit n bs = some (b, cs)) :
    G.taken n b ∉ live bs := by
  obtain ⟨pre, post, hbs, -, hbf, -, -⟩ := firstFit_some h
  intro hmem
  obtain ⟨hin, hfree⟩ := mem_live.mp hmem
  have hb : G.taken n b = b := ht.eq_of_addr hin (hbs ▸ by simp) rfl
  rw [hb, hbf] at hfree
  cases hfree

/-! ## The free blocks left -/

/-- What `place` leaves free of a block, when it cuts it. -/
def rest (G : Geometry) (n : ℕ) (b : Block) : Block :=
  { addr := b.addr + G.header + n, size := b.size - n - G.header, free := true }

/-- The block is cut. -/
def Cut (G : Geometry) (n : ℕ) (b : Block) : Prop := G.header + G.minData ≤ b.size - n

/-- Some free block has room for `n` bytes. -/
def Fits (n : ℕ) (bs : List Block) : Prop := ∃ b ∈ bs, b.free = true ∧ n ≤ b.size

theorem Fits.mono {k : ℕ} (h : Fits n bs) (hk : k ≤ n) : Fits k bs := by
  obtain ⟨b, hb, hf, hn⟩ := h
  exact ⟨b, hb, hf, by omega⟩

theorem firstFit_eq_none : G.firstFit n bs = none ↔ ¬ Fits n bs := by
  rw [firstFit_none]
  constructor
  · rintro h ⟨b, hb, hf, hn⟩
    exact absurd (h b hb hf) (by omega)
  · intro h b hb hf
    by_contra hn
    exact h ⟨b, hb, hf, by omega⟩

theorem mem_free_place (c : Block) :
    c ∈ G.place n b ∧ c.free = true ↔ G.Cut n b ∧ c = G.rest n b := by
  unfold place Cut
  split
  · rename_i hcut
    simp only [List.mem_cons, List.not_mem_nil, or_false]
    constructor
    · rintro ⟨rfl | rfl, hf⟩
      · cases hf
      · exact ⟨hcut, rfl⟩
    · rintro ⟨-, rfl⟩
      exact ⟨.inr rfl, rfl⟩
  · rename_i hcut
    simp only [List.mem_cons, List.not_mem_nil, or_false, hcut, false_and, iff_false, not_and]
    rintro rfl hf
    cases hf

/-- The free blocks after an allocation: the others, and what is cut off. -/
theorem mem_free_firstFit (ht : G.Tiles a bs e) (h : G.firstFit n bs = some (b, cs)) (c : Block) :
    c ∈ cs ∧ c.free = true ↔
      (c ∈ bs ∧ c.free = true ∧ c ≠ b) ∨ (G.Cut n b ∧ c = G.rest n b) := by
  obtain ⟨pre, post, rfl, rfl, hbf, -, -⟩ := firstFit_some h
  have hpair := ht.pairwise
  rw [List.pairwise_append] at hpair
  have hb := G.addr_lt_stop b
  have hpre : ∀ c ∈ pre, c ≠ b := by
    rintro c hc rfl
    have := hpair.2.2 c hc c List.mem_cons_self
    omega
  have hpost : ∀ c ∈ post, c ≠ b := by
    rintro c hc rfl
    have := (List.pairwise_cons.mp hpair.2.1).1 c hc
    omega
  rw [← mem_free_place]
  simp only [List.mem_append, List.mem_cons]
  constructor
  · rintro ⟨hc | hc | hc, hf⟩
    · exact .inl ⟨.inl hc, hf, hpre c hc⟩
    · exact .inr ⟨hc, hf⟩
    · exact .inl ⟨.inr (.inr hc), hf, hpost c hc⟩
  · rintro (⟨hc | rfl | hc, hf, hne⟩ | ⟨hc, hf⟩)
    · exact ⟨.inl hc, hf⟩
    · exact absurd rfl hne
    · exact ⟨.inr (.inr hc), hf⟩
    · exact ⟨.inr (.inl hc), hf⟩

/-- The part cut off starts inside the block, where no block did. -/
theorem rest_not_mem (ht : G.Tiles a bs e) (hb : b ∈ bs) (hn : G.Cut n b) : G.rest n b ∉ bs := by
  intro hmem
  have hstart : (G.rest n b).addr = b.addr + G.header + n := rfl
  have hpos := G.header_pos
  unfold Cut at hn
  rcases ht.disjoint hmem hb with he | hd | hd
  · have := congrArg Block.addr he
    omega
  · have := G.addr_lt_stop (G.rest n b)
    omega
  · unfold stop at hd
    omega

/-- Which requests fit after an allocation. -/
theorem fits_firstFit (ht : G.Tiles a bs e) (h : G.firstFit n bs = some (b, cs)) (k : ℕ) :
    Fits k cs ↔ (∃ c ∈ bs, c.free = true ∧ c ≠ b ∧ k ≤ c.size) ∨
      (G.Cut n b ∧ k ≤ b.size - n - G.header) := by
  constructor
  · rintro ⟨c, hc, hf, hk⟩
    rcases (mem_free_firstFit ht h c).mp ⟨hc, hf⟩ with ⟨hc, hf, hne⟩ | ⟨hcut, rfl⟩
    · exact .inl ⟨c, hc, hf, hne, hk⟩
    · exact .inr ⟨hcut, hk⟩
  · rintro (⟨c, hc, hf, hne, hk⟩ | ⟨hcut, hk⟩)
    · obtain ⟨hc, hf⟩ := (mem_free_firstFit ht h c).mpr (.inl ⟨hc, hf, hne⟩)
      exact ⟨c, hc, hf, hk⟩
    · obtain ⟨hc, hf⟩ := (mem_free_firstFit ht h (G.rest n b)).mpr (.inr ⟨hcut, rfl⟩)
      exact ⟨G.rest n b, hc, hf, hk⟩

/-! ## Merging -/

theorem Tiles.absorb (h : G.Tiles a (b :: c :: bs) e) :
    G.Tiles a ({ b with size := b.size + (G.header + c.size) } :: bs) e := by
  obtain ⟨hb, hc, hbs⟩ := h
  have hs : G.stop { b with size := b.size + (G.header + c.size) } = G.stop c := by
    simp only [stop] at hc ⊢
    omega
  exact ⟨hb, hs ▸ hbs⟩

theorem mergeFrom_tiles (h : G.Tiles a (b :: bs) e) : G.Tiles a (G.mergeFrom b bs) e := by
  induction bs generalizing a b with
  | nil => exact h
  | cons c bs ih =>
    rw [mergeFrom]
    split
    · exact ih h.absorb
    · exact ⟨h.1, ih h.2⟩

theorem mergeFrom_head (b : Block) (bs : List Block) :
    ∃ d ds, G.mergeFrom b bs = d :: ds ∧ d.addr = b.addr ∧ d.free = b.free := by
  induction bs generalizing b with
  | nil => exact ⟨b, [], rfl, rfl, rfl⟩
  | cons c bs ih =>
    rw [mergeFrom]
    split
    · exact ih _
    · exact ⟨b, _, rfl, rfl, rfl⟩

theorem mergeFrom_coalesced (b : Block) (bs : List Block) : Coalesced (G.mergeFrom b bs) := by
  induction bs generalizing b with
  | nil => exact .singleton b
  | cons c bs ih =>
    rw [mergeFrom]
    split
    · exact ih _
    · rename_i hbc
      obtain ⟨d, ds, hd, -, hdf⟩ := G.mergeFrom_head c bs
      have hrest := ih c
      rw [hd] at hrest ⊢
      refine List.isChain_cons_cons.mpr ⟨?_, hrest⟩
      rw [hdf]
      cases hb : b.free <;> cases hcf : c.free <;> simp_all

theorem live_mergeFrom (b : Block) (bs : List Block) : live (G.mergeFrom b bs) = live (b :: bs) := by
  induction bs generalizing b with
  | nil => rfl
  | cons c bs ih =>
    rw [mergeFrom]
    split
    · rename_i h
      rw [ih]
      simp [live, h.1, h.2]
    · change live ([b] ++ _) = live ([b] ++ _)
      rw [live_append, live_append, ih]

/-- Merging keeps every block inside one of the blocks it returns. -/
theorem mergeFrom_covers (ht : G.Tiles a (b :: bs) e) (hc : c ∈ b :: bs) :
    ∃ d ∈ G.mergeFrom b bs, d.addr ≤ c.addr ∧ G.stop c ≤ G.stop d := by
  induction bs generalizing a b c with
  | nil => exact ⟨c, hc, le_rfl, le_rfl⟩
  | cons f bs ih =>
    rw [mergeFrom]
    split
    · have hf : f.addr = G.stop b := ht.2.1
      have hb := G.addr_lt_stop b
      obtain ⟨d, hd, hda, hds⟩ := ih ht.absorb List.mem_cons_self
      rcases List.mem_cons.mp hc with rfl | hc
      · refine ⟨d, hd, hda, le_trans ?_ hds⟩
        simp only [stop]
        omega
      · rcases List.mem_cons.mp hc with rfl | hc
        · refine ⟨d, hd, le_trans hda (hf ▸ hb.le), le_trans ?_ hds⟩
          simp only [stop] at hf ⊢
          omega
        · exact ih ht.absorb (List.mem_cons_of_mem _ hc)
    · rcases List.mem_cons.mp hc with rfl | hc
      · exact ⟨c, List.mem_cons_self, le_rfl, le_rfl⟩
      · obtain ⟨d, hd, hdc⟩ := ih ht.2 hc
        exact ⟨d, List.mem_cons_of_mem _ hd, hdc⟩

theorem merge_tiles (h : G.Tiles a bs e) : G.Tiles a (G.merge bs) e := by
  cases bs with
  | nil => exact h
  | cons b bs => exact mergeFrom_tiles h

theorem merge_coalesced (bs : List Block) : Coalesced (G.merge bs) := by
  cases bs with
  | nil => exact .nil
  | cons b bs => exact G.mergeFrom_coalesced b bs

theorem live_merge (bs : List Block) : live (G.merge bs) = live bs := by
  cases bs with
  | nil => rfl
  | cons b bs => exact G.live_mergeFrom b bs

/-! ## Freeing -/

theorem markFree_tiles (q : ℕ) (h : G.Tiles a bs e) : G.Tiles a (markFree q bs) e := by
  induction bs generalizing a with
  | nil => exact h
  | cons b bs ih =>
    have hb : (if b.addr = q then { b with free := true } else b).addr = b.addr ∧
        G.stop (if b.addr = q then { b with free := true } else b) = G.stop b := by
      split <;> exact ⟨rfl, rfl⟩
    exact ⟨hb.1.trans h.1, hb.2 ▸ ih h.2⟩

theorem live_markFree (q : ℕ) (bs : List Block) :
    live (markFree q bs) = (live bs).filter (fun b => b.addr ≠ q) := by
  induction bs with
  | nil => rfl
  | cons b bs ih =>
    unfold markFree live at ih ⊢
    rw [List.map_cons]
    by_cases hq : b.addr = q <;> cases hf : b.free <;> simp [hq, hf, ih]

theorem release_tiles (q : ℕ) (h : G.Tiles a bs e) : G.Tiles a (G.release q bs) e :=
  merge_tiles (markFree_tiles q h)

theorem release_covers (q : ℕ) (ht : G.Tiles a bs e) (hc : c ∈ bs) :
    ∃ d ∈ G.release q bs, d.addr ≤ c.addr ∧ G.stop c ≤ G.stop d := by
  have hmem : (if c.addr = q then { c with free := true } else c) ∈ markFree q bs :=
    List.mem_map_of_mem hc
  have hfields : (if c.addr = q then { c with free := true } else c).addr = c.addr ∧
      G.stop (if c.addr = q then { c with free := true } else c) = G.stop c := by
    split <;> exact ⟨rfl, rfl⟩
  have hm := markFree_tiles q ht
  rw [release]
  cases hl : markFree q bs with
  | nil => exact absurd (hl ▸ hmem) List.not_mem_nil
  | cons d ds =>
    rw [hl] at hm hmem
    obtain ⟨f, hf, hfa, hfs⟩ := mergeFrom_covers hm hmem
    exact ⟨f, hf, hfields.1 ▸ hfa, hfields.2 ▸ hfs⟩

theorem live_release (q : ℕ) (bs : List Block) :
    live (G.release q bs) = (live bs).filter (fun b => b.addr ≠ q) := by
  rw [release, live_merge, live_markFree]

/-! ## Canonical form -/

/-- Before the first live block there is at most one free block. -/
private theorem tiles_unique_free (hb : G.Tiles a (b :: bs) e) (hc : G.Tiles a (c :: cs) e)
    (hcb : Coalesced (b :: bs)) (hbf : b.free = true) (hl : ∀ d, d ∈ live bs → d ∈ live cs) :
    G.stop c ≤ G.stop b := by
  cases bs with
  | nil => exact hb.2 ▸ hc.2.le
  | cons d bs =>
    have hd : d.free = false := by
      simpa [hbf] using (List.isChain_cons_cons.mp hcb).1
    have hmem := hl d (mem_live.mpr ⟨List.mem_cons_self, hd⟩)
    have := (hc.2.bounds (mem_live.mp hmem).1).1
    rw [hb.2.1] at this
    exact this

/-- Blocks behind the first one start elsewhere. -/
theorem Tiles.addr_ne {d x : Block} {ds : List Block} (hd : G.Tiles a (d :: ds) e) (hx : x ∈ ds) :
    x.addr ≠ a := by
  have h1 := (hd.2.bounds hx).1
  have h2 := G.addr_lt_stop d
  have h3 := hd.1
  omega

theorem Tiles.eq_head {d x : Block} {ds : List Block} (hd : G.Tiles a (d :: ds) e)
    (hx : x ∈ live (d :: ds)) (ha : x.addr = a) : x = d :=
  (List.mem_cons.mp (mem_live.mp hx).1).resolve_right (fun h => hd.addr_ne h ha)

/-- The live blocks behind the first one are among those of any tiling that has them all. -/
theorem Tiles.live_tail {b c : Block} (hb : G.Tiles a (b :: bs) e) (hc : G.Tiles a (c :: cs) e)
    (hl : ∀ d, d ∈ live (b :: bs) → d ∈ live (c :: cs)) {d : Block} (hd : d ∈ live bs) :
    d ∈ live cs := by
  obtain ⟨hd, hdf⟩ := mem_live.mp hd
  have hmem := (mem_live.mp (hl d (mem_live.mpr ⟨List.mem_cons_of_mem b hd, hdf⟩))).1
  refine mem_live.mpr ⟨(List.mem_cons.mp hmem).resolve_left (fun h => ?_), hdf⟩
  exact hb.addr_ne hd (h ▸ hc.1)

/-- A live first block is the first block of any tiling that has all its live blocks. -/
theorem Tiles.head_live {b c : Block} (hb : G.Tiles a (b :: bs) e) (hc : G.Tiles a (c :: cs) e)
    (hl : ∀ d, d ∈ live (b :: bs) → d ∈ live (c :: cs)) (hbf : b.free = false) : b = c :=
  hc.eq_head (hl b (mem_live.mpr ⟨List.mem_cons_self, hbf⟩)) hb.1

/-- A coalesced tiling is determined by its live blocks. -/
theorem tiles_unique (hb : G.Tiles a bs e) (hc : G.Tiles a cs e) (hcb : Coalesced bs)
    (hcc : Coalesced cs) (hl : ∀ d, d ∈ live bs ↔ d ∈ live cs) : bs = cs := by
  induction bs generalizing a cs with
  | nil =>
    cases cs with
    | nil => rfl
    | cons c cs =>
      have := G.addr_lt_stop c
      have := hc.2.le
      have : a = e := hb
      have := hc.1
      omega
  | cons b bs ih =>
    cases cs with
    | nil =>
      have := G.addr_lt_stop b
      have := hb.2.le
      have : a = e := hc
      have := hb.1
      omega
    | cons c cs =>
      have hll : ∀ d, d ∈ live bs ↔ d ∈ live cs := fun d =>
        ⟨hb.live_tail hc (fun d => (hl d).mp), hc.live_tail hb (fun d => (hl d).mpr)⟩
      have hbc : b = c := by
        cases hbf : b.free with
        | false => exact hb.head_live hc (fun d => (hl d).mp) hbf
        | true =>
          cases hcf : c.free with
          | false => exact (hc.head_live hb (fun d => (hl d).mpr) hcf).symm
          | true =>
            have haddr : b.addr = c.addr := hb.1.trans hc.1.symm
            have hstop : G.stop b = G.stop c :=
              le_antisymm (tiles_unique_free hc hb hcc hcf (fun d => (hll d).mpr))
                (tiles_unique_free hb hc hcb hbf (fun d => (hll d).mp))
            have hsize : b.size = c.size := by
              simp only [stop, haddr] at hstop
              omega
            exact Block.ext haddr hsize (hbf.trans hcf.symm)
      subst hbc
      rw [ih hb.2 hc.2 (List.isChain_cons.mp hcb).2 (List.isChain_cons.mp hcc).2 hll]

/-! ## Sizes in units -/

/-- Every size is a multiple of `d`. -/
def Graded (d : ℕ) (bs : List Block) : Prop := ∀ b ∈ bs, d ∣ b.size

theorem place_graded {d : ℕ} (hG : d ∣ G.header) (hn : d ∣ n) (hb : d ∣ b.size) :
    Graded d (G.place n b) := by
  intro c hc
  unfold place at hc
  split at hc
  · rcases List.mem_cons.mp hc with rfl | hc
    · exact hn
    · rw [List.mem_singleton.mp hc]
      exact Nat.dvd_sub (Nat.dvd_sub hb hn) hG
  · rw [List.mem_singleton.mp hc]
    exact hb

theorem firstFit_graded {d : ℕ} (hG : d ∣ G.header) (hn : d ∣ n) (hbs : Graded d bs)
    (h : G.firstFit n bs = some (b, cs)) : Graded d cs := by
  obtain ⟨pre, post, rfl, rfl, -, -, -⟩ := firstFit_some h
  intro c hc
  rcases List.mem_append.mp hc with hc | hc
  · exact hbs c (List.mem_append_left _ hc)
  rcases List.mem_append.mp hc with hc | hc
  · exact place_graded hG hn (hbs b (by simp)) c hc
  · exact hbs c (by simp [hc])

theorem mergeFrom_graded {d : ℕ} (hG : d ∣ G.header) (hbs : Graded d (b :: bs)) :
    Graded d (G.mergeFrom b bs) := by
  induction bs generalizing b with
  | nil => exact hbs
  | cons c bs ih =>
    obtain ⟨hb, hcs⟩ := List.forall_mem_cons.mp hbs
    obtain ⟨hc, hrest⟩ := List.forall_mem_cons.mp hcs
    rw [mergeFrom]
    split
    · exact ih (List.forall_mem_cons.mpr ⟨Nat.dvd_add hb (Nat.dvd_add hG hc), hrest⟩)
    · exact List.forall_mem_cons.mpr ⟨hb, ih hcs⟩

theorem release_graded {d : ℕ} (hG : d ∣ G.header) (hbs : Graded d bs) (q : ℕ) :
    Graded d (G.release q bs) := by
  have hmark : Graded d (markFree q bs) := by
    intro c hc
    obtain ⟨b, hb, rfl⟩ := List.mem_map.mp hc
    split <;> exact hbs b hb
  unfold release merge
  cases hm : markFree q bs with
  | nil => exact fun _ hc => absurd hc List.not_mem_nil
  | cons b bs =>
    rw [hm] at hmark
    exact mergeFrom_graded hG hmark

/-! ## Gaps -/

/-- The byte `x` lies in one of the blocks. -/
def Occupied (G : Geometry) (bs : List Block) (x : ℕ) : Prop := ∃ b ∈ bs, b.addr ≤ x ∧ x < G.stop b

/-- A maximal run `[lo, hi)` of bytes of `[a, e)` that no block of `bs` occupies. -/
structure IsGap (G : Geometry) (bs : List Block) (a e lo hi : ℕ) : Prop where
  nonempty : lo < hi
  lower : a ≤ lo
  upper : hi ≤ e
  outside : ∀ x, lo ≤ x → x < hi → ¬ G.Occupied bs x
  left_max : lo = a ∨ G.Occupied bs (lo - 1)
  right_max : hi = e ∨ G.Occupied bs hi

/-- No byte of a free block is occupied by a live one. -/
theorem Tiles.not_occupied (h : G.Tiles a bs e) (hb : b ∈ bs) (hf : b.free = true) {x : ℕ}
    (hx : b.addr ≤ x ∧ x < G.stop b) : ¬ G.Occupied (live bs) x := by
  rintro ⟨c, hc, hcx⟩
  obtain ⟨hc, hcf⟩ := mem_live.mp hc
  rw [h.eq_of_overlap hb hc hx hcx, hcf] at hf
  cases hf

/-- A free block of a coalesced tiling is flanked by the ends or by live blocks. -/
theorem Tiles.isGap (h : G.Tiles a bs e) (hco : Coalesced bs) (hb : b ∈ bs)
    (hf : b.free = true) : G.IsGap (live bs) a e b.addr (G.stop b) := by
  refine ⟨G.addr_lt_stop b, (h.bounds hb).1, (h.bounds hb).2,
    fun x hlo hhi => h.not_occupied hb hf ⟨hlo, hhi⟩, ?_, ?_⟩
  all_goals
    obtain ⟨pre, post, rfl⟩ := List.append_of_mem hb
    obtain ⟨m, hpre, hbm, hpost⟩ := tiles_append.mp h
    obtain ⟨hcpre, hcpost⟩ := coalesced_append_cons.mp hco
  · rcases List.eq_nil_or_concat pre with rfl | ⟨pre, c, rfl⟩
    · exact .inl (h.1)
    · rw [List.concat_eq_append] at hpre hcpre
      have hcf : c.free = false := by
        rw [List.append_assoc] at hcpre
        have := (coalesced_append_cons.mp hcpre).2
        simpa [hf] using (List.isChain_cons_cons.mp this).1
      obtain ⟨k, -, -, hck⟩ := tiles_append.mp hpre
      have hcb : G.stop c = b.addr := hck.trans hbm.symm
      refine .inr ⟨c, mem_live.mpr ⟨by simp, hcf⟩, ?_⟩
      have := G.addr_lt_stop c
      omega
  · cases post with
    | nil => exact .inl hpost
    | cons c post =>
      have hcf : c.free = false := by simpa [hf] using (List.isChain_cons_cons.mp hcpost).1
      have := G.addr_lt_stop c
      have := hpost.1
      exact .inr ⟨c, mem_live.mpr ⟨by simp, hcf⟩, by omega⟩

/-- The gaps between live blocks are exactly the free blocks of a coalesced tiling. -/
theorem isGap_iff (h : G.Tiles a bs e) (hco : Coalesced bs) {lo hi : ℕ} :
    G.IsGap (live bs) a e lo hi ↔ ∃ b ∈ bs, b.free = true ∧ b.addr = lo ∧ G.stop b = hi := by
  constructor
  · intro hg
    obtain ⟨b, hb, hlo, hhi⟩ := h.cover hg.lower (lt_of_lt_of_le hg.nonempty hg.upper)
    have hf : b.free = true := by
      by_contra hne
      exact hg.outside lo le_rfl hg.nonempty ⟨b, mem_live.mpr ⟨hb, by simpa using hne⟩, hlo, hhi⟩
    have hgb := h.isGap hco hb hf
    refine ⟨b, hb, hf, ?_, ?_⟩
    · rcases hg.left_max with ha | ho
      · have := hgb.lower
        omega
      · by_contra hne
        exact hgb.outside (lo - 1) (by omega) (by omega) ho
    · rcases Nat.lt_trichotomy (G.stop b) hi with hlt | heq | hgt
      · rcases hgb.right_max with he | ho
        · have := hg.upper
          omega
        · exact absurd ho (hg.outside (G.stop b) (by omega) hlt)
      · exact heq
      · rcases hg.right_max with he | ho
        · have := hgb.upper
          omega
        · exact absurd ho (hgb.outside hi (by have := hg.nonempty; omega) hgt)
  · rintro ⟨b, hb, hf, rfl, rfl⟩
    exact h.isGap hco hb hf

end Geometry
end ShadOS.Machine

import ShadOS.Heap.Source
import ShadOS.Machine.Tiling

/-! # The header chain in memory refines a list of blocks

A chain reads the headers from a pointer on. The loops of heap.c, run on a
chain whose blocks tile an interval of the address space, end and leave the
chain of the corresponding list operation; the bytes they write are headers of
free blocks.
-/

namespace ShadOS.Heap
open Machine

/-- The geometry of heap.c. -/
def geometry : Geometry := ⟨headerSize, by decide, minBlockData⟩

theorem stop_eq (b : Block) : geometry.stop b = b.addr + 12 + b.size := rfl

/-- The headers read from `p` on describe the blocks, and the last `next` is `NULL`. -/
def Chain (m : Mem) : ℕ → List Block → Prop
  | p, [] => p = 0
  | p, b :: bs => p = b.addr ∧ p ≠ 0 ∧ sizeOf m p = b.size ∧ (freeOf m p ≠ 0 ↔ b.free = true) ∧
      Chain m (nextOf m p) bs

/-- The twelve bytes of the header at `b`. -/
def InHeader (b x : ℕ) : Prop := b ≤ x ∧ x < b + 12

section fields
variable {m m' : Mem} {b c v x : ℕ}

theorem sizeOf_congr (h : ∀ x, InHeader b x → m' x = m x) : sizeOf m' b = sizeOf m b :=
  readWord_congr (fun x _ _ => h x (by unfold InHeader; omega))

theorem freeOf_congr (h : ∀ x, InHeader b x → m' x = m x) : freeOf m' b = freeOf m b :=
  readWord_congr (fun x _ _ => h x (by unfold InHeader; omega))

theorem nextOf_congr (h : ∀ x, InHeader b x → m' x = m x) : nextOf m' b = nextOf m b :=
  readWord_congr (fun x _ _ => h x (by unfold InHeader; omega))

theorem setSize_outside (h : ¬ InHeader b x) : setSize m b v x = m x :=
  writeWord_outside (by unfold InHeader at h; omega)

theorem setFree_outside (h : ¬ InHeader b x) : setFree m b v x = m x :=
  writeWord_outside (by unfold InHeader at h; omega)

theorem setNext_outside (h : ¬ InHeader b x) : setNext m b v x = m x :=
  writeWord_outside (by unfold InHeader at h; omega)

@[simp] theorem sizeOf_setSize : sizeOf (setSize m b v) b = u32 v := readWord_writeWord_same m b v
@[simp] theorem freeOf_setFree : freeOf (setFree m b v) b = u32 v := readWord_writeWord_same m _ v
@[simp] theorem nextOf_setNext : nextOf (setNext m b v) b = u32 v := readWord_writeWord_same m _ v

@[simp] theorem u32_nextOf : u32 (nextOf m b) = nextOf m b := u32_readWord m _

@[simp] theorem sizeOf_setFree : sizeOf (setFree m b v) b = sizeOf m b :=
  readWord_writeWord_of_disjoint (by omega)
@[simp] theorem sizeOf_setNext : sizeOf (setNext m b v) b = sizeOf m b :=
  readWord_writeWord_of_disjoint (by omega)
@[simp] theorem freeOf_setSize : freeOf (setSize m b v) b = freeOf m b :=
  readWord_writeWord_of_disjoint (by omega)
@[simp] theorem freeOf_setNext : freeOf (setNext m b v) b = freeOf m b :=
  readWord_writeWord_of_disjoint (by omega)
@[simp] theorem nextOf_setSize : nextOf (setSize m b v) b = nextOf m b :=
  readWord_writeWord_of_disjoint (by omega)
@[simp] theorem nextOf_setFree : nextOf (setFree m b v) b = nextOf m b :=
  readWord_writeWord_of_disjoint (by omega)

end fields

theorem Chain.congr {m m' : Mem} {p : ℕ} {bs : List Block} (h : Chain m p bs)
    (hm : ∀ b ∈ bs, ∀ x, InHeader b.addr x → m' x = m x) : Chain m' p bs := by
  induction bs generalizing p with
  | nil => exact h
  | cons b bs ih =>
    obtain ⟨rfl, hp, hs, hf, hn⟩ := h
    have hb := hm b List.mem_cons_self
    refine ⟨rfl, hp, (sizeOf_congr hb).trans hs, ?_, ?_⟩
    · rwa [freeOf_congr hb]
    · rw [nextOf_congr hb]
      exact ih hn (fun c hc => hm c (List.mem_cons_of_mem b hc))

theorem Chain.head {m : Mem} {p : ℕ} {b : Block} {bs : List Block} (h : Chain m p (b :: bs)) :
    p = b.addr := h.1

/-- Later headers of a tiling lie behind the block before them. -/
theorem later_header {b c : Block} {bs : List Block} {e x : ℕ}
    (ht : geometry.Tiles b.addr (b :: bs) e) (hc : c ∈ bs) (hx : InHeader c.addr x) :
    b.addr + 12 + b.size ≤ x :=
  le_trans (ht.2.bounds hc).1 hx.1

/-- Payloads and headers of a tiling never share a byte. -/
theorem payload_not_inHeader {a e x : ℕ} {bs : List Block} {b c : Block}
    (ht : geometry.Tiles a bs e) (hb : b ∈ bs) (hc : c ∈ bs)
    (hx : b.addr + 12 ≤ x ∧ x < b.addr + 12 + b.size) : ¬ InHeader c.addr x := by
  unfold InHeader
  rcases ht.disjoint hb hc with rfl | hd | hd
  · omega
  · rw [stop_eq] at hd
    omega
  · rw [stop_eq] at hd
    omega

/-! ## Merging -/

theorem absorbNext_outside {m : Mem} {b x : ℕ} (h : ¬ InHeader b x) : absorbNext m b x = m x := by
  rw [absorbNext, setNext_outside h, setSize_outside h]

theorem absorbNext_chain {b c : Block} {bs : List Block} {m : Mem} {e : ℕ}
    (hc : Chain m b.addr (b :: c :: bs)) (ht : geometry.Tiles b.addr (b :: c :: bs) e)
    (he : e < 2 ^ 32) :
    Chain (absorbNext m b.addr) b.addr
      ({ b with size := b.size + (geometry.header + c.size) } :: bs) := by
  obtain ⟨-, hb0, hbs, hbf, hcn⟩ := hc
  have hnext : nextOf m b.addr = c.addr := hcn.head
  rw [hnext] at hcn
  obtain ⟨-, hc0, hcs, hcf, hrest⟩ := hcn
  have hbc : c.addr = b.addr + 12 + b.size := ht.2.1
  have hce : geometry.stop c ≤ e := ht.2.2.le
  rw [stop_eq] at hce
  have hnn (v : ℕ) : nextOf (setSize m b.addr v) c.addr = nextOf m c.addr :=
    nextOf_congr (fun x hx => setSize_outside (by unfold InHeader at *; omega))
  have hm : absorbNext m b.addr = setNext (setSize m b.addr (b.size + (headerSize + c.size)))
      b.addr (nextOf m c.addr) := by
    rw [absorbNext, hnext, nextOf_setSize, hnext, hnn, hbs, hcs,
      u32_of_lt (by unfold headerSize; omega)]
  refine ⟨rfl, hb0, ?_, ?_, ?_⟩
  · rw [hm, sizeOf_setNext, sizeOf_setSize]
    exact u32_of_lt (by unfold headerSize; omega)
  · rwa [hm, freeOf_setNext, freeOf_setSize]
  · have hn : nextOf (absorbNext m b.addr) b.addr = nextOf m c.addr := by
      rw [hm, nextOf_setNext, u32_nextOf]
    rw [hn]
    refine hrest.congr (fun d hd x hx => absorbNext_outside ?_)
    have hx' := later_header ht.tail hd hx
    unfold InHeader
    omega

theorem coalesceLoop_spec {b : Block} {bs : List Block} {m : Mem} {fuel e : ℕ}
    (hc : Chain m b.addr (b :: bs)) (ht : geometry.Tiles b.addr (b :: bs) e) (he : e < 2 ^ 32)
    (hfuel : bs.length < fuel) :
    ∃ m', coalesceLoop fuel m b.addr = some m' ∧ Chain m' b.addr (geometry.mergeFrom b bs) ∧
      ∀ x, (∀ d ∈ b :: bs, d.free = true → ¬ InHeader d.addr x) → m' x = m x := by
  induction bs generalizing b m fuel with
  | nil =>
    obtain ⟨k, rfl⟩ : ∃ k, fuel = k + 1 := ⟨fuel - 1, by simp at hfuel; omega⟩
    have hn : nextOf m b.addr = 0 := hc.2.2.2.2
    refine ⟨m, ?_, hc, fun _ _ => rfl⟩
    rw [coalesceLoop, if_pos (.inr hn)]
  | cons c bs ih =>
    obtain ⟨k, rfl⟩ : ∃ k, fuel = k + 1 := ⟨fuel - 1, by simp at hfuel; omega⟩
    obtain ⟨-, hb0, hbs, hbf, hcn⟩ := hc
    have hnext : nextOf m b.addr = c.addr := hcn.head
    rw [hnext] at hcn
    obtain ⟨-, hc0, hcs, hcf, hrest⟩ := hcn
    have hbc : c.addr = b.addr + 12 + b.size := ht.2.1
    have hce : c.addr + 12 + c.size ≤ e := ht.2.2.le
    rw [coalesceLoop, if_neg (by rw [hnext]; tauto), hnext]
    by_cases hfree : b.free = true ∧ c.free = true
    · rw [if_pos ⟨hbf.mpr hfree.1, hcf.mpr hfree.2⟩]
      have hchain := absorbNext_chain ⟨rfl, hb0, hbs, hbf, hnext ▸ ⟨rfl, hc0, hcs, hcf, hrest⟩⟩ ht he
      obtain ⟨m', hrun, hch, hframe⟩ := ih hchain ht.absorb
        (show bs.length < k by simp only [List.length_cons] at hfuel; omega)
      refine ⟨m', hrun, ?_, fun x hx => ?_⟩
      · rwa [Geometry.mergeFrom, if_pos hfree]
      · have hxb : ¬ InHeader b.addr x := hx b List.mem_cons_self hfree.1
        refine (hframe x (fun d hd hdf => ?_)).trans (absorbNext_outside hxb)
        rcases List.mem_cons.mp hd with rfl | hd
        · exact hxb
        · exact hx d (List.mem_cons_of_mem _ (List.mem_cons_of_mem _ hd)) hdf
    · rw [if_neg (by tauto)]
      obtain ⟨m', hrun, hch, hframe⟩ := ih ⟨rfl, hc0, hcs, hcf, hrest⟩ ht.tail
        (show bs.length < k by simp only [List.length_cons] at hfuel; omega)
      have hkeep {x : ℕ} (hx : InHeader b.addr x) : m' x = m x := by
        refine hframe x (fun d hd _ hxd => ?_)
        have := later_header ht hd hxd
        unfold InHeader at hx
        omega
      refine ⟨m', hrun, ?_, fun x hx => hframe x (fun d hd => hx d (List.mem_cons_of_mem b hd))⟩
      rw [Geometry.mergeFrom, if_neg hfree]
      refine ⟨rfl, hb0, (sizeOf_congr fun _ => hkeep).trans hbs, ?_, ?_⟩
      · rwa [freeOf_congr fun _ => hkeep]
      · rwa [nextOf_congr fun _ => hkeep, hnext]

/-! ## Taking a block -/

/-- The bytes written when `n` bytes are taken from `b`: its header, and the
header of the remainder inside it. -/
def TakeWrites (n : ℕ) (b : Block) (x : ℕ) : Prop :=
  InHeader b.addr x ∨ InHeader (b.addr + 12 + n) x ∧ x < geometry.stop b

/-- The bytes written for an allocation lie in the free block it takes. -/
theorem takeWrites_bounds {n x : ℕ} {d : Block} (h : TakeWrites n d x) :
    d.addr ≤ x ∧ x < geometry.stop d := by
  unfold TakeWrites InHeader at h
  rw [stop_eq] at h ⊢
  omega

theorem place_split {n : ℕ} {b : Block} (h : headerSize + minBlockData ≤ b.size - n) :
    geometry.place n b = [{ b with size := n, free := false },
      { addr := b.addr + 12 + n, size := b.size - n - headerSize, free := true }] := if_pos h

theorem place_whole {n : ℕ} {b : Block} (h : ¬ headerSize + minBlockData ≤ b.size - n) :
    geometry.place n b = [{ b with free := false }] := if_neg h

/-- The memory after a split: first the header of the remainder at `q` is written, then
the one of the taken block at `p`. -/
def splitMem (m : Mem) (p q n r : ℕ) : Mem :=
  let m' := setNext (setFree (setSize m q r) q 1) q (nextOf m p)
  setFree (setNext (setSize m' p n) p q) p 0

section split
variable {m : Mem} {p q n r x : ℕ}

theorem splitMem_outside (hp : ¬ InHeader p x) (hq : ¬ InHeader q x) :
    splitMem m p q n r x = m x := by
  unfold splitMem
  rw [setFree_outside hp, setNext_outside hp, setSize_outside hp, setNext_outside hq,
    setFree_outside hq, setSize_outside hq]

theorem splitMem_taken : sizeOf (splitMem m p q n r) p = u32 n ∧ freeOf (splitMem m p q n r) p = 0 ∧
    nextOf (splitMem m p q n r) p = u32 q := by
  unfold splitMem
  refine ⟨?_, ?_, ?_⟩
  · rw [sizeOf_setFree, sizeOf_setNext, sizeOf_setSize]
  · rw [freeOf_setFree]
    rfl
  · rw [nextOf_setFree, nextOf_setNext]

theorem splitMem_rest (h : ∀ x, InHeader q x → ¬ InHeader p x) :
    sizeOf (splitMem m p q n r) q = u32 r ∧ freeOf (splitMem m p q n r) q = 1 ∧
      nextOf (splitMem m p q n r) q = nextOf m p := by
  have hkeep : ∀ x, InHeader q x → splitMem m p q n r x =
      setNext (setFree (setSize m q r) q 1) q (nextOf m p) x := by
    intro x hx
    unfold splitMem
    rw [setFree_outside (h x hx), setNext_outside (h x hx), setSize_outside (h x hx)]
  refine ⟨?_, ?_, ?_⟩
  · rw [sizeOf_congr hkeep, sizeOf_setNext, sizeOf_setFree, sizeOf_setSize]
  · rw [freeOf_congr hkeep, freeOf_setNext, freeOf_setFree]
    rfl
  · rw [nextOf_congr hkeep, nextOf_setNext, u32_nextOf]

theorem takeBlock_split (hq : u32 (p + headerSize + n) = q) (h : ∀ x, InHeader q x → ¬ InHeader p x)
    (hsplit : headerSize + minBlockData ≤ sizeOf m p - n) : takeBlock n m p =
      (u32 (p + headerSize), splitMem m p q n (sizeOf m p - n - headerSize)) := by
  have hnext : nextOf (setFree (setSize m q (sizeOf m p - n - headerSize)) q 1) p = nextOf m p := by
    apply nextOf_congr
    intro x hx
    rw [setFree_outside (fun hx' => h x hx' hx), setSize_outside (fun hx' => h x hx' hx)]
  simp only [takeBlock, splitMem, if_pos hsplit, hq, hnext]

end split

theorem takeBlock_spec {b : Block} {bs : List Block} {m : Mem} {n e : ℕ}
    (hc : Chain m b.addr (b :: bs)) (ht : geometry.Tiles b.addr (b :: bs) e) (he : e < 2 ^ 32)
    (hn : n ≤ b.size) :
    ∃ m', takeBlock n m b.addr = (b.addr + 12, m') ∧ Chain m' b.addr (geometry.place n b ++ bs) ∧
      ∀ x, ¬ TakeWrites n b x → m' x = m x := by
  obtain ⟨-, hb0, hbs, hbf, hrest⟩ := hc
  have hend : geometry.stop b ≤ e := ht.2.le
  rw [stop_eq] at hend
  have hp : u32 (b.addr + headerSize) = b.addr + 12 := u32_of_lt (by unfold headerSize; omega)
  have hlater {m' : Mem} (hm' : ∀ x, ¬ TakeWrites n b x → m' x = m x) :
      Chain m' (nextOf m b.addr) bs := by
    refine hrest.congr (fun d hd x hx => hm' x ?_)
    have := later_header ht hd hx
    rw [TakeWrites, stop_eq]
    unfold InHeader
    omega
  by_cases hsplit : headerSize + minBlockData ≤ b.size - n
  · have hroom : b.addr + 12 + n + 12 ≤ b.addr + 12 + b.size := by
      unfold headerSize minBlockData at hsplit
      omega
    have hq : u32 (b.addr + headerSize + n) = b.addr + 12 + n :=
      u32_of_lt (by unfold headerSize; omega)
    have hapart : ∀ x, InHeader (b.addr + 12 + n) x → ¬ InHeader b.addr x := by
      unfold InHeader
      omega
    have hrun := takeBlock_split hq hapart (hbs.symm ▸ hsplit)
    rw [hbs, hp] at hrun
    have hframe (x : ℕ) (hx : ¬ TakeWrites n b x) :
        splitMem m b.addr (b.addr + 12 + n) n (b.size - n - headerSize) x = m x := by
      apply splitMem_outside
      · exact fun h => hx (.inl h)
      · refine fun h => hx (.inr ⟨h, ?_⟩)
        rw [stop_eq]
        unfold InHeader at h
        omega
    obtain ⟨hsize, hfree, hnext⟩ := splitMem_taken (m := m) (p := b.addr) (q := b.addr + 12 + n)
      (n := n) (r := b.size - n - headerSize)
    obtain ⟨hsize', hfree', hnext'⟩ := splitMem_rest (m := m) (n := n) (r := b.size - n - headerSize)
      hapart
    refine ⟨_, hrun, ?_, hframe⟩
    rw [place_split hsplit]
    refine ⟨rfl, hb0, hsize.trans (u32_of_lt (by omega)), by simp [hfree], ?_⟩
    rw [hnext, u32_of_lt (by omega)]
    refine ⟨rfl, by omega, hsize'.trans (u32_of_lt (by omega)), by simp [hfree'], ?_⟩
    rw [hnext']
    exact hlater hframe
  · have hrun : takeBlock n m b.addr = (b.addr + 12, setFree m b.addr 0) := by
      simp only [takeBlock, hbs, if_neg hsplit, hp]
    have hframe (x : ℕ) (hx : ¬ TakeWrites n b x) : setFree m b.addr 0 x = m x :=
      setFree_outside (fun h => hx (.inl h))
    refine ⟨_, hrun, ?_, hframe⟩
    rw [place_whole hsplit]
    refine ⟨rfl, hb0, ?_, ?_, ?_⟩
    · rwa [sizeOf_setFree]
    · rw [freeOf_setFree]
      simp [u32]
    · rw [nextOf_setFree]
      exact hlater hframe

theorem kmallocLoop_none {bs : List Block} {m : Mem} {n fuel p : ℕ} (hc : Chain m p bs)
    (hfuel : bs.length < fuel) (h : geometry.firstFit n bs = none) :
    kmallocLoop n fuel m p = some (0, m) := by
  induction bs generalizing p fuel with
  | nil =>
    obtain ⟨k, rfl⟩ : ∃ k, fuel = k + 1 := ⟨fuel - 1, by simp at hfuel; omega⟩
    rw [kmallocLoop, if_pos (show p = 0 from hc)]
  | cons b bs ih =>
    obtain ⟨k, rfl⟩ : ∃ k, fuel = k + 1 := ⟨fuel - 1, by simp at hfuel; omega⟩
    obtain ⟨rfl, hb0, hbs, hbf, hrest⟩ := hc
    have hb := Geometry.firstFit_none.mp h b List.mem_cons_self
    rw [kmallocLoop, if_neg hb0, if_neg (by rw [hbf, hbs]; intro hh; have := hb hh.1; omega)]
    exact ih hrest (by simp only [List.length_cons] at hfuel; omega)
      (Geometry.firstFit_none.mpr (fun c hc => Geometry.firstFit_none.mp h c
        (List.mem_cons_of_mem b hc)))

theorem kmallocLoop_some {bs cs : List Block} {b : Block} {m : Mem} {n fuel p a e : ℕ}
    (hc : Chain m p bs) (ht : geometry.Tiles a bs e) (he : e < 2 ^ 32) (hfuel : bs.length < fuel)
    (h : geometry.firstFit n bs = some (b, cs)) :
    ∃ m', kmallocLoop n fuel m p = some (b.addr + 12, m') ∧ Chain m' p cs ∧
      ∀ x, ¬ TakeWrites n b x → m' x = m x := by
  induction bs generalizing p fuel a cs with
  | nil => cases h
  | cons d bs ih =>
    obtain ⟨k, rfl⟩ : ∃ k, fuel = k + 1 := ⟨fuel - 1, by simp at hfuel; omega⟩
    obtain ⟨rfl, hd0, hds, hdf, hrest⟩ := hc
    have htd : geometry.Tiles d.addr (d :: bs) e := ⟨rfl, ht.2⟩
    rw [kmallocLoop, if_neg hd0]
    rw [Geometry.firstFit] at h
    by_cases hfit : d.free = true ∧ n ≤ d.size
    · rw [if_pos hfit] at h
      cases h
      rw [if_pos (by rw [hdf, hds]; exact hfit)]
      obtain ⟨m', hrun, hchain, hframe⟩ :=
        takeBlock_spec ⟨rfl, hd0, hds, hdf, hrest⟩ htd he hfit.2
      exact ⟨m', congrArg some hrun, hchain, hframe⟩
    · rw [if_neg hfit] at h
      rw [if_neg (by rw [hdf, hds]; exact hfit)]
      obtain ⟨r, hr, hrd⟩ := Option.map_eq_some_iff.mp h
      cases hrd
      obtain ⟨m', hrun, hchain, hframe⟩ := ih hrest ht.2
        (show bs.length < k by simp only [List.length_cons] at hfuel; omega) hr
      obtain ⟨pre, post, rfl, -, -, -, -⟩ := Geometry.firstFit_some hr
      have hkeep {x : ℕ} (hx : InHeader d.addr x) : m' x = m x := by
        refine hframe x ?_
        have := (ht.2.bounds (b := r.1) (by simp)).1
        rw [stop_eq] at this
        unfold TakeWrites InHeader at *
        omega
      refine ⟨m', hrun, ⟨rfl, hd0, (sizeOf_congr fun _ => hkeep).trans hds, ?_, ?_⟩, hframe⟩
      · rwa [freeOf_congr fun _ => hkeep]
      · rwa [nextOf_congr fun _ => hkeep]

end ShadOS.Heap

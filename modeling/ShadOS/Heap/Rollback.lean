import ShadOS.Heap.Capacity
import ShadOS.Heap.Interface

/-! # Allocations that are given back

A caller that needs several blocks frees the ones it has when a later request
fails. Seen from the block list, `kmalloc` then `kfree` of its pointer is no
change, and only bytes of blocks that were free before are written.
-/

namespace ShadOS.Heap
open Machine

/-- The memories differ in bytes of free blocks only. -/
def OutsideFree (bs : List Block) (m m' : Mem) : Prop :=
  ∀ x, (∀ b ∈ bs, b.free = true → ¬ (b.addr ≤ x ∧ x < geometry.stop b)) → m' x = m x

variable {h : HeapVars} {m m' : Mem} {bs cs : List Block} {b c d : Block} {n x : ℕ}

theorem OutsideFree.refl (bs : List Block) (m : Mem) : OutsideFree bs m m := fun _ _ => rfl

theorem kmalloc_of_heapC {h' : HeapVars} {p : ℕ} (hrun : heapC.kmalloc h m n = some (p, h', m')) :
    kmalloc h m n = some (p, m') := by
  obtain ⟨r, hr, he⟩ := Option.map_eq_some_iff.mp hrun
  cases he
  exact hr

/-- The payload of a live block stays. -/
theorem OutsideFree.payload (hout : OutsideFree bs m m') (hok : HeapOk h m bs)
    (hb : b ∈ live bs) : SamePayload b m m' := by
  intro x hlo hhi
  obtain ⟨hb, hbf⟩ := mem_live.mp hb
  refine hout x fun c hc hcf hx => ?_
  have hbc : b = c := hok.tiles.eq_of_overlap hb hc (x := x) ⟨by omega, by rw [stop_eq]; omega⟩ hx
  rw [hbc, hcf] at hbf
  cases hbf

/-- The blocks after an allocation are the old ones, or lie inside the one taken. -/
theorem firstFit_mem (hf : geometry.firstFit n bs = some (d, cs)) (hc : c ∈ cs) :
    c ∈ bs ∨ d.addr ≤ c.addr ∧ geometry.stop c ≤ geometry.stop d := by
  obtain ⟨pre, post, rfl, rfl, -, hfit, -⟩ := Geometry.firstFit_some hf
  rcases List.mem_append.mp hc with hc | hc
  · exact .inl (List.mem_append_left _ hc)
  rcases List.mem_append.mp hc with hc | hc
  · exact .inr ((Geometry.place_tiles hfit).bounds hc)
  · exact .inl (by simp [hc])

namespace HeapOk

/-- Writes that miss the headers keep the block list. -/
theorem congr (hok : HeapOk h m bs) (hm : ∀ b ∈ bs, ∀ x, InHeader b.addr x → m' x = m x) :
    HeapOk h m' bs :=
  ⟨hok.chain.congr hm, hok.tiles, hok.coalesced, hok.start, hok.fits⟩

/-- A request finds no block and changes nothing, or takes the first fit. -/
theorem kmalloc_cases (hok : HeapOk h m bs) (hn : n ≠ 0) :
    (geometry.firstFit (alignUp n alignment) bs = none ∧ heapC.kmalloc h m n = some (0, h, m)) ∨
    ∃ d cs m', geometry.firstFit (alignUp n alignment) bs = some (d, cs) ∧
      heapC.kmalloc h m n = some (d.addr + 12, h, m') ∧ HeapOk h m' cs ∧ OutsideFree bs m m' := by
  cases hf : geometry.firstFit (alignUp n alignment) bs with
  | none => exact .inl ⟨rfl, heapC_kmalloc (hok.kmalloc_none hn hf)⟩
  | some r =>
    obtain ⟨d, cs⟩ := r
    obtain ⟨m', hrun, hok', hframe⟩ := hok.kmalloc_some hn hf
    obtain ⟨pre, post, hbs, -, hdf, -, -⟩ := Geometry.firstFit_some hf
    have hd : d ∈ bs := hbs ▸ by simp
    exact .inr ⟨d, cs, m', rfl, heapC_kmalloc hrun, hok',
      fun x hx => hframe x fun hw => hx d hd hdf (takeWrites_bounds hw)⟩

/-- Freeing what an allocation took gives back the block list before it. -/
theorem kfree_taken (hok : HeapOk h m bs) (hf : geometry.firstFit n bs = some (d, cs))
    (hok' : HeapOk h m' cs) (hout : OutsideFree bs m m') :
    ∃ m'', heapC.kfree h m' (d.addr + 12) = some (h, m'') ∧ HeapOk h m'' bs ∧
      OutsideFree bs m m'' := by
  obtain ⟨pre, post, hbs, -, hdf, -, -⟩ := Geometry.firstFit_some hf
  have hd : d ∈ bs := hbs ▸ by simp
  have htaken : geometry.taken n d ∈ cs :=
    (mem_live.mp ((Geometry.firstFit_live hf _).mpr (.inr rfl))).1
  obtain ⟨m'', hrun, hok'', hframe⟩ := hok'.kfree_some htaken
  have hback := release_firstFit hok hf hok''
  refine ⟨m'', heapC_kfree hrun, hback ▸ hok'', fun x hx => ?_⟩
  refine (hframe x fun c hc hcfree hhead => ?_).trans (hout x hx)
  have hin : c.addr ≤ x ∧ x < geometry.stop c :=
    ⟨hhead.1, by rw [stop_eq]; have := hhead.2; omega⟩
  -- the headers written are those of free blocks, and of the block freed
  rcases hcfree with hcf | rfl
  · rcases firstFit_mem hf hc with hcbs | hcd
    · exact hx c hcbs hcf hin
    · exact hx d hd hdf ⟨by omega, by omega⟩
  · rcases firstFit_mem hf htaken with hcbs | hcd
    · have : geometry.taken n d = d := hok.tiles.eq_of_addr hcbs hd rfl
      exact hx d hd hdf (this ▸ hin)
    · exact hx d hd hdf ⟨by omega, by omega⟩

end HeapOk

/-! ## Words stored by clients -/

variable {k : KernelEnd} {s : Session} {a v : ℕ}

/-- Four stores make a word. -/
theorem writeWord_eq_updates (m : Mem) (a v : ℕ) :
    writeWord m a v = Function.update (Function.update (Function.update (Function.update m
      a (UInt8.ofNat v)) (a + 1) (UInt8.ofNat (v / 2 ^ 8))) (a + 2) (UInt8.ofNat (v / 2 ^ 16)))
      (a + 3) (UInt8.ofNat (v / 2 ^ 24)) := by
  funext x
  by_cases hx : a ≤ x ∧ x < a + 4
  · obtain ⟨i, hi, rfl⟩ : ∃ i, i < 4 ∧ x = a + i := ⟨x - a, by omega, by omega⟩
    rw [writeWord, if_pos hx, Nat.add_sub_cancel_left]
    obtain rfl | rfl | rfl | rfl : i = 0 ∨ i = 1 ∨ i = 2 ∨ i = 3 := by omega
    all_goals simp
  · have h0 : x ≠ a ∧ x ≠ a + 1 ∧ x ≠ a + 2 ∧ x ≠ a + 3 := by omega
    rw [writeWord, if_neg hx, Function.update_of_ne h0.2.2.2, Function.update_of_ne h0.2.2.1,
      Function.update_of_ne h0.2.1, Function.update_of_ne h0.1]

/-- A client stores a word inside a block it holds; the block list stays. -/
theorem reaches_writeWord (hs : (clients k).Reaches s) (hok : SessionOk s bs)
    (ha : ∃ p n, (p, n) ∈ s.owned ∧ n + 7 < 2 ^ 32 ∧ p ≤ a ∧ a + 4 ≤ p + n) :
    (clients k).Reaches { s with mem := writeWord s.mem a v } ∧
      SessionOk { s with mem := writeWord s.mem a v } bs := by
  obtain ⟨p, n, hpn, hlt, hlo, hhi⟩ := ha
  have hbyte {m : Mem} {i : ℕ} (w : UInt8) (hi : i < 4)
      (hm : (clients k).Reaches { s with mem := m } ∧ SessionOk { s with mem := m } bs) :
      (clients k).Reaches { s with mem := Function.update m (a + i) w } ∧
        SessionOk { s with mem := Function.update m (a + i) w } bs := by
    have hallowed : ({ s with mem := m } : Session).allowed (.store (a + i) w) :=
      ⟨p, n, hpn, hlt, by omega, by omega⟩
    exact ⟨hm.1.step (e := .store (a + i) w) hallowed rfl, hm.2.store hallowed⟩
  rw [writeWord_eq_updates]
  have h0 := hbyte (i := 0) (UInt8.ofNat v) (by decide) ⟨hs, hok⟩
  have h1 := hbyte (i := 1) (UInt8.ofNat (v / 2 ^ 8)) (by decide) h0
  have h2 := hbyte (i := 2) (UInt8.ofNat (v / 2 ^ 16)) (by decide) h1
  exact hbyte (i := 3) (UInt8.ofNat (v / 2 ^ 24)) (by decide) h2

end ShadOS.Heap

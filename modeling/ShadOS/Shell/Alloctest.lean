import ShadOS.Shell.Commands
import ShadOS.Heap.Requests

/-! # The blocks of alloctest

`cmd_alloctest` asks for 32, 128 and 40 bytes. With all three blocks it frees them
and the heap is as before; when one is missing it returns with the others taken.
-/

namespace ShadOS.Shell
open Machine Strings
open Heap (HeapVars HeapOk InHeader geometry pointer pointer_eq_zero heapGetStats_spec alignUp
  alignment stop_eq payload_not_inHeader)

/-- The heap of the kernel has these variables and blocks. -/
structure OnBlocks (h : HeapVars) (bs : List Block) (k : Kernel) : Prop where
  vars : k.fs.heap = h
  ok : HeapOk h k.fs.mem bs

/-- The call has a result, with these blocks. -/
def Leaves (h : HeapVars) (bs : List Block) (r : Option Kernel) : Prop :=
  ∃ k', r = some k' ∧ OnBlocks h bs k'

/-- Where the first free block that holds 32 bytes leads: to all three blocks. -/
def TestRoom (frees : List Block) : Prop :=
  ∀ d, frees.find? (fun b => 32 ≤ b.size) = some d →
    224 ≤ d.size ∨ (172 ≤ d.size ∧ ∃ e ∈ frees, e ≠ d ∧ 40 ≤ e.size) ∨
      ∃ e ∈ frees, e ≠ d ∧ 128 ≤ e.size ∧
        (84 ≤ d.size ∨ 180 ≤ e.size ∨ ∃ f ∈ frees, f ≠ d ∧ f ≠ e ∧ 40 ≤ f.size)

variable {h : HeapVars} {bs cs : List Block} {k k' : Kernel} {b : Block} {n : ℕ}

theorem Leaves.bind {r : Option Kernel} {g : Kernel → Option Kernel} (hr : Leaves h bs r)
    (hg : ∀ k', OnBlocks h bs k' → Leaves h cs (g k')) : Leaves h cs (r.bind g) := by
  obtain ⟨k', rfl, hk'⟩ := hr
  exact hg k' hk'

/-! ## Calls on a block list -/

namespace OnBlocks

/-- Output does not count. -/
theorem congr (hk : OnBlocks h bs k) (hfs : k'.fs = k.fs) : OnBlocks h bs k' :=
  ⟨hfs ▸ hk.vars, hfs ▸ hk.ok⟩

theorem say (hk : OnBlocks h bs k) (t : String) : OnBlocks h bs (k.say t) := hk.congr rfl

theorem leaves (hk : OnBlocks h bs k) (hfs : k'.fs = k.fs) : Leaves h bs (some k') :=
  ⟨k', rfl, hk.congr hfs⟩

theorem use (hk : OnBlocks h bs k) : Leaves h bs (sayUse k) := by
  have hstats := heapGetStats_spec (hk.vars ▸ hk.ok)
  simp only [sayUse, hstats, writeUint_eq, Option.bind_eq_bind, Option.bind_some]
  exact hk.leaves rfl

theorem kmalloc (hk : OnBlocks h bs k) (hn : n ≠ 0) (ha : alignUp n alignment = n) : ∃ k',
    k.kmalloc n = some (pointer (geometry.request n bs).1, k') ∧
      OnBlocks h (geometry.request n bs).2 k' := by
  obtain ⟨m', hrun, hok⟩ := hk.ok.kmalloc_request hn
  rw [ha] at hrun hok
  rw [Kernel.kmalloc, hk.vars, hrun]
  exact ⟨_, rfl, rfl, hok⟩

theorem kfree (hk : OnBlocks h bs k) (hb : b ∈ bs) :
    Leaves h (geometry.release b.addr bs) (k.kfree (b.addr + 12)) := by
  obtain ⟨m', hrun, hok, -⟩ := hk.ok.kfree_some hb
  rw [Kernel.kfree, hk.vars, Heap.heapC_kfree hrun]
  exact ⟨_, rfl, rfl, hok⟩

/-- Payload bytes of listed blocks may be written. -/
theorem setMem (hk : OnBlocks h bs k) {m : Mem}
    (hm : ∀ x, (∃ b ∈ bs, InHeader b.addr x) → m x = k.fs.mem x) : OnBlocks h bs (k.setMem m) :=
  ⟨hk.vars, hk.ok.congr fun b hb x hx => hm x ⟨b, hb, hx⟩⟩

theorem showTest {a b c : Block} (hk : OnBlocks h bs k) (ha : a ∈ live bs) (hb : b ∈ live bs)
    (hc : c ∈ live bs) (hab : a ≠ b) (hac : a ≠ c) (hbc : b ≠ c) (hasize : 32 ≤ a.size)
    (hcsize : 40 ≤ c.size) : Leaves h (geometry.releaseAll [a, b, c] bs)
      (showTest (a.addr + 12) (b.addr + 12) (c.addr + 12) k) := by
  have haddr {x y : Block} (hx : x ∈ live bs) (hy : y ∈ live bs) (hne : x ≠ y) :
      x.addr ≠ y.addr :=
    fun h => hne (hk.ok.tiles.eq_of_addr (mem_live.mp hx).1 (mem_live.mp hy).1 h)
  have hap : Span.Apart ⟨a.addr + 12, 32⟩ ⟨c.addr + 12, 40⟩ := by
    unfold Span.Apart
    dsimp only
    rcases hk.ok.tiles.disjoint (mem_live.mp ha).1 (mem_live.mp hc).1 with h | h | h
    · exact absurd h hac
    · rw [stop_eq] at h
      omega
    · rw [stop_eq] at h
      omega
  have h₀ : OnBlocks h bs (k.setMem (fillTest k.fs.mem (a.addr + 12) (c.addr + 12))) := by
    apply hk.setMem
    rintro x ⟨d, hd, hx⟩
    apply fillTest_outside
    · exact fun hin => payload_not_inHeader hk.ok.tiles (mem_live.mp ha).1 hd
        ⟨hin.1, lt_of_lt_of_le hin.2 (by dsimp only; omega)⟩ hx
    · exact fun hin => payload_not_inHeader hk.ok.tiles (mem_live.mp hc).1 hd
        ⟨hin.1, lt_of_lt_of_le hin.2 (by dsimp only; omega)⟩ hx
  have hb₁ : b ∈ live (geometry.release a.addr bs) := by
    rw [Geometry.live_release, List.mem_filter]
    exact ⟨hb, by simpa using (haddr ha hb hab).symm⟩
  have hc₂ : c ∈ live (geometry.release b.addr (geometry.release a.addr bs)) := by
    rw [Geometry.live_release, Geometry.live_release, List.mem_filter, List.mem_filter]
    exact ⟨⟨hc, by simpa using (haddr ha hc hac).symm⟩, by simpa using (haddr hb hc hbc).symm⟩
  simp only [Shell.showTest, writeHex_eq, writeUint_eq, Option.bind_eq_bind, Option.bind_some,
    call_fs, say_fs, setMem_mem, writestring_of_mem (nul_mem_fillTest hap)]
  refine (h₀.congr (by rfl)).use.bind fun k₁ h₁ => ?_
  refine ((h₁.congr (by rfl)).kfree (mem_live.mp ha).1).bind fun k₂ h₂ => ?_
  refine (h₂.kfree (mem_live.mp hb₁).1).bind fun k₃ h₃ => ?_
  refine (h₃.kfree (mem_live.mp hc₂).1).bind fun k₄ h₄ => ?_
  refine (h₄.congr (by rfl)).use.bind fun k₅ h₅ => ?_
  rw [heapGetStats_spec (h₅.vars ▸ h₅.ok), Option.bind_some]
  exact h₅.leaves rfl

/-- The three requests, and what is made of them. -/
theorem threeRequests (hk : OnBlocks h bs k) : ∃ k' a b c,
    geometry.requests [32, 128, 40] bs = ([a, b, c], (geometry.requests [32, 128, 40] bs).2) ∧
    OnBlocks h (geometry.requests [32, 128, 40] bs).2 k' ∧
    cmdAlloctest k = if a = none ∨ b = none ∨ c = none then
        some (k'.say "Echec d'allocation !\n")
      else Shell.showTest (pointer a) (pointer b) (pointer c) k' := by
  obtain ⟨k₁, hk₁, h₁⟩ := (hk.say "Avant allocation :\n").use
  obtain ⟨k₂, hk₂, h₂⟩ := (h₁.say " octets\n").kmalloc (n := 32) (by decide) (by decide)
  obtain ⟨k₃, hk₃, h₃⟩ := h₂.kmalloc (n := 128) (by decide) (by decide)
  obtain ⟨k₄, hk₄, h₄⟩ := h₃.kmalloc (n := 40) (by decide) (by decide)
  refine ⟨k₄, _, _, _, rfl, h₄, ?_⟩
  simp only [cmdAlloctest, hk₁, hk₂, hk₃, Nat.reduceMul, hk₄, Option.bind_eq_bind,
    Option.bind_some, pointer_eq_zero]

/-- The block list is as before when all three blocks were given, or none. -/
theorem alloctest (hk : OnBlocks h bs k) : ∃ cs, Leaves h cs (cmdAlloctest k) ∧
    (cs = bs ↔ Geometry.AllOrNone (geometry.requests [32, 128, 40] bs).1) := by
  obtain ⟨k', a, b, c, hrs, h', hrun⟩ := hk.threeRequests
  rw [hrun]
  split_ifs with hnull
  · -- what was given stays taken
    refine ⟨_, h'.leaves rfl, Geometry.requests_kept_iff hk.ok.tiles ?_⟩
    rw [hrs]
    simpa [eq_comm] using hnull
  · -- three new blocks, freed again
    simp only [not_or, ← ne_eq, Option.ne_none_iff_exists'] at hnull
    obtain ⟨⟨a, rfl⟩, ⟨b, rfl⟩, ⟨c, rfl⟩⟩ := hnull
    have hgiven (d : Block) : d ∈ [a, b, c] ↔
        some d ∈ (geometry.requests [32, 128, 40] bs).1 := by
      rw [hrs]
      simp
    have hlive : ∀ d ∈ [a, b, c], d ∈ live (geometry.requests [32, 128, 40] bs).2 :=
      fun d hd => Geometry.requests_live.mpr (.inr ((hgiven d).mp hd))
    have hall : (geometry.requests [32, 128, 40] bs).1 = [a, b, c].map some := by rw [hrs]; rfl
    have hnodup := Geometry.requests_nodup hk.ok.tiles hall
    have hsize := Geometry.requests_size hall
    simp only [List.nodup_cons, List.mem_cons, List.not_mem_nil, or_false, not_or] at hnodup
    simp only [List.forall₂_cons] at hsize
    obtain ⟨k₁, hk₁, h₁⟩ := h'.showTest (hlive a (by simp)) (hlive b (by simp)) (hlive c (by simp))
      hnodup.1.1 hnodup.1.2 hnodup.2.1 hsize.1 hsize.2.2.1
    have hback := hk.ok.restored h₁.ok hgiven
    refine ⟨bs, ⟨k₁, hk₁, hback ▸ h₁⟩, iff_of_true rfl (.inr ?_)⟩
    rw [hrs]
    simp

end OnBlocks

/-! ## The sizes that lead to all three blocks -/

/-- `TestRoom` for the block list, `d` being the first free block that holds 32 bytes. -/
def RoomBehind (d : Block) (bs : List Block) : Prop :=
  224 ≤ d.size ∨ (172 ≤ d.size ∧ ∃ e ∈ bs, e.free = true ∧ e ≠ d ∧ 40 ≤ e.size) ∨
    ∃ e ∈ bs, e.free = true ∧ e ≠ d ∧ 128 ≤ e.size ∧
      (84 ≤ d.size ∨ 180 ≤ e.size ∨ ∃ f ∈ bs, f.free = true ∧ f ≠ d ∧ f ≠ e ∧ 40 ≤ f.size)

section room
variable {a e : ℕ} {d : Block} (ht : geometry.Tiles a bs e)
  (hd : geometry.firstFit 32 bs = some (d, cs))
include ht hd

theorem roomBehind_of_serves (h : geometry.Serves [128, 40] cs) : RoomBehind d bs := by
  have hheader : geometry.header = 12 := rfl
  obtain ⟨f, es, hf, hthird⟩ := Geometry.serves_cons.mp h
  rw [Geometry.serves_singleton] at hthird
  obtain ⟨hffree, hfsize, ⟨hfbs, hfd⟩ | ⟨hcut, rfl⟩⟩ := Geometry.firstFit_second ht hd hf
  · rw [Geometry.fits_after_other ht hd hf hfbs (by decide) (by decide), hheader] at hthird
    refine .inr (.inr ⟨f, hfbs, hffree, hfd, hfsize, ?_⟩)
    rcases hthird with hother | hroom | hroom
    · exact .inr (.inr hother)
    · exact .inl (by omega)
    · exact .inr (.inl (by omega))
  · rw [Geometry.fits_after_rest ht hd hf hcut (by decide) (by decide), hheader] at hthird
    have hsize : (geometry.rest 32 d).size = d.size - 32 - 12 := rfl
    rcases hthird with hother | hroom
    · exact .inr (.inl ⟨by omega, hother⟩)
    · exact .inl (by omega)

theorem serves_of_roomBehind (h : RoomBehind d bs) : geometry.Serves [128, 40] cs := by
  have hheader : geometry.header = 12 := rfl
  have hsecond : Geometry.Fits 128 cs := by
    rw [Geometry.fits_after ht hd (by decide) (by decide), hheader]
    rcases h with h | ⟨h, -⟩ | ⟨e, he, hef, hed, hesize, -⟩
    · exact .inr (by omega)
    · exact .inr (by omega)
    · exact .inl ⟨e, he, hef, hed, hesize⟩
  obtain ⟨f, es, hf⟩ := hsecond.served
  refine Geometry.serves_cons.mpr ⟨f, es, hf, Geometry.serves_singleton.mpr ?_⟩
  obtain ⟨-, -, ⟨hfbs, -⟩ | ⟨hcut, rfl⟩⟩ := Geometry.firstFit_second ht hd hf
  · rw [Geometry.fits_after_other ht hd hf hfbs (by decide) (by decide), hheader]
    rcases h with h | ⟨h, -⟩ | ⟨e, he, hef, hed, hesize, hthird⟩
    · exact .inr (.inl (by omega))
    · exact .inr (.inl (by omega))
    · by_cases hne : e = f
      · subst hne
        rcases hthird with h | h | hother
        · exact .inr (.inl (by omega))
        · exact .inr (.inr (by omega))
        · exact .inl hother
      · -- the block that is not second has room for the third request
        exact .inl ⟨e, he, hef, hed, hne, by omega⟩
  · rw [Geometry.fits_after_rest ht hd hf hcut (by decide) (by decide), hheader]
    rcases h with h | ⟨-, hother⟩ | ⟨e, he, hef, hed, hesize, -⟩
    · exact .inr (by omega)
    · exact .inl hother
    · exact .inl ⟨e, he, hef, hed, by omega⟩

end room

theorem allOrNone_iff_testRoom {a e : ℕ} (ht : geometry.Tiles a bs e) :
    Geometry.AllOrNone (geometry.requests [32, 128, 40] bs).1 ↔
      TestRoom (bs.filter (fun b => b.free)) := by
  have hfind := geometry.firstFit_find 32 bs
  unfold TestRoom
  cases hd : geometry.firstFit 32 bs with
  | none =>
    have hno := Geometry.firstFit_eq_none.mp hd
    rw [hd] at hfind
    rw [Geometry.allOrNone_of_none hd, ← hfind]
    refine iff_of_true (Geometry.requests_refused ?_) (by simp)
    simp only [List.forall_mem_cons, List.not_mem_nil, false_implies, implies_true, and_true]
    exact ⟨fun h => hno (h.mono (by decide)), fun h => hno (h.mono (by decide))⟩
  | some r =>
    obtain ⟨d, cs⟩ := r
    rw [hd] at hfind
    have hiff : geometry.Serves [128, 40] cs ↔ RoomBehind d bs :=
      ⟨roomBehind_of_serves ht hd, serves_of_roomBehind ht hd⟩
    rw [Geometry.allOrNone_of_some hd, ← hfind, hiff]
    simp only [RoomBehind, Option.map_some, Option.some_inj, forall_eq', List.mem_filter, and_assoc]

end ShadOS.Shell

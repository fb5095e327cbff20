import ShadOS.Heap.Interface

/-! # The statistics of the heap

`heap_get_stats` adds up the sizes on the block chain. Under the heap invariant
it returns, and its numbers are sums over the blocks.
-/

namespace ShadOS.Heap
open Machine

/-- What `heap_get_stats` stores through its pointers. -/
@[ext] structure Stats where
  total : ℕ
  used : ℕ
  freeBytes : ℕ
  freeBlocks : ℕ
  deriving DecidableEq, Repr

/-- One block more. -/
def Stats.add (t : Stats) (size : ℕ) (free : Prop) [Decidable free] : Stats :=
  if free then
    { t with total := u32 (t.total + size), freeBytes := u32 (t.freeBytes + size),
             freeBlocks := t.freeBlocks + 1 }
  else { t with total := u32 (t.total + size), used := u32 (t.used + size) }

def statsLoop : ℕ → Mem → ℕ → Stats → Option Stats
  | 0, _, _, _ => none
  | fuel + 1, m, cur, t =>
    if cur = 0 then some t
    else statsLoop fuel m (nextOf m cur) (t.add (sizeOf m cur) (freeOf m cur ≠ 0))

def heapGetStats (h : HeapVars) (m : Mem) : Option Stats :=
  statsLoop loopFuel m h.heapStart ⟨0, 0, 0, 0⟩

def heapGetBase (h : HeapVars) : ℕ := h.heapBaseAddr

/-- The statistics of a block list. -/
def blockStats (bs : List Block) (t : Stats) : Stats :=
  bs.foldl (fun t b => t.add b.size (b.free = true)) t

variable {h : HeapVars} {m : Mem} {bs : List Block} {fuel p : ℕ}

theorem statsLoop_spec (hc : Chain m p bs) (hfuel : bs.length < fuel) (t : Stats) :
    statsLoop fuel m p t = some (blockStats bs t) := by
  induction bs generalizing p fuel t with
  | nil =>
    obtain ⟨k, rfl⟩ : ∃ k, fuel = k + 1 := ⟨fuel - 1, by simp at hfuel; omega⟩
    rw [statsLoop, if_pos (show p = 0 from hc)]
    rfl
  | cons b bs ih =>
    obtain ⟨k, rfl⟩ : ∃ k, fuel = k + 1 := ⟨fuel - 1, by simp at hfuel; omega⟩
    obtain ⟨-, h0, hsize, hfree, hrest⟩ := hc
    rw [statsLoop, if_neg h0, ih hrest (by simpa using hfuel), hsize]
    simp only [blockStats, List.foldl_cons, Stats.add, hfree]

theorem heapGetStats_spec (hok : HeapOk h m bs) :
    heapGetStats h m = some (blockStats bs ⟨0, 0, 0, 0⟩) :=
  statsLoop_spec hok.chain hok.length_lt _

end ShadOS.Heap

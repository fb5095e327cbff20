import ShadOS.Heap.Rollback
import ShadOS.Machine.Requests

/-! # Several blocks for one operation

`kmalloc` answers requests as the block list does, and an operation that frees all
it was given finds the block list it began with.
-/

namespace ShadOS.Heap
open Machine

/-- The pointer that comes with an answer. -/
def pointer : Option Block → ℕ
  | none => 0
  | some b => b.addr + 12

variable {h : HeapVars} {m m' : Mem} {bs cs ds : List Block} {s : Session} {n : ℕ} {ns : List ℕ}

theorem pointer_eq_zero {r : Option Block} : pointer r = 0 ↔ r = none := by
  cases r with
  | none => exact iff_of_true rfl rfl
  | some b => simp [pointer]

theorem SessionOk.freeBlocks_eq (hok : SessionOk s bs) :
    s.freeBlocks = bs.filter (fun b => b.free) := by
  rw [Session.freeBlocks, hok.blocks, Option.getD_some]

namespace HeapOk

theorem kmalloc_request (hok : HeapOk h m bs) (hn : n ≠ 0) : ∃ m',
    heapC.kmalloc h m n = some (pointer (geometry.request (alignUp n alignment) bs).1, h, m') ∧
      HeapOk h m' (geometry.request (alignUp n alignment) bs).2 := by
  rcases hok.kmalloc_cases hn with ⟨hf, hrun⟩ | ⟨d, cs, m', hf, hrun, hok', -⟩
  · rw [Geometry.request_of_none hf]
    exact ⟨m, hrun, hok⟩
  · rw [Geometry.request_of_some hf]
    exact ⟨m', hrun, hok'⟩

/-- All that was given is freed again, in any order. -/
theorem restored (hok : HeapOk h m bs)
    (hok' : HeapOk h m' (geometry.releaseAll ds (geometry.requests ns bs).2))
    (hgiven : ∀ d, d ∈ ds ↔ some d ∈ (geometry.requests ns bs).1) :
    geometry.releaseAll ds (geometry.requests ns bs).2 = bs :=
  hok'.canonical hok (Geometry.releaseAll_live hok.tiles hgiven)

end HeapOk

end ShadOS.Heap

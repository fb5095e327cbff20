import ShadOS.Tasking.Runs

/-! # What the scheduler hands back

Over an allocator that records its calls, creation takes a descriptor and a
stack, a failed creation hands its descriptor back, and `schedule` hands back
the stack and the descriptor of the zombie, nothing else.
-/

namespace ShadOS.Tasking
open Machine

universe u

/-- The record once the memory of `z` is freed. -/
def Task.giveBack (z : Task) (l : Allocator.Ledger) : Allocator.Ledger :=
  if z.stack = 0 then .free z.addr :: l else .free z.addr :: .free z.stack :: l

variable {H : Type u} {A : Allocator H} {k k' k₁ : Kernel (H × Allocator.Ledger)}

theorem NoDescriptor.ledger (h : NoDescriptor A.audited k k') :
    k'.heap.2 = .malloc taskSize 0 :: k.heap.2 := by
  obtain ⟨m, hrun⟩ := h
  exact (Allocator.audited_kmalloc hrun).2

theorem NoStack.ledger {t : ℕ} (h : NoStack A.audited k k' t) :
    k'.heap.2 = .free t :: .malloc taskStackSize 0 :: .malloc taskSize t :: k.heap.2 := by
  obtain ⟨-, h₁, m₁, h₂, m₂, m₃, hrun₁, hrun₂, hrun₃⟩ := h
  rw [(Allocator.audited_kfree hrun₃).2, (Allocator.audited_kmalloc hrun₂).2,
    (Allocator.audited_kmalloc hrun₁).2]

theorem BothBlocks.ledger {u : Task} (h : BothBlocks A.audited k k' u) :
    k'.heap.2 = .malloc taskStackSize u.stack :: .malloc taskSize u.addr :: k.heap.2 := by
  obtain ⟨-, -, h₁, m₁, m₂, hrun₁, hrun₂⟩ := h
  rw [(Allocator.audited_kmalloc hrun₂).2, (Allocator.audited_kmalloc hrun₁).2]

/-- `reclaim` frees the memory of the zombie, if there is one. -/
theorem Linked.reclaim_ledger {I : H × Allocator.Ledger → Mem → Set Span → Set Span → Prop}
    {clear : Span → Span → Prop} {L W : Set Span} {live dying pending gone : List Task}
    {rest : List ℕ} (hA : A.audited.Keeping I clear)
    (h : Linked I k L W live dying pending gone rest) (hr : reclaim A.audited k = some k₁) :
    (pending = [] ∧ k₁.heap.2 = k.heap.2) ∨
      ∃ z, pending = [z] ∧ k₁.heap.2 = z.giveBack k.heap.2 := by
  rcases h.pending_cases with ⟨rfl, h0⟩ | ⟨z, rfl, hz⟩
  · rw [reclaim, if_pos h0] at hr
    cases hr
    exact .inl ⟨rfl, rfl⟩
  · have hz0 : k.zombie ≠ 0 := by
      have := (h.addr_bounds hA (t := z) (by simp)).1
      omega
    have hbase : stackBaseOf k.mem k.zombie = z.stack := by
      rw [← hz]
      exact h.bases z (by simp)
    refine .inr ⟨z, rfl, ?_⟩
    rw [reclaim, if_neg hz0] at hr
    obtain ⟨k₂, hstack, hdesc⟩ := Option.bind_eq_some_iff.mp hr
    obtain ⟨f, hf, rfl⟩ := Option.map_eq_some_iff.mp hdesc
    change f.1.2 = _
    rw [freeStack, hbase] at hstack
    by_cases hs : z.stack = 0
    · rw [if_pos hs] at hstack
      cases hstack
      rw [(Allocator.audited_kfree hf).2, Task.giveBack, if_pos hs, hz]
    · rw [if_neg hs] at hstack
      obtain ⟨g, hg, rfl⟩ := Option.map_eq_some_iff.mp hstack
      rw [(Allocator.audited_kfree hf).2, Task.giveBack, if_neg hs, hz]
      exact congrArg (List.cons _) (Allocator.audited_kfree hg).2

end ShadOS.Tasking

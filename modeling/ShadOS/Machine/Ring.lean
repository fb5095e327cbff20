import Mathlib.Data.List.Perm.Subperm
import Mathlib.Data.List.Range
import Mathlib.Logic.Function.Iterate
import Mathlib.Tactic.Common

/-! # Circular lists threaded through a successor function

A path follows the successor from one node through a list of nodes to another;
a ring is a path back to its start. Rings rotate, take a new node behind their
start, and reach exactly the nodes they list.
-/

namespace ShadOS.Machine

universe u
variable {α : Type u}

/-- From `a` the successors are the nodes of the list, then `b`. -/
def Path (next : α → α) : α → List α → α → Prop
  | a, [], b => next a = b
  | a, x :: xs, b => next a = x ∧ Path next x xs b

def Ring (next : α → α) (c : α) (rest : List α) : Prop := Path next c rest c

variable {next next' : α → α} {a b c d x : α} {xs ys rest pre post : List α}

theorem path_append : Path next a (xs ++ d :: ys) b ↔ Path next a xs d ∧ Path next d ys b := by
  induction xs generalizing a with
  | nil => exact Iff.rfl
  | cons x xs ih => simp only [List.cons_append, Path, ih, and_assoc]

theorem Path.congr (h : Path next a xs b) (hn : ∀ y ∈ a :: xs, next' y = next y) :
    Path next' a xs b := by
  induction xs generalizing a with
  | nil => exact (hn a List.mem_cons_self).trans h
  | cons x xs ih =>
    exact ⟨(hn a List.mem_cons_self).trans h.1, ih h.2 (fun y hy => hn y (List.mem_cons_of_mem a hy))⟩

theorem Path.iterate (h : Path next a xs b) : next^[xs.length + 1] a = b := by
  induction xs generalizing a with
  | nil => exact h
  | cons x xs ih =>
    rw [List.length_cons, Function.iterate_succ_apply, h.1]
    exact ih h.2

/-- The successor of a listed node is listed, or the end of the path. -/
theorem Path.next_mem (h : Path next a xs b) (hx : x ∈ a :: xs) : next x ∈ xs ∨ next x = b := by
  induction xs generalizing a with
  | nil =>
    rw [List.mem_singleton.mp hx]
    exact .inr h
  | cons y ys ih =>
    rcases List.mem_cons.mp hx with rfl | hx
    · exact .inl (h.1 ▸ List.mem_cons_self)
    · exact (ih h.2 hx).imp_left (List.mem_cons_of_mem y)

namespace Ring

theorem congr (h : Ring next c rest) (hn : ∀ y ∈ c :: rest, next' y = next y) :
    Ring next' c rest := Path.congr h hn

/-- The same ring read from another of its nodes. -/
theorem rotate (h : Ring next c (pre ++ d :: post)) : Ring next d (post ++ c :: pre) :=
  path_append.mpr (path_append.mp h).symm

/-- A new node linked behind the start. -/
theorem insert (h : Ring next c rest) (hx : x ∉ c :: rest) (hxn : next' x = next c)
    (hcn : next' c = x) (hn : ∀ y ∈ rest, y ≠ c → next' y = next y) (hc : c ∉ rest) :
    Ring next' c (x :: rest) := by
  refine ⟨hcn, ?_⟩
  cases rest with
  | nil => exact hxn.trans h
  | cons y ys =>
    refine ⟨hxn.trans h.1, Path.congr h.2 (fun z hz => hn z hz ?_)⟩
    rintro rfl
    exact hc hz

theorem iterate (h : Ring next c rest) : next^[rest.length + 1] c = c := Path.iterate h

theorem next_mem (h : Ring next c rest) (hx : x ∈ c :: rest) : next x ∈ c :: rest := by
  rcases Path.next_mem h hx with hm | he
  · exact List.mem_cons_of_mem c hm
  · exact he ▸ List.mem_cons_self

/-- The nodes reached from the start are the listed ones. -/
theorem reaches_iff (h : Ring next c rest) : (∃ i, next^[i] c = d) ↔ d ∈ c :: rest := by
  constructor
  · rintro ⟨i, rfl⟩
    induction i with
    | zero => exact List.mem_cons_self
    | succ i ih =>
      rw [Function.iterate_succ_apply']
      exact h.next_mem ih
  · intro hd
    rcases List.mem_cons.mp hd with rfl | hd
    · exact ⟨0, rfl⟩
    · obtain ⟨pre, post, rfl⟩ := List.append_of_mem hd
      exact ⟨_, (path_append.mp h).1.iterate⟩

end Ring

/-- Distinct numbers below `n` are at most `n`. -/
theorem length_le_of_nodup {l : List ℕ} {n : ℕ} (hl : l.Nodup) (hn : ∀ x ∈ l, x < n) :
    l.length ≤ n := by
  have hsub := List.subperm_of_subset hl (fun x hx => List.mem_range.mpr (hn x hx))
  exact hsub.length_le.trans_eq List.length_range

end ShadOS.Machine

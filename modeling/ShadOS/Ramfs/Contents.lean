import ShadOS.Ramfs.Table
import Mathlib.Data.Set.Insert

/-! # Contents on the heap

The buffers of the slots are live blocks of the allocator, each with its slot.
An operation replaces the buffer of one slot and leaves the contents of the
others as they are.
-/

namespace ShadOS.Ramfs
open Machine Strings

universe u

/-- The span of a buffer, none for `NULL`. -/
def block (p n : ℕ) : Set Span := {w | p ≠ 0 ∧ w = ⟨p, n⟩}

/-- The buffers of all slots but one. -/
def others (files : Files) (i : Fin ramfsMaxFiles) : Set Span :=
  {w | ∃ j, j ≠ i ∧ w ∈ block (files j).data (files j).size}

def buffers (files : Files) : Set Span := {w | ∃ j, w ∈ block (files j).data (files j).size}

variable {H : Type u} {A : Allocator H} {I : H → Mem → Set Span → Prop} {region : Set ℕ}
  {ok : ℕ → Prop} {s : FileSystem H} {files : Files} {B L O : Set Span} {m m' : Mem}
  {i : Fin ramfsMaxFiles} {g : RamfsFile} {p n data size : ℕ}

@[simp] theorem block_null : block 0 n = ∅ := by
  ext w
  simp [block]

theorem block_of_ne (hp : p ≠ 0) : block p n = {⟨p, n⟩} := by
  ext w
  simp [block, hp]

theorem buffers_eq (files : Files) (i : Fin ramfsMaxFiles) :
    buffers files = others files i ∪ block (files i).data (files i).size := by
  ext w
  constructor
  · rintro ⟨j, hj⟩
    by_cases hji : j = i
    · exact .inr (hji ▸ hj)
    · exact .inl ⟨j, hji, hj⟩
  · rintro (⟨j, -, hj⟩ | hi)
    · exact ⟨j, hj⟩
    · exact ⟨i, hi⟩

theorem others_update : others (Function.update files i g) i = others files i := by
  ext w
  apply exists_congr
  intro j
  apply and_congr_right
  intro hj
  rw [Function.update_of_ne hj]

theorem buffers_update :
    buffers (Function.update files i g) = others files i ∪ block g.data g.size := by
  rw [buffers_eq _ i, others_update, Function.update_self]

/-! ## Copies and buffers -/

theorem memcpyRamfs_succ (m : Mem) (dst src n : ℕ) : memcpyRamfs m dst src (n + 1) =
    Function.update (memcpyRamfs m dst src n) (dst + n) (memcpyRamfs m dst src n (src + n)) := by
  rw [memcpyRamfs, List.range_succ, List.foldl_append]
  rfl

theorem memcpyRamfs_outside {dst src x : ℕ} (h : ¬ Span.Has ⟨dst, n⟩ x) :
    memcpyRamfs m dst src n x = m x := by
  induction n with
  | zero => rfl
  | succ n ih =>
    have hne : x ≠ dst + n := by
      rintro rfl
      exact h ⟨Nat.le_add_right _ _, Nat.lt_succ_self _⟩
    rw [memcpyRamfs_succ, Function.update_of_ne hne]
    apply ih
    exact fun hx => h ⟨hx.1, hx.2.trans (Nat.lt_succ_self _)⟩

/-- Copying forwards between bytes that do not overlap. -/
theorem memcpyRamfs_inside {dst src k : ℕ} (hk : k < n)
    (h : ∀ j < n, ¬ Span.Has ⟨dst, n⟩ (src + j)) :
    memcpyRamfs m dst src n (dst + k) = m (src + k) := by
  induction n with
  | zero => cases hk
  | succ n ih =>
    have hn : ∀ j < n + 1, ¬ Span.Has ⟨dst, n⟩ (src + j) := fun j hj hx =>
      h j hj ⟨hx.1, hx.2.trans (Nat.lt_succ_self _)⟩
    rw [memcpyRamfs_succ]
    by_cases hkn : k = n
    · subst hkn
      rw [Function.update_self, memcpyRamfs_outside (hn k (Nat.lt_succ_self k))]
    · rw [Function.update_of_ne (by omega)]
      exact ih (by omega) (fun j hj => hn j (by omega))

theorem newBuffer_spec (hA : A.Lawful I region ok) (hI : I s.heap s.mem L)
    (hr : Allocator.Readable region L data size) :
    ∃ h' m', Keeps L s.mem m' ∧ (∀ x, x ∉ region → m' x = s.mem x) ∧
      (newBuffer A s data size = some (none, { s with heap := h', mem := m' }) ∧ 0 < size ∧
          A.kmalloc s.heap s.mem size = some (0, h', m') ∧ I h' m' L ∨
        ∃ p, newBuffer A s data size = some (some p, { s with heap := h', mem := m' }) ∧
          (p ≠ 0 ↔ 0 < size) ∧ (p ≠ 0 → ⟨p, size⟩ ∉ L) ∧ I h' m' (L ∪ block p size) ∧
          readBytes m' p size = readBytes s.mem data size) := by
  by_cases hsize : 0 < size
  · obtain ⟨p, h₁, m₁, hrun, hkeep, hout, hcases⟩ := hA.kmalloc hI hsize (hA.serves hI hr)
    rcases hcases with ⟨rfl, hI₁⟩ | ⟨hp, hap, hI₁⟩
    · refine ⟨h₁, m₁, hkeep, hout, .inl ⟨?_, hsize, hrun, hI₁⟩⟩
      rw [newBuffer, if_pos hsize, hrun]
      rfl
    · have hnew : ⟨p, size⟩ ∉ L := fun hL => (hap _ hL).not_self hsize
      have hsrc : ∀ k < size, ¬ Span.Has ⟨p, size⟩ (data + k) := by
        intro k hk hx
        rcases hr.2 (data + k) (by omega) (by omega) with hnot | ⟨w, hw, hwx⟩
        · exact hnot (hA.inside hI₁ (Set.mem_insert _ _) hx)
        · exact (hap w hw).not_has hx hwx
      refine ⟨h₁, memcpyRamfs m₁ p data size, ?_, ?_, .inr ⟨p, ?_, ?_, ?_, ?_, ?_⟩⟩
      · intro w hw x hx
        rw [memcpyRamfs_outside ((hap w hw).symm.not_has hx)]
        exact hkeep w hw x hx
      · intro x hx
        rw [memcpyRamfs_outside (fun hp => hx (hA.inside hI₁ (Set.mem_insert _ _) hp))]
        exact hout x hx
      · rw [newBuffer, if_pos hsize, hrun]
        exact congrArg some (if_neg hp)
      · exact ⟨fun _ => hsize, fun _ => hp⟩
      · exact fun _ => hnew
      · rw [block_of_ne hp, Set.union_singleton]
        apply hA.store hI₁
        intro x hx
        refine .inr ⟨⟨p, size⟩, Set.mem_insert _ _, ?_⟩
        by_contra hno
        exact hx (memcpyRamfs_outside hno)
      · apply readBytes_congr
        intro k hk
        rw [memcpyRamfs_inside hk hsrc]
        rcases hr.2 (data + k) (by omega) (by omega) with hnot | ⟨w, hw, hwx⟩
        · exact hout _ hnot
        · exact hkeep w hw _ hwx
  · obtain rfl : size = 0 := by omega
    refine ⟨s.heap, s.mem, Keeps.refl _ _, fun _ _ => rfl,
      .inr ⟨0, ?_, by simp, by simp, by simpa using hI, rfl⟩⟩
    rw [newBuffer, if_neg (lt_irrefl 0)]

/-- The buffer of a slot is freed, if it has one. -/
theorem freeBuffer_spec (hA : A.Lawful I region ok)
    (hI : I s.heap s.mem (B ∪ block (s.files i).data (s.files i).size))
    (hB : (s.files i).data ≠ 0 → ⟨(s.files i).data, (s.files i).size⟩ ∉ B) :
    ∃ h' m', freeBuffer A s i = some { s with heap := h', mem := m' } ∧ I h' m' B ∧
      Keeps B s.mem m' ∧ ∀ x, x ∉ region → m' x = s.mem x := by
  by_cases h0 : (s.files i).data = 0
  · rw [h0, block_null, Set.union_empty] at hI
    exact ⟨s.heap, s.mem, if_pos h0, hI, Keeps.refl _ _, fun _ _ => rfl⟩
  · rw [block_of_ne h0, Set.union_singleton] at hI
    obtain ⟨h', m', hrun, hkeep, hout, hI'⟩ := hA.kfree hI (Set.mem_insert _ _)
    have hB' := Set.insert_sdiff_self_of_notMem (hB h0)
    rw [hB'] at hkeep hI'
    refine ⟨h', m', ?_, hI', hkeep, hout⟩
    rw [freeBuffer, if_neg h0, hrun]
    rfl

/-! ## The invariant -/

/-- Every used slot holds a terminated name that no other used slot holds, and every
non-empty file a live block of its own; `O` are the live blocks of other clients. -/
structure RamfsOk (I : H → Mem → Set Span → Prop) (O : Set Span) (s : FileSystem H) : Prop where
  ready : s.ready = true
  memory : I s.heap s.mem (O ∪ buffers s.files)
  terminated : ∀ i, (s.files i).used = true → 0 ∈ (s.files i).name.toList
  distinct : ∀ i j name, (s.files i).Is name → (s.files j).Is name → i = j
  cleared : ∀ i, (s.files i).used = false → (s.files i).data = 0
  filled : ∀ i, (s.files i).data ≠ 0 ↔ 0 < (s.files i).size
  separate : ∀ i, (s.files i).data ≠ 0 →
    ⟨(s.files i).data, (s.files i).size⟩ ∉ O ∪ others s.files i

namespace RamfsOk

theorem memory_eq (h : RamfsOk I O s) (i : Fin ramfsMaxFiles) :
    I s.heap s.mem (O ∪ others s.files i ∪ block (s.files i).data (s.files i).size) := by
  rw [Set.union_assoc, ← buffers_eq]
  exact h.memory

theorem others_subset : O ∪ others files i ⊆ O ∪ buffers files := by
  rw [buffers_eq files i, ← Set.union_assoc]
  exact Set.subset_union_left

theorem forall_update {P : Fin ramfsMaxFiles → RamfsFile → Prop} (hi : P i g)
    (hj : ∀ j, j ≠ i → P j (files j)) : ∀ j, P j (Function.update files i g j) := by
  intro j
  by_cases hji : j = i
  · subst hji
    rwa [Function.update_self]
  · rw [Function.update_of_ne hji]
    exact hj j hji

/-- One slot changes. -/
theorem update (h : RamfsOk I O s) {h' : H} {m' : Mem}
    (hI : I h' m' (O ∪ others s.files i ∪ block g.data g.size))
    (hterm : g.used = true → 0 ∈ g.name.toList)
    (hdist : ∀ j, j ≠ i → ∀ name, g.Is name → ¬ (s.files j).Is name)
    (hclear : g.used = false → g.data = 0) (hfill : g.data ≠ 0 ↔ 0 < g.size)
    (hsep : g.data ≠ 0 → ⟨g.data, g.size⟩ ∉ O ∪ others s.files i) :
    RamfsOk I O { s with heap := h', mem := m', files := Function.update s.files i g } := by
  refine ⟨h.ready, ?_,
    forall_update (P := fun _ f => f.used = true → 0 ∈ f.name.toList) hterm
      (fun j _ => h.terminated j), ?_,
    forall_update (P := fun _ f => f.used = false → f.data = 0) hclear (fun j _ => h.cleared j),
    forall_update (P := fun _ f => f.data ≠ 0 ↔ 0 < f.size) hfill (fun j _ => h.filled j), ?_⟩
  · change I h' m' (O ∪ buffers (Function.update s.files i g))
    rw [buffers_update, ← Set.union_assoc]
    exact hI
  · refine forall_update (P := fun j f => ∀ k name, f.Is name →
      (Function.update s.files i g k).Is name → j = k) ?_ ?_
    · intro k name hg hk
      by_contra hne
      rw [Function.update_of_ne (Ne.symm hne)] at hk
      exact hdist k (Ne.symm hne) name hg hk
    · intro j hj k name hjn hk
      by_cases hki : k = i
      · subst hki
        rw [Function.update_self] at hk
        exact absurd hjn (hdist j hj name hk)
      · rw [Function.update_of_ne hki] at hk
        exact h.distinct j k name hjn hk
  · refine forall_update (P := fun j f => f.data ≠ 0 →
      (⟨f.data, f.size⟩ : Span) ∉ O ∪ others (Function.update s.files i g) j) ?_ ?_
    · rw [others_update]
      exact hsep
    · rintro j hj h0 (hO | ⟨k, hkj, hk0, hk⟩)
      · exact h.separate j h0 (.inl hO)
      · by_cases hki : k = i
        · subst hki
          rw [Function.update_self] at hk0 hk
          refine hsep hk0 (.inr ⟨j, hj, h0, ?_⟩)
          exact hk.symm
        · rw [Function.update_of_ne hki] at hk0 hk
          exact h.separate j h0 (.inr ⟨k, hkj, hk0, hk⟩)

/-- The heap and the memory change, but no live block. -/
theorem congr (h : RamfsOk I O s) {h' : H} {m' : Mem} (hI : I h' m' (O ∪ buffers s.files)) :
    RamfsOk I O { s with heap := h', mem := m' } :=
  ⟨h.ready, hI, h.terminated, h.distinct, h.cleared, h.filled, h.separate⟩

end RamfsOk

theorem ramfsInit_ok (hI : I s.heap s.mem O) : RamfsOk I O (ramfsInit s) := by
  have hbuf : buffers (ramfsInit s).files = ∅ := by
    ext w
    simp [buffers, block, ramfsInit]
  refine ⟨rfl, ?_, ?_, ?_, ?_, ?_, ?_⟩
  · rw [hbuf, Set.union_empty]
    exact hI
  · exact fun i hu => nomatch hu
  · exact fun i j name hi => nomatch hi.1
  · exact fun i _ => rfl
  · exact fun i => by simp [ramfsInit]
  · exact fun i h0 => absurd rfl h0

end ShadOS.Ramfs

import ShadOS.Ramfs.Contents

/-! # The operations under the invariant

A write claims a slot and then replaces its content, a delete clears the slot.
What another name reads stays the same.
-/

namespace ShadOS.Ramfs
open Machine Strings

universe u

/-- What is known of a file. -/
inductive Status where
  | absent
  | holds (content : List UInt8)
  | unsure

/-- The slot table and the memory agree with it. -/
def Meets {H : Type u} (s : FileSystem H) (name : List UInt8) : Status → Prop
  | .absent => ∀ i, ¬ (s.files i).Is name
  | .holds d => ∃ i, (s.files i).Is name ∧ (s.files i).size = d.length ∧
      readBytes s.mem (s.files i).data d.length = d
  | .unsure => True

/-- The slot is taken for a new file. -/
def claimed {H : Type u} (s : FileSystem H) (i : Fin ramfsMaxFiles) (v : Vector UInt8 ramfsMaxName) :
    FileSystem H :=
  { s with files := Function.update s.files i { s.files i with name := v, used := true } }

/-- `kmalloc` has no block for a content of this size. -/
def NoBuffer {H : Type u} (A : Allocator H) (s : FileSystem H) (size : ℕ) : Prop :=
  0 < size ∧ ∃ h' m', A.kmalloc s.heap s.mem size = some (0, h', m')

variable {H : Type u} {A : Allocator H} {I : H → Mem → Set Span → Prop} {region : Set ℕ}
  {ok : ℕ → Prop} {s s' : FileSystem H} {O : Set Span} {m' : Mem} {i : Fin ramfsMaxFiles}
  {f : CString} {name : List UInt8} {st : Status} {data size : ℕ} {v : Vector UInt8 ramfsMaxName}

namespace Meets

/-- The content of a slot whose buffer is kept. -/
theorem readBytes_kept (h : RamfsOk I O s) {j : Fin ramfsMaxFiles}
    (hk : Keeps (block (s.files j).data (s.files j).size) s.mem m') :
    readBytes m' (s.files j).data (s.files j).size =
      readBytes s.mem (s.files j).data (s.files j).size := by
  apply readBytes_congr
  intro k hlt
  have h0 : (s.files j).data ≠ 0 := (h.filled j).mpr (by omega)
  exact hk _ ⟨h0, rfl⟩ _ ⟨Nat.le_add_right _ _, Nat.add_lt_add_left hlt _⟩

/-- Other names do not notice that slot `i` changes. -/
theorem frame (h : RamfsOk I O s) (hk : Keeps (others s.files i) s.mem s'.mem)
    (hfiles : ∀ j, j ≠ i → s'.files j = s.files j) (hold : ¬ (s.files i).Is name)
    (hnew : ¬ (s'.files i).Is name) (hm : Meets s name st) : Meets s' name st := by
  cases st with
  | unsure => trivial
  | absent =>
    intro j
    by_cases hj : j = i
    · exact hj ▸ hnew
    · rw [hfiles j hj]
      exact hm j
  | holds d =>
    obtain ⟨j, hj, hsize, hbytes⟩ := hm
    have hji : j ≠ i := fun he => hold (he ▸ hj)
    refine ⟨j, ?_, ?_, ?_⟩
    · rwa [hfiles j hji]
    · rwa [hfiles j hji]
    · rw [← hsize] at hbytes ⊢
      rw [hfiles j hji]
      apply (readBytes_kept h _).trans hbytes
      exact hk.mono (fun w hw => ⟨j, hji, hw⟩)

/-- No name notices a change outside the buffers. -/
theorem congr (h : RamfsOk I O s) (hk : Keeps (buffers s.files) s.mem s'.mem)
    (hfiles : s'.files = s.files) (hm : Meets s name st) : Meets s' name st := by
  cases st with
  | unsure => trivial
  | absent =>
    intro j
    rw [hfiles]
    exact hm j
  | holds d =>
    obtain ⟨j, hj, hsize, hbytes⟩ := hm
    rw [Meets, hfiles]
    refine ⟨j, hj, hsize, ?_⟩
    rw [← hsize] at hbytes ⊢
    apply (readBytes_kept h _).trans hbytes
    exact hk.mono (fun w hw => ⟨j, hw⟩)

end Meets

/-- A slot is found, or taken for a new name, or the table is full. -/
theorem claimSlot_spec (h : RamfsOk I O s) (hf : f.bytes.length < ramfsMaxName) :
    (∃ i, claimSlot s f.buffer = some (some i, s) ∧ (s.files i).Is f.bytes) ∨
      (∀ i, ¬ (s.files i).Is f.bytes) ∧
        ((claimSlot s f.buffer = some (none, s) ∧ ∀ i, (s.files i).used = true) ∨
          ∃ i v, claimSlot s f.buffer = some (some i, claimed s i v) ∧ (s.files i).used = false ∧
            0 ∈ v.toList ∧ untilNul v.toList = f.bytes) := by
  rcases ramfsFind_spec h.terminated f with ⟨i, hfind, hi⟩ | ⟨hfind, hno⟩
  · exact .inl ⟨i, by rw [claimSlot, hfind]; rfl, hi⟩
  · refine .inr ⟨hno, ?_⟩
    rcases ramfsFindFree_spec s.files with ⟨i, hfree, hu⟩ | ⟨hfree, hall⟩
    · obtain ⟨v, hv, hnul, htitle⟩ := copyName_spec f hf (s.files i).name
      refine .inr ⟨i, v, ?_, hu, hnul, htitle⟩
      rw [claimSlot, hfind, Option.bind_some]
      simp only [hfree, hv]
      rfl
    · refine .inl ⟨?_, hall⟩
      rw [claimSlot, hfind, Option.bind_some]
      simp only [hfree]

/-- The new slot is empty, and the only one with its name. -/
theorem claimed_ok (h : RamfsOk I O s) (hu : (s.files i).used = false) (hnul : 0 ∈ v.toList)
    (hno : ∀ j, ¬ (s.files j).Is (untilNul v.toList)) : RamfsOk I O (claimed s i v) := by
  have hdata := h.cleared i hu
  apply RamfsOk.update (s := s) h
  · exact h.memory_eq i
  · exact fun _ => hnul
  · rintro j - name ⟨-, rfl⟩
    exact hno j
  · exact fun hn => nomatch hn
  · exact h.filled i
  · exact fun h0 => absurd hdata h0

theorem claimed_is : ((claimed s i v).files i).Is (untilNul v.toList) := by
  refine ⟨?_, ?_⟩ <;> simp [claimed, RamfsFile.title]

theorem claimed_buffers : buffers (claimed s i v).files = buffers s.files := by
  rw [claimed, buffers_update, buffers_eq s.files i]

/-- The content of a slot is replaced, or `kmalloc` failed and it stays. -/
theorem replaceContent_spec (hA : A.Lawful I region ok) (h : RamfsOk I O s)
    (hu : (s.files i).used = true) (hr : Allocator.Readable region (O ∪ buffers s.files) data size) :
    ∃ h' m', (∀ x, x ∉ region → m' x = s.mem x) ∧
      ((replaceContent A s i data size = some (-1, { s with heap := h', mem := m' }) ∧
        0 < size ∧ A.kmalloc s.heap s.mem size = some (0, h', m') ∧
        Keeps (O ∪ buffers s.files) s.mem m' ∧ RamfsOk I O { s with heap := h', mem := m' }) ∨
      ∃ p, replaceContent A s i data size = some (0,
          { s with
            heap := h'
            mem := m'
            files := Function.update s.files i { s.files i with data := p, size := size } }) ∧
        Keeps (O ∪ others s.files i) s.mem m' ∧
        readBytes m' p size = readBytes s.mem data size ∧
        RamfsOk I O { s with
          heap := h'
          mem := m'
          files := Function.update s.files i { s.files i with data := p, size := size } }) := by
  obtain ⟨h₁, m₁, hk₁, hout₁, ⟨hrun, hsize, hmal, hI₁⟩ | ⟨p, hrun, hpos, hnew, hI₁, hbytes⟩⟩ :=
    newBuffer_spec hA h.memory hr
  · refine ⟨h₁, m₁, hout₁, .inl ⟨?_, hsize, hmal, hk₁, h.congr hI₁⟩⟩
    rw [replaceContent, hrun]
    rfl
  · have hsets : O ∪ buffers s.files ∪ block p size =
        O ∪ others s.files i ∪ block p size ∪ block (s.files i).data (s.files i).size := by
      rw [buffers_eq s.files i, ← Set.union_assoc, Set.union_right_comm]
    have hold : (s.files i).data ≠ 0 → ⟨(s.files i).data, (s.files i).size⟩ ∉
        O ∪ others s.files i ∪ block p size := by
      rintro h0 (hin | ⟨hp, he⟩)
      · exact h.separate i h0 hin
      · exact hnew hp (he ▸ .inr ⟨i, h0, rfl⟩)
    rw [hsets] at hI₁
    obtain ⟨h₂, m₂, hfree, hI₂, hk₂, hout₂⟩ :=
      freeBuffer_spec (s := { s with heap := h₁, mem := m₁ }) (i := i) hA hI₁ hold
    refine ⟨h₂, m₂, fun x hx => (hout₂ x hx).trans (hout₁ x hx), .inr ⟨p, ?_, ?_, ?_, ?_⟩⟩
    · rw [replaceContent, hrun, Option.bind_some]
      simp only [hfree]
      rfl
    · exact (hk₁.mono RamfsOk.others_subset).trans (hk₂.mono Set.subset_union_left)
    · rw [← hbytes]
      apply readBytes_congr
      intro k hk
      exact hk₂ ⟨p, size⟩ (.inr ⟨hpos.mpr (by omega), rfl⟩) _
        ⟨Nat.le_add_right _ _, Nat.add_lt_add_left hk _⟩
    · apply h.update hI₂
      · exact h.terminated i
      · exact fun j hj name hg hjn => hj (h.distinct j i name hjn hg)
      · exact fun hn => absurd hu (Bool.not_eq_true _ ▸ hn)
      · exact hpos
      · exact fun hp hin => hnew hp (RamfsOk.others_subset hin)

/-- Replacing the content of the slot of `name`, as the files show it. -/
theorem replaceContent_meets (hA : A.Lawful I region ok) (h : RamfsOk I O s)
    (hi : (s.files i).Is name) (hr : Allocator.Readable region (O ∪ buffers s.files) data size) :
    ∃ code s', replaceContent A s i data size = some (code, s') ∧ RamfsOk I O s' ∧
      (∀ x, x ∉ region → s'.mem x = s.mem x) ∧
      (∀ other st, other ≠ name → Meets s other st → Meets s' other st) ∧
      (code = 0 ∧ Meets s' name (.holds (readBytes s.mem data size)) ∨
        code = -1 ∧ (∀ st, Meets s name st → Meets s' name st) ∧ NoBuffer A s size) := by
  obtain ⟨h', m', hout, ⟨hrun, hsize, hmal, hk, hok⟩ | ⟨p, hrun, hk, hbytes, hok⟩⟩ :=
    replaceContent_spec (i := i) hA h hi.1 hr
  · have hm : ∀ n st, Meets s n st → Meets { s with heap := h', mem := m' } n st := by
      intro n st hm
      have hk' : Keeps (buffers s.files) s.mem ({ s with heap := h', mem := m' } : FileSystem H).mem :=
        hk.mono Set.subset_union_right
      exact Meets.congr h hk' rfl hm
    exact ⟨_, _, hrun, hok, hout, fun n st _ => hm n st, .inr ⟨rfl, hm name, hsize, h', m', hmal⟩⟩
  · refine ⟨_, _, hrun, hok, hout, ?_, .inl ⟨rfl, i, ?_, ?_, ?_⟩⟩
    · intro n st hn
      have hne {g : RamfsFile} (hg : g.title = name) : ¬ g.Is n := fun hgn => hn (hgn.2.symm.trans hg)
      apply Meets.frame (i := i) h
      · exact hk.mono Set.subset_union_right
      · exact fun j hj => Function.update_of_ne hj _ _
      · exact hne hi.2
      · dsimp only
        rw [Function.update_self]
        exact hne hi.2
    · dsimp only
      rw [Function.update_self]
      exact hi
    · dsimp only
      rw [Function.update_self, readBytes_length]
    · dsimp only
      rw [Function.update_self, readBytes_length]
      exact hbytes

/-- After the first test of a write. -/
theorem ramfsWrite_ready (h : RamfsOk I O s) : ramfsWrite A s f.buffer data size =
    if ramfsMaxName ≤ f.bytes.length then some (-1, s)
    else (claimSlot s f.buffer).bind (fun c =>
      c.1.elim (some (-1, c.2)) (fun i => replaceContent A c.2 i data size)) := by
  rw [ramfsWrite, if_neg (by simp [h.ready]), strlen_eq (nul_mem_buffer f), Option.bind_some,
    untilNul_buffer]
  congr 2
  funext c
  obtain ⟨- | i, s'⟩ := c <;> rfl

theorem ramfsWrite_long (h : RamfsOk I O s) (hf : ramfsMaxName ≤ f.bytes.length) :
    ramfsWrite A s f.buffer data size = some (-1, s) := by
  rw [ramfsWrite_ready h, if_pos hf]

theorem ramfsWrite_short (h : RamfsOk I O s) (hf : f.bytes.length < ramfsMaxName)
    {c : Option (Fin ramfsMaxFiles) × FileSystem H} (hc : claimSlot s f.buffer = some c) :
    ramfsWrite A s f.buffer data size =
      c.1.elim (some (-1, c.2)) (fun i => replaceContent A c.2 i data size) := by
  rw [ramfsWrite_ready h, if_neg (Nat.not_le.mpr hf), hc, Option.bind_some]

/-- A write stores the bytes of its source, or fails for one of three reasons and keeps a
stored content. -/
theorem ramfsWrite_spec (hA : A.Lawful I region ok) (h : RamfsOk I O s) (f : CString)
    (hr : Allocator.Readable region (O ∪ buffers s.files) data size) :
    ∃ code s', ramfsWrite A s f.buffer data size = some (code, s') ∧ RamfsOk I O s' ∧
      (∀ x, x ∉ region → s'.mem x = s.mem x) ∧
      (∀ other st, other ≠ f.bytes → Meets s other st → Meets s' other st) ∧
      (code = 0 ∧ Meets s' f.bytes (.holds (readBytes s.mem data size)) ∨
        code = -1 ∧ (∀ d, Meets s f.bytes (.holds d) → Meets s' f.bytes (.holds d)) ∧
          (ramfsMaxName ≤ f.bytes.length ∨ (∀ i, (s.files i).used = true) ∨ NoBuffer A s size)) := by
  rcases Nat.lt_or_ge f.bytes.length ramfsMaxName with hf | hf
  · rcases claimSlot_spec h hf with ⟨i, hclaim, hi⟩ |
      ⟨hno, ⟨hclaim, hfull⟩ | ⟨i, v, hclaim, hu, hnul, hv⟩⟩
    · obtain ⟨code, s', hrun, hok, hout, hframe, hcases⟩ := replaceContent_meets hA h hi hr
      refine ⟨code, s', (ramfsWrite_short h hf hclaim).trans hrun, hok, hout, hframe, ?_⟩
      exact hcases.imp_right (fun hc => ⟨hc.1, fun d => hc.2.1 (.holds d), .inr (.inr hc.2.2)⟩)
    · exact ⟨-1, s, ramfsWrite_short h hf hclaim, h, fun _ _ => rfl, fun _ _ _ hm => hm,
        .inr ⟨rfl, fun _ hm => hm, .inr (.inl hfull)⟩⟩
    · have hok₁ : RamfsOk I O (claimed s i v) := claimed_ok h hu hnul (hv ▸ hno)
      have hi : ((claimed s i v).files i).Is f.bytes := hv ▸ claimed_is
      obtain ⟨code, s', hrun, hok, hout, hframe, hcases⟩ :=
        replaceContent_meets hA hok₁ hi (claimed_buffers ▸ hr)
      refine ⟨code, s', (ramfsWrite_short h hf hclaim).trans hrun, hok, hout, ?_, ?_⟩
      · intro n st hn hm
        apply hframe n st hn
        have hk : Keeps (others s.files i) s.mem (claimed s i v).mem := Keeps.refl _ _
        apply Meets.frame h hk _ _ _ hm
        · exact fun j hj => Function.update_of_ne hj _ _
        · exact fun hin => Bool.false_ne_true (hu.symm.trans hin.1)
        · exact fun hin => hn (hin.2.symm.trans hi.2)
      · refine hcases.imp_right (fun hc => ⟨hc.1, ?_, .inr (.inr hc.2.2)⟩)
        rintro d ⟨j, hj, -⟩
        exact absurd hj (hno j)
  · exact ⟨-1, s, ramfsWrite_long h hf, h, fun _ _ => rfl, fun _ _ _ hm => hm,
      .inr ⟨rfl, fun _ hm => hm, .inl hf⟩⟩

/-- A delete frees the slot of its file, or finds none. -/
theorem ramfsDelete_spec (hA : A.Lawful I region ok) (h : RamfsOk I O s) (f : CString) :
    ∃ code s', ramfsDelete A s f.buffer = some (code, s') ∧ RamfsOk I O s' ∧
      (∀ x, x ∉ region → s'.mem x = s.mem x) ∧
      (∀ other st, other ≠ f.bytes → Meets s other st → Meets s' other st) ∧
      (code = 0 ∧ Meets s' f.bytes .absent ∨ code = -1 ∧ s' = s ∧ Meets s f.bytes .absent) := by
  rcases ramfsFind_spec h.terminated f with ⟨i, hfind, hi⟩ | ⟨hfind, hno⟩
  · obtain ⟨h', m', hfree, hI', hk, hout⟩ := freeBuffer_spec (i := i) hA (h.memory_eq i) (h.separate i)
    refine ⟨0, { s with
        heap := h'
        mem := m'
        files := Function.update s.files i { s.files i with data := 0, size := 0, used := false } },
      ?_, ?_, hout, ?_, .inl ⟨rfl, ?_⟩⟩
    · rw [ramfsDelete, hfind, Option.bind_some]
      simp only [hfree]
      rfl
    · apply h.update
      · simpa using hI'
      · exact fun hn => absurd hn Bool.false_ne_true
      · exact fun j _ name hg => absurd hg.1 Bool.false_ne_true
      · exact fun _ => rfl
      · simp
      · exact fun h0 => absurd rfl h0
    · intro n st hn
      apply Meets.frame (i := i) h
      · exact hk.mono Set.subset_union_right
      · exact fun j hj => Function.update_of_ne hj _ _
      · exact fun hin => hn (hin.2.symm.trans hi.2)
      · dsimp only
        rw [Function.update_self]
        exact fun hin => absurd hin.1 Bool.false_ne_true
    · intro j hj
      dsimp only at hj
      by_cases hji : j = i
      · rw [hji, Function.update_self] at hj
        exact absurd hj.1 Bool.false_ne_true
      · rw [Function.update_of_ne hji] at hj
        exact hji (h.distinct j i f.bytes hj hi)
  · refine ⟨-1, s, ?_, h, fun _ _ => rfl, fun _ _ _ hm => hm, .inr ⟨rfl, rfl, hno⟩⟩
    rw [ramfsDelete, hfind]
    rfl

/-- A file that is there is deleted: its slot is cleared, the others stay. -/
theorem ramfsDelete_present (hA : A.Lawful I region ok) (h : RamfsOk I O s)
    (hi : (s.files i).Is f.bytes) : ∃ s', ramfsDelete A s f.buffer = some (0, s') ∧
      s'.files = Function.update s.files i { s.files i with data := 0, size := 0, used := false } := by
  obtain ⟨h', m', hfree, -⟩ := freeBuffer_spec (i := i) hA (h.memory_eq i) (h.separate i)
  rcases ramfsFind_spec h.terminated f with ⟨j, hfind, hj⟩ | ⟨-, hno⟩
  · obtain rfl := h.distinct i j f.bytes hi hj
    refine ⟨{ s with
        heap := h'
        mem := m'
        files := Function.update s.files i { s.files i with data := 0, size := 0, used := false } },
      ?_, rfl⟩
    rw [ramfsDelete, hfind, Option.bind_some]
    exact congrArg (Option.map _) hfree
  · exact absurd hi (hno i)

/-- Clients change memory that is their own. -/
theorem RamfsOk.store (hA : A.Lawful I region ok) (h : RamfsOk I O s)
    (hm : ∀ x, m' x ≠ s.mem x → x ∉ region ∨ ∃ w ∈ O, w.Has x) :
    RamfsOk I O { s with mem := m' } ∧ ∀ n st, Meets s n st → Meets { s with mem := m' } n st := by
  have hk : Keeps (buffers s.files) s.mem ({ s with mem := m' } : FileSystem H).mem := by
    rintro w ⟨j, h0, rfl⟩ x hx
    have hw : ⟨(s.files j).data, (s.files j).size⟩ ∈ O ∪ buffers s.files := .inr ⟨j, h0, rfl⟩
    by_contra hne
    rcases hm x hne with hout | ⟨w, hwO, hwx⟩
    · exact hout (hA.inside h.memory hw hx)
    · have hww : w ≠ ⟨(s.files j).data, (s.files j).size⟩ := by
        rintro rfl
        exact h.separate j h0 (.inl hwO)
      exact (hA.apart h.memory (.inl hwO) hw hww).not_has hwx hx
  refine ⟨h.congr (hA.store h.memory ?_), fun n st hst => Meets.congr h hk rfl hst⟩
  intro x hx
  apply (hm x hx).imp_right
  exact fun ⟨w, hw, hwx⟩ => ⟨w, .inl hw, hwx⟩

/-- A client gets a block. -/
theorem RamfsOk.claim (h : RamfsOk I O s) {h' : H} {w : Span}
    (hI : I h' m' (insert w (O ∪ buffers s.files))) (hw : 0 < w.size)
    (hap : ∀ b ∈ O ∪ buffers s.files, w.Apart b) :
    RamfsOk I (insert w O) { s with heap := h', mem := m' } := by
  refine ⟨h.ready, ?_, h.terminated, h.distinct, h.cleared, h.filled, ?_⟩
  · rwa [Set.insert_union]
  · rintro i h0 ((he | hO) | hothers)
    · have hself := hap _ (.inr ⟨i, h0, rfl⟩)
      dsimp only at he
      rw [he] at hself
      exact hself.not_self hw
    · exact h.separate i h0 (.inl hO)
    · exact h.separate i h0 (.inr hothers)

/-- A client frees its block. -/
theorem RamfsOk.unclaim (h : RamfsOk I O s) {h' : H} {w : Span} (hw : w ∈ O)
    (hI : I h' m' ((O ∪ buffers s.files) \ {w})) :
    RamfsOk I (O \ {w}) { s with heap := h', mem := m' } := by
  refine ⟨h.ready, ?_, h.terminated, h.distinct, h.cleared, h.filled, ?_⟩
  · have hno : w ∉ buffers s.files := by
      rintro ⟨i, h0, rfl⟩
      exact h.separate i h0 (.inl hw)
    rwa [Set.union_sdiff_distrib, Set.sdiff_singleton_eq_self hno] at hI
  · rintro i h0 (hO | hothers)
    · exact h.separate i h0 (.inl hO.1)
    · exact h.separate i h0 (.inr hothers)

/-- Reading a file whose content is known. -/
theorem ramfsRead_holds (h : RamfsOk I O s) {d : List UInt8} (hm : Meets s f.bytes (.holds d)) :
    ∃ p, ramfsRead s f.buffer = some (0, some (p, d.length)) ∧ readBytes s.mem p d.length = d := by
  obtain ⟨j, hj, hsize, hbytes⟩ := hm
  refine ⟨(s.files j).data, ?_, hbytes⟩
  rcases ramfsFind_spec h.terminated f with ⟨i, hfind, hi⟩ | ⟨-, hno⟩
  · obtain rfl := h.distinct i j f.bytes hi hj
    rw [ramfsRead, hfind, ← hsize]
    rfl
  · exact absurd hj (hno j)

theorem ramfs_absent (h : RamfsOk I O s) (hm : Meets s f.bytes .absent) :
    ramfsRead s f.buffer = some (-1, none) ∧ ramfsDelete A s f.buffer = some (-1, s) := by
  rcases ramfsFind_spec h.terminated f with ⟨i, -, hi⟩ | ⟨hfind, -⟩
  · exact absurd hi (hm i)
  · rw [ramfsRead, ramfsDelete, hfind]
    exact ⟨rfl, rfl⟩

end ShadOS.Ramfs

import ShadOS.Ramfs.Map

/-! # The blocks of the files

Over an allocator that records its calls: what the record says is held are the
buffers of the slots, after every operation, whichever requests failed. Each
file that is deleted gives its slot and its buffer back.
-/

namespace ShadOS.Ramfs
open Machine Strings
open Allocator (Ledger)
open Allocator.Ledger (Tracks)

universe u

/-- The buffers of the slots, as pointers. -/
def pointers (files : Files) : Set ℕ := {p | p ≠ 0 ∧ ∃ i, (files i).data = p}

variable {H : Type u} {A : Allocator H} {region : Set ℕ} {ok : ℕ → Prop}
  {I : H × Ledger → Mem → Set Span → Prop} {s s' : FileSystem (H × Ledger)} {O : Set Span}
  {P : Set ℕ} {files : Files} {i j : Fin ramfsMaxFiles} {f : CString} {data size p : ℕ}

theorem zero_notMem_pointers : 0 ∉ pointers files := fun h => h.1 rfl

theorem pointers_congr {files' : Files} (h : ∀ i, (files' i).data = (files i).data) :
    pointers files' = pointers files := by
  simp only [pointers, h]

/-- No two slots share a buffer. -/
theorem RamfsOk.data_inj {K : Type u} {B : Allocator K} {J : K → Mem → Set Span → Prop}
    {t : FileSystem K} (hB : B.Lawful J region ok) (h : RamfsOk J O t) (h0 : (t.files i).data ≠ 0)
    (hij : (t.files i).data = (t.files j).data) : i = j := by
  by_contra hne
  have hi : ⟨(t.files i).data, (t.files i).size⟩ ∈ O ∪ buffers t.files := .inr ⟨i, h0, rfl⟩
  have hj : ⟨(t.files j).data, (t.files j).size⟩ ∈ O ∪ buffers t.files := .inr ⟨j, hij ▸ h0, rfl⟩
  have heq := eq_of_addr_eq (hB.apart h.memory) hi hj ((h.filled i).mp h0)
    ((h.filled j).mp (hij ▸ h0)) hij
  exact h.separate i h0 (.inr ⟨j, Ne.symm hne, hij ▸ h0, heq⟩)

/-! ## The calls of one operation -/

/-- The block behind a request: none if it failed or asked for nothing. -/
def acquired (r : Option ℕ) : Set ℕ := {p | r = some p ∧ p ≠ 0}

theorem acquired_none : acquired none = ∅ := by
  simp [acquired]

theorem acquired_null : acquired (some 0) = ∅ := by
  ext p
  simp only [acquired, Set.mem_ofPred_eq, Option.some.injEq, Set.mem_empty_iff_false, iff_false]
  exact fun h => h.2 h.1.symm

theorem acquired_some (hp : p ≠ 0) : acquired (some p) = {p} := by
  ext q
  simp only [acquired, Set.mem_ofPred_eq, Option.some.injEq, Set.mem_singleton_iff]
  constructor
  · exact fun h => h.1.symm
  · rintro rfl
    exact ⟨rfl, hp⟩

theorem newBuffer_tracks {r : Option ℕ} (ht : Tracks s.heap.2 P) (h0 : 0 ∉ P)
    (hrun : newBuffer A.audited s data size = some (r, s'))
    (hnew : ∀ p, r = some p → p ≠ 0 → p ∉ P) : Tracks s'.heap.2 (acquired r ∪ P) := by
  unfold newBuffer at hrun
  split at hrun
  · obtain ⟨⟨q, h', m'⟩, hmal, he⟩ := Option.map_eq_some_iff.mp hrun
    have hledger := (Allocator.audited_kmalloc hmal).2
    dsimp only at he
    split at he
    · rename_i hq
      obtain ⟨rfl, rfl⟩ := Prod.mk.inj he
      subst hq
      dsimp only
      rw [hledger, acquired_none, Set.empty_union]
      exact ht.malloc_null h0
    · rename_i hq
      obtain ⟨rfl, rfl⟩ := Prod.mk.inj he
      dsimp only
      rw [hledger, acquired_some hq, Set.singleton_union]
      exact ht.malloc hq (hnew q rfl hq)
  · obtain ⟨rfl, rfl⟩ := Prod.mk.inj (Option.some.inj hrun)
    rw [acquired_null, Set.empty_union]
    exact ht

theorem freeBuffer_tracks (ht : Tracks s.heap.2 P)
    (hrun : freeBuffer A.audited s i = some s') (hP : (s.files i).data ≠ 0 → (s.files i).data ∈ P)
    (h0 : 0 ∉ P) : Tracks s'.heap.2 (P \ {(s.files i).data}) := by
  unfold freeBuffer at hrun
  split at hrun
  · rename_i hdata
    cases hrun
    rw [hdata, Set.sdiff_singleton_eq_self h0]
    exact ht
  · rename_i hdata
    obtain ⟨⟨h', m'⟩, hfree, rfl⟩ := Option.map_eq_some_iff.mp hrun
    dsimp only
    rw [(Allocator.audited_kfree hfree).2]
    exact ht.free (hP hdata)

theorem freeBuffer_files (hrun : freeBuffer A.audited s i = some s') : s'.files = s.files := by
  unfold freeBuffer at hrun
  split at hrun
  · cases hrun
    rfl
  · obtain ⟨r, -, rfl⟩ := Option.map_eq_some_iff.mp hrun
    rfl

theorem newBuffer_files {r : Option ℕ} (hrun : newBuffer A.audited s data size = some (r, s')) :
    s'.files = s.files := by
  unfold newBuffer at hrun
  split at hrun
  · obtain ⟨q, -, he⟩ := Option.map_eq_some_iff.mp hrun
    split at he <;> (cases he; rfl)
  · cases hrun
    rfl

/-- The pointers after one slot got a new buffer and lost its old one. -/
theorem pointers_update (hinj : ∀ j, (files i).data ≠ 0 → (files i).data = (files j).data → i = j)
    (hp : p ≠ 0 → p ∉ pointers files) {g : RamfsFile} (hg : g.data = p) :
    pointers (Function.update files i g) =
      (acquired (some p) ∪ pointers files) \ {(files i).data} := by
  ext q
  constructor
  · rintro ⟨hq0, j, hj⟩
    by_cases hji : j = i
    · subst hji
      rw [Function.update_self, hg] at hj
      subst hj
      refine ⟨.inl ⟨rfl, hq0⟩, ?_⟩
      rintro (rfl : p = _)
      exact hp hq0 ⟨hq0, j, rfl⟩
    · rw [Function.update_of_ne hji] at hj
      subst hj
      refine ⟨.inr ⟨hq0, j, rfl⟩, fun (he : (files j).data = (files i).data) => ?_⟩
      exact hji (hinj j (he ▸ hq0) he.symm).symm
  · rintro ⟨⟨he, hq0⟩ | ⟨hq0, j, hj⟩, hne⟩
    · refine ⟨hq0, i, ?_⟩
      rw [Function.update_self, hg]
      exact Option.some.inj he
    · have hji : j ≠ i := by
        rintro rfl
        exact hne hj.symm
      refine ⟨hq0, j, ?_⟩
      rw [Function.update_of_ne hji]
      exact hj

/-! ## The operations -/

/-- The record agrees with the slots. -/
def Owned (s : FileSystem (H × Ledger)) : Prop := Tracks s.heap.2 (pointers s.files)

theorem newBuffer_fresh (hA : A.audited.Lawful I region ok) (h : RamfsOk I O s)
    (hr : Allocator.Readable region (O ∪ buffers s.files) data size)
    (hrun : newBuffer A.audited s data size = some (some p, s')) (hp : p ≠ 0) :
    p ∉ pointers s.files := by
  rintro ⟨-, i, hi⟩
  subst hi
  obtain ⟨h', m', -, -, ⟨hrun', -⟩ | ⟨q, hrun', hpos, hnew, hI, -⟩⟩ := newBuffer_spec hA h.memory hr
  · rw [hrun] at hrun'
    cases hrun'
  · obtain ⟨rfl, rfl⟩ : (s.files i).data = q ∧ s' = _ := by
      rw [hrun] at hrun'
      cases hrun'
      exact ⟨rfl, rfl⟩
    have hold : ⟨(s.files i).data, (s.files i).size⟩ ∈ O ∪ buffers s.files := .inr ⟨i, hp, rfl⟩
    have heq := eq_of_addr_eq (hA.apart hI) (.inl hold) (.inr ⟨hp, rfl⟩) ((h.filled i).mp hp)
      (hpos.mp hp) rfl
    exact hnew hp (heq ▸ hold)

theorem replaceContent_owned (hA : A.audited.Lawful I region ok) (h : RamfsOk I O s)
    (hr : Allocator.Readable region (O ∪ buffers s.files) data size) (ho : Owned s) {c : ℤ}
    (hrun : replaceContent A.audited s i data size = some (c, s')) : Owned s' := by
  obtain ⟨⟨r, s₁⟩, hnew, hrest⟩ := Option.bind_eq_some_iff.mp hrun
  have hfiles := newBuffer_files hnew
  have htracks := newBuffer_tracks ho zero_notMem_pointers hnew
    (fun p hp hp0 => newBuffer_fresh hA h hr (hp ▸ hnew) hp0)
  cases r with
  | none =>
    cases hrest
    rw [acquired_none, Set.empty_union, ← hfiles] at htracks
    exact htracks
  | some p =>
    obtain ⟨s₂, hfree, he⟩ := Option.map_eq_some_iff.mp hrest
    cases he
    have hdata : (s₁.files i).data = (s.files i).data := by rw [hfiles]
    have hfreed := freeBuffer_tracks htracks hfree
      (fun h0 => .inr ⟨h0, i, hdata.symm⟩)
      (fun hin => hin.elim (fun hh => hh.2 rfl) zero_notMem_pointers)
    rw [hdata, ← pointers_update (fun j => h.data_inj hA)
      (fun hp => newBuffer_fresh hA h hr hnew hp) (g := { s₂.files i with data := p, size := size })
      rfl, ← hfiles, ← freeBuffer_files hfree] at hfreed
    exact hfreed

theorem ramfsWrite_owned (hA : A.audited.Lawful I region ok) (h : RamfsOk I O s)
    (hr : Allocator.Readable region (O ∪ buffers s.files) data size) (ho : Owned s) {c : ℤ}
    (hrun : ramfsWrite A.audited s f.buffer data size = some (c, s')) : Owned s' := by
  rcases Nat.lt_or_ge f.bytes.length ramfsMaxName with hf | hf
  · rcases claimSlot_spec h hf with ⟨i, hclaim, -⟩ |
      ⟨hno, ⟨hclaim, -⟩ | ⟨i, v, hclaim, hu, hnul, hv⟩⟩
    · rw [ramfsWrite_short h hf hclaim] at hrun
      exact replaceContent_owned hA h hr ho hrun
    · rw [ramfsWrite_short h hf hclaim] at hrun
      cases hrun
      exact ho
    · rw [ramfsWrite_short h hf hclaim] at hrun
      have hdata : ∀ j, ((claimed s i v).files j).data = (s.files j).data := by
        intro j
        by_cases hj : j = i
        · simp [claimed, hj]
        · simp [claimed, Function.update_of_ne hj]
      have ho' : Owned (claimed s i v) := by
        unfold Owned
        rw [pointers_congr hdata]
        exact ho
      have hr' : Allocator.Readable region (O ∪ buffers (claimed s i v).files) data size := by
        rw [claimed_buffers]
        exact hr
      exact replaceContent_owned hA (claimed_ok h hu hnul (hv ▸ hno)) hr' ho' hrun
  · rw [ramfsWrite_long h hf] at hrun
    cases hrun
    exact ho

theorem ramfsDelete_owned (hA : A.audited.Lawful I region ok) (h : RamfsOk I O s) (ho : Owned s)
    {c : ℤ} (hrun : ramfsDelete A.audited s f.buffer = some (c, s')) : Owned s' := by
  obtain ⟨r, hfind, hrest⟩ := Option.bind_eq_some_iff.mp hrun
  cases r with
  | none =>
    cases hrest
    exact ho
  | some i =>
    obtain ⟨s₁, hfree, he⟩ := Option.map_eq_some_iff.mp hrest
    cases he
    have hfreed := freeBuffer_tracks ho hfree (fun h0 => ⟨h0, i, rfl⟩) zero_notMem_pointers
    have hset := pointers_update (p := 0) (fun j => h.data_inj hA (i := i) (j := j))
      (fun hp => absurd rfl hp) (g := { s₁.files i with data := 0, size := 0, used := false }) rfl
    rw [acquired_null, Set.empty_union, ← freeBuffer_files hfree] at hset
    rw [← freeBuffer_files hfree, ← hset] at hfreed
    exact hfreed

/-- The file in slot `i` is gone and its buffer is no longer held; nothing else changed. -/
structure GivesBack (s s' : FileSystem (H × Ledger)) (i : Fin ramfsMaxFiles) : Prop where
  unused : (s'.files i).used = false
  others : ∀ j, j ≠ i → s'.files j = s.files j
  held : ∀ p, p ∈ s'.heap.2.held ↔ p ∈ s.heap.2.held ∧ p ≠ (s.files i).data

theorem ramfsDelete_givesBack (hA : A.audited.Lawful I region ok) (h : RamfsOk I O s) (ho : Owned s)
    (hi : (s.files i).Is f.bytes) :
    ∃ s', ramfsDelete A.audited s f.buffer = some (0, s') ∧ GivesBack s s' i := by
  obtain ⟨s', hrun, hfiles⟩ := ramfsDelete_present hA h hi
  have ho' := ramfsDelete_owned hA h ho hrun
  refine ⟨s', hrun, ?_, fun j hj => ?_, fun p => ?_⟩
  · rw [hfiles, Function.update_self]
  · rw [hfiles, Function.update_of_ne hj]
  · have hset := pointers_update (p := 0) (fun j => h.data_inj hA (i := i) (j := j))
      (fun hp => absurd rfl hp) (g := { s.files i with data := 0, size := 0, used := false }) rfl
    rw [acquired_null, Set.empty_union, ← hfiles] at hset
    rw [ho'.held, ho.held, hset]
    rfl

/-! ## Runs -/

/-- The file system over the recording allocator, with an empty record at `ramfs_init`. -/
def auditedRamfs (A : Allocator H) (I : H → Mem → Set Span → Prop) (region : Set ℕ) (O : Set Span) :
    System (Session (H × Ledger)) Event where
  init s := (ramfs A.audited (fun h m L => I h.1 m L) region O).init s ∧ s.fs.heap.2 = []
  allowed := Session.allowed region O
  step := Session.step A.audited

variable {J : H → Mem → Set Span → Prop} {t : Session (H × Ledger)}

theorem reaches_owned (hA : A.Lawful J region ok) (ht : (auditedRamfs A J region O).Reaches t) :
    SessionOk (fun h m L => J h.1 m L) O t ∧ Owned t.fs := by
  have hA' := hA.audited
  apply ht.invariant (P := fun t => SessionOk (fun h m L => J h.1 m L) O t ∧ Owned t.fs)
  · rintro t ⟨hinit, hempty⟩
    refine ⟨SessionOk.start hinit, ?_⟩
    obtain ⟨fs, -, hfs, -⟩ := hinit
    have hnone : pointers t.fs.files = ∅ := by
      ext p
      rw [hfs]
      simp only [pointers, ramfsInit, Set.mem_ofPred_eq, Set.mem_empty_iff_false, iff_false, not_and]
      rintro hp ⟨i, rfl⟩
      exact hp rfl
    rw [Owned, hnone, hempty]
    exact Tracks.nil
  · rintro t e t' ⟨hok, ho⟩ ha hs
    obtain ⟨u, hu, hok'⟩ := hok.step hA' ha
    obtain rfl : u = t' := Option.some.inj (hu.symm.trans hs)
    refine ⟨hok', ?_⟩
    cases e with
    | write name data size =>
      obtain ⟨r, hr, rfl⟩ := Option.map_eq_some_iff.mp hu
      exact ramfsWrite_owned hA' hok.fs ha ho hr
    | read name =>
      obtain ⟨r, -, rfl⟩ := Option.map_eq_some_iff.mp hu
      exact ho
    | delete name =>
      obtain ⟨r, hr, rfl⟩ := Option.map_eq_some_iff.mp hu
      exact ramfsDelete_owned hA' hok.fs ho hr
    | store mem =>
      cases hu
      exact ho

/-- Deleting all files, in any order, with names that have no file in between. -/
theorem delete_all (hA : A.Lawful J region ok) (names : List CString) :
    ∀ t, (auditedRamfs A J region O).Reaches t →
      (∀ i, (t.fs.files i).used = true → ∃ f ∈ names, (t.fs.files i).Is f.bytes) →
      ∃ t', (auditedRamfs A J region O).exec t (names.map .delete) = some t' ∧
        (auditedRamfs A J region O).Reaches t' ∧ ∀ i, (t'.fs.files i).used = false := by
  induction names with
  | nil =>
    intro t ht hleft
    refine ⟨t, rfl, ht, fun i => ?_⟩
    by_contra hu
    obtain ⟨f, hf, -⟩ := hleft i (Bool.not_eq_false _ ▸ hu)
    cases hf
  | cons f names ih =>
    intro t ht hleft
    obtain ⟨⟨hok, -⟩, ho⟩ := reaches_owned hA ht
    -- the files left after this deletion have names further down the list
    have hstep : ∃ c fs', ramfsDelete A.audited t.fs f.buffer = some (c, fs') ∧
        ∀ i, (fs'.files i).used = true → ∃ g ∈ names, (fs'.files i).Is g.bytes := by
      by_cases hf : ∃ i, (t.fs.files i).Is f.bytes
      · obtain ⟨i, hi⟩ := hf
        obtain ⟨fs', hrun, hback⟩ := ramfsDelete_givesBack hA.audited hok ho hi
        refine ⟨0, fs', hrun, fun j hj => ?_⟩
        have hne : j ≠ i := by
          rintro rfl
          exact absurd (hback.unused.symm.trans hj) Bool.false_ne_true
        rw [hback.others j hne] at hj ⊢
        obtain ⟨g, hg, hjg⟩ := hleft j hj
        rcases List.mem_cons.mp hg with rfl | hg
        · exact absurd (hok.distinct j i g.bytes hjg hi) hne
        · exact ⟨g, hg, hjg⟩
      · refine ⟨-1, t.fs, (ramfs_absent hok (fun i hi => hf ⟨i, hi⟩)).2, fun j hj => ?_⟩
        obtain ⟨g, hg, hjg⟩ := hleft j hj
        rcases List.mem_cons.mp hg with rfl | hg
        · exact absurd ⟨j, hjg⟩ hf
        · exact ⟨g, hg, hjg⟩
    obtain ⟨c, fs', hrun, hleft'⟩ := hstep
    have hs : (auditedRamfs A J region O).step t (.delete f) = some ⟨fs', .delete f c :: t.log⟩ :=
      congrArg (Option.map _) hrun
    obtain ⟨t', hexec, ht', hnone⟩ := ih _ (ht.step (e := Event.delete f) trivial hs) hleft'
    refine ⟨t', ?_, ht', hnone⟩
    rw [List.map_cons, System.exec, hs, Option.bind_some, hexec]

/-- No slot in use, no buffer held. -/
theorem held_nil {fs : FileSystem (H × Ledger)} (hok : RamfsOk I O fs) (ho : Owned fs)
    (hnone : ∀ i, (fs.files i).used = false) : fs.heap.2.held = [] := by
  apply List.eq_nil_iff_forall_not_mem.mpr
  intro p hp
  obtain ⟨hp0, i, rfl⟩ := (ho.held p).mp hp
  exact hp0 (hok.cleared i (hnone i))

/-- In every state of every run, whichever requests failed: a slot has a buffer exactly when it
is used and not empty, no two slots share one, the blocks taken and not freed are these buffers,
and only held blocks were ever freed. A delete of a file returns 0 and gives back its slot and its
buffer, no other delete returns 0, and once all files are deleted no block is held. -/
theorem ramfs_owns (hA : A.Lawful J region ok) (ht : (auditedRamfs A J region O).Reaches t) :
    (∀ i, (t.fs.files i).data ≠ 0 ↔ (t.fs.files i).used = true ∧ 0 < (t.fs.files i).size) ∧
    (∀ i j, (t.fs.files i).data ≠ 0 → (t.fs.files i).data = (t.fs.files j).data → i = j) ∧
    (∀ p, p ∈ t.fs.heap.2.held ↔ p ≠ 0 ∧ ∃ i, (t.fs.files i).data = p) ∧
    t.fs.heap.2.held.Nodup ∧ t.fs.heap.2.Clean ∧
    ((∀ i, (t.fs.files i).used = false) → t.fs.heap.2.held = []) ∧
    (∀ (f : CString) i, (t.fs.files i).Is f.bytes →
      ∃ fs', ramfsDelete A.audited t.fs f.buffer = some (0, fs') ∧ GivesBack t.fs fs' i) ∧
    (∀ (f : CString) fs', ramfsDelete A.audited t.fs f.buffer = some (0, fs') →
      ∃ i, (t.fs.files i).Is f.bytes ∧ GivesBack t.fs fs' i) ∧
    ∀ names : List CString,
      (∀ i, (t.fs.files i).used = true → ∃ f ∈ names, (t.fs.files i).Is f.bytes) →
      ∃ t', (auditedRamfs A J region O).exec t (names.map .delete) = some t' ∧
        (∀ i, (t'.fs.files i).used = false) ∧ t'.fs.heap.2.held = [] := by
  obtain ⟨⟨hok, -⟩, ho⟩ := reaches_owned hA ht
  have hused : ∀ i, (t.fs.files i).data ≠ 0 → (t.fs.files i).used = true := by
    intro i h0
    by_contra hu
    exact h0 (hok.cleared i (Bool.not_eq_true _ ▸ hu))
  have hback : ∀ (f : CString) i, (t.fs.files i).Is f.bytes →
      ∃ fs', ramfsDelete A.audited t.fs f.buffer = some (0, fs') ∧ GivesBack t.fs fs' i :=
    fun f i hi => ramfsDelete_givesBack hA.audited hok ho hi
  refine ⟨fun i => ?_, fun i j => hok.data_inj hA.audited, ho.held, ho.nodup, ho.clean,
    held_nil hok ho, hback, fun f fs' hrun => ?_, fun names hleft => ?_⟩
  · exact ⟨fun h0 => ⟨hused i h0, (hok.filled i).mp h0⟩, fun h => (hok.filled i).mpr h.2⟩
  · by_cases hf : ∃ i, (t.fs.files i).Is f.bytes
    · obtain ⟨i, hi⟩ := hf
      obtain ⟨fs₁, hrun₁, hgive⟩ := hback f i hi
      rw [hrun] at hrun₁
      cases hrun₁
      exact ⟨i, hi, hgive⟩
    · rw [(ramfs_absent hok (fun i hi => hf ⟨i, hi⟩)).2] at hrun
      cases hrun
  · obtain ⟨t', hexec, ht', hnone⟩ := delete_all hA names t ht hleft
    obtain ⟨⟨hok', -⟩, ho'⟩ := reaches_owned hA ht'
    exact ⟨t', hexec, hnone, held_nil hok' ho' hnone⟩

/-! ## On heap.c -/

/-- The recorded file system over the heap behind `kernel_end`. -/
def auditedKernelRamfs (k : Heap.KernelEnd) (O : Set Span) :
    System (Session (Heap.HeapVars × Ledger)) Event :=
  auditedRamfs Heap.heapC (fun h m L => Heap.HeapKeeps k h m L L) (Heap.region k) O

theorem fresh_owned : ∃ t, (auditedKernelRamfs Heap.smallImage ∅).Reaches t ∧
    (∀ i, (t.fs.files i).used = false) ∧
    Heap.Holds Heap.smallImage t.fs.heap.1 t.fs.mem ∅ ∅
      [⟨0x100000, Heap.heapSize - Heap.headerSize, true⟩] := by
  have hinit := Heap.heapInit_holds Heap.smallImage (fun _ => 0)
  generalize Heap.heapInit Heap.smallImage.addr (fun _ => 0) = r at hinit
  refine ⟨⟨ramfsInit ⟨(r.1, []), r.2, fun _ => ⟨Vector.replicate ramfsMaxName 0, 0, 0, false⟩, false⟩,
    []⟩, .start ⟨⟨_, ⟨_, hinit⟩, rfl, rfl⟩, rfl⟩, fun _ => rfl, hinit⟩

/-- The buffer of a first file is held, and its deletion gives it back. -/
theorem ramfs_owns_write : ∃ t, (auditedKernelRamfs Heap.smallImage ∅).Reaches t ∧
    ∃ i, (t.fs.files i).data ≠ 0 ∧ (t.fs.files i).data ∈ t.fs.heap.2.held ∧
      ∃ fs', ramfsDelete Heap.heapC.audited t.fs fileA.buffer = some (0, fs') ∧
        GivesBack t.fs fs' i ∧ (t.fs.files i).data ∉ fs'.heap.2.held := by
  obtain ⟨t, hreach, hunused, hheap⟩ := fresh_owned
  have hA := Heap.heapC_lawful Heap.smallImage
  have hr : Allocator.Readable (Heap.region Heap.smallImage) (∅ ∪ buffers t.fs.files) 0x1000 3 :=
    readable_outside (by decide) (.inl (by decide))
  obtain ⟨code, fs', hrun, -, -, -, hcases⟩ :=
    ramfsWrite_spec hA.audited (reaches_owned hA hreach).1.fs fileA hr
  have hmeets : Meets fs' fileA.bytes (.holds (readBytes t.fs.mem 0x1000 3)) := by
    rcases hcases with ⟨-, hm⟩ | ⟨-, -, hlong | hfull | ⟨-, h', m', hnull⟩⟩
    · exact hm
    · exact absurd hlong (by decide)
    · exact absurd ((hunused ⟨0, by decide⟩).symm.trans (hfull _)) Bool.false_ne_true
    · have hno := ((hheap.kmalloc_null (by decide) (by decide)).mp
        (Allocator.audited_kmalloc hnull).1).2.2 _ List.mem_cons_self rfl
      exact absurd hno (by decide)
  obtain ⟨i, hi, hsize, -⟩ := hmeets
  rw [readBytes_length] at hsize
  have hstep : (auditedKernelRamfs Heap.smallImage ∅).step t (.write fileA 0x1000 3) =
      some ⟨fs', .write fileA (readBytes t.fs.mem 0x1000 3) code :: t.log⟩ := by
    change (ramfsWrite _ _ _ _ _).map _ = _
    rw [hrun]
    rfl
  have hallowed : (auditedKernelRamfs Heap.smallImage ∅).allowed t (.write fileA 0x1000 3) := hr
  have howns := ramfs_owns hA (hreach.step hallowed hstep)
  have hdata := (howns.1 i).mpr ⟨hi.1, by rw [hsize]; decide⟩
  obtain ⟨-, -, hheld, -, -, -, hdelete, -⟩ := howns
  obtain ⟨fs₁, hrun₁, hback⟩ := hdelete fileA i hi
  exact ⟨_, hreach.step hallowed hstep, i, hdata, (hheld _).mpr ⟨hdata, i, rfl⟩, fs₁, hrun₁, hback,
    fun hin => ((hback.held _).mp hin).2 rfl⟩

end ShadOS.Ramfs

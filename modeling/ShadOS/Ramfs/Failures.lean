import ShadOS.Ramfs.Map

/-! # Failed writes

`ramfs_write` fails on a long name, on a full table and when heap.c has no room
for the content. In the last case the slot of a new file is already taken.
-/

namespace ShadOS.Ramfs
open Machine Strings

universe u

section observation
variable {H : Type u} (s : FileSystem H)

/-- What a caller of `ramfs_read` sees: the code, and the bytes of the content. -/
def readback (name : List UInt8) : Option (ℤ × Option (List UInt8)) :=
  (ramfsRead s name).map (fun r => (r.1, r.2.map (fun c => readBytes s.mem c.1 c.2)))

def freeSlots : ℕ := (List.finRange ramfsMaxFiles).countP (fun i => !(s.files i).used)

end observation

/-- The same names are found, with the same contents, and as many slots are free; the
heap and the memory are as before. -/
structure Unchanged {H : Type u} (s s' : FileSystem H) : Prop where
  found : ∀ f : CString, (ramfsFind s'.files f.buffer).map Option.isSome =
    (ramfsFind s.files f.buffer).map Option.isSome
  read : ∀ f : CString, readback s' f.buffer = readback s f.buffer
  free : freeSlots s' = freeSlots s
  heap : s'.heap = s.heap
  mem : s'.mem = s.mem

theorem Unchanged.refl {H : Type u} (s : FileSystem H) : Unchanged s s :=
  ⟨fun _ => rfl, fun _ => rfl, rfl, rfl, rfl⟩

/-- When the write returns `-1`, it changed nothing. -/
def FailsCleanly (s : FileSystem Heap.HeapVars) (f : CString) (data size : ℕ) : Prop :=
  ∀ s', ramfsWrite Heap.heapC s f.buffer data size = some (-1, s') → Unchanged s s'

/-- The chain of blocks in memory has a free one for `n` bytes. -/
def Room (s : FileSystem Heap.HeapVars) (n : ℕ) : Prop :=
  ∃ bs, Heap.HeapOk s.heap s.mem bs ∧
    ∃ b ∈ bs, b.free = true ∧ Heap.alignUp n Heap.alignment ≤ b.size

/-- The write does not have to allocate for a new file on a heap without room. -/
def Servable (s : FileSystem Heap.HeapVars) (f : CString) (size : ℕ) : Prop :=
  ramfsMaxName ≤ f.bytes.length ∨ (∃ i, (s.files i).Is f.bytes) ∨ (∀ i, (s.files i).used = true) ∨
    size = 0 ∨ Room s size

variable {k : Heap.KernelEnd} {s : FileSystem Heap.HeapVars} {O : Set Span} {f : CString}
  {data size : ℕ} {i : Fin ramfsMaxFiles}

abbrev OnHeap (k : Heap.KernelEnd) (h : Heap.HeapVars) (m : Mem) (L : Set Span) : Prop :=
  Heap.HeapKeeps k h m L L

/-- `kmalloc` of heap.c fails without room only, and changes nothing. -/
theorem noBuffer_iff (h : RamfsOk (OnHeap k) O s)
    (hr : Allocator.Readable (Heap.region k) (O ∪ buffers s.files) data size) (hsize : 0 < size) :
    (NoBuffer Heap.heapC s size ↔ ¬ Room s size) ∧
      ∀ h' m', Heap.heapC.kmalloc s.heap s.mem size = some (0, h', m') →
        h' = s.heap ∧ m' = s.mem := by
  obtain ⟨bs, hbs⟩ := h.memory
  have hnull (h' : Heap.HeapVars) (m' : Mem) :
      Heap.heapC.kmalloc s.heap s.mem size = some (0, h', m') ↔ h' = s.heap ∧ m' = s.mem ∧
        ∀ b ∈ bs, b.free = true → b.size < Heap.alignUp size Heap.alignment :=
    hbs.kmalloc_null hsize (hbs.readable_lt hr)
  have hroom : ¬ Room s size ↔
      ∀ b ∈ bs, b.free = true → b.size < Heap.alignUp size Heap.alignment := by
    constructor
    · intro hno b hb hf
      by_contra hle
      exact hno ⟨bs, hbs.heap, b, hb, hf, Nat.not_lt.mp hle⟩
    · rintro hall ⟨cs, hcs, b, hb, hf, hle⟩
      rw [hcs.unique hbs.heap] at hb
      exact absurd (hall b hb hf) (Nat.not_lt.mpr hle)
  refine ⟨?_, fun h' m' hrun => ⟨((hnull h' m').mp hrun).1, ((hnull h' m').mp hrun).2.1⟩⟩
  rw [hroom]
  constructor
  · rintro ⟨-, h', m', hrun⟩
    exact ((hnull h' m').mp hrun).2.2
  · intro hall
    exact ⟨hsize, s.heap, s.mem, (hnull _ _).mpr ⟨rfl, rfl, hall⟩⟩

/-- A content that cannot be stored leaves the file system as it is. -/
theorem replaceContent_failed (h : RamfsOk (OnHeap k) O s) (hu : (s.files i).used = true)
    (hr : Allocator.Readable (Heap.region k) (O ∪ buffers s.files) data size)
    {s' : FileSystem Heap.HeapVars} (hrun : replaceContent Heap.heapC s i data size = some (-1, s')) :
    s' = s ∧ NoBuffer Heap.heapC s size := by
  obtain ⟨h', m', -, ⟨hrun', hsize, hmal, -⟩ | ⟨p, hrun', -⟩⟩ :=
    replaceContent_spec (i := i) (Heap.heapC_lawful k) h hu hr
  · rw [hrun'] at hrun
    cases hrun
    obtain ⟨rfl, rfl⟩ := (noBuffer_iff h hr hsize).2 h' m' hmal
    exact ⟨rfl, hsize, _, _, hmal⟩
  · rw [hrun'] at hrun
    cases hrun

theorem replaceContent_null {H : Type u} {A : Allocator H} {s : FileSystem H} {h' : H} {m' : Mem}
    (hsize : 0 < size) (hrun : A.kmalloc s.heap s.mem size = some (0, h', m')) :
    replaceContent A s i data size = some (-1, { s with heap := h', mem := m' }) := by
  rw [replaceContent, newBuffer, if_pos hsize, hrun]
  rfl

/-- Without room for its content, a new file keeps the slot it was given, empty, although
the write fails. -/
theorem ramfsWrite_takes_slot (h : RamfsOk (OnHeap k) O s)
    (hr : Allocator.Readable (Heap.region k) (O ∪ buffers s.files) data size)
    (hserve : ¬ Servable s f size) :
    ∃ s', ramfsWrite Heap.heapC s f.buffer data size = some (-1, s') ∧
      ramfsFind s.files f.buffer = some none ∧ ∃ i, ramfsFind s'.files f.buffer = some (some i) := by
  simp only [Servable, not_or, not_le, not_exists] at hserve
  obtain ⟨hf, hno, hfree, hsize, hroom⟩ := hserve
  have hsize : 0 < size := Nat.pos_of_ne_zero hsize
  rcases claimSlot_spec h hf with ⟨i, -, hi⟩ | ⟨-, ⟨-, hfull⟩ | ⟨i, v, hclaim, hu, hnul, hv⟩⟩
  · exact absurd hi (hno i)
  · exact absurd hfull hfree
  · have hok : RamfsOk (OnHeap k) O (claimed s i v) := claimed_ok h hu hnul (hv ▸ hno)
    obtain ⟨-, h', m', hmal⟩ := (noBuffer_iff h hr hsize).1.mpr hroom
    obtain ⟨rfl, rfl⟩ := (noBuffer_iff h hr hsize).2 h' m' hmal
    refine ⟨claimed s i v, ?_, ?_, ?_⟩
    · exact (ramfsWrite_short h hf hclaim).trans (replaceContent_null hsize hmal)
    · rcases ramfsFind_spec h.terminated f with ⟨j, -, hj⟩ | ⟨hfind, -⟩
      · exact absurd hj (hno j)
      · exact hfind
    · rcases ramfsFind_spec hok.terminated f with ⟨j, hfind, -⟩ | ⟨-, hnone⟩
      · exact ⟨j, hfind⟩
      · exact absurd (hv ▸ claimed_is) (hnone i)

/-- Any other write that fails leaves the file system as it is. -/
theorem ramfsWrite_failed (h : RamfsOk (OnHeap k) O s)
    (hr : Allocator.Readable (Heap.region k) (O ∪ buffers s.files) data size)
    (hserve : Servable s f size) {s' : FileSystem Heap.HeapVars}
    (hrun : ramfsWrite Heap.heapC s f.buffer data size = some (-1, s')) : s' = s := by
  rcases Nat.lt_or_ge f.bytes.length ramfsMaxName with hf | hf
  · rcases claimSlot_spec h hf with ⟨i, hclaim, hi⟩ |
      ⟨hno, ⟨hclaim, -⟩ | ⟨i, v, hclaim, hu, hnul, hv⟩⟩
    · rw [ramfsWrite_short h hf hclaim] at hrun
      exact (replaceContent_failed h hi.1 hr hrun).1
    · rw [ramfsWrite_short h hf hclaim] at hrun
      cases hrun
      rfl
    · have hok : RamfsOk (OnHeap k) O (claimed s i v) := claimed_ok h hu hnul (hv ▸ hno)
      have hrc :
          Allocator.Readable (Heap.region k) (O ∪ buffers (claimed s i v).files) data size := by
        rw [claimed_buffers]
        exact hr
      rw [ramfsWrite_short h hf hclaim] at hrun
      obtain ⟨-, hsize, hnull⟩ := replaceContent_failed hok claimed_is.1 hrc hrun
      have hroom : ¬ Room s size := (noBuffer_iff h hr hsize).1.mp ⟨hsize, hnull⟩
      rcases hserve with hlong | ⟨j, hj⟩ | hfull | h0 | hr'
      · omega
      · exact absurd hj (hno j)
      · exact absurd (hu.symm.trans (hfull i)) Bool.false_ne_true
      · omega
      · exact absurd hr' hroom
  · rw [ramfsWrite_long h hf] at hrun
    cases hrun
    rfl

theorem failsCleanly_iff (h : RamfsOk (OnHeap k) O s)
    (hr : Allocator.Readable (Heap.region k) (O ∪ buffers s.files) data size) :
    FailsCleanly s f data size ↔ Servable s f size := by
  constructor
  · intro hclean
    by_contra hserve
    obtain ⟨s', hrun, hbefore, i, hafter⟩ := ramfsWrite_takes_slot h hr hserve
    have hfound := (hclean s' hrun).found f
    rw [hbefore, hafter] at hfound
    cases hfound
  · intro hserve s' hrun
    rw [ramfsWrite_failed h hr hserve hrun]
    exact Unchanged.refl s

/-- In every state of every run, a failing write changes nothing if and only if it is not
one of a new file with a free slot and a content that heap.c has no room for. -/
theorem ramfsWrite_failsCleanly {s : Session Heap.HeapVars} (hs : (kernelRamfs k O).Reaches s)
    (f : CString) (ha : (kernelRamfs k O).allowed s (.write f data size)) :
    FailsCleanly s.fs f data size ↔ Servable s.fs f size :=
  failsCleanly_iff (reaches_ok (Heap.heapC_lawful k) hs).fs ha

theorem ramfsWrite_failsCleanly_small : ∃ s, (kernelRamfs Heap.smallImage ∅).Reaches s ∧
    (FailsCleanly s.fs fileA 0x1000 3 ↔ Servable s.fs fileA 3) := by
  obtain ⟨s, hreach, -⟩ := fresh_files
  exact ⟨s, hreach, ramfsWrite_failsCleanly hreach fileA
    (readable_outside (by decide) (.inl (by decide)))⟩

/-- A first file as large as the whole heap. -/
theorem ramfsWrite_failsCleanly_large : ∃ s, (kernelRamfs Heap.smallImage ∅).Reaches s ∧
    (kernelRamfs Heap.smallImage ∅).allowed s (.write fileA 0x1000000 Heap.heapSize) ∧
    ¬ FailsCleanly s.fs fileA 0x1000000 Heap.heapSize := by
  obtain ⟨s, hreach, -, hunused, hheap⟩ := fresh_files
  have hr : Allocator.Readable (Heap.region Heap.smallImage) (∅ ∪ buffers s.fs.files) 0x1000000
      Heap.heapSize := readable_outside (by decide) (.inr (by decide))
  have hok := (reaches_ok (Heap.heapC_lawful Heap.smallImage) hreach).fs
  refine ⟨s, hreach, hr, fun hclean => ?_⟩
  rcases (failsCleanly_iff hok hr).mp hclean with
    hlong | ⟨i, hi⟩ | hfull | h0 | ⟨bs, hbs, b, hb, -, hle⟩
  · exact absurd hlong (by decide)
  · exact absurd ((hunused i).symm.trans hi.1) Bool.false_ne_true
  · exact absurd ((hunused ⟨0, by decide⟩).symm.trans (hfull _)) Bool.false_ne_true
  · exact absurd h0 (by decide)
  · rw [hbs.unique hheap.heap] at hb
    obtain rfl := List.mem_singleton.mp hb
    exact absurd hle (by decide)

end ShadOS.Ramfs

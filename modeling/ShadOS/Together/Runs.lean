import ShadOS.Together.Source

/-! # Neither spoils the other

The blocks of the files are nothing but memory to the scheduler, and the blocks
of the tasks nothing but memory to the file system. So each keeps its own
invariant over the calls of both, as long as no task is reclaimed.
-/

namespace ShadOS
open Machine

universe u
variable {H : Type u} {A : Allocator H}

/-! ## The two invariants over another allocator -/

namespace Tasking
variable {I I' : H → Mem → Set Span → Set Span → Prop} {clear : Span → Span → Prop} {s s' : Session H}
  {L W : Set Span} {pending gone : List Task} {rest : List ℕ} {e : Event} {tramp : ℕ}

/-- The heap and the memory change, but no byte of a task. -/
theorem SessionOk.rebase (hA : A.Keeping I clear) (h : SessionOk I s L W pending gone rest) {heap : H}
    {mem : Mem} (hI : I' heap mem L W) (hk : Keeps W s.kernel.mem mem) :
    SessionOk I' { s with kernel := { s.kernel with heap := heap, mem := mem } } L W pending gone
      rest := by
  have hsame := h.linked.sameFields hA hk
  have hl := h.linked
  refine ⟨⟨hl.ready, hI, hl.graph.congr hsame, hl.backed, fun t ht => ?_, hl.zombie, hl.waiting⟩,
    h.exited, h.boot⟩
  have ht' : t ∈ s.live ++ ([] ++ (pending ++ gone)) := by
    rw [← List.append_assoc [], ← List.append_assoc s.live]
    exact List.mem_append_left _ ht
  exact (hsame t ht').stackBase.trans (hl.bases t ht)

/-- A step that reclaims nothing, while nothing was reclaimed. -/
theorem SessionOk.unreclaimed_step (tramp : ℕ) (hA : A.Keeping I clear)
    (h : SessionOk I s L L pending [] rest) (ha : s.allowed e)
    (h0 : e.Enters s.kernel → s.kernel.zombie = 0) :
    ∃ s' L' pending' rest', Session.step A tramp s e = some s' ∧
      SessionOk I s' L' L' pending' [] rest' := by
  by_cases he : e.Enters s.kernel
  · obtain rfl : pending = [] := by
      rcases h.linked.pending_cases with ⟨hp, -⟩ | ⟨z, rfl, hz⟩
      · exact hp
      · have hpos := (h.linked.addr_bounds hA (t := z) (by simp)).1
        rw [hz, h0 he] at hpos
        exact absurd hpos (lt_irrefl 0)
    obtain ⟨s', o, k₀, k₁, dying, L', rest', hstep, -, -, -, -, hok, -, hL', -⟩ :=
      h.enter tramp hA ha he
    obtain rfl : L' = L := by
      ext x
      simp [hL']
    exact ⟨s', L', dying, rest', hstep, hok⟩
  by_cases hc : ∃ entry, e = .create entry
  · obtain ⟨entry, rfl⟩ := hc
    obtain ⟨s', hstep, -, -, -, hcases⟩ := h.create tramp hA entry (fun w hw => .inl hw)
    rcases hcases with ⟨-, -, hok⟩ | ⟨t, -, -, -, hok⟩ | ⟨u, -, -, -, -, hok⟩
    · exact ⟨s', L, pending, rest, hstep, hok⟩
    · exact ⟨s', L, pending, rest, hstep, hok.forget hA le_rfl (Set.subset_insert _ _) (by simp)⟩
    · exact ⟨s', _, pending, _, hstep, hok⟩
  · obtain ⟨s', hstep, hok, -⟩ := h.quiet tramp hA ha he (fun entry hh => hc ⟨entry, hh⟩)
    exact ⟨s', L, pending, rest, hstep, hok⟩

end Tasking

namespace Ramfs
open Strings
variable {I I' : H → Mem → Set Span → Prop} {region : Set ℕ} {ok : ℕ → Prop} {O O' : Set Span}
  {s s' : Session H} {fs : FileSystem H} {e : Event}

/-- The blocks of the others change, but no byte of a file. -/
theorem SessionOk.rebase (h : SessionOk I O s) {heap : H} {mem : Mem}
    (hI : I' heap mem (O ∪ buffers s.fs.files)) (hk : Keeps (buffers s.fs.files) s.fs.mem mem) :
    SessionOk I' O { s with fs := { s.fs with heap := heap, mem := mem } } := by
  have hf := h.fs
  refine ⟨⟨hf.ready, hI, hf.terminated, hf.distinct, hf.cleared, hf.filled, hf.separate⟩,
    fun f => ?_⟩
  have hk' : Keeps (buffers s.fs.files) s.fs.mem
      ({ s.fs with heap := heap, mem := mem } : FileSystem H).mem := hk
  exact Meets.congr hf hk' rfl (h.map f)

/-- A call of ramfs.c writes the memory of the allocator only. -/
theorem SessionOk.outside (hA : A.Lawful I region ok) (h : SessionOk I O s)
    (ha : s.allowed region O e) (hstep : Session.step A s e = some s')
    (hstore : ∀ mem, e = .store mem → ∀ x, x ∉ region → mem x = s.fs.mem x) :
    ∀ x, x ∉ region → s'.fs.mem x = s.fs.mem x := by
  cases e with
  | write name data size =>
    obtain ⟨code, fs', hrun, -, hout, -⟩ := ramfsWrite_spec hA h.fs name ha
    rw [Session.step, hrun] at hstep
    obtain rfl := Option.some.inj hstep
    exact hout
  | read name =>
    obtain ⟨r, -, rfl⟩ := Option.map_eq_some_iff.mp hstep
    exact fun _ _ => rfl
  | delete name =>
    obtain ⟨code, fs', hrun, -, hout, -⟩ := ramfsDelete_spec hA h.fs name
    rw [Session.step, hrun] at hstep
    obtain rfl := Option.some.inj hstep
    exact hout
  | store mem =>
    obtain rfl := Option.some.inj hstep
    exact hstore mem rfl

end Ramfs

namespace Together
open Allocator Strings
variable {I : H → Mem → Set Span → Set Span → Prop} {clear : Span → Span → Prop} {region : Set ℕ}
  {ok : ℕ → Prop} {s s' : State H} {e : Event} {tramp : ℕ} {L : Set Span}
  {pending : List Tasking.Task} {rest : List ℕ}

/-- Both invariants, each beside the blocks of the other. -/
structure Sound (I : H → Mem → Set Span → Set Span → Prop) (s : State H) (L : Set Span)
    (pending : List Tasking.Task) (rest : List ℕ) : Prop where
  tasks : Tasking.SessionOk (Beside I (Ramfs.buffers s.files) s.mem) s.tasks L L pending [] rest
  files : Ramfs.SessionOk (Around (fun h m L => I h m L L) L) ∅ s.ramfs

namespace Sound

theorem start (hA : A.Keeping I clear)
    (hs : (together A (fun h m L => I h m L L) region tramp).init s) :
    ∃ L rest, Sound I s L [] rest := by
  obtain ⟨⟨heap, mem, hI, hrun, h0, hb, hl, he⟩, ⟨fs, hfs⟩, hlog⟩ := hs
  have hbuf : Ramfs.buffers s.files = ∅ := by
    have hfiles : s.files = (Ramfs.ramfsInit fs).files := congrArg Ramfs.FileSystem.files hfs
    ext w
    simp [hfiles, Ramfs.buffers, Ramfs.block, Ramfs.ramfsInit]
  have hok := Tasking.SessionOk.start hA hI hrun h0 hb hl he
  have hm := hok.linked.memory
  have hheap : fs.heap = s.heap := (congrArg Ramfs.FileSystem.heap hfs).symm
  have hmem : fs.mem = s.mem := (congrArg Ramfs.FileSystem.mem hfs).symm
  have hempty : (Ramfs.ramfs A (Around (fun h m L => I h m L L)
      (insert (Tasking.descriptor s.tasks.kernel.currentTask) ∅)) region ∅).init s.ramfs := by
    refine ⟨fs, ⟨fun b _ hb => hb, ?_⟩, hfs, hlog⟩
    rw [Set.empty_union, hheap, hmem]
    exact hm
  refine ⟨_, _, ⟨hok.rebase hA ⟨le_rfl, ?_, Keeps.refl _ _, ?_⟩ (Keeps.refl _ _),
    Ramfs.SessionOk.start hempty⟩⟩
  · simp [hbuf]
  · rw [hbuf, Set.union_empty]
    exact hm

/-- The blocks of the tasks and of the files, as the heap has them. -/
theorem memory (h : Sound I s L pending rest) :
    I s.heap s.mem (L ∪ Ramfs.buffers s.files) (L ∪ Ramfs.buffers s.files) :=
  h.tasks.linked.memory.all

theorem spans_subset (h : Sound I s L pending rest) : s.spans ⊆ L := by
  rintro w ⟨t, ht, rfl | ⟨h0, rfl⟩⟩
  · exact h.tasks.linked.backed.held t (List.mem_append_left _ ht)
  · exact h.tasks.linked.backed.stack t (List.mem_append_left _ ht) h0

/-- A step of the scheduler. -/
theorem task (tramp : ℕ) (hA : A.Keeping I clear) (h : Sound I s L pending rest) {e : Tasking.Event}
    (ha : s.tasks.allowed e) (h0 : s.NothingToReclaim (.task e)) :
    ∃ s' L' pending' rest', s.step A tramp (.task e) = some s' ∧ Sound I s' L' pending' rest' := by
  obtain ⟨t, L', pending', rest', hstep, hok⟩ :=
    h.tasks.unreclaimed_step tramp (hA.beside _ _) ha h0
  have hm := hok.linked.memory
  refine ⟨{ s with tasks := t }, L', pending', rest', congrArg (Option.map _) hstep, ?_, ?_⟩
  · exact hok.rebase (hA.beside _ _) ⟨hm.sub, hm.other, Keeps.refl _ _, hm.all⟩ (Keeps.refl _ _)
  · have haround : Around (fun h m L => I h m L L) L' t.kernel.heap t.kernel.mem
        (∅ ∪ Ramfs.buffers s.files) := by
      rw [Set.empty_union]
      refine ⟨fun l hl hb => hm.other l hb hl, ?_⟩
      rw [Set.union_comm]
      exact hm.all
    exact h.files.rebase haround hm.bytes

/-- A call of ramfs.c. -/
theorem file (tramp : ℕ) (hK : A.Keeping I clear) (hA : A.Lawful (fun h m L => I h m L L) region ok)
    (h : Sound I s L pending rest) {e : Ramfs.Event} (ha : s.allowed region (.file e)) :
    ∃ s', s.step A tramp (.file e) = some s' ∧ Sound I s' L pending rest ∧ Keeps L s.mem s'.mem := by
  have hread {src n : ℕ} (hr : Readable region (s.spans ∪ Ramfs.buffers s.files) src n) :
      Readable (around region L) (∅ ∪ Ramfs.buffers s.files) src n := by
    refine ⟨hr.1, fun x hx hx' => ?_⟩
    rw [Set.empty_union, notMem_around]
    rcases hr.2 x hx hx' with hout | ⟨w, hw | hw, hwx⟩
    · exact .inl (.inl hout)
    · exact .inl (.inr ⟨w, h.spans_subset hw, hwx⟩)
    · exact .inr ⟨w, hw, hwx⟩
  have ha' : s.ramfs.allowed (around region L) ∅ e := by
    cases e with
    | write name data size => exact hread ha
    | read name => exact trivial
    | delete name => exact trivial
    | store mem => exact fun x hx => .inl (notMem_around.mpr (.inl (ha x hx)))
  obtain ⟨r, hstep, hok⟩ := h.files.step (hA.around L) ha'
  have hkeep : Keeps L s.mem r.fs.mem := by
    cases e with
    | store mem =>
      obtain rfl := Option.some.inj hstep
      intro w hw x hx
      by_contra hne
      exact ha x hne (hA.inside h.memory (.inl hw) hx)
    | _ =>
      intro w hw x hx
      apply h.files.outside (hA.around L) ha' hstep
      · exact fun mem he => nomatch he
      · exact notMem_around.mpr (.inr ⟨w, hw, hx⟩)
  have hm := hok.fs.memory
  rw [Set.empty_union] at hm
  refine ⟨s.withRamfs r, congrArg (Option.map _) hstep, ⟨?_, hok⟩, hkeep⟩
  apply h.tasks.rebase (hK.beside _ _) _ hkeep
  refine ⟨le_rfl, fun b hb hbL => hm.other b hbL hb, Keeps.refl _ _, ?_⟩
  have hall := hm.all
  rwa [Set.union_comm] at hall

theorem step (tramp : ℕ) (hK : A.Keeping I clear) (hA : A.Lawful (fun h m L => I h m L L) region ok)
    (h : Sound I s L pending rest) (ha : s.allowed region e) (h0 : s.NothingToReclaim e) :
    ∃ s' L' pending' rest', s.step A tramp e = some s' ∧ Sound I s' L' pending' rest' := by
  cases e with
  | task e => exact h.task tramp hK ha h0
  | file e =>
    obtain ⟨s', hstep, hok, -⟩ := h.file tramp hK hA ha
    exact ⟨s', L, pending, rest, hstep, hok⟩

theorem serves (hK : A.Keeping I clear) (hA : A.Lawful (fun h m L => I h m L L) region ok)
    (h : Sound I s L pending rest) : Serves A (fun h m L => I h m L L) region tramp s where
  returns e ha h0 := by
    obtain ⟨s', -, -, -, hstep, -⟩ := h.step tramp hK hA ha h0
    exact ⟨s', hstep⟩
  stored f d post pre hlog hpost := by
    have hm := h.files.map f
    rw [show s.ramfs.log = s.log from rfl, Ramfs.status_write hlog hpost] at hm
    exact Ramfs.ramfsRead_holds h.files.fs hm
  absent f hlog := by
    have hm := h.files.map f
    rw [show s.ramfs.log = s.log from rfl, Ramfs.status_absent hlog] at hm
    exact (Ramfs.ramfs_absent (A := A) h.files.fs hm).1
  rounds := h.tasks.roundRobin (hK.beside _ _)
  apart w hw b hb := by
    refine hA.apart h.memory (.inl (h.spans_subset hw)) (.inr hb) ?_
    rintro rfl
    exact h.tasks.linked.memory.other w hb (h.spans_subset hw)
  keeps e s' ha hstep := by
    obtain ⟨t, ht, -, hk⟩ := h.file tramp hK hA ha
    obtain rfl : t = s' := Option.some.inj (ht.symm.trans hstep)
    exact hk.mono h.spans_subset

end Sound

/-- Over any run of the two on heap.c in which no task is reclaimed, every state offers both what
they offer alone. -/
theorem files_beside_tasks (k : Heap.KernelEnd) (tramp : ℕ) {s : State Heap.HeapVars} {es : List Event}
    (hs : (kernelTogether k tramp).init s) (he : (kernelTogether k tramp).Executes s es)
    (hes : (kernelTogether k tramp).EachStep State.NothingToReclaim s es) :
    (kernelTogether k tramp).Always (Serves Heap.heapC (fun h m L => Heap.HeapKeeps k h m L L)
      (Heap.region k) tramp) s es := by
  have hK := Heap.heapC_keeping k
  have hA := Heap.heapC_lawful k
  refine System.always_of_eachStep (I := fun s => ∃ L pending rest,
    Sound (Heap.HeapKeeps k) s L pending rest) ?_ ?_ ?_ he hes
  · rintro s ⟨L, pending, rest, h⟩
    exact h.serves hK hA
  · rintro s e s' ⟨L, pending, rest, h⟩ ha h0 hstep
    obtain ⟨t, L', pending', rest', ht, hok⟩ := h.step tramp hK hA ha h0
    obtain rfl : t = s' := Option.some.inj (ht.symm.trans hstep)
    exact ⟨L', pending', rest', hok⟩
  · obtain ⟨L, rest, h⟩ := Sound.start hK hs
    exact ⟨L, [], rest, h⟩

/-- `heap_init`, `tasking_init` and `ramfs_init` on `smallImage`. -/
theorem boot (tramp : ℕ) : ∃ s, (kernelTogether Heap.smallImage tramp).init s ∧
    s.tasks.kernel.zombie = 0 := by
  have hinit := Heap.heapInit_holds Heap.smallImage (fun _ => 0)
  generalize Heap.heapInit Heap.smallImage.addr (fun _ => 0) = r at hinit
  have hsize : 0 < Tasking.taskSize ∧ Tasking.taskSize + 7 < 2 ^ 32 := by decide
  have hfit : Heap.geometry.firstFit (Heap.alignUp Tasking.taskSize Heap.alignment)
      [⟨Heap.alignUp Heap.smallImage.addr 4096, Heap.heapSize - Heap.headerSize, true⟩] ≠ none := by
    decide
  rcases hinit.kmalloc hsize.1 hsize.2 with ⟨hnone, -⟩ | ⟨d, cs, m', -, hrun, -⟩
  · exact absurd hnone hfit
  · have htask := Tasking.Linked.taskingInit_boot (Heap.heapC_kmalloc hrun)
    refine ⟨⟨⟨_, d.addr + 12, [⟨d.addr + 12, 0⟩], []⟩,
      fun _ => ⟨Vector.replicate Ramfs.ramfsMaxName 0, 0, 0, false⟩, true, []⟩,
      ⟨⟨r.1, r.2, ⟨_, hinit⟩, htask, by simp, rfl, rfl, rfl⟩, ⟨⟨_, _,
        fun _ => ⟨Vector.replicate Ramfs.ramfsMaxName 0, 0, 0, false⟩, false⟩, rfl⟩, rfl⟩, rfl⟩

/-- A call of `schedule`, a new task and a file. -/
theorem files_beside_tasks_file : ∃ s, (kernelTogether Heap.smallImage 0).init s ∧
    (kernelTogether Heap.smallImage 0).Always (Serves Heap.heapC
      (fun h m L => Heap.HeapKeeps Heap.smallImage h m L L) (Heap.region Heap.smallImage) 0) s
      [.task (.schedule 0), .task (.create 0), .file (.write Ramfs.fileA 0x1000 3)] := by
  obtain ⟨s, hinit, hz⟩ := boot 0
  have hK := Heap.heapC_keeping Heap.smallImage
  have hA := Heap.heapC_lawful Heap.smallImage
  obtain ⟨L, rest, h⟩ := Sound.start hK hinit
  obtain ⟨s₁, L₁, pending₁, rest₁, hstep₁, h₁⟩ := h.task 0 hK (e := .schedule 0) trivial (fun _ => hz)
  obtain ⟨s₂, L₂, pending₂, rest₂, hstep₂, h₂⟩ := h₁.task 0 hK (e := .create 0) trivial nofun
  have hread : s₂.allowed (Heap.region Heap.smallImage) (.file (.write Ramfs.fileA 0x1000 3)) :=
    Ramfs.readable_outside (by decide) (.inl (by decide))
  obtain ⟨s₃, hstep₃, -⟩ := h₂.file 0 hK hA hread
  refine ⟨s, hinit, files_beside_tasks Heap.smallImage 0 hinit
    ⟨trivial, s₁, hstep₁, trivial, s₂, hstep₂, hread, s₃, hstep₃, trivial⟩
    ⟨fun _ => hz, fun t ht => ⟨nofun, fun _ _ => ⟨trivial, fun _ _ => trivial⟩⟩⟩⟩

end Together
end ShadOS

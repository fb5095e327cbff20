import ShadOS.Ramfs.Operations
import ShadOS.Heap.Interface
import ShadOS.Heap.Runs

/-! # A map from names to contents

From `ramfs_init` on, files are written, read and deleted in any order while
clients change their own memory. The log of the calls decides what is known of
each name, and the table always agrees with it.
-/

namespace ShadOS.Ramfs
open Machine Strings

universe u

/-- A call with its return code; a write with the bytes of its source. -/
inductive Entry where
  | write (name : CString) (content : List UInt8) (code : ℤ)
  | delete (name : CString) (code : ℤ)

/-- The call replaced or removed the content of the file. -/
def Entry.Succeeds (f : CString) : Entry → Prop
  | .write g _ code => g = f ∧ code = 0
  | .delete g code => g = f ∧ code = 0

/-- The call tried to write the file. -/
def Entry.Writes (f : CString) : Entry → Prop
  | .write g _ _ => g = f
  | .delete _ _ => False

/-- The file system with the calls so far, the last one first. -/
structure Session (H : Type u) where
  fs : FileSystem H
  log : List Entry

inductive Event where
  | write (name : CString) (data size : ℕ)
  | read (name : CString)
  | delete (name : CString)
  | store (mem : Mem)

variable {H : Type u}

def Session.step (A : Allocator H) (s : Session H) : Event → Option (Session H)
  | .write name data size => (ramfsWrite A s.fs name.buffer data size).map (fun r =>
      ⟨r.2, .write name (readBytes s.fs.mem data size) r.1 :: s.log⟩)
  | .read name => (ramfsRead s.fs name.buffer).map (fun _ => s)
  | .delete name => (ramfsDelete A s.fs name.buffer).map (fun r => ⟨r.2, .delete name r.1 :: s.log⟩)
  | .store mem => some { s with fs := { s.fs with mem := mem } }

/-- The source of a write is memory of the clients or the content of a file, and clients
change their own memory only. -/
def Session.allowed (region : Set ℕ) (O : Set Span) (s : Session H) : Event → Prop
  | .write _ data size => Allocator.Readable region (O ∪ buffers s.fs.files) data size
  | .store mem => ∀ x, mem x ≠ s.fs.mem x → x ∉ region ∨ ∃ w ∈ O, w.Has x
  | _ => True

/-- The file system behind `ramfs_init`, with the live blocks `O` of other clients. -/
def ramfs (A : Allocator H) (I : H → Mem → Set Span → Prop) (region : Set ℕ) (O : Set Span) :
    System (Session H) Event where
  init s := ∃ fs, I fs.heap fs.mem O ∧ s.fs = ramfsInit fs ∧ s.log = []
  allowed := Session.allowed region O
  step := Session.step A

/-- What the log says about a file. -/
def status (f : CString) : List Entry → Status
  | [] => .absent
  | .write g d code :: log =>
    if g = f then
      if code = 0 then .holds d
      else match status f log with
        | .absent => .unsure
        | st => st
    else status f log
  | .delete g code :: log => if g = f ∧ code = 0 then .absent else status f log

/-- The table agrees with the log. -/
structure SessionOk (I : H → Mem → Set Span → Prop) (O : Set Span) (s : Session H) : Prop where
  fs : RamfsOk I O s.fs
  map : ∀ f : CString, Meets s.fs f.bytes (status f s.log)

variable {A : Allocator H} {I : H → Mem → Set Span → Prop} {region : Set ℕ} {ok : ℕ → Prop}
  {O : Set Span} {s s' : Session H} {e : Event} {f : CString} {log : List Entry} {d : List UInt8}

/-! ## What the log says -/

theorem status_write {pre post : List Entry} (hlog : log = post ++ .write f d 0 :: pre)
    (hpost : ∀ e ∈ post, ¬ e.Succeeds f) : status f log = .holds d := by
  subst hlog
  induction post with
  | nil => rw [List.nil_append, status, if_pos rfl, if_pos rfl]
  | cons e post ih =>
    have ih := ih (fun e he => hpost e (List.mem_cons_of_mem _ he))
    cases e with
    | write g d' code =>
      have he : ¬ (g = f ∧ code = 0) := hpost _ List.mem_cons_self
      rw [List.cons_append, status, ih]
      by_cases hg : g = f
      · rw [if_pos hg, if_neg (fun hc => he ⟨hg, hc⟩)]
      · rw [if_neg hg]
    | delete g code =>
      have he : ¬ (g = f ∧ code = 0) := hpost _ List.mem_cons_self
      rw [List.cons_append, status, if_neg he, ih]

theorem status_absent (hlog : (∀ e ∈ log, ¬ e.Writes f) ∨ ∃ post pre,
    log = post ++ .delete f 0 :: pre ∧ ∀ e ∈ post, ¬ e.Writes f) : status f log = .absent := by
  have hpost {post rest : List Entry} (hp : ∀ e ∈ post, ¬ e.Writes f) (hr : status f rest = .absent) :
      status f (post ++ rest) = .absent := by
    induction post with
    | nil => exact hr
    | cons e post ih =>
      have ih := ih (fun e he => hp e (List.mem_cons_of_mem _ he))
      cases e with
      | write g d' code =>
        have he : g ≠ f := hp _ List.mem_cons_self
        rw [List.cons_append, status, if_neg he, ih]
      | delete g code =>
        rw [List.cons_append, status, ih]
        exact ite_self _
  rcases hlog with hno | ⟨post, pre, rfl, hno⟩
  · rw [← List.append_nil log]
    exact hpost hno rfl
  · apply hpost hno
    rw [status, if_pos ⟨rfl, rfl⟩]

/-! ## Runs -/

theorem SessionOk.start (hs : (ramfs A I region O).init s) : SessionOk I O s := by
  obtain ⟨fs, hI, hfs, hlog⟩ := hs
  have hok : RamfsOk I O s.fs := hfs ▸ ramfsInit_ok hI
  refine ⟨hok, fun f => ?_⟩
  rw [hlog, hfs]
  exact fun i hi => nomatch hi.1

/-- An allowed event returns, and the table agrees with the longer log. -/
theorem SessionOk.step (hA : A.Lawful I region ok) (h : SessionOk I O s)
    (ha : s.allowed region O e) : ∃ s', Session.step A s e = some s' ∧ SessionOk I O s' := by
  cases e with
  | write name data size =>
    obtain ⟨code, fs', hrun, hok, -, hframe, hcases⟩ := ramfsWrite_spec hA h.fs name ha
    refine ⟨_, congrArg (Option.map _) hrun, hok, fun f => ?_⟩
    change Meets fs' f.bytes (status f (.write name _ code :: s.log))
    rw [status]
    by_cases hf : name = f
    · subst hf
      rw [if_pos rfl]
      have hm := h.map name
      rcases hcases with ⟨rfl, hnew⟩ | ⟨rfl, hold, -⟩
      · rw [if_pos rfl]
        exact hnew
      · rw [if_neg (by decide)]
        cases hst : status name s.log with
        | absent => trivial
        | holds d => exact hold d (hst ▸ hm)
        | unsure => trivial
    · rw [if_neg hf]
      exact hframe _ _ (fun hb => hf (CString.ext hb.symm)) (h.map f)
  | read name =>
    refine ⟨s, ?_, h⟩
    rcases ramfsFind_spec h.fs.terminated name with ⟨i, hfind, -⟩ | ⟨hfind, -⟩ <;>
      rw [Session.step, ramfsRead, hfind] <;> rfl
  | delete name =>
    obtain ⟨code, fs', hrun, hok, -, hframe, hcases⟩ := ramfsDelete_spec hA h.fs name
    refine ⟨_, congrArg (Option.map _) hrun, hok, fun f => ?_⟩
    change Meets fs' f.bytes (status f (.delete name code :: s.log))
    rw [status]
    by_cases hf : name = f
    · subst hf
      rcases hcases with ⟨rfl, hnew⟩ | ⟨rfl, rfl, -⟩
      · rw [if_pos ⟨rfl, rfl⟩]
        exact hnew
      · rw [if_neg (fun hc => absurd hc.2 (by decide))]
        exact h.map name
    · rw [if_neg (fun hc => hf hc.1)]
      exact hframe _ _ (fun hb => hf (CString.ext hb.symm)) (h.map f)
  | store mem =>
    obtain ⟨hok, hmeets⟩ := h.fs.store hA ha
    exact ⟨_, rfl, hok, fun f => hmeets _ _ (h.map f)⟩

theorem reaches_ok (hA : A.Lawful I region ok) (hs : (ramfs A I region O).Reaches s) :
    SessionOk I O s := by
  apply hs.invariant
  · exact fun s hs => SessionOk.start hs
  · intro s e s' h ha hstep
    obtain ⟨t, ht, h'⟩ := h.step hA ha
    obtain rfl : t = s' := Option.some.inj (ht.symm.trans hstep)
    exact h'

/-- In every state of every run: a file whose last successful write or delete was a
write is read back with the bytes written, and can be deleted; a file never written, or
not since it was deleted, is neither read nor deleted; and no two used slots have the
same name. -/
theorem ramfs_map (hA : A.Lawful I region ok) (hs : (ramfs A I region O).Reaches s) (f : CString) :
    (∀ d post pre, s.log = post ++ .write f d 0 :: pre → (∀ e ∈ post, ¬ e.Succeeds f) →
      ∃ p, ramfsRead s.fs f.buffer = some (0, some (p, d.length)) ∧
        readBytes s.fs.mem p d.length = d ∧
        ∃ fs', ramfsDelete A s.fs f.buffer = some (0, fs')) ∧
    (((∀ e ∈ s.log, ¬ e.Writes f) ∨ ∃ post pre, s.log = post ++ .delete f 0 :: pre ∧
        ∀ e ∈ post, ¬ e.Writes f) →
      ramfsRead s.fs f.buffer = some (-1, none) ∧
        ramfsDelete A s.fs f.buffer = some (-1, s.fs)) ∧
    ∀ i j, (s.fs.files i).used = true → (s.fs.files j).used = true →
      (s.fs.files i).title = (s.fs.files j).title → i = j := by
  have h := reaches_ok hA hs
  have hm := h.map f
  refine ⟨?_, ?_, ?_⟩
  · intro d post pre hlog hpost
    rw [status_write hlog hpost] at hm
    obtain ⟨p, hread, hbytes⟩ := ramfsRead_holds h.fs hm
    obtain ⟨i, hi, -⟩ := hm
    obtain ⟨fs', hdel, -⟩ := ramfsDelete_present hA h.fs hi
    exact ⟨p, hread, hbytes, fs', hdel⟩
  · intro hlog
    rw [status_absent hlog] at hm
    exact ramfs_absent h.fs hm
  · intro i j hi hj htitle
    exact h.fs.distinct i j _ ⟨hi, htitle⟩ ⟨hj, rfl⟩

/-! ## On heap.c -/

/-- The file system over the heap behind `kernel_end`. -/
def kernelRamfs (k : Heap.KernelEnd) (O : Set Span) : System (Session Heap.HeapVars) Event :=
  ramfs Heap.heapC (fun h m L => Heap.HeapKeeps k h m L L) (Heap.region k) O

def fileA : CString := ⟨[97], by decide⟩

/-- `ramfs_init` on the heap of `smallImage` in zeroed memory. -/
theorem fresh_files : ∃ s : Session Heap.HeapVars, (kernelRamfs Heap.smallImage ∅).Reaches s ∧
    s.log = [] ∧ (∀ i, (s.fs.files i).used = false) ∧
    Heap.Holds Heap.smallImage s.fs.heap s.fs.mem ∅ ∅
      [⟨0x100000, Heap.heapSize - Heap.headerSize, true⟩] := by
  have hinit := Heap.heapInit_holds Heap.smallImage (fun _ => 0)
  generalize Heap.heapInit Heap.smallImage.addr (fun _ => 0) = r at hinit
  refine ⟨⟨ramfsInit ⟨r.1, r.2, fun _ => ⟨Vector.replicate ramfsMaxName 0, 0, 0, false⟩, false⟩, []⟩,
    .start ⟨_, ⟨_, hinit⟩, rfl, rfl⟩, rfl, fun _ => rfl, hinit⟩

/-- Buffers below or above the heap of `smallImage` are memory of the clients. -/
theorem readable_outside {L : Set Span} {src n : ℕ} (hlt : src + n ≤ 2 ^ 32)
    (h : src + n ≤ 0x100000 ∨ 0x100000 + Heap.heapSize ≤ src) :
    Allocator.Readable (Heap.region Heap.smallImage) L src n := by
  refine ⟨hlt, fun x hx hx' => .inl ?_⟩
  rintro ⟨hlo, hhi⟩
  rw [show Heap.alignUp Heap.smallImage.addr 4096 = 0x100000 from rfl] at hlo hhi
  omega

/-- A first file of three bytes. -/
theorem fresh_written : ∃ s₀ s, (kernelRamfs Heap.smallImage ∅).Reaches s₀ ∧
    (kernelRamfs Heap.smallImage ∅).step s₀ (.write fileA 0x1000 3) = some s ∧
    (kernelRamfs Heap.smallImage ∅).Reaches s ∧
    s.log = [.write fileA (readBytes s₀.fs.mem 0x1000 3) 0] := by
  obtain ⟨s₀, hreach₀, hlog, hunused, hheap⟩ := fresh_files
  have hA := Heap.heapC_lawful Heap.smallImage
  have hr : Allocator.Readable (Heap.region Heap.smallImage) (∅ ∪ buffers s₀.fs.files) 0x1000 3 :=
    readable_outside (by decide) (.inl (by decide))
  obtain ⟨code, fs', hrun, -, -, -, hcases⟩ := ramfsWrite_spec hA (reaches_ok hA hreach₀).fs fileA hr
  have hcode : code = 0 := by
    rcases hcases with ⟨h0, -⟩ | ⟨-, -, hlong | hfull | ⟨-, h', m', hnull⟩⟩
    · exact h0
    · exact absurd hlong (by decide)
    · exact absurd ((hunused ⟨0, by decide⟩).symm.trans (hfull _)) Bool.false_ne_true
    · have hno := ((hheap.kmalloc_null (by decide) (by decide)).mp hnull).2.2 _ List.mem_cons_self rfl
      exact absurd hno (by decide)
  subst hcode
  have hstep : (kernelRamfs Heap.smallImage ∅).step s₀ (.write fileA 0x1000 3) =
      some ⟨fs', [.write fileA (readBytes s₀.fs.mem 0x1000 3) 0]⟩ := by
    change (ramfsWrite _ _ _ _ _).map _ = _
    rw [hrun, Option.map_some, hlog]
  have hallowed : (kernelRamfs Heap.smallImage ∅).allowed s₀ (.write fileA 0x1000 3) := hr
  exact ⟨s₀, _, hreach₀, hstep, hreach₀.step hallowed hstep, rfl⟩

/-- It may be read and deleted. -/
theorem ramfs_map_write : ∃ s₀ s, (kernelRamfs Heap.smallImage ∅).Reaches s₀ ∧
    (kernelRamfs Heap.smallImage ∅).step s₀ (.write fileA 0x1000 3) = some s ∧
    ∃ p, ramfsRead s.fs fileA.buffer = some (0, some (p, 3)) ∧
      readBytes s.fs.mem p 3 = readBytes s₀.fs.mem 0x1000 3 ∧
      ∃ fs', ramfsDelete Heap.heapC s.fs fileA.buffer = some (0, fs') := by
  obtain ⟨s₀, s, hreach₀, hstep, hreach, hlog⟩ := fresh_written
  have hA := Heap.heapC_lawful Heap.smallImage
  obtain ⟨p, hread, hbytes, hdelete⟩ := (ramfs_map hA hreach fileA).1 _ [] [] hlog (by simp)
  refine ⟨s₀, s, hreach₀, hstep, p, ?_, ?_, hdelete⟩
  · rw [hread, readBytes_length]
  · rwa [readBytes_length] at hbytes

end ShadOS.Ramfs

import ShadOS.Shell.Commands
import Mathlib.Data.List.TakeWhile

/-! # What `ls` shows

`ramfs_list` walks the slots. As no two used slots have the same name, its lines
are the files that can be read, each once and with the size of its content.
-/

namespace ShadOS.Shell
open Machine Strings Ramfs Heap

/-- The line of a file. -/
def fileLine (f : CString × ℕ) : List Call :=
  [.writestring (text "  "), .writestring f.1.bytes, .writestring (text "  ("),
    .writestring (decimal f.2), .writestring (text " octets)\n")]

/-- The lines, or the remark that there are none. -/
def fileLines (fs : List (CString × ℕ)) : List Call :=
  if fs = [] then [.writestring (text "  (aucun fichier)\n")] else fs.flatMap fileLine

theorem untilNul_noNul (l : List UInt8) : 0 ∉ untilNul l := by
  intro h
  simpa using List.mem_takeWhile_imp h

/-- The file in a slot. -/
def fileOf (g : RamfsFile) : CString × ℕ := (⟨g.title, untilNul_noNul _⟩, g.size)

/-- The files in the slots `is`. -/
def filesIn (files : Files) (is : List (Fin ramfsMaxFiles)) : List (CString × ℕ) :=
  (is.filter (fun i => (files i).used)).map (fun i => fileOf (files i))

variable {kend : KernelEnd} {O : Set Span} {k : Kernel} {s : Ramfs.Session HeapVars} {f : CString}

theorem fileSize_lt (h : RamfsOk (OnHeap kend) O k.fs) (i : Fin ramfsMaxFiles) :
    (k.fs.files i).size < 2 ^ 32 := by
  by_cases h0 : (k.fs.files i).size = 0
  · rw [h0]
    exact Nat.two_pow_pos 32
  · have hd : (k.fs.files i).data ≠ 0 := (h.filled i).mpr (by omega)
    have hb := (heapC_keeping kend).bounds h.memory (.inr ⟨i, hd, rfl⟩)
    dsimp only at hb
    omega

theorem listSlots_eq (h : RamfsOk (OnHeap kend) O k.fs) (is : List (Fin ramfsMaxFiles))
    (screen : List Call) : is.foldlM listSlot ⟨k.fs, screen⟩ =
      some ⟨k.fs, screen ++ (filesIn k.fs.files is).flatMap fileLine⟩ := by
  induction is generalizing screen with
  | nil => simp [filesIn]
  | cons i is ih =>
    rw [List.foldlM_cons, listSlot]
    by_cases hu : (k.fs.files i).used = true
    · have hsize := u32_of_lt (fileSize_lt h i)
      simp only [hu, if_true, writeUint_eq, writestring_of_mem (h.terminated i hu), Kernel.say,
        Kernel.call, hsize, Option.bind_eq_bind, Option.bind_some, ih]
      simp [filesIn, hu, fileLine, fileOf, RamfsFile.title]
    · rw [if_neg hu, Option.bind_eq_bind, Option.bind_some, ih]
      simp [filesIn, hu]

theorem ramfsList_eq (h : RamfsOk (OnHeap kend) O k.fs) : ramfsList k =
    some ⟨k.fs, k.screen ++ fileLines (filesIn k.fs.files (List.finRange ramfsMaxFiles))⟩ := by
  have hnone : filesIn k.fs.files (List.finRange ramfsMaxFiles) = [] ↔
      ¬ ∃ i, (k.fs.files i).used = true := by
    simp [filesIn, List.filter_eq_nil_iff]
  rw [ramfsList, listSlots_eq h, Option.map_some, fileLines]
  by_cases hex : ∃ i, (k.fs.files i).used = true
  · rw [if_pos hex, if_neg (fun hn => hnone.mp hn hex)]
  · rw [if_neg hex, if_pos (hnone.mpr hex), hnone.mpr hex]
    simp [Kernel.say, Kernel.call]

theorem mem_filesIn (h : RamfsOk (OnHeap kend) O k.fs) (n : ℕ) :
    (f, n) ∈ filesIn k.fs.files (List.finRange ramfsMaxFiles) ↔
      ∃ p, ramfsRead k.fs f.buffer = some (0, some (p, n)) := by
  have hmem : (f, n) ∈ filesIn k.fs.files (List.finRange ramfsMaxFiles) ↔
      ∃ i, (k.fs.files i).Is f.bytes ∧ (k.fs.files i).size = n := by
    simp only [filesIn, List.mem_map, List.mem_filter, List.mem_finRange, true_and, fileOf,
      Prod.mk.injEq, CString.ext_iff, RamfsFile.Is, and_assoc]
  rw [hmem]
  rcases ramfsFind_spec h.terminated f with ⟨i, hfind, hi⟩ | ⟨hfind, hno⟩
  · rw [ramfsRead, hfind]
    constructor
    · rintro ⟨j, hj, rfl⟩
      obtain rfl := h.distinct i j f.bytes hi hj
      exact ⟨_, rfl⟩
    · rintro ⟨p, hp⟩
      cases hp
      exact ⟨i, hi, rfl⟩
  · rw [ramfsRead, hfind]
    constructor
    · rintro ⟨j, hj, -⟩
      exact absurd hj (hno j)
    · rintro ⟨p, hp⟩
      cases hp

theorem filesIn_nodup (h : RamfsOk (OnHeap kend) O k.fs) :
    ((filesIn k.fs.files (List.finRange ramfsMaxFiles)).map Prod.fst).Nodup := by
  rw [filesIn, List.map_map]
  refine List.Nodup.map_on (fun i hi j hj he => ?_) ((List.nodup_finRange _).filter _)
  have htitle : (k.fs.files i).title = (k.fs.files j).title := congrArg CString.bytes he
  have hiu : (k.fs.files i).used = true := (List.mem_filter.mp hi).2
  have hju : (k.fs.files j).used = true := (List.mem_filter.mp hj).2
  exact h.distinct i j _ ⟨hiu, htitle⟩ ⟨hju, rfl⟩

/-- In every state of every run of ramfs.c on heap.c, `ls` returns and shows exactly the files that
can be read: each once, with its size. A file whose last successful call wrote `d` is among them
with the size of `d`; one never written, or not since it was deleted, is not. -/
theorem ls_shows_files (hs : (kernelRamfs kend O).Reaches s) (screen : List Call) :
    ∃ fs : List (CString × ℕ),
      ramfsList ⟨s.fs, screen⟩ = some ⟨s.fs, screen ++ fileLines fs⟩ ∧ (fs.map Prod.fst).Nodup ∧
      (∀ f n, (f, n) ∈ fs ↔ ∃ p, ramfsRead s.fs f.buffer = some (0, some (p, n))) ∧
      (∀ f d post pre, s.log = post ++ .write f d 0 :: pre → (∀ e ∈ post, ¬ e.Succeeds f) →
        (f, d.length) ∈ fs) ∧
      ∀ f, ((∀ e ∈ s.log, ¬ e.Writes f) ∨ ∃ post pre, s.log = post ++ .delete f 0 :: pre ∧
        ∀ e ∈ post, ¬ e.Writes f) → f ∉ fs.map Prod.fst := by
  have h := reaches_ok (heapC_lawful kend) hs
  have hok : RamfsOk (OnHeap kend) O (⟨s.fs, screen⟩ : Kernel).fs := h.fs
  refine ⟨_, ramfsList_eq hok, filesIn_nodup hok, fun f n => mem_filesIn hok n, ?_, ?_⟩
  · intro f d post pre hlog hpost
    have hm := h.map f
    rw [status_write hlog hpost] at hm
    obtain ⟨p, hread, -⟩ := ramfsRead_holds h.fs hm
    exact (mem_filesIn hok _).mpr ⟨p, hread⟩
  · intro f hlog hf
    have hm := h.map f
    rw [status_absent hlog] at hm
    obtain ⟨⟨g, n⟩, hg, rfl⟩ := List.mem_map.mp hf
    obtain ⟨p, hread⟩ := (mem_filesIn hok n).mp hg
    have hno := (ramfs_absent (A := heapC) h.fs hm).1
    cases hread.symm.trans hno

/-- Behind a first `ramfs_write` of three bytes. -/
theorem ls_shows_files_write : ∃ s₀ s, (kernelRamfs smallImage ∅).Reaches s₀ ∧
    (kernelRamfs smallImage ∅).step s₀ (.write fileA 0x1000 3) = some s ∧
    ramfsList ⟨s.fs, []⟩ = some ⟨s.fs, [.writestring (text "  "), .writestring (text "a"),
      .writestring (text "  ("), .writestring (text "3"), .writestring (text " octets)\n")]⟩ := by
  obtain ⟨s₀, s, hreach₀, hstep, hreach, hlog⟩ := fresh_written
  obtain ⟨fs, hls, hnodup, -, hwritten, hno⟩ := ls_shows_files hreach []
  have hmem := hwritten fileA _ [] [] hlog (by simp)
  rw [readBytes_length] at hmem
  have honly : ∀ f ∈ fs, f.1 = fileA := by
    intro f hf
    by_contra hne
    refine hno f.1 (.inl ?_) (List.mem_map_of_mem hf)
    rw [hlog]
    simpa [Entry.Writes] using fun h => hne h.symm
  have hone : fs = [(fileA, 3)] := by
    match fs with
    | [] => cases hmem
    | [f] => rw [List.mem_singleton.mp hmem]
    | f :: g :: fs =>
      have hf := honly f (by simp)
      have hg := honly g (by simp)
      simp [hf, hg] at hnodup
  refine ⟨s₀, s, hreach₀, hstep, ?_⟩
  rw [hls, hone]
  rfl

end ShadOS.Shell

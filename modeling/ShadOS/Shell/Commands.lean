import ShadOS.Shell.Editor
import ShadOS.Ramfs.Failures

/-! # The commands on intact files

With the file system and the heap intact, every command returns and leaves them
intact. Only `write` and `rm` change what is known of a file, and only of the
one they name.
-/

namespace ShadOS.Shell
open Machine Strings Ramfs
open Heap (KernelEnd HeapVars HeapOk heapC heapGetStats heapGetStats_spec heapC_lawful)

variable {kend : KernelEnd} {buf n p args content : ℕ} {k k' k'' : Kernel} {O O' : Set Span}
  {P : List UInt8 → Prop} {l f d tail tail' : List UInt8} {w : Span}

/-! ## Output -/

@[simp] theorem call_fs (c : Call) : (k.call c).fs = k.fs := rfl
@[simp] theorem call_screen (c : Call) : (k.call c).screen = k.screen ++ [c] := rfl
@[simp] theorem say_fs (t : String) : (k.say t).fs = k.fs := rfl
@[simp] theorem say_screen (t : String) :
    (k.say t).screen = k.screen ++ [.writestring (text t)] := rfl
@[simp] theorem setMem_screen (m : Mem) : (k.setMem m).screen = k.screen := rfl
@[simp] theorem setMem_mem (m : Mem) : (k.setMem m).fs.mem = m := rfl

theorem writestring_of_mem (h : 0 ∈ l) :
    k.writestring l = some (k.call (.writestring (untilNul l))) := if_pos h

theorem writestring_eq (hl : 0 ∉ l) :
    k.writestring (l ++ 0 :: tail) = some (k.call (.writestring l)) := by
  rw [writestring_of_mem (by simp), untilNul_append hl]

theorem writeUint_eq (n : ℕ) :
    k.writeUint n = some (k.call (.writestring (decimal (u32 n)))) := by
  rw [Kernel.writeUint, uintText_spec (u32_lt n), Option.bind_some,
    writestring_eq (decimal_noNul _)]

theorem writeHex_eq (n : ℕ) :
    k.writeHex n = some (k.call (.writestring (untilNul (hexText (u32 n))))) :=
  writestring_of_mem (nul_mem_hexText _)

/-! ## What a command leaves -/

/-- From `k` to `k'` the files stay intact, with the live blocks `O` of others, and what is known
of the names in `P` stays true. -/
structure Spares (kend : KernelEnd) (O : Set Span) (P : List UInt8 → Prop) (k k' : Kernel) :
    Prop where
  ok : RamfsOk (OnHeap kend) O k'.fs
  meets : ∀ name st, P name → Meets k.fs name st → Meets k'.fs name st

/-- The call has a result, and spares what it should. -/
def Returns (kend : KernelEnd) (O : Set Span) (P : List UInt8 → Prop) (k : Kernel)
    (r : Option Kernel) : Prop := ∃ k', r = some k' ∧ Spares kend O P k k'

theorem Returns.bind {r : Option Kernel} {g : Kernel → Option Kernel}
    (h : Returns kend O P k r) (hg : ∀ k', Spares kend O P k k' → Returns kend O' P k (g k')) :
    Returns kend O' P k (r.bind g) := by
  obtain ⟨k', rfl, hk'⟩ := h
  exact hg k' hk'

namespace Spares

theorem refl (h : RamfsOk (OnHeap kend) O k.fs) : Spares kend O P k k := ⟨h, fun _ _ _ hm => hm⟩

theorem trans (h : Spares kend O P k k') (h' : Spares kend O' P k' k'') :
    Spares kend O' P k k'' :=
  ⟨h'.ok, fun name st hP hm => h'.meets name st hP (h.meets name st hP hm)⟩

/-- Output does not count. -/
theorem congr (h : Spares kend O P k k') (hfs : k''.fs = k'.fs) : Spares kend O P k k'' := by
  constructor
  · rw [hfs]
    exact h.ok
  · rw [hfs]
    exact h.meets

theorem call (h : Spares kend O P k k') (c : Call) : Spares kend O P k (k'.call c) := h.congr rfl

theorem say (h : Spares kend O P k k') (t : String) : Spares kend O P k (k'.say t) := h.congr rfl

theorem returns (h : Spares kend O P k k') (hfs : k''.fs = k'.fs) : Returns kend O P k (some k'') :=
  ⟨k'', rfl, h.congr hfs⟩

/-! ## The heap -/

theorem stats (h : Spares kend O P k k') : ∃ t, heapGetStats k'.fs.heap k'.fs.mem = some t := by
  obtain ⟨bs, hbs⟩ := h.ok.memory
  exact ⟨_, heapGetStats_spec hbs.heap⟩

theorem meminfo (h : Spares kend O P k k') : Returns kend O P k (cmdMeminfo k') := by
  obtain ⟨t, ht⟩ := h.stats
  simp only [cmdMeminfo, ht, writeHex_eq, writeUint_eq, Option.bind_eq_bind, Option.bind_some]
  exact h.returns rfl

theorem use (h : Spares kend O P k k') : Returns kend O P k (sayUse k') := by
  obtain ⟨t, ht⟩ := h.stats
  simp only [sayUse, ht, writeUint_eq, Option.bind_eq_bind, Option.bind_some]
  exact h.returns rfl

/-- The shell gets a block of its own, or `NULL`. -/
theorem kmalloc (h : Spares kend O P k k') (hn : 0 < n) (hn' : n + 7 < 2 ^ 32) :
    ∃ p k₁ O', k'.kmalloc n = some (p, k₁) ∧ Spares kend O' P k k₁ ∧ O ⊆ O' ∧
      (p ≠ 0 → ⟨p, n⟩ ∈ O') := by
  obtain ⟨p, h', m', hrun, hkeep, -, hcases⟩ := (heapC_lawful kend).kmalloc h.ok.memory hn hn'
  have hmeets (name : List UInt8) (st : Status) (hm : Meets k'.fs name st) :
      Meets { k'.fs with heap := h', mem := m' } name st :=
    Meets.congr h.ok (hkeep.mono Set.subset_union_right) rfl hm
  have hrun' : k'.kmalloc n = some (p, { k' with fs := { k'.fs with heap := h', mem := m' } }) := by
    rw [Kernel.kmalloc, hrun]
    rfl
  rcases hcases with ⟨h0, hI⟩ | ⟨h0, hap, hI⟩
  · exact ⟨p, _, O, hrun', h.trans ⟨h.ok.congr hI, fun name st _ hm => hmeets name st hm⟩, le_rfl,
      fun hp => absurd h0 hp⟩
  · exact ⟨p, _, insert ⟨p, n⟩ O, hrun',
      h.trans ⟨h.ok.claim hI hn hap, fun name st _ hm => hmeets name st hm⟩, Set.subset_insert _ _,
      fun _ => Set.mem_insert _ _⟩

theorem kfree (h : Spares kend O P k k') (hw : w ∈ O) :
    Returns kend (O \ {w}) P k (k'.kfree w.addr) := by
  obtain ⟨h', m', hrun, hkeep, -, hI⟩ := (heapC_lawful kend).kfree h.ok.memory (.inl hw)
  refine ⟨{ k' with fs := { k'.fs with heap := h', mem := m' } }, ?_,
    h.trans ⟨h.ok.unclaim hw hI, fun name st _ hm => Meets.congr h.ok ?_ rfl hm⟩⟩
  · rw [Kernel.kfree, hrun]
    rfl
  · apply hkeep.mono
    intro v hv
    refine ⟨.inr hv, ?_⟩
    rintro rfl
    obtain ⟨i, h0, rfl⟩ := hv
    exact h.ok.separate i h0 (.inl hw)

/-- An operation on one file spares the others. -/
theorem file (h : Spares kend O P k k') {fs : FileSystem HeapVars}
    (hok : RamfsOk (OnHeap kend) O fs)
    (hothers : ∀ other st, other ≠ f → Meets k'.fs other st → Meets fs other st) (hP : ¬ P f) :
    Spares kend O P k { k' with fs := fs } :=
  h.trans ⟨hok, fun name st hname hm => hothers name st (fun he => hP (he ▸ hname)) hm⟩

/-- Memory outside the heap, and blocks of the shell, may be written. -/
theorem setMem (h : Spares kend O P k k') {m : Mem}
    (hm : ∀ x, m x ≠ k'.fs.mem x → x ∉ Heap.region kend ∨ ∃ w ∈ O, w.Has x) :
    Spares kend O P k (k'.setMem m) := by
  obtain ⟨hok, hmeets⟩ := h.ok.store (heapC_lawful kend) hm
  exact h.trans ⟨hok, fun name st _ => hmeets name st⟩

end Spares

section alloctest
variable {m : Mem} {a b c x : ℕ}

theorem fillTest_outside (ha : ¬ Span.Has ⟨a, 32⟩ x) (hc : ¬ Span.Has ⟨c, 40⟩ x) :
    fillTest m a c x = m x := by
  unfold Span.Has at ha hc
  dsimp only at ha hc
  unfold fillTest
  rw [fillWords_outside, Function.update_of_ne (by omega), writeBytes_outside]
  · simp only [List.length_map, List.length_range]
    omega
  · intro i hi
    rw [List.mem_range] at hi
    omega

/-- The string in `a` ends before the block does. -/
theorem nul_mem_fillTest (h : Span.Apart ⟨a, 32⟩ ⟨c, 40⟩) :
    0 ∈ readBytes (fillTest m a c) a 32 := by
  unfold Span.Apart at h
  dsimp only at h
  have hnul : fillTest m a c (a + 31) = 0 := by
    unfold fillTest
    rw [fillWords_outside, Function.update_self]
    intro i hi
    rw [List.mem_range] at hi
    omega
  rw [← hnul]
  exact List.mem_map.mpr ⟨31, List.mem_range.mpr (by decide), rfl⟩

theorem Spares.showTest (h : Spares kend O P k k') (ha : ⟨a, 32⟩ ∈ O) (hb : ⟨b, 128⟩ ∈ O)
    (hc : ⟨c, 40⟩ ∈ O) : ∃ O', Returns kend O' P k (showTest a b c k') := by
  have hap : Span.Apart ⟨a, 32⟩ ⟨c, 40⟩ :=
    (heapC_lawful kend).apart h.ok.memory (.inl ha) (.inl hc) (by simp)
  have h₀ : Spares kend O P k (k'.setMem (fillTest k'.fs.mem a c)) := by
    apply h.setMem
    intro x hx
    by_cases hxa : Span.Has ⟨a, 32⟩ x
    · exact .inr ⟨_, ha, hxa⟩
    · refine .inr ⟨_, hc, ?_⟩
      by_contra hxc
      exact hx (fillTest_outside hxa hxc)
  refine ⟨((O \ {⟨a, 32⟩}) \ {⟨b, 128⟩}) \ {⟨c, 40⟩}, ?_⟩
  simp only [Shell.showTest, writeHex_eq, writeUint_eq, Option.bind_eq_bind, Option.bind_some,
    call_fs, say_fs, setMem_mem, writestring_of_mem (nul_mem_fillTest hap)]
  refine (h₀.congr (by rfl)).use.bind fun k₁ h₁ => ?_
  refine ((h₁.congr (by rfl)).kfree ha).bind fun k₂ h₂ => ?_
  refine (h₂.kfree ⟨hb, by simp⟩).bind fun k₃ h₃ => ?_
  refine (h₃.kfree ⟨⟨hc, by simp⟩, by simp⟩).bind fun k₄ h₄ => ?_
  refine (h₄.congr (by rfl)).use.bind fun k₅ h₅ => ?_
  obtain ⟨t, ht⟩ := h₅.stats
  rw [ht, Option.bind_some]
  exact h₅.returns rfl

theorem Spares.alloctest (h : Spares kend O P k k') :
    ∃ O', Returns kend O' P k (cmdAlloctest k') := by
  obtain ⟨k₁, hk₁, h₁⟩ := (h.say "Avant allocation :\n").use
  obtain ⟨a, k₂, O₂, hk₂, h₂, -, ha⟩ := (h₁.say " octets\n").kmalloc
    (n := 32) (by decide) (by decide)
  obtain ⟨b, k₃, O₃, hk₃, h₃, hsub₃, hb⟩ := h₂.kmalloc (n := 128) (by decide) (by decide)
  obtain ⟨c, k₄, O₄, hk₄, h₄, hsub₄, hc⟩ := h₃.kmalloc (n := 4 * 10) (by decide) (by decide)
  simp only [cmdAlloctest, hk₁, hk₂, hk₃, hk₄, Option.bind_eq_bind, Option.bind_some]
  by_cases hnull : a = 0 ∨ b = 0 ∨ c = 0
  · rw [if_pos hnull]
    exact ⟨O₄, h₄.returns rfl⟩
  · rw [if_neg hnull]
    simp only [not_or] at hnull
    exact h₄.showTest (hsub₄ (hsub₃ (ha hnull.1))) (hsub₄ (hb hnull.2.1)) (hc hnull.2.2)

end alloctest

/-! ## The files -/

/-- `Fichier introuvable` -/
def missing (f : List UInt8) : List Call :=
  [.writestring (text "Fichier introuvable : "), .writestring f, .writestring (text "\n")]

def removed (f : List UInt8) : List Call :=
  [.writestring (text "Supprime : "), .writestring f, .writestring (text "\n")]

/-- A content, and a newline if it does not end with one. -/
def shown (d : List UInt8) : List Call :=
  d.map .putchar ++ if d.getLast? = some newline then [] else [.putchar newline]

def written (f : List UInt8) (size : ℕ) : List Call :=
  [.writestring (text "Ecrit : "), .writestring f, .writestring (text " ("),
    .writestring (decimal size), .writestring (text " octets)\n")]

def refused : List Call :=
  [.writestring (text "Echec de l'ecriture (table de fichiers pleine ou tas sature).\n")]

theorem Spares.ls (h : Spares kend O P k k') : Returns kend O P k (ramfsList k') := by
  have hloop : ∀ (is : List (Fin ramfsMaxFiles)) (k' : Kernel), Spares kend O P k k' →
      Returns kend O P k (is.foldlM listSlot k') := by
    intro is
    induction is with
    | nil => exact fun k' h => h.returns rfl
    | cons i is ih =>
      intro k' h
      rw [List.foldlM_cons, Option.bind_eq_bind]
      apply Returns.bind _ ih
      unfold listSlot
      by_cases hu : (k'.fs.files i).used = true
      · have hname := h.ok.terminated i hu
        simp only [if_pos hu, writeUint_eq, writestring_of_mem hname, Option.bind_eq_bind,
          Option.bind_some]
        exact h.returns rfl
      · rw [if_neg hu]
        exact h.returns rfl
  obtain ⟨k₁, hk₁, h₁⟩ := hloop _ k' h
  rw [ramfsList, hk₁, Option.map_some]
  split_ifs
  · exact h₁.returns rfl
  · exact h₁.returns rfl

theorem sayMissing_eq (hl : 0 ∉ l) :
    sayMissing (l ++ 0 :: tail) k = some { k with screen := k.screen ++ missing l } := by
  simp [sayMissing, writestring_eq hl, Kernel.say, Kernel.call, missing]

theorem head_of_ne_nil (hl : 0 ∉ l) (h : l ≠ []) :
    ∃ c, (l ++ 0 :: tail).head? = some c ∧ c ≠ 0 := by
  cases l with
  | nil => exact absurd rfl h
  | cons c l => exact ⟨c, rfl, fun h0 => hl (h0 ▸ List.mem_cons_self)⟩

section files
variable {f : CString}

theorem cmdCat_holds (h : RamfsOk (OnHeap kend) O k.fs) (hf : f.bytes ≠ [])
    (hm : Meets k.fs f.bytes (.holds d)) :
    cmdCat (f.bytes ++ 0 :: tail) k = some { k with screen := k.screen ++ shown d } := by
  obtain ⟨c, hc, h0⟩ := head_of_ne_nil f.noNul hf
  obtain ⟨p, hread, hbytes⟩ := ramfsRead_holds h hm
  rw [cmdCat, hc, Option.bind_some, if_neg h0, ramfsRead_tail, ← CString.buffer, hread,
    Option.bind_some]
  simp only [hbytes, shown]
  split_ifs <;> simp [Kernel.call]

theorem cmdCat_absent (h : RamfsOk (OnHeap kend) O k.fs) (hf : f.bytes ≠ [])
    (hm : Meets k.fs f.bytes .absent) :
    cmdCat (f.bytes ++ 0 :: tail) k = some { k with screen := k.screen ++ missing f.bytes } := by
  obtain ⟨c, hc, h0⟩ := head_of_ne_nil f.noNul hf
  rw [cmdCat, hc, Option.bind_some, if_neg h0, ramfsRead_tail, ← CString.buffer,
    (ramfs_absent (A := heapC) h hm).1, Option.bind_some]
  exact sayMissing_eq f.noNul

theorem Spares.cat (h : Spares kend O P k k') (f : CString) (tail : List UInt8) :
    Returns kend O P k (cmdCat (f.bytes ++ 0 :: tail) k') := by
  by_cases hf : f.bytes = []
  · rw [hf]
    exact h.returns rfl
  · rcases ramfsFind_spec h.ok.terminated f with ⟨i, -, hi⟩ | ⟨-, hno⟩
    · rw [cmdCat_holds h.ok hf ⟨i, hi, (readBytes_length _ _ _).symm, by rw [readBytes_length]⟩]
      exact h.returns rfl
    · rw [cmdCat_absent h.ok hf hno]
      exact h.returns rfl

/-! ## Names in the buffer -/

/-- The buffer lies below `kernel_end`, so the heap does not reach it. -/
theorem inBuffer_not_region (hbuf : buf + cmdBufferSize ≤ kend.addr) {x : ℕ} (hx : InBuffer buf x) :
    x ∉ Heap.region kend := by
  have hle := kend.base_bounds.1
  rintro ⟨hlo, -⟩
  have hlt := hx.2
  omega

theorem chars_congr {m m' : Mem} (h : ∀ x, InBuffer buf x → m' x = m x) :
    chars buf m' p = chars buf m p := by
  apply readBytes_congr
  intro i hi
  apply h
  constructor
  · omega
  · omega

theorem Spares.rm (hbuf : buf + cmdBufferSize ≤ kend.addr) (h : Spares kend O P k k')
    (hargs : chars buf k'.fs.mem args = f.bytes ++ 0 :: tail) (hf : f.bytes ≠ [])
    (hP : ¬ P f.bytes) : ∃ k'', cmdRm buf args k' = some k'' ∧ Spares kend O P k k'' ∧
      Meets k''.fs f.bytes .absent ∧
      (k''.screen = k'.screen ++ removed f.bytes ∨
        k''.screen = k'.screen ++ missing f.bytes ∧ Meets k'.fs f.bytes .absent) := by
  obtain ⟨c, hc, h0⟩ := head_of_ne_nil f.noNul hf
  obtain ⟨code, fs, hrun, hok, hout, hothers, hcases⟩ := ramfsDelete_spec (heapC_lawful kend) h.ok f
  have hargs' : chars buf fs.mem args = f.bytes ++ 0 :: tail := by
    rw [← hargs]
    exact chars_congr fun x hx => hout x (inBuffer_not_region hbuf hx)
  have hspares := h.file hok hothers hP
  rw [cmdRm, hargs, hc, Option.bind_some, if_neg h0, ramfsDelete_tail, ← CString.buffer, hrun,
    Option.bind_eq_bind, Option.bind_some]
  rcases hcases with ⟨rfl, hgone⟩ | ⟨rfl, rfl, hgone⟩
  · simp only [if_true, hargs', writestring_eq f.noNul, Option.bind_eq_bind, Option.bind_some]
    refine ⟨_, rfl, hspares.congr rfl, hgone, .inl ?_⟩
    simp [removed]
  · simp only [show ¬ (-1 : ℤ) = 0 by decide, if_false, hargs', sayMissing_eq f.noNul]
    exact ⟨_, rfl, hspares.congr rfl, hgone, .inr ⟨rfl, hgone⟩⟩

/-- The source of a write is the buffer. -/
theorem chars_readable (hbuf : buf + cmdBufferSize ≤ kend.addr) {m : Mem} {L : Set Span}
    (h : chars buf m content = d ++ 0 :: tail) :
    Allocator.Readable (Heap.region kend) L (buf + content) d.length ∧
      readBytes m (buf + content) d.length = d := by
  have hlen := length_lt_of_chars h
  have hroom := kend.room
  refine ⟨⟨by omega, fun x hx hx' => .inl ?_⟩, ?_⟩
  · exact inBuffer_not_region hbuf ⟨by omega, by omega⟩
  · rw [← readBytes_take (n := cmdBufferSize - content) (by omega)]
    change (chars buf m content).take d.length = d
    rw [h, List.take_left]

theorem Spares.write (hbuf : buf + cmdBufferSize ≤ kend.addr) (h : Spares kend O P k k')
    (hargs : chars buf k'.fs.mem args = f.bytes ++ 0 :: tail) (hf : f.bytes ≠ [])
    (hcontent : chars buf k'.fs.mem content = d ++ 0 :: tail') (hd : 0 ∉ d) (hP : ¬ P f.bytes) :
    ∃ k'', writeFile buf args content k' = some k'' ∧ Spares kend O P k k'' ∧
      (k''.screen = k'.screen ++ written f.bytes d.length ∧ Meets k''.fs f.bytes (.holds d) ∨
        k''.screen = k'.screen ++ refused) := by
  obtain ⟨c, hc, h0⟩ := head_of_ne_nil f.noNul hf
  obtain ⟨hread, hbytes⟩ := chars_readable hbuf hcontent
  obtain ⟨code, fs, hrun, hok, hout, hothers, hcases⟩ :=
    ramfsWrite_spec (heapC_lawful kend) h.ok f hread
  have hkeep {p : ℕ} : chars buf fs.mem p = chars buf k'.fs.mem p :=
    chars_congr fun x hx => hout x (inBuffer_not_region hbuf hx)
  have hspares := h.file hok hothers hP
  have hlen : strlen (d ++ 0 :: tail') = some d.length := by
    rw [strlen_eq (by simp), untilNul_append hd]
  have hsize : u32 d.length = d.length := by
    have hlt := length_lt_of_chars hcontent
    unfold cmdBufferSize at hlt
    exact u32_of_lt (by omega)
  rw [writeFile, hargs, hcontent, hc, Option.bind_some, if_neg h0, hlen, Option.bind_eq_bind,
    Option.bind_some, ramfsWrite_tail, ← CString.buffer, hrun, Option.bind_eq_bind,
    Option.bind_some]
  rcases hcases with ⟨rfl, hholds⟩ | ⟨rfl, -⟩
  · simp only [if_true, hkeep, hargs, hcontent, hlen, say_fs, call_fs, writestring_eq f.noNul,
      writeUint_eq, Option.bind_eq_bind, Option.bind_some]
    refine ⟨_, rfl, hspares.congr rfl, .inl ⟨?_, ?_⟩⟩
    · simp [written, hsize]
    · rw [hbytes] at hholds
      exact hholds
  · simp only [show ¬ (-1 : ℤ) = 0 by decide, if_false]
    exact ⟨_, rfl, hspares.congr rfl, .inr rfl⟩

end files

end ShadOS.Shell

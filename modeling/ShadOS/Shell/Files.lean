import ShadOS.Shell.Commands

/-! # Files from the command line

What was written under a name is shown by `cat`, whatever lines are typed in
between, as long as they leave the name alone. The proof follows a line from
the keyboard through the buffer and both splits to the file table and back.
-/

namespace ShadOS.Shell
open Machine Strings Ramfs
open Heap (KernelEnd)

/-- Commands of other drivers. -/
def Command.foreign : Command → Bool
  | .uptime | .ps | .mouse | .gfx | .usertest | .nettest | .reboot => true
  | _ => false

/-- The line runs no command of another driver, and neither writes nor removes the file `F`. -/
structure Harmless (F l : List UInt8) : Prop where
  own : ∀ c : Command, text c.word = word l → c.foreign = false
  write : word l = text "write" → word (rest l) ≠ F
  rm : word l = text "rm" → rest l ≠ F

/-- The calls of `print_prompt`. -/
def prompt : List Call :=
  [.setcolor .yellow .black, .writestring (text "\nshadestia> "), .setcolor .lightGrey .black]

variable (ext : Command → Kernel → Option Kernel) {kend : KernelEnd} {buf args n : ℕ}
  {k k' : Kernel} {O : Set Span} {P : List UInt8 → Prop} {l w r F T d old : List UInt8} {s : State}

theorem printPrompt_eq (k : Kernel) : printPrompt k = { k with screen := k.screen ++ prompt } := by
  simp [printPrompt, Kernel.call, Kernel.say, prompt]

/-! ## Dispatch -/

theorem Command.word_noNul (c : Command) : 0 ∉ text c.word := by
  cases c <;> decide

theorem findCommand_spec (hw : 0 ∉ w) (old : List UInt8) (cs : List Command) :
    findCommand (w ++ 0 :: old) cs = some (cs.find? (fun c => text c.word = w)) := by
  induction cs with
  | nil => rfl
  | cons c cs ih =>
    obtain ⟨x, hx, hiff⟩ :=
      strcmp_spec (s := w ++ 0 :: old) (t := text c.word ++ [0]) (by simp) (by simp)
    rw [untilNul_append hw, untilNul_append c.word_noNul, eq_comm (a := w)] at hiff
    rw [findCommand, hx, Option.bind_some, List.find?_cons, ih]
    by_cases h0 : x = 0
    · simp [h0, hiff.mp h0]
    · have hne : ¬ text c.word = w := fun h => h0 (hiff.mpr h)
      simp [h0, hne]

/-- What `shell_execute` does with a line, once it is split. -/
theorem shellExecute_eq (hl : 0 ∉ l) (h : chars buf k.fs.mem 0 = l ++ 0 :: old) :
    ∃ args m', (∀ x, ¬ InBuffer buf x → m' x = k.fs.mem x) ∧
      chars buf m' args = rest l ++ 0 :: old ∧
      shellExecute buf ext 0 k =
        if word l = [] then .ok (printPrompt (k.setMem m'))
        else match commands.find? (fun c => text c.word = word l) with
          | none => .ok (printPrompt ((((k.setMem m').say "Commande inconnue : ").call
              (.writestring (word l))).say " (tapez 'help')\n"))
          | some .clear => runCommand buf ext args (k.setMem m') .clear
          | some c => (runCommand buf ext args (k.setMem m') c).map printPrompt := by
  obtain ⟨args, m', hsplit, ⟨old', hline⟩, hrest, hout⟩ := splitCommand_spec hl h
  refine ⟨args, m', hout, hrest, ?_⟩
  have hword := word_noNul hl
  rw [shellExecute, hsplit]
  change dispatch buf ext 0 args (k.setMem m') = _
  rw [dispatch, setMem_mem, hline]
  cases hw : word l with
  | nil => rfl
  | cons c cs =>
    have hc : c ≠ 0 := by
      rintro rfl
      exact hword (hw ▸ List.mem_cons_self)
    rw [hw] at hword
    have hfind := findCommand_spec hword old' commands
    have hunknown : sayUnknown (c :: cs ++ 0 :: old') (k.setMem m') =
        some ((((k.setMem m').say "Commande inconnue : ").call
          (.writestring (c :: cs))).say " (tapez 'help')\n") := by
      rw [sayUnknown, writestring_eq hword, Option.map_some]
    rw [List.cons_append] at hfind hunknown ⊢
    simp only [if_neg hc, hfind, if_neg (List.cons_ne_nil c cs), orStop, Except.bind]
    cases commands.find? (fun d => text d.word = c :: cs) with
    | none =>
      simp only [hunknown, Except.map]
    | some d => cases d <;> rfl

/-- The buffer is no part of the files. -/
theorem Spares.edit (hbuf : buf + cmdBufferSize ≤ kend.addr) (h : Spares kend O P k k') {m : Mem}
    (hm : ∀ x, ¬ InBuffer buf x → m x = k'.fs.mem x) : Spares kend O P k (k'.setMem m) := by
  apply h.setMem
  intro x hx
  left
  apply inBuffer_not_region hbuf
  by_contra hout
  exact hx (hm x hout)

/-- The command of a harmless line returns and spares the file. -/
theorem Spares.run (hbuf : buf + cmdBufferSize ≤ kend.addr) (h : Spares kend O (· = F) k k')
    (hl : 0 ∉ l) (hargs : chars buf k'.fs.mem args = rest l ++ 0 :: old) (hF : Harmless F l)
    {c : Command} (hc : text c.word = word l) :
    ∃ k'' O', runCommand buf ext args k' c = .ok k'' ∧ Spares kend O' (· = F) k k'' := by
  have hown := hF.own c hc
  have hrest : 0 ∉ rest l := rest_noNul hl
  have hreturned {r : Option Kernel} (O' : Set Span) (hr : Returns kend O' (· = F) k r) :
      ∃ k'' O', orStop .stuck r = .ok k'' ∧ Spares kend O' (· = F) k k'' := by
    obtain ⟨k'', rfl, hk''⟩ := hr
    exact ⟨k'', O', rfl, hk''⟩
  cases c with
  | help => exact ⟨_, O, rfl, h.say _⟩
  | clear => exact ⟨_, O, rfl, h.congr rfl⟩
  | echo =>
    apply hreturned O
    rw [hargs, cmdEcho, writestring_eq hrest, Option.map_some]
    exact h.returns rfl
  | meminfo => exact hreturned O h.meminfo
  | alloctest =>
    obtain ⟨O', hO'⟩ := h.alloctest
    exact hreturned O' hO'
  | ls => exact hreturned O h.ls
  | cat =>
    apply hreturned O
    rw [hargs]
    exact h.cat ⟨rest l, hrest⟩ old
  | write =>
    obtain ⟨content, m', hsplit, ⟨old', hname⟩, hcontent, hout⟩ := splitCommand_spec hrest hargs
    have hedit := h.edit hbuf hout
    rw [runCommand, cmdWrite, hsplit]
    by_cases hnil : word (rest l) = []
    · apply hreturned O
      rw [writeFile, setMem_mem, hname, hnil]
      exact hedit.returns rfl
    · obtain ⟨k'', hrun, hk'', -⟩ := hedit.write (f := ⟨word (rest l), word_noNul hrest⟩) hbuf hname
        hnil hcontent (rest_noNul hrest) (hF.write hc.symm)
      exact hreturned O ⟨k'', hrun, hk''⟩
  | rm =>
    by_cases hnil : rest l = []
    · apply hreturned O
      rw [cmdRm, hargs, hnil]
      exact h.returns rfl
    · obtain ⟨k'', hrun, hk'', -⟩ := h.rm (f := ⟨rest l, hrest⟩) hbuf hargs hnil (hF.rm hc.symm)
      exact hreturned O ⟨k'', hrun, hk''⟩
  | _ => cases hown

/-- So does the whole line. -/
theorem Spares.execute (hbuf : buf + cmdBufferSize ≤ kend.addr) (h : Spares kend O (· = F) k k')
    (hl : 0 ∉ l) (hchars : chars buf k'.fs.mem 0 = l ++ 0 :: old) (hF : Harmless F l) :
    ∃ k'' O', shellExecute buf ext 0 k' = .ok k'' ∧ Spares kend O' (· = F) k k'' := by
  obtain ⟨args, m', hout, hargs, hrun⟩ := shellExecute_eq ext hl hchars
  have hedit := h.edit hbuf hout
  rw [hrun]
  by_cases hw : word l = []
  · rw [if_pos hw]
    exact ⟨_, O, rfl, hedit.congr rfl⟩
  · rw [if_neg hw]
    cases hfind : commands.find? (fun c => text c.word = word l) with
    | none => exact ⟨_, O, rfl, hedit.congr rfl⟩
    | some c =>
      have hc : text c.word = word l := by simpa using List.find?_some hfind
      obtain ⟨k'', O', hok, hk''⟩ := hedit.run ext hbuf hl hargs hF hc
      cases c <;> dsimp only <;> rw [hok] <;> exact ⟨_, O', rfl, hk''.congr rfl⟩

/-! ## Typing -/

/-- The shell waits for a line, with the files intact. -/
structure Idle (kend : KernelEnd) (buf : ℕ) (s : State) : Prop where
  len : s.cmdLen = 0
  ready : ∃ O, RamfsOk (OnHeap kend) O s.kernel.fs

theorem Idle.agrees (h : Idle kend buf s) : Agrees buf s ⟨[], s.given⟩ :=
  ⟨h.len, Nat.zero_le _, List.not_mem_nil, rfl, _, rfl⟩

/-- Within a line only the buffer and the terminal change. -/
theorem handleChar_within {e : Editor} {c : UInt8} (hA : Agrees buf s e) (hnl : c ≠ newline) :
    ∃ s', shellHandleChar buf ext s c = .ok s' ∧
      ∃ m', (∀ x, ¬ InBuffer buf x → m' x = s.kernel.fs.mem x) ∧
        s'.kernel.fs = (s.kernel.setMem m').fs := by
  unfold shellHandleChar
  rw [if_neg hnl]
  split_ifs with hbs hpos hfit
  · exact ⟨_, rfl, s.kernel.fs.mem, fun _ _ => rfl, rfl⟩
  · exact ⟨_, rfl, s.kernel.fs.mem, fun _ _ => rfl, rfl⟩
  · obtain ⟨old, m', hstore, -, hout⟩ := hA.next c
    rw [hstore]
    exact ⟨_, rfl, m', hout, rfl⟩
  · exact ⟨_, rfl, s.kernel.fs.mem, fun _ _ => rfl, rfl⟩

/-- A character of a harmless line. -/
theorem handleChar_spares (hbuf : buf + cmdBufferSize ≤ kend.addr) {e : Editor} {c : UInt8}
    (hA : Agrees buf s e) (h : Spares kend O (· = F) k s.kernel) (hc : c ≠ 0)
    (hF : c = newline → Harmless F e.held) :
    ∃ s' O', shellHandleChar buf ext s c = .ok s' ∧ Agrees buf s' (e.step c) ∧
      Spares kend O' (· = F) k s'.kernel := by
  have hspares : ∃ s' O', shellHandleChar buf ext s c = .ok s' ∧
      Spares kend O' (· = F) k s'.kernel := by
    by_cases hnl : c = newline
    · subst hnl
      obtain ⟨old, m', hout, hchars, hrun⟩ := hA.enter ext
      have hedit := (h.call (.putchar newline)).edit hbuf hout
      obtain ⟨k'', O', hk'', hspares⟩ := hedit.execute ext hbuf hA.noNul hchars (hF rfl)
      rw [hrun, hk'']
      exact ⟨_, O', rfl, hspares⟩
    · obtain ⟨s', hs', m', hout, hfs⟩ := handleChar_within ext hA hnl
      exact ⟨s', O, hs', (h.edit hbuf hout).congr hfs⟩
  obtain ⟨s', O', hs', hspares⟩ := hspares
  exact ⟨s', O', hs', hA.step_ok ext hc hs', hspares⟩

/-- So do all lines, if they are harmless. -/
theorem feed_spares (hbuf : buf + cmdBufferSize ≤ kend.addr) {cs held : List UInt8}
    {lines : List (List UInt8)} (hA : Agrees buf s ⟨held, lines⟩)
    (h : Spares kend O (· = F) k s.kernel) (hcs : 0 ∉ cs)
    (hF : ∀ l ∈ (Editor.run ⟨held, []⟩ cs).lines, Harmless F l) :
    ∃ s' O', feed buf ext s cs = .ok s' ∧ Agrees buf s' (Editor.run ⟨held, lines⟩ cs) ∧
      Spares kend O' (· = F) k s'.kernel := by
  induction cs generalizing s held lines O with
  | nil => exact ⟨s, O, rfl, hA, h⟩
  | cons c cs ih =>
    rw [List.mem_cons, not_or] at hcs
    have hlines : (Editor.run ⟨held, []⟩ (c :: cs)).lines =
        (Editor.step ⟨held, []⟩ c).lines ++
          (Editor.run ⟨(Editor.step ⟨held, []⟩ c).held, []⟩ cs).lines :=
      congrArg Editor.lines (Editor.run_lines _ (Editor.step ⟨held, []⟩ c).lines cs)
    have hheld : (Editor.step ⟨held, lines⟩ c).held = (Editor.step ⟨held, []⟩ c).held := by
      unfold Editor.step
      split_ifs <;> rfl
    rw [hlines] at hF
    obtain ⟨s₁, O₁, hs₁, hA₁, h₁⟩ := handleChar_spares ext hbuf hA h (Ne.symm hcs.1) (by
      rintro rfl
      exact hF held (List.mem_append_left _ (by simp [Editor.step])))
    have hA₂ : Agrees buf s₁
        ⟨(Editor.step ⟨held, []⟩ c).held, (Editor.step ⟨held, lines⟩ c).lines⟩ := hheld ▸ hA₁
    obtain ⟨s', O', hs', hA', h'⟩ := ih hA₂ h₁ hcs.2 (fun l hl => hF l (List.mem_append_right _ hl))
    rw [← hheld] at hA'
    exact ⟨s', O', (feed_cons ext hs₁).trans hs', hA', h'⟩

/-! ## One line -/

/-- What the terminal shows while a line is typed. -/
def echoed (l : List UInt8) : List Call := (l ++ [newline]).map .putchar

def Typable (c : UInt8) : Prop := c ≠ newline ∧ c ≠ backspace ∧ c ≠ 0

instance : DecidablePred Typable := fun c =>
  inferInstanceAs (Decidable (c ≠ newline ∧ c ≠ backspace ∧ c ≠ 0))

theorem typable_of_all (h : l.all (fun c => decide (Typable c)) = true) : ∀ c ∈ l, Typable c := by
  simpa using h

/-- A character that fits is shown and held. -/
theorem handleChar_typed {e : Editor} {c : UInt8} (hA : Agrees buf s e) (hc : Typable c)
    (hfit : e.held.length < cmdBufferSize - 1) :
    ∃ m', (∀ x, ¬ InBuffer buf x → m' x = s.kernel.fs.mem x) ∧
      ∃ s', shellHandleChar buf ext s c = .ok s' ∧ Agrees buf s' ⟨e.held ++ [c], e.lines⟩ ∧
        s'.kernel = (s.kernel.setMem m').call (.putchar c) := by
  obtain ⟨hnl, hbs, h0⟩ := hc
  obtain ⟨m', hstore, hout, hA'⟩ := hA.hold h0 hfit
  refine ⟨m', hout, _, ?_, hA', rfl⟩
  rw [shellHandleChar, if_neg hnl, if_neg hbs, if_pos (hA.len.trans_lt hfit), hstore]
  rfl

theorem feed_typed {e : Editor} (hA : Agrees buf s e) (hl : ∀ c ∈ l, Typable c)
    (hfit : e.held.length + l.length ≤ cmdBufferSize - 1) :
    ∃ m', (∀ x, ¬ InBuffer buf x → m' x = s.kernel.fs.mem x) ∧
      ∃ s', feed buf ext s l = .ok s' ∧ Agrees buf s' ⟨e.held ++ l, e.lines⟩ ∧
        s'.kernel = { s.kernel.setMem m' with screen := s.kernel.screen ++ l.map .putchar } := by
  induction l generalizing s e with
  | nil =>
    exact ⟨s.kernel.fs.mem, fun _ _ => rfl, s, rfl, by simpa using hA, by simp [Kernel.setMem]⟩
  | cons c l ih =>
    rw [List.length_cons] at hfit
    obtain ⟨m₁, hout₁, s₁, hstep, hA₁, hk₁⟩ :=
      handleChar_typed ext hA (hl c List.mem_cons_self) (by omega)
    obtain ⟨m', hout, s', hs', hA', hk⟩ := ih hA₁ (fun d hd => hl d (List.mem_cons_of_mem c hd))
      (by simp; omega)
    have hmem : s₁.kernel.fs.mem = m₁ := by rw [hk₁]; rfl
    refine ⟨m', fun x hx => (hout x hx).trans (hmem ▸ hout₁ x hx), s',
      (feed_cons ext hstep).trans hs', ?_, ?_⟩
    · simpa using hA'
    · rw [hk, hk₁]
      simp [Kernel.setMem, Kernel.call]

/-- A line is typed: its command runs with the rest of the line in the buffer. -/
theorem feed_line (hbuf : buf + cmdBufferSize ≤ kend.addr) (h : Idle kend buf s)
    (hl : ∀ c ∈ l, Typable c) (hfit : l.length ≤ cmdBufferSize - 1) {c : Command}
    (hw : word l = text c.word) (hc : c ≠ .clear) (P : List UInt8 → Prop) :
    ∃ O k₁ args old, Spares kend O P s.kernel k₁ ∧ k₁.screen = s.kernel.screen ++ echoed l ∧
      chars buf k₁.fs.mem args = rest l ++ 0 :: old ∧ 0 ∉ rest l ∧
      feed buf ext s (l ++ [newline]) = (runCommand buf ext args k₁ c).map
        (fun k => ⟨{ k with screen := k.screen ++ prompt }, 0, s.given ++ [l]⟩) := by
  obtain ⟨O, hO⟩ := h.ready
  obtain ⟨m₁, hout₁, s₁, hs₁, hA₁, hk₁⟩ := feed_typed ext h.agrees hl (by simpa using hfit)
  obtain ⟨old, m₂, hout₂, hchars, henter⟩ := hA₁.enter ext
  have hl0 : 0 ∉ l := fun h0 => (hl 0 h0).2.2 rfl
  obtain ⟨args, m₃, hout₃, hargs, hrun⟩ := shellExecute_eq ext hl0
    (k := (s₁.kernel.call (.putchar newline)).setMem m₂) hchars
  have hspares₁ : Spares kend O P s.kernel s₁.kernel :=
    ((Spares.refl hO).edit hbuf hout₁).congr (by rw [hk₁])
  refine ⟨O, ((s₁.kernel.call (.putchar newline)).setMem m₂).setMem m₃, args, old,
    ((hspares₁.call _).edit hbuf hout₂).edit hbuf hout₃, ?_, hargs, rest_noNul hl0, ?_⟩
  · simp [hk₁, echoed]
  · have hne : word l ≠ [] := by
      rw [hw]
      cases c <;> decide
    have hfind : commands.find? (fun d => text d.word = word l) = some c := by
      rw [hw]
      cases c <;> decide
    have hlast : feed buf ext s (l ++ [newline]) = shellHandleChar buf ext s₁ newline := by
      rw [feed, List.foldlM_append]
      change (feed buf ext s l >>= _) = _
      rw [hs₁]
      exact bind_pure (shellHandleChar buf ext s₁ newline)
    rw [if_neg hne, hfind] at hrun
    rw [hlast, henter, hrun, hA₁.given]
    cases c <;> first | exact absurd rfl hc | skip
    all_goals
      dsimp only
      cases runCommand buf ext args _ _ <;> simp [Except.map, printPrompt_eq]

/-! ## Names and texts -/

def Printable (c : UInt8) : Prop := 32 ≤ c ∧ c < 127

theorem Printable.typable {c : UInt8} (h : Printable c) : Typable c := by
  refine ⟨?_, ?_, ?_⟩ <;> rintro rfl <;> exact absurd h.1 (by decide)

/-- A name of 1 to 31 printable characters, none of them a space. -/
structure FileName where
  bytes : List UInt8
  ne_nil : bytes ≠ []
  short : bytes.length ≤ 31
  chars : ∀ c ∈ bytes, Printable c ∧ c ≠ space

/-- A printable text that does not start with a space. -/
structure Content where
  bytes : List UInt8
  chars : ∀ c ∈ bytes, Printable c
  start : bytes.head? ≠ some space

namespace FileName
variable (F : FileName)

theorem noSpace : space ∉ F.bytes := fun h => (F.chars _ h).2 rfl

theorem typable : ∀ c ∈ F.bytes, Typable c := fun c hc => (F.chars c hc).1.typable

theorem head_ne : F.bytes.head? ≠ some space := fun h => F.noSpace (List.mem_of_head? h)

/-- The name as a C string. -/
def toCString : CString := ⟨F.bytes, fun h => (F.typable 0 h).2.2 rfl⟩

end FileName

theorem Content.noNul (T : Content) : 0 ∉ T.bytes := fun h => (T.chars 0 h).typable.2.2 rfl

/-- Spaces behind the first word, and what follows them. -/
theorem split_spaces (hw : space ∉ w) (hr : r.head? ≠ some space) (hn : 1 ≤ n ∨ r = []) :
    word (w ++ (List.replicate n space ++ r)) = w ∧
      rest (w ++ (List.replicate n space ++ r)) = r := by
  have htail : (List.replicate n space ++ r).takeWhile (· ≠ space) = [] ∧
      (List.replicate n space ++ r).dropWhile (· ≠ space) = List.replicate n space ++ r := by
    cases n with
    | zero =>
      obtain rfl : r = [] := hn.resolve_left (by decide)
      exact ⟨rfl, rfl⟩
    | succ n => simp [List.replicate_succ]
  have hspaces : (List.replicate n space ++ r).dropWhile (· = space) = r := by
    rw [List.dropWhile_append_of_pos (by simp)]
    cases r with
    | nil => rfl
    | cons c r =>
      rw [List.dropWhile_cons_of_neg]
      simpa using hr
  have hall : ∀ c ∈ w, decide (c ≠ space) = true := by
    intro c hc
    have hne : c ≠ space := by
      rintro rfl
      exact hw hc
    simpa using hne
  constructor
  · rw [word, List.takeWhile_append_of_pos hall, htail.1, List.append_nil]
  · rw [rest, List.dropWhile_append_of_pos hall, htail.2, hspaces]

/-! ## The lines about a file -/

def catLine (F : List UInt8) : List UInt8 := text "cat " ++ F

def rmLine (F : List UInt8) : List UInt8 := text "rm " ++ F

/-- With `a` spaces before the name and `b` behind it. -/
def writeLine (F T : List UInt8) (a b : ℕ) : List UInt8 :=
  text "write" ++ (List.replicate a space ++ (F ++ (List.replicate b space ++ T)))

/-- Complete lines, all of them harmless for the file. -/
structure HarmlessLines (F cs : List UInt8) : Prop where
  noNul : 0 ∉ cs
  complete : (Editor.run ⟨[], []⟩ cs).held = []
  harmless : ∀ l ∈ (Editor.run ⟨[], []⟩ cs).lines, Harmless F l

section lines
variable (hbuf : buf + cmdBufferSize ≤ kend.addr)
include hbuf

theorem type_lines {cs : List UInt8} (h : Idle kend buf s) (hcs : HarmlessLines F cs) :
    ∃ s', feed buf ext s cs = .ok s' ∧ Idle kend buf s' ∧
      ∀ st, Meets s.kernel.fs F st → Meets s'.kernel.fs F st := by
  obtain ⟨O, hO⟩ := h.ready
  obtain ⟨s', O', hs', hA, hspares⟩ :=
    feed_spares ext hbuf h.agrees (Spares.refl hO) hcs.noNul hcs.harmless
  refine ⟨s', hs', ⟨?_, O', hspares.ok⟩, fun st hm => hspares.meets F st rfl hm⟩
  rw [hA.len, Editor.run_lines, hcs.complete]
  rfl

/-- `cat` shows what is known of the file. -/
theorem type_cat (h : Idle kend buf s) (F : FileName) {st : Status} {out : List Call}
    (hm : Meets s.kernel.fs F.bytes st)
    (hcat : ∀ O k tail, RamfsOk (OnHeap kend) O k.fs → Meets k.fs F.bytes st →
      cmdCat (F.bytes ++ 0 :: tail) k = some { k with screen := k.screen ++ out }) :
    ∃ s', feed buf ext s (catLine F.bytes ++ [newline]) = .ok s' ∧
      s'.kernel.screen = s.kernel.screen ++ echoed (catLine F.bytes) ++ out ++ prompt := by
  obtain ⟨hword, hrest⟩ : word (catLine F.bytes) = text "cat" ∧ rest (catLine F.bytes) = F.bytes :=
    split_spaces (w := text "cat") (n := 1) (by decide) F.head_ne (.inl le_rfl)
  have hshort := F.short
  have htyped : ∀ c ∈ catLine F.bytes, Typable c :=
    List.forall_mem_append.mpr ⟨typable_of_all (by decide), F.typable⟩
  obtain ⟨O, k₁, args, old, hspares, hscreen, hargs, -, hfeed⟩ :=
    feed_line ext hbuf h htyped (by simp [catLine, text, cmdBufferSize]; omega) (c := .cat) hword
      (by decide) (fun _ => True)
  rw [hfeed, runCommand, hargs, hrest, hcat O k₁ old hspares.ok (hspares.meets _ _ trivial hm)]
  exact ⟨_, rfl, by simp [hscreen]⟩

theorem type_rm (h : Idle kend buf s) (F : FileName) :
    ∃ s', feed buf ext s (rmLine F.bytes ++ [newline]) = .ok s' ∧ Idle kend buf s' ∧
      Meets s'.kernel.fs F.bytes .absent ∧ ∀ d, Meets s.kernel.fs F.bytes (.holds d) →
        s'.kernel.screen =
          s.kernel.screen ++ echoed (rmLine F.bytes) ++ removed F.bytes ++ prompt := by
  obtain ⟨hword, hrest⟩ : word (rmLine F.bytes) = text "rm" ∧ rest (rmLine F.bytes) = F.bytes :=
    split_spaces (w := text "rm") (n := 1) (by decide) F.head_ne (.inl le_rfl)
  have hshort := F.short
  have htyped : ∀ c ∈ rmLine F.bytes, Typable c :=
    List.forall_mem_append.mpr ⟨typable_of_all (by decide), F.typable⟩
  -- what is known of `F` reaches the command, and the command changes it
  obtain ⟨O, k₁, args, old, hspares, hscreen, hargs, -, hfeed⟩ :=
    feed_line ext hbuf h htyped (by simp [rmLine, text, cmdBufferSize]; omega) (c := .rm) hword
      (by decide) (fun _ => True)
  rw [hrest] at hargs
  obtain ⟨k₂, hrm, hspares₂, habsent, hshown⟩ := (Spares.refl (P := fun _ => False) hspares.ok).rm
    (f := F.toCString) hbuf hargs F.ne_nil not_false
  rw [hfeed, runCommand, hrm]
  refine ⟨_, rfl, ⟨rfl, O, hspares₂.ok⟩, habsent, fun d hm => ?_⟩
  rcases hshown with hshown | ⟨-, hno⟩
  · simp only [hshown, hscreen]
    rfl
  · obtain ⟨i, hi, -⟩ := hspares.meets _ _ trivial hm
    exact absurd hi (hno i)

theorem type_write (h : Idle kend buf s) (F : FileName) (T : Content) {a b : ℕ} (ha : 1 ≤ a)
    (hb : 1 ≤ b ∨ T.bytes = [])
    (hfit : (writeLine F.bytes T.bytes a b).length ≤ cmdBufferSize - 1) :
    ∃ s', feed buf ext s (writeLine F.bytes T.bytes a b ++ [newline]) = .ok s' ∧ Idle kend buf s' ∧
      (s'.kernel.screen = s.kernel.screen ++ echoed (writeLine F.bytes T.bytes a b) ++
          written F.bytes T.bytes.length ++ prompt ∧ Meets s'.kernel.fs F.bytes (.holds T.bytes) ∨
        s'.kernel.screen =
          s.kernel.screen ++ echoed (writeLine F.bytes T.bytes a b) ++ refused ++ prompt) := by
  obtain ⟨hword, hrest⟩ : word (writeLine F.bytes T.bytes a b) = text "write" ∧
      rest (writeLine F.bytes T.bytes a b) = F.bytes ++ (List.replicate b space ++ T.bytes) := by
    apply split_spaces (by decide) _ (.inl ha)
    rw [List.head?_append_of_ne_nil _ F.ne_nil]
    exact F.head_ne
  obtain ⟨hname, hcontent⟩ := split_spaces F.noSpace T.start hb
  have htyped : ∀ c ∈ writeLine F.bytes T.bytes a b, Typable c := by
    have hspace : ∀ n, ∀ c ∈ List.replicate n space, Typable c := by
      intro n c hc
      rw [List.eq_of_mem_replicate hc]
      decide
    simp only [writeLine, List.forall_mem_append]
    exact ⟨typable_of_all (by decide), hspace a, F.typable, hspace b,
      fun c hc => (T.chars c hc).typable⟩
  obtain ⟨O, k₁, args, old, hspares, hscreen, hargs, hnul, hfeed⟩ :=
    feed_line ext hbuf h htyped hfit (c := .write) hword (by decide) (fun _ => True)
  obtain ⟨content, m', hsplit, ⟨old', hname'⟩, hcontent', hout⟩ := splitCommand_spec hnul hargs
  rw [hrest, hname] at hname'
  rw [hrest, hcontent] at hcontent'
  obtain ⟨k₂, hwrite, hspares₂, hshown⟩ :=
    ((Spares.refl (P := fun _ => False) hspares.ok).edit hbuf hout).write (f := F.toCString) hbuf
      hname' F.ne_nil hcontent' T.noNul not_false
  rw [hfeed, runCommand, cmdWrite, hsplit]
  simp only [orStop, Except.bind, hwrite]
  refine ⟨_, rfl, ⟨rfl, O, hspares₂.ok⟩, ?_⟩
  rcases hshown with ⟨hshown, hholds⟩ | hshown
  · refine .inl ⟨?_, hholds⟩
    simp only [hshown, setMem_screen, hscreen]
    rfl
  · right
    simp only [hshown, setMem_screen, hscreen]

end lines

/-- The line `write F T` was answered with the success message: whatever harmless lines follow,
`cat F` shows `T` and a newline, and once `rm F` was typed, `cat F` reports the file as missing. -/
theorem write_then_cat (hbuf : buf + cmdBufferSize ≤ kend.addr) (h : Idle kend buf s) (F : FileName)
    (T : Content) {a b : ℕ} (ha : 1 ≤ a) (hb : 1 ≤ b ∨ T.bytes = [])
    (hfit : (writeLine F.bytes T.bytes a b).length ≤ cmdBufferSize - 1) :
    ∃ s₁, feed buf ext s (writeLine F.bytes T.bytes a b ++ [newline]) = .ok s₁ ∧
      (s₁.kernel.screen = s.kernel.screen ++ echoed (writeLine F.bytes T.bytes a b) ++
          written F.bytes T.bytes.length ++ prompt →
        ∀ cs, HarmlessLines F.bytes cs → ∃ s₂, feed buf ext s₁ cs = .ok s₂ ∧
          (∃ s₃, feed buf ext s₂ (catLine F.bytes ++ [newline]) = .ok s₃ ∧
            s₃.kernel.screen = s₂.kernel.screen ++ echoed (catLine F.bytes) ++
              (T.bytes ++ [newline]).map .putchar ++ prompt) ∧
          ∃ s₃, feed buf ext s₂ (rmLine F.bytes ++ [newline]) = .ok s₃ ∧
            s₃.kernel.screen =
              s₂.kernel.screen ++ echoed (rmLine F.bytes) ++ removed F.bytes ++ prompt ∧
            ∀ cs, HarmlessLines F.bytes cs → ∃ s₄, feed buf ext s₃ cs = .ok s₄ ∧
              ∃ s₅, feed buf ext s₄ (catLine F.bytes ++ [newline]) = .ok s₅ ∧
                s₅.kernel.screen = s₄.kernel.screen ++ echoed (catLine F.bytes) ++
                  missing F.bytes ++ prompt) := by
  obtain ⟨s₁, hs₁, h₁, hcases⟩ := type_write ext hbuf h F T ha hb hfit
  refine ⟨s₁, hs₁, fun hsuccess cs hcs => ?_⟩
  have hholds : Meets s₁.kernel.fs F.bytes (.holds T.bytes) := by
    rcases hcases with ⟨-, hm⟩ | hrefused
    · exact hm
    · rw [hsuccess] at hrefused
      have hlen := congrArg List.length hrefused
      simp [written, refused] at hlen
      omega
  obtain ⟨s₂, hs₂, h₂, hkeep⟩ := type_lines ext hbuf h₁ hcs
  have hholds₂ := hkeep _ hholds
  refine ⟨s₂, hs₂, ?_, ?_⟩
  · apply type_cat ext hbuf h₂ F hholds₂
    intro O k tail hok hm
    have hlast : T.bytes.getLast? ≠ some newline := fun hlast =>
      (T.chars _ (List.mem_of_getLast? hlast)).typable.1 rfl
    have hshown : shown T.bytes = (T.bytes ++ [newline]).map .putchar := by
      rw [shown, if_neg hlast, List.map_append, List.map_singleton]
    rw [← hshown]
    exact cmdCat_holds (f := F.toCString) hok F.ne_nil hm
  · obtain ⟨s₃, hs₃, h₃, habsent, hshown⟩ := type_rm ext hbuf h₂ F
    refine ⟨s₃, hs₃, hshown _ hholds₂, fun cs' hcs' => ?_⟩
    obtain ⟨s₄, hs₄, h₄, hkeep'⟩ := type_lines ext hbuf h₃ hcs'
    refine ⟨s₄, hs₄, type_cat ext hbuf h₄ F (hkeep' _ habsent) fun O k tail hok hm => ?_⟩
    exact cmdCat_absent (f := F.toCString) hok F.ne_nil hm

/-! ## After the boot -/

/-- `shell_init` behind `ramfs_init`, on a heap and a memory. -/
def boot (r : Heap.HeapVars × Mem) : State :=
  shellInit ⟨⟨ramfsInit ⟨r.1, r.2, fun _ => ⟨Vector.replicate ramfsMaxName 0, 0, 0, false⟩, false⟩,
    []⟩, 0, []⟩

/-- Tasks may have the live blocks `O` already. -/
theorem boot_idle {r : Heap.HeapVars × Mem} (hI : OnHeap kend r.1 r.2 O) :
    Idle kend buf (boot r) := ⟨rfl, O, ramfsInit_ok hI⟩

/-- The heap of `Heap.smallImage`. -/
def bootedHeap : Heap.HeapVars × Mem := Heap.heapInit Heap.smallImage.addr (fun _ => 0)

theorem booted_idle : Idle Heap.smallImage buf (boot bootedHeap) :=
  boot_idle ⟨_, Heap.heapInit_holds Heap.smallImage (fun _ => 0)⟩

def nameA : FileName where
  bytes := [97]
  ne_nil := by decide
  short := by decide
  chars := by simp [Printable]; decide

def textHi : Content where
  bytes := [104, 105]
  chars := by simp [Printable]
  start := by decide

/-- `write a hi`, then `cat a`. -/
theorem write_then_cat_hi : ∃ s₁ s₂,
    feed 0x90000 (fun _ k => some k) (boot bootedHeap) (text "write a hi\n") = .ok s₁ ∧
    feed 0x90000 (fun _ k => some k) s₁ (text "cat a\n") = .ok s₂ ∧
    s₂.kernel.screen = s₁.kernel.screen ++ echoed (text "cat a") ++
      (text "hi\n").map .putchar ++ prompt := by
  have hbuf : 0x90000 + cmdBufferSize ≤ Heap.smallImage.addr := by decide
  obtain ⟨s₁, hs₁, hcat⟩ := write_then_cat (fun _ k => some k) hbuf booted_idle nameA textHi
    (a := 1) (b := 1) le_rfl (.inl le_rfl) (by decide)
  have hscreen : (feed 0x90000 (fun _ k => some k) (boot bootedHeap)
      (text "write a hi\n")).toOption.map (fun s => s.kernel.screen) =
        some ((boot bootedHeap).kernel.screen ++
          echoed (writeLine nameA.bytes textHi.bytes 1 1) ++
          written nameA.bytes textHi.bytes.length ++ prompt) := by
    decide +kernel
  have hline : writeLine nameA.bytes textHi.bytes 1 1 ++ [newline] = text "write a hi\n" := by
    decide
  rw [hline] at hs₁
  rw [hs₁] at hscreen
  obtain ⟨s₂, hs₂, ⟨s₃, hs₃, hshown⟩, -⟩ :=
    hcat (Option.some.inj hscreen) [] ⟨by simp, rfl, by simp [Editor.run]⟩
  obtain rfl : s₁ = s₂ := Except.ok.inj hs₂
  exact ⟨s₁, s₃, hs₁, hs₃, hshown⟩

end ShadOS.Shell

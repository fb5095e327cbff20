import ShadOS.Shell.Split

/-! # The line editor

What the user edits is a list of characters. The buffer with its length refines
this list: what lies behind the length never reaches a command, and no access
leaves the buffer.
-/

namespace ShadOS.Shell
open Machine Strings Ramfs

/-- The characters held, and the lines emitted so far. -/
@[ext] structure Editor where
  held : List UInt8
  lines : List (List UInt8)
  deriving DecidableEq, Repr

namespace Editor

def step (e : Editor) (c : UInt8) : Editor :=
  if c = newline then ⟨[], e.lines ++ [e.held]⟩
  else if c = backspace then { e with held := e.held.dropLast }
  else if e.held.length < cmdBufferSize - 1 then { e with held := e.held ++ [c] }
  else e

def run (e : Editor) (cs : List UInt8) : Editor := cs.foldl step e

variable {e : Editor} {cs cs' : List UInt8} {c : UInt8}

theorem run_append : e.run (cs ++ cs') = (e.run cs).run cs' := List.foldl_append

/-- The lines emitted before have no influence. -/
theorem run_lines (held : List UInt8) (lines : List (List UInt8)) (cs : List UInt8) :
    run ⟨held, lines⟩ cs = ⟨(run ⟨held, []⟩ cs).held, lines ++ (run ⟨held, []⟩ cs).lines⟩ := by
  induction cs generalizing held lines with
  | nil => simp [run]
  | cons c cs ih =>
    have hstep : step ⟨held, lines⟩ c =
        ⟨(step ⟨held, []⟩ c).held, lines ++ (step ⟨held, []⟩ c).lines⟩ := by
      unfold step
      split_ifs <;> simp
    change run (step ⟨held, lines⟩ c) cs = ⟨(run (step ⟨held, []⟩ c) cs).held,
      lines ++ (run (step ⟨held, []⟩ c) cs).lines⟩
    rw [hstep]
    cases step ⟨held, []⟩ c with
    | mk held' lines' => rw [ih held', ih held' lines', List.append_assoc]

/-- What follows a newline is edited as from the empty line. -/
theorem run_newline (pre post : List UInt8) : (run ⟨[], []⟩ (pre ++ newline :: post)).lines =
    (run ⟨[], []⟩ (pre ++ [newline])).lines ++ (run ⟨[], []⟩ post).lines := by
  have hempty : (run ⟨[], []⟩ (pre ++ [newline])).held = [] := by
    rw [run_append]
    rfl
  rw [List.append_cons, run_append]
  generalize run ⟨[], []⟩ (pre ++ [newline]) = e at hempty ⊢
  cases e with
  | mk held lines =>
    obtain rfl : held = [] := hempty
    rw [run_lines]

end Editor

/-! ## No access leaves the buffer -/

def Inside {α : Type} (r : Except Stop α) : Prop := r ≠ .error .outside

namespace Inside
variable {α β : Type} {r : Except Stop α}

theorem ok (a : α) : Inside (.ok a : Except Stop α) := by simp [Inside]

theorem stuck (o : Option α) : Inside (orStop .stuck o) := by
  cases o <;> simp [Inside, orStop]

theorem map {f : α → β} (h : Inside r) : Inside (r.map f) := by
  cases r with
  | error s =>
    cases s
    · exact absurd rfl h
    · simp [Inside, Except.map]
  | ok a => simp [Inside, Except.map]

theorem bind {f : α → Except Stop β} (h : Inside r) (hf : ∀ a, r = .ok a → Inside (f a)) :
    Inside (r.bind f) := by
  cases r with
  | error s =>
    cases s
    · exact absurd rfl h
    · simp [Inside, Except.bind]
  | ok a => exact hf a rfl

end Inside

variable (ext : Command → Kernel → Option Kernel) {buf line args : ℕ} {k : Kernel}
  {l old cs : List UInt8} {s : State} {e : Editor} {c : UInt8}

theorem cmdWrite_inside (hl : 0 ∉ l) (h : chars buf k.fs.mem args = l ++ 0 :: old) :
    Inside (cmdWrite buf args k) := by
  obtain ⟨p, m', hsplit, -⟩ := splitCommand_spec hl h
  rw [cmdWrite, hsplit]
  exact Inside.stuck _

theorem runCommand_inside (hl : 0 ∉ l) (h : chars buf k.fs.mem args = l ++ 0 :: old) (c : Command) :
    Inside (runCommand buf ext args k c) := by
  cases c with
  | help => exact Inside.ok _
  | clear => exact Inside.ok _
  | write => exact cmdWrite_inside hl h
  | _ => exact Inside.stuck _

theorem dispatch_inside (hline : line < cmdBufferSize) (hl : 0 ∉ l)
    (h : chars buf k.fs.mem args = l ++ 0 :: old) : Inside (dispatch buf ext line args k) := by
  unfold dispatch
  cases hchars : chars buf k.fs.mem line with
  | nil =>
    have hlen := congrArg List.length hchars
    rw [chars_length, List.length_nil] at hlen
    omega
  | cons c cs =>
    dsimp only
    split_ifs
    · exact Inside.ok _
    · apply (Inside.stuck _).bind
      intro o _
      rcases o with - | c
      · exact (Inside.stuck _).map
      · cases c <;> first | exact Inside.ok _ | exact (runCommand_inside ext hl h _).map

/-- The two splits of a terminated line stay inside the buffer. -/
theorem shellExecute_inside (hl : 0 ∉ l) (h : chars buf k.fs.mem 0 = l ++ 0 :: old) :
    Inside (shellExecute buf ext 0 k) := by
  obtain ⟨p, m', hsplit, -, hrest, -⟩ := splitCommand_spec hl h
  rw [shellExecute, hsplit]
  exact dispatch_inside ext (k := k.setMem m') (show 0 < cmdBufferSize by decide) (rest_noNul hl)
    hrest

/-! ## The buffer refines the editor -/

theorem feed_cons {s₁ : State} (h : shellHandleChar buf ext s c = .ok s₁) :
    feed buf ext s (c :: cs) = feed buf ext s₁ cs := by
  rw [feed, List.foldlM_cons, h]
  rfl

/-- The buffer starts with the characters held. -/
structure Agrees (buf : ℕ) (s : State) (e : Editor) : Prop where
  len : s.cmdLen = e.held.length
  short : e.held.length ≤ cmdBufferSize - 1
  noNul : 0 ∉ e.held
  given : s.given = e.lines
  buffer : ∃ old, chars buf s.kernel.fs.mem 0 = e.held ++ old

namespace Agrees

/-- There is a place behind the characters held. -/
theorem next (h : Agrees buf s e) (c : UInt8) : ∃ old m',
    storeChar buf s.kernel.fs.mem s.cmdLen c = some m' ∧ chars buf m' 0 = e.held ++ c :: old ∧
      ∀ x, ¬ InBuffer buf x → m' x = s.kernel.fs.mem x := by
  obtain ⟨old, hold⟩ := h.buffer
  have hshort := h.short
  have hlen := congrArg List.length hold
  rw [chars_length, List.length_append] at hlen
  have hlt : s.cmdLen < cmdBufferSize := by
    rw [h.len]
    unfold cmdBufferSize at *
    omega
  cases old with
  | nil =>
    unfold cmdBufferSize at *
    simp at hlen
    omega
  | cons d old =>
    refine ⟨old, _, storeChar_some hlt, ?_, ?_⟩
    · have hupdate := chars_update (c := c) hold
      rwa [Nat.zero_add, ← h.len] at hupdate
    · intro x hx
      apply Function.update_of_ne
      rintro rfl
      exact hx ⟨Nat.le_add_right _ _, Nat.add_lt_add_left hlt _⟩

/-- The end of a line: the line is in the buffer, terminated, when `shell_execute` starts. -/
theorem enter (h : Agrees buf s e) : ∃ old m', (∀ x, ¬ InBuffer buf x → m' x = s.kernel.fs.mem x) ∧
    chars buf m' 0 = e.held ++ 0 :: old ∧ shellHandleChar buf ext s newline =
      (shellExecute buf ext 0 ((s.kernel.call (.putchar newline)).setMem m')).map
        (fun k => ⟨k, 0, s.given ++ [e.held]⟩) := by
  obtain ⟨old, m', hstore, hchars, hout⟩ := h.next 0
  refine ⟨old, m', hout, hchars, ?_⟩
  rw [shellHandleChar, if_pos rfl]
  simp only [Kernel.call, hstore, orStop, Except.bind, hchars, untilNul_append h.noNul]

/-- A character that fits goes behind those held. -/
theorem hold (h : Agrees buf s e) (hc : c ≠ 0) (hfit : e.held.length < cmdBufferSize - 1) : ∃ m',
    storeChar buf s.kernel.fs.mem s.cmdLen c = some m' ∧
      (∀ x, ¬ InBuffer buf x → m' x = s.kernel.fs.mem x) ∧
      Agrees buf
        { s with kernel := (s.kernel.setMem m').call (.putchar c), cmdLen := s.cmdLen + 1 }
        { e with held := e.held ++ [c] } := by
  obtain ⟨old, m', hstore, hchars, hout⟩ := h.next c
  refine ⟨m', hstore, hout, ?_, ?_, ?_, h.given, old, ?_⟩
  · simp [h.len]
  · rw [List.length_append, List.length_singleton]
    omega
  · simpa [h.noNul] using hc.symm
  · change chars buf m' 0 = _
    rw [hchars, List.append_cons]

/-- The buffer keeps a character that is taken back. -/
theorem erase (h : Agrees buf s e) (hpos : 0 < s.cmdLen) :
    Agrees buf { s with kernel := s.kernel.call .backspace, cmdLen := s.cmdLen - 1 }
      { e with held := e.held.dropLast } := by
  obtain ⟨old, hold⟩ := h.buffer
  have hshort := h.short
  have hne : e.held ≠ [] := by
    intro hnil
    rw [h.len, hnil] at hpos
    exact absurd hpos (by simp)
  constructor
  · simp [h.len]
  · simp only [List.length_dropLast]
    omega
  · exact fun hin => h.noNul (List.dropLast_subset _ hin)
  · exact h.given
  · refine ⟨e.held.getLast hne :: old, ?_⟩
    change chars buf s.kernel.fs.mem 0 = _
    rw [hold, List.append_cons, List.dropLast_append_getLast]

/-- A newline emits the line and starts from the empty one. -/
theorem endLine (h : Agrees buf s e) : shellHandleChar buf ext s newline = .error .stuck ∨
    ∃ s', shellHandleChar buf ext s newline = .ok s' ∧ Agrees buf s' ⟨[], e.lines ++ [e.held]⟩ := by
  obtain ⟨old, m', -, hchars, hrun⟩ := h.enter ext
  have hinside := shellExecute_inside ext
    (k := (s.kernel.call (.putchar newline)).setMem m') h.noNul hchars
  rw [hrun]
  generalize shellExecute buf ext 0 _ = r at hinside
  cases r with
  | error t =>
    cases t with
    | outside => exact absurd rfl hinside
    | stuck => exact .inl rfl
  | ok k =>
    refine .inr ⟨_, rfl, rfl, Nat.zero_le _, List.not_mem_nil, ?_, _, rfl⟩
    dsimp only
    rw [h.given]

/-- A character does to the buffer what it does to the editor, unless a command does not return. -/
theorem step (h : Agrees buf s e) (hc : c ≠ 0) :
    shellHandleChar buf ext s c = .error .stuck ∨
      ∃ s', shellHandleChar buf ext s c = .ok s' ∧ Agrees buf s' (e.step c) := by
  by_cases hnl : c = newline
  · rw [hnl, Editor.step, if_pos rfl]
    exact h.endLine ext
  · unfold shellHandleChar Editor.step
    rw [← h.len, if_neg hnl, if_neg hnl]
    split_ifs with hbs hpos hfit
    · exact .inr ⟨_, rfl, h.erase hpos⟩
    · have hnil : e.held = [] := by
        rw [h.len] at hpos
        simpa using hpos
      refine .inr ⟨s, rfl, ?_⟩
      rw [hnil, List.dropLast_nil, ← hnil]
      exact h
    · obtain ⟨m', hstore, -, hA⟩ := h.hold hc (h.len ▸ hfit)
      rw [hstore]
      exact .inr ⟨_, rfl, hA⟩
    · exact .inr ⟨s, rfl, h⟩

/-- So it does when the call has returned. -/
theorem step_ok (h : Agrees buf s e) (hc : c ≠ 0) {s' : State}
    (hs : shellHandleChar buf ext s c = .ok s') : Agrees buf s' (e.step c) := by
  rcases h.step ext hc with hstuck | ⟨s'', hs'', h'⟩
  · rw [hs] at hstuck
    cases hstuck
  · obtain rfl : s' = s'' := Except.ok.inj (hs.symm.trans hs'')
    exact h'

theorem run (h : Agrees buf s e) (hcs : 0 ∉ cs) : feed buf ext s cs = .error .stuck ∨
    ∃ s', feed buf ext s cs = .ok s' ∧ Agrees buf s' (e.run cs) := by
  induction cs generalizing s e with
  | nil => exact .inr ⟨s, rfl, h⟩
  | cons c cs ih =>
    rw [List.mem_cons, not_or] at hcs
    rcases h.step ext (Ne.symm hcs.1) with hstuck | ⟨s₁, hstep, h₁⟩
    · left
      rw [feed, List.foldlM_cons, hstuck]
      rfl
    · rw [feed_cons ext hstep]
      exact ih h₁ hcs.2

end Agrees

theorem shellInit_agrees (buf : ℕ) (s : State) : Agrees buf (shellInit s) ⟨[], []⟩ :=
  ⟨rfl, Nat.zero_le _, List.not_mem_nil, rfl, _, rfl⟩

/-- From `shell_init` on, for all characters typed and whatever the commands do: no access leaves
the buffer; and when every call has returned, `shell_execute` was given the lines of the editor,
each of them edited as from the empty line, and the buffer starts with the characters held. -/
theorem shell_refines (buf : ℕ) (s : State) (hcs : 0 ∉ cs) :
    feed buf ext (shellInit s) cs ≠ .error .outside ∧
      ∀ s', feed buf ext (shellInit s) cs = .ok s' →
        s'.given = (Editor.run ⟨[], []⟩ cs).lines ∧
        (∀ pre post, cs = pre ++ newline :: post →
          s'.given = (Editor.run ⟨[], []⟩ (pre ++ [newline])).lines ++
            (Editor.run ⟨[], []⟩ post).lines) ∧
        s'.cmdLen ≤ cmdBufferSize - 1 ∧
        (chars buf s'.kernel.fs.mem 0).take s'.cmdLen = (Editor.run ⟨[], []⟩ cs).held := by
  rcases (shellInit_agrees buf s).run ext hcs with hstuck | ⟨s₁, hfeed, h⟩
  · rw [hstuck]
    exact ⟨by simp, fun s' hs' => nomatch hs'⟩
  · rw [hfeed]
    refine ⟨by simp, ?_⟩
    intro s' hs'
    cases hs'
    obtain ⟨old, hold⟩ := h.buffer
    refine ⟨h.given, ?_, ?_, ?_⟩
    · intro pre post hpost
      rw [h.given, hpost, Editor.run_newline]
    · rw [h.len]
      exact h.short
    · rw [hold, h.len, List.take_left]

/-- A shell without files. -/
def freshShell : State where
  kernel :=
    ⟨⟨⟨0, 0, 0⟩, fun _ => 0, fun _ => ⟨Vector.replicate ramfsMaxName 0, 0, 0, false⟩, false⟩, []⟩
  cmdLen := 0
  given := []

/-- A corrected line. -/
theorem shell_refines_line : ∃ s', feed 0x90000 (fun _ k => some k) (shellInit freshShell)
    (text "eh" ++ [backspace, newline]) = .ok s' ∧ s'.given = [text "e"] := by
  have hrun : ∃ s', feed 0x90000 (fun _ k => some k) (shellInit freshShell)
      (text "eh" ++ [backspace, newline]) = .ok s' := ⟨_, rfl⟩
  obtain ⟨s', hs'⟩ := hrun
  have h := ((shell_refines (fun _ k => some k) 0x90000 freshShell (by decide)).2 s' hs').1
  exact ⟨s', hs', h⟩

end ShadOS.Shell

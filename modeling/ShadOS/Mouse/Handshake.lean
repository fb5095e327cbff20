import ShadOS.Mouse.Port

/-! # The handshake of `mouse_init`

What is on its way to port 0x60 is the same whether the controller already took
the last byte or takes it later, and whether the mouse sent its answer or is
about to. So at any pace that keeps the timeouts every answer is read, unless
more than sixteen bytes were left in front of them.
-/

namespace ShadOS.Mouse

/-- Within half a timeout the controller takes a byte, and so the mouse sends one. -/
def Prompt (world : ℕ → List Happening) : Prop :=
  ∀ n, (∃ m, n ≤ m ∧ m < n + timeout / 2 ∧ .takes ∈ world m) ∧
    ∃ m, n ≤ m ∧ m < n + timeout / 2 ∧ .sends ∈ world m

namespace Controller
variable {c : Controller} {k : Bool} {v b cfg : UInt8} {q : List UInt8} {t : Target} {rep : Bool}
  {lost : ℕ} {e : Happening} {es : List Happening}

theorem take_of_none (h : c.input = none) : c.take = c := by
  rw [take, h]

/-- What `receive` leaves alone. -/
theorem receive_fields (c : Controller) (k : Bool) (v : UInt8) : (c.receive k v).input = c.input ∧
    (c.receive k v).moved = c.moved ∧ (c.receive k v).overwritten = c.overwritten ∧
      c.out <+: (c.receive k v).out := by
  cases k with
  | true =>
    simp only [receive, command, if_true]
    split_ifs <;> simp
  | false =>
    simp only [receive, data, Bool.false_eq_true, if_false]
    split
    · simp
    · simp
    · rw [tell]
      split_ifs <;> simp

theorem take_fields (c : Controller) : c.take.input = none ∧ c.take.moved = c.moved ∧
    c.take.overwritten = c.overwritten ∧ c.out <+: c.take.out := by
  rw [take]
  split
  · next h => exact ⟨h, rfl, rfl, List.prefix_rfl⟩
  · next k v h => exact receive_fields { c with input := none } k v

@[simp] theorem take_input : c.take.input = none := c.take_fields.1
@[simp] theorem take_moved : c.take.moved = c.moved := c.take_fields.2.1
@[simp] theorem take_overwritten : c.take.overwritten = c.overwritten := c.take_fields.2.2.1

theorem take_out : c.out <+: c.take.out := c.take_fields.2.2.2

@[simp] theorem take_take : c.take.take = c.take := take_of_none take_input

theorem status_input : c.status &&& 2 = 0 ↔ c.input = none := by
  rw [status]
  cases c.out <;> cases c.input <;> simp

theorem status_out : c.status &&& 1 = 1 ↔ c.out ≠ [] := by
  rw [status]
  cases c.out <;> cases c.input <;> simp

/-- The answer of the mouse may be sent before the byte is taken. -/
theorem send_take (h : c.input = some (true, 0x20) → c.line = []) :
    c.send.take.out ++ c.send.take.line = c.take.out ++ c.take.line ∧
      c.send.take.config = c.take.config ∧ c.send.take.target = c.take.target ∧
      c.send.take.reporting = c.take.reporting := by
  have hjoin : c.line.take 1 ++ c.line.tail = c.line := by cases c.line <;> rfl
  rw [send]
  split
  · rw [take, take]
    cases hin : c.input with
    | none => simp [hjoin]
    | some i =>
      obtain ⟨k, v⟩ := i
      cases k with
      | true =>
        by_cases hv : v = 0x20
        · subst hv
          simp [receive, command, h hin]
        · simp only [receive, command, if_true, if_neg hv]
          split_ifs <;> simp [hjoin]
      | false =>
        simp only [receive, data, Bool.false_eq_true, if_false]
        cases c.target with
        | keyboard | config => simp [hjoin]
        | mouse =>
          simp only [tell]
          split_ifs <;> simp [← List.append_assoc _ c.line.tail, hjoin]
  · exact ⟨rfl, rfl, rfl, rfl⟩

theorem happen_input (h : c.input = none) (e : Happening) : (c.happen e).input = none := by
  cases e with
  | takes => exact take_input
  | sends =>
    rw [happen, send]
    split <;> exact h
  | moves p =>
    rw [happen, move]
    split <;> exact h

theorem happen_out (c : Controller) (e : Happening) : c.out <+: (c.happen e).out := by
  cases e with
  | takes => exact take_out
  | sends =>
    rw [happen, send]
    split
    · exact List.prefix_append _ _
    · exact List.prefix_rfl
  | moves p =>
    rw [happen, move]
    split <;> exact List.prefix_rfl

/-! ## What stands whoever is faster -/

/-- Once the byte written is taken: `q` is on its way to port 0x60, and behind it the movements. -/
structure Stands (c : Controller) (q : List UInt8) (cfg : UInt8) (t : Target) (rep : Bool) (lost : ℕ) :
    Prop where
  queue : c.take.out ++ c.take.line = q ++ stream c.moved
  config : c.take.config = cfg
  target : c.take.target = t
  reporting : c.take.reporting = rep
  overwritten : c.overwritten = lost
  ordered : c.input = some (true, 0x20) → c.line = []
  busy : c.reporting = true → c.input = none
  fresh : c.reporting = false → c.moved = []

theorem stands_iff (hin : c.input = none) : c.Stands q cfg t rep lost ↔
    c.out ++ c.line = q ++ stream c.moved ∧ c.config = cfg ∧ c.target = t ∧ c.reporting = rep ∧
      c.overwritten = lost ∧ (c.reporting = false → c.moved = []) := by
  constructor
  · rintro ⟨hqueue, hconfig, htarget, hreporting, hlost, -, -, hfresh⟩
    rw [take_of_none hin] at hqueue hconfig htarget hreporting
    exact ⟨hqueue, hconfig, htarget, hreporting, hlost, hfresh⟩
  · rintro ⟨hqueue, hconfig, htarget, hreporting, hlost, hfresh⟩
    have htake := take_of_none hin
    refine ⟨?_, ?_, ?_, ?_, hlost, by simp [hin], fun _ => hin, hfresh⟩
    all_goals rw [htake]
    all_goals assumption

/-- A predicate that whatever happens leaves alone. -/
def Kept (P : Controller → Prop) : Prop := ∀ c e, P c → P (c.happen e)

theorem Stands.happen (h : c.Stands q cfg t rep lost) (e : Happening) :
    (c.happen e).Stands q cfg t rep lost := by
  cases e with
  | takes =>
    refine ⟨?_, ?_, ?_, ?_, ?_, ?_, ?_, fun hr => ?_⟩
    · simpa [Controller.happen] using h.queue
    · simpa [Controller.happen] using h.config
    · simpa [Controller.happen] using h.target
    · simpa [Controller.happen] using h.reporting
    · simpa [Controller.happen] using h.overwritten
    · simp [Controller.happen]
    · simp [Controller.happen]
    · rw [Controller.happen, take_moved]
      cases hc : c.reporting with
      | false => exact h.fresh hc
      | true =>
        rw [Controller.happen, take_of_none (h.busy hc), hc] at hr
        cases hr
  | sends =>
    obtain ⟨hqueue, hconfig, htarget, hreporting⟩ := send_take h.ordered
    have hsame : c.send.moved = c.moved ∧ c.send.overwritten = c.overwritten ∧
        c.send.input = c.input ∧ c.send.reporting = c.reporting ∧ (c.line = [] → c.send.line = []) := by
      rw [send]
      split <;> simp +contextual
    obtain ⟨hmoved, hlost, hinput, hrep, hline⟩ := hsame
    refine ⟨?_, hconfig.trans h.config, htarget.trans h.target, hreporting.trans h.reporting,
      hlost.trans h.overwritten, fun hi => hline (h.ordered (hinput ▸ hi)),
      fun hr => hinput.trans (h.busy (hrep ▸ hr)), fun hr => hmoved.trans (h.fresh (hrep ▸ hr))⟩
    exact hqueue.trans (hmoved ▸ h.queue)
  | moves p =>
    rw [Controller.happen, move]
    split
    · next hr =>
      have hin := h.busy hr
      obtain ⟨hqueue, hconfig, htarget, hreporting, hlost, -⟩ := (stands_iff hin).mp h
      have hin' : ({ c with line := c.line ++ p.bytes, moved := c.moved ++ [p] } : Controller).input =
          none := hin
      refine (stands_iff hin').mpr ⟨?_, hconfig, htarget, hreporting, hlost, by simp [hr]⟩
      simp [← List.append_assoc, hqueue, stream_append]
    · exact h

theorem Stands.kept : Kept (fun c => c.Stands q cfg t rep lost) := fun _ e h => h.happen e

theorem kept_input : Kept (fun c => c.input = none) := fun _ e h => happen_input h e

theorem kept_out {l : List UInt8} : Kept (fun c => l <+: c.out) :=
  fun c e h => h.trans (c.happen_out e)

theorem Kept.fold {P : Controller → Prop} (hP : Kept P) (h : P c) (es : List Happening) :
    P (es.foldl Controller.happen c) := by
  induction es generalizing c with
  | nil => exact h
  | cons e es ih => exact ih (hP c e h)

/-- The mouse was told nothing so far, and has nothing to say. -/
def Still (c : Controller) : Prop :=
  c.take.line = [] ∧ c.line = [] ∧ c.reporting = false ∧ c.take.reporting = false

theorem kept_still : Kept Still := by
  rintro c e ⟨ht, hl, hr, htr⟩
  cases e with
  | takes => exact ⟨by simpa [Controller.happen] using ht, ht, htr, by simpa [Controller.happen] using htr⟩
  | sends =>
    have hsend : c.send = c := by
      obtain ⟨out, input, target, config, line, reporting, moved, overwritten⟩ := c
      obtain rfl : line = [] := hl
      simp [send]
    rw [Controller.happen, hsend]
    exact ⟨ht, hl, hr, htr⟩
  | moves p =>
    rw [Controller.happen, move, if_neg (by simp [hr])]
    exact ⟨ht, hl, hr, htr⟩

/-! ## Bytes written and read -/

/-- What a byte written to the idle controller stands for. -/
theorem Stands.write (h : c.Stands q cfg t false lost) (hin : c.input = none) (k : Bool) (v : UInt8)
    (hline : k = true ∧ v = 0x20 → c.line = []) :
    (c.write k v).Stands ((c.receive k v).out ++ (c.receive k v).line) (c.receive k v).config
      (c.receive k v).target (c.receive k v).reporting lost := by
  obtain ⟨-, -, -, hrep, hlost, hfresh⟩ := (stands_iff hin).mp h
  have hback : ({ c with input := none, overwritten := c.overwritten + 0 } : Controller) = c := by
    obtain ⟨out, input, target, config, line, reporting, moved, overwritten⟩ := c
    obtain rfl : input = none := hin
    rfl
  have htake : (c.write k v).take = c.receive k v := by
    have hwrite : (c.write k v).take =
        ({ c with input := none, overwritten := c.overwritten + 0 } : Controller).receive k v := by
      rw [Controller.write, if_pos hin]
      rfl
    rw [hwrite, hback]
  refine ⟨?_, by rw [htake], by rw [htake], by rw [htake], ?_, fun hi => ?_, fun hr => ?_, hfresh⟩
  · rw [htake, Controller.write, hfresh hrep, stream_nil, List.append_nil]
  · rw [Controller.write, if_pos hin]
    exact hlost
  · obtain ⟨hk, hv⟩ := Prod.mk.inj (Option.some.inj hi)
    exact hline ⟨hk, hv⟩
  · cases hrep.symm.trans hr

/-- With bytes put in front of those to be read. -/
def back (c : Controller) (l : List UInt8) : Controller := { c with out := l ++ c.out }

theorem receive_back (c : Controller) (l : List UInt8) (k : Bool) (v : UInt8) :
    (c.back l).receive k v = (c.receive k v).back l := by
  obtain ⟨out, input, target, config, line, reporting, moved, overwritten⟩ := c
  cases k with
  | true =>
    simp only [receive, command, back, if_true]
    split_ifs <;> simp
  | false =>
    simp only [receive, data, back, Bool.false_eq_true, if_false]
    cases target with
    | keyboard | config => rfl
    | mouse =>
      simp only [tell]
      split_ifs <;> rfl

theorem take_back (c : Controller) (l : List UInt8) : (c.back l).take = c.take.back l := by
  obtain ⟨out, input, target, config, line, reporting, moved, overwritten⟩ := c
  cases input with
  | none => rfl
  | some i => exact receive_back ⟨out, none, target, config, line, reporting, moved, overwritten⟩ l i.1 i.2

/-- Whatever happens concerns the other end of the bytes to be read. -/
theorem happen_back (c : Controller) (l : List UInt8) (e : Happening) :
    (c.back l).happen e = (c.happen e).back l := by
  cases e with
  | takes => exact take_back c l
  | sends =>
    by_cases h : c.config &&& 0x20 = 0
    · simp [happen, send, back, h]
    · simp [happen, send, back, h]
  | moves p =>
    by_cases h : c.reporting
    · simp [happen, move, back, h]
    · simp [happen, move, back, h]

theorem kept_back {P : Controller → Prop} (hP : Kept P) (l : List UInt8) : Kept (fun c => P (c.back l)) := by
  intro c e h
  rw [← happen_back]
  exact hP _ e h

/-- The first byte on its way, once it is there. -/
theorem Stands.read (h : c.Stands (b :: q) cfg t rep lost) (hout : c.out ≠ []) :
    c.out.head? = some b ∧
      ({ c with out := c.out.tail } : Controller).Stands q cfg t rep lost := by
  obtain ⟨a, l, hal⟩ := List.exists_cons_of_ne_nil hout
  have hback : c = ({ c with out := l } : Controller).back [a] := by
    rw [back, List.singleton_append, ← hal]
  have htake : c.take = ({ c with out := l } : Controller).take.back [a] := by
    rw [← take_back, ← hback]
  obtain ⟨hqueue, hconfig, htarget, hreporting, hlost, hordered, hbusy, hfresh⟩ := h
  rw [htake] at hqueue hconfig htarget hreporting
  obtain ⟨rfl, htail⟩ := List.cons.inj hqueue
  rw [hal]
  exact ⟨rfl, htail, hconfig, htarget, hreporting, hlost, hordered, hbusy, hfresh⟩

end Controller

/-! ## The loops of the driver -/

section driver
open Controller
variable {world : ℕ → List Happening} {s : Bus} {P : Controller → Prop} {b cfg : UInt8}
  {q : List UInt8} {t : Target} {rep : Bool} {lost n : ℕ}

theorem settle_keeps (hP : Kept P) (h : P s.ctl) : P (settle world s).ctl := hP.fold h _

theorem waitInput_succ (n : ℕ) (s : Bus) : mouseWaitInput world (n + 1) s =
    if (settle world s).ctl.input = none then settle world s
    else mouseWaitInput world n (settle world s) := by
  rw [mouseWaitInput, inStatus]
  simp only [status_input]

theorem waitOutput_succ (n : ℕ) (s : Bus) : mouseWaitOutput world (n + 1) s =
    if (settle world s).ctl.out ≠ [] then settle world s
    else mouseWaitOutput world n (settle world s) := by
  rw [mouseWaitOutput, inStatus]
  simp only [status_out]

theorem waitInput_keeps (hP : Kept P) (h : P s.ctl) (n : ℕ) : P (mouseWaitInput world n s).ctl := by
  induction n generalizing s with
  | zero => exact h
  | succ n ih =>
    have hs : P (settle world s).ctl := settle_keeps hP h
    rw [waitInput_succ]
    split
    · exact hs
    · exact ih hs

theorem waitOutput_keeps (hP : Kept P) (h : P s.ctl) (n : ℕ) : P (mouseWaitOutput world n s).ctl := by
  induction n generalizing s with
  | zero => exact h
  | succ n ih =>
    have hs : P (settle world s).ctl := settle_keeps hP h
    rw [waitOutput_succ]
    split
    · exact hs
    · exact ih hs

theorem happenings_take {es : List Happening} (h : .takes ∈ es) (c : Controller) :
    (es.foldl Controller.happen c).input = none := by
  induction es generalizing c with
  | nil => cases h
  | cons e es ih =>
    cases List.mem_cons.mp h with
    | inl he =>
      subst he
      exact kept_input.fold take_input es
    | inr he => exact ih he _

/-- The byte written was taken. -/
theorem waitInput_taken (h : ∃ m, s.now ≤ m ∧ m < s.now + n ∧ .takes ∈ world m) :
    (mouseWaitInput world n s).ctl.input = none := by
  induction n generalizing s with
  | zero =>
    obtain ⟨m, hle, hlt, -⟩ := h
    omega
  | succ n ih =>
    obtain ⟨m, hle, hlt, htakes⟩ := h
    rw [waitInput_succ]
    by_cases hin : (settle world s).ctl.input = none
    · rw [if_pos hin]
      exact hin
    · rw [if_neg hin]
      have hne : m ≠ s.now := by
        rintro rfl
        exact hin (happenings_take htakes _)
      apply ih
      refine ⟨m, ?_, ?_, htakes⟩
      · change s.now + 1 ≤ m
        omega
      · change m < s.now + 1 + n
        omega

theorem happenings_send {es : List Happening} (he : .sends ∈ es) {c : Controller} (hin : c.input = none)
    (h : c.Stands (b :: q) cfg t rep lost) (hclock : cfg &&& 0x20 = 0) :
    (es.foldl Controller.happen c).out ≠ [] := by
  induction es generalizing c with
  | nil => cases he
  | cons e es ih =>
    cases List.mem_cons.mp he with
    | inl he =>
      subst he
      obtain ⟨hqueue, rfl, -⟩ := (stands_iff hin).mp h
      have hsent : c.send.out ≠ [] := by
        rw [send, if_pos hclock]
        cases hout : c.out with
        | nil =>
          rw [hout, List.nil_append] at hqueue
          simp [hqueue]
        | cons a l => simp
      exact (kept_out.fold (List.prefix_refl c.send.out) es).ne_nil hsent
    | inr he => exact ih he (happen_input hin e) (h.happen e)

/-- Once the controller is idle, the mouse sends the byte. -/
theorem waitOutput_sent (hin : s.ctl.input = none) (h : s.ctl.Stands (b :: q) cfg t rep lost)
    (hclock : cfg &&& 0x20 = 0) (hw : ∃ m, s.now ≤ m ∧ m < s.now + n ∧ .sends ∈ world m) :
    (mouseWaitOutput world n s).ctl.out ≠ [] := by
  induction n generalizing s with
  | zero =>
    obtain ⟨m, hle, hlt, -⟩ := hw
    omega
  | succ n ih =>
    obtain ⟨m, hle, hlt, hsends⟩ := hw
    rw [waitOutput_succ]
    by_cases hout : (settle world s).ctl.out = []
    · rw [if_neg (not_not_intro hout)]
      have hne : m ≠ s.now := by
        rintro rfl
        exact happenings_send hsends hin h hclock hout
      apply ih (settle_keeps kept_input hin) (settle_keeps Stands.kept h)
      refine ⟨m, ?_, ?_, hsends⟩
      · change s.now + 1 ≤ m
        omega
      · change m < s.now + 1 + n
        omega
    · rw [if_pos hout]
      exact hout

/-- First the controller takes the byte, then the mouse sends one. -/
theorem waitOutput_answered (hw : Prompt world) (h : s.ctl.Stands (b :: q) cfg t rep lost)
    (hclock : cfg &&& 0x20 = 0) (htakes : ∃ m, s.now ≤ m ∧ m < s.now + n ∧ .takes ∈ world m) :
    (mouseWaitOutput world (n + timeout / 2) s).ctl.out ≠ [] := by
  induction n generalizing s with
  | zero =>
    obtain ⟨m, hle, hlt, -⟩ := htakes
    omega
  | succ n ih =>
    obtain ⟨m, hle, hlt, htakes⟩ := htakes
    rw [Nat.add_right_comm, waitOutput_succ]
    by_cases hout : (settle world s).ctl.out = []
    · rw [if_neg (not_not_intro hout)]
      have hs : (settle world s).ctl.Stands (b :: q) cfg t rep lost := settle_keeps Stands.kept h
      by_cases hm : m = s.now
      · subst hm
        obtain ⟨-, k, hle', hlt', hsends⟩ := hw (s.now + 1)
        refine waitOutput_sent (happenings_take htakes _) hs hclock ⟨k, hle', ?_, hsends⟩
        change k < s.now + 1 + (n + timeout / 2)
        omega
      · apply ih hs
        refine ⟨m, ?_, ?_, htakes⟩
        · change s.now + 1 ≤ m
          omega
        · change m < s.now + 1 + n
          omega
    · rw [if_pos hout]
      exact hout

/-! ## The routines -/

theorem waitInput_ready (hw : Prompt world) (s : Bus) :
    (mouseWaitInput world timeout s).ctl.input = none := by
  obtain ⟨⟨m, hle, hlt, htakes⟩, -⟩ := hw s.now
  apply waitInput_taken
  refine ⟨m, hle, ?_, htakes⟩
  have : timeout / 2 ≤ timeout := Nat.div_le_self _ _
  omega

/-- A byte for the idle controller, by what it makes of it. -/
theorem outb_stands {k : Bool} {v cfg' : UInt8} {q' : List UInt8} {t' : Target} {rep' : Bool}
    (hin : s.ctl.input = none) (h : s.ctl.Stands q cfg t false lost)
    (hline : k = true ∧ v = 0x20 → (settle world s).ctl.line = [])
    (hv : ∀ c : Controller, c = (settle world s).ctl → c.out ++ c.line = q → c.config = cfg →
      c.target = t → c.reporting = false → (c.receive k v).out ++ (c.receive k v).line = q' ∧
        (c.receive k v).config = cfg' ∧ (c.receive k v).target = t' ∧ (c.receive k v).reporting = rep') :
    (outb world k s v).ctl.Stands q' cfg' t' rep' lost := by
  have hs : (settle world s).ctl.Stands q cfg t false lost := settle_keeps Stands.kept h
  have hin' : (settle world s).ctl.input = none := settle_keeps kept_input hin
  obtain ⟨hqueue, hconfig, htarget, hrep, -, hfresh⟩ := (stands_iff hin').mp hs
  rw [hfresh hrep, stream_nil, List.append_nil] at hqueue
  obtain ⟨rfl, rfl, rfl, rfl⟩ := hv _ rfl hqueue hconfig htarget hrep
  exact hs.write hin' k v hline

theorem mouseWrite_spec (hw : Prompt world) (h : s.ctl.Stands q cfg .keyboard false lost) {v : UInt8}
    (hv : v = 0xF6 ∨ v = 0xF4) :
    (mouseWrite world s v).ctl.Stands (q ++ [0xFA]) cfg .keyboard (decide (v = 0xF4)) lost := by
  have h₁ : (outb world true (mouseWaitInput world timeout s) 0xD4).ctl.Stands q cfg .mouse false
      lost := by
    apply outb_stands (waitInput_ready hw s) (waitInput_keeps Stands.kept h _)
    · simp
    · rintro c - hq hc - hr
      simp [receive, command, hq, hc, hr]
  apply outb_stands (waitInput_ready hw _) (waitInput_keeps Stands.kept h₁ _)
  · simp
  · rintro c - hq hc ht hr
    rcases hv with rfl | rfl <;> simp [receive, data, Controller.tell, ht, ← hq, hc]

theorem mouseRead_spec (hw : Prompt world) (h : s.ctl.Stands (b :: q) cfg t rep lost)
    (hclock : cfg &&& 0x20 = 0) :
    (mouseRead world s).1 = b ∧ (mouseRead world s).2.ctl.Stands q cfg t rep lost := by
  have hout : (mouseWaitOutput world timeout s).ctl.out ≠ [] := by
    have htwice : timeout / 2 + timeout / 2 = timeout := by decide
    have hanswered := waitOutput_answered hw h hclock (hw s.now).1
    rwa [htwice] at hanswered
  have hs : (mouseWaitOutput world timeout s).ctl.Stands (b :: q) cfg t rep lost :=
    waitOutput_keeps Stands.kept h _
  have hs' : (settle world (mouseWaitOutput world timeout s)).ctl.Stands (b :: q) cfg t rep lost :=
    settle_keeps Stands.kept hs
  have hout' : (settle world (mouseWaitOutput world timeout s)).ctl.out ≠ [] :=
    (settle_keeps kept_out (List.prefix_refl _)).ne_nil hout
  obtain ⟨hhead, hread⟩ := hs'.read hout'
  refine ⟨?_, hread⟩
  rw [mouseRead, inData, List.headD_eq_head?_getD, hhead]
  rfl

/-- Nothing was written, and nothing comes from the mouse. -/
structure Controller.Idle (c : Controller) : Prop where
  input : c.input = none
  target : c.target = .keyboard
  line : c.line = []
  reporting : c.reporting = false
  moved : c.moved = []

theorem Controller.Idle.kept {c : Controller} (h : c.Idle) (es : List Happening) :
    es.foldl Controller.happen c = c := by
  induction es with
  | nil => rfl
  | cons e es ih =>
    have hsame : c.happen e = c := by
      obtain ⟨out, input, target, config, line, reporting, moved, overwritten⟩ := c
      obtain ⟨rfl, -, rfl, rfl, -⟩ := h
      cases e with
      | takes => rfl
      | sends => simp [Controller.happen, send]
      | moves p => rfl
    rw [List.foldl_cons, hsame, ih]

theorem Controller.Idle.settle {s : Bus} (h : s.ctl.Idle) : (settle world s).ctl = s.ctl :=
  h.kept _

theorem flush_spec (h : s.ctl.Idle) (n : ℕ) :
    (mouseFlushOutputBuffer world n s).ctl = { s.ctl with out := s.ctl.out.drop n } := by
  induction n generalizing s with
  | zero => rfl
  | succ n ih =>
    have hs : (settle world s).ctl = s.ctl := h.settle
    rw [mouseFlushOutputBuffer, inStatus]
    simp only [status_out, hs]
    split
    · have hidle : (settle world s).ctl.Idle := hs.symm ▸ h
      have hread : (inData world (settle world s)).2.ctl = { s.ctl with out := s.ctl.out.tail } := by
        rw [inData, hidle.settle, hs]
      have hidle' : (inData world (settle world s)).2.ctl.Idle := by
        rw [hread]
        exact ⟨h.input, h.target, h.line, h.reporting, h.moved⟩
      rw [ih hidle', hread]
      simp
    · next hout =>
      rw [not_not] at hout
      have hdrop : s.ctl.out.drop (n + 1) = s.ctl.out := by
        rw [hout]
        rfl
      rw [hs, hdrop]

theorem masked_clock (v : UInt8) : v &&& 0xDF &&& 0x20 = 0 := by
  rw [UInt8.and_assoc]
  exact UInt8.and_zero

/-- The port of the mouse is enabled: what sixteen reads leave is still there. -/
theorem enable_spec (h : s.ctl.Idle) :
    (outb world true (mouseFlushOutputBuffer world 16 s) 0xA8).ctl.Stands (s.ctl.out.drop 16)
        (s.ctl.config &&& 0xDF) .keyboard false s.ctl.overwritten ∧
      (outb world true (mouseFlushOutputBuffer world 16 s) 0xA8).ctl.Still := by
  have hflush : (mouseFlushOutputBuffer world 16 s).ctl = { s.ctl with out := s.ctl.out.drop 16 } :=
    flush_spec h 16
  have hidle : (mouseFlushOutputBuffer world 16 s).ctl.Idle := by
    rw [hflush]
    exact ⟨h.input, h.target, h.line, h.reporting, h.moved⟩
  constructor
  · have hstands : (mouseFlushOutputBuffer world 16 s).ctl.Stands (s.ctl.out.drop 16) s.ctl.config
        .keyboard false s.ctl.overwritten := by
      rw [stands_iff hidle.input]
      simp [hflush, h.line, h.target, h.reporting, h.moved]
    apply outb_stands hidle.input hstands
    · simp
    · rintro c - hq hc ht hr
      simp [receive, command, hq, hc, ht, hr]
  · have hout : (outb world true (mouseFlushOutputBuffer world 16 s) 0xA8).ctl =
        (mouseFlushOutputBuffer world 16 s).ctl.write true 0xA8 := by
      rw [outb, hidle.settle]
    rw [hout]
    simp [Still, Controller.write, take, receive, command, hidle.line, hidle.reporting]

/-- The configuration is asked for, while nothing else is on its way. -/
theorem askConfig_spec (hw : Prompt world) (h : s.ctl.Stands q cfg .keyboard false lost)
    (hs : s.ctl.Still) : (outb world true (mouseWaitInput world timeout s) 0x20).ctl.Stands
      (q ++ [cfg]) cfg .keyboard false lost := by
  have hwait : (mouseWaitInput world timeout s).ctl.Still := waitInput_keeps kept_still hs _
  have hstill : (settle world (mouseWaitInput world timeout s)).ctl.Still :=
    settle_keeps kept_still hwait
  apply outb_stands (waitInput_ready hw s) (waitInput_keeps Stands.kept h _)
  · exact fun _ => hstill.2.1
  · rintro c rfl hq hc ht hr
    rw [hstill.2.1, List.append_nil] at hq
    simp [receive, command, hq, hc, ht, hr, hstill.2.1]

theorem writeConfig_spec (hw : Prompt world) (h : s.ctl.Stands q cfg .keyboard false lost) (v : UInt8) :
    (outb world false (mouseWaitInput world timeout
      (outb world true (mouseWaitInput world timeout s) 0x60)) v).ctl.Stands q v .keyboard false lost := by
  have h₁ : (outb world true (mouseWaitInput world timeout s) 0x60).ctl.Stands q cfg .config false
      lost := by
    apply outb_stands (waitInput_ready hw s) (waitInput_keeps Stands.kept h _)
    · simp
    · rintro c - hq hc - hr
      simp [receive, command, hq, hc, hr]
  apply outb_stands (waitInput_ready hw _) (waitInput_keeps Stands.kept h₁ _)
  · simp
  · rintro c - hq - ht hr
    simp [receive, data, hq, ht, hr]

/-- A command to the mouse, and the read that is meant for its answer. -/
theorem exchange_spec (hw : Prompt world) (h : s.ctl.Stands q cfg .keyboard false lost)
    (hclock : cfg &&& 0x20 = 0) {v : UInt8} (hv : v = 0xF6 ∨ v = 0xF4) :
    (mouseRead world (mouseWrite world s v)).2.ctl.Stands (q ++ [0xFA]).tail cfg .keyboard
      (decide (v = 0xF4)) lost := by
  have hwrite := mouseWrite_spec hw h hv
  obtain ⟨x, q', hx⟩ := List.exists_cons_of_ne_nil (List.append_ne_nil_of_right_ne_nil q
    (List.cons_ne_nil 0xFA []))
  rw [hx] at hwrite ⊢
  exact (mouseRead_spec hw hwrite hclock).2

theorem tail_append_tail (q : List UInt8) (x y : UInt8) :
    ((q ++ [x]).tail ++ [y]).tail = (q ++ [x, y]).drop 2 := by
  cases q with
  | nil => rfl
  | cons a q => cases q <;> simp

/-- The bytes left in front of the first answer are read for it; the configuration written is made of
the first of them. -/
theorem programMouse_spec (hw : Prompt world) (h : s.ctl.Idle) :
    (programMouse world s).ctl.Stands
      ((s.ctl.out.drop 16 ++ [s.ctl.config &&& 0xDF, 0xFA, 0xFA]).drop 3)
      (((s.ctl.out.drop 16 ++ [s.ctl.config &&& 0xDF]).headD 0 ||| 0x02) &&& 0xDF) .keyboard true
      s.ctl.overwritten := by
  rw [programMouse]
  obtain ⟨h₁, hstill⟩ : _ ∧ (outb world true (mouseFlushOutputBuffer world 16 s) 0xA8).ctl.Still :=
    enable_spec h
  have h₂ := askConfig_spec hw h₁ hstill
  obtain ⟨b, q, hbq⟩ := List.exists_cons_of_ne_nil (List.append_ne_nil_of_right_ne_nil
    (s.ctl.out.drop 16) (List.cons_ne_nil (s.ctl.config &&& 0xDF) []))
  rw [hbq] at h₂
  obtain ⟨hb, h₃⟩ := mouseRead_spec hw h₂ (masked_clock _)
  rw [hb]
  have h₄ := writeConfig_spec hw h₃ ((b ||| 0x02) &&& 0xDF)
  have h₅ := exchange_spec hw h₄ (masked_clock _) (.inl rfl)
  have h₆ := exchange_spec hw h₅ (masked_clock _) (.inr rfl)
  have hall : s.ctl.out.drop 16 ++ [s.ctl.config &&& 0xDF, 0xFA, 0xFA] = b :: (q ++ [0xFA, 0xFA]) := by
    rw [← List.cons_append, ← hbq, List.append_assoc]
    rfl
  rw [tail_append_tail] at h₆
  rw [hall, hbq]
  exact h₆

end driver
end ShadOS.Mouse

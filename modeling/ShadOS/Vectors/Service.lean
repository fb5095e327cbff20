import ShadOS.Vectors.Source

/-! # Interrupts in service

Device requests, the processor taking interrupts, `irq_handler` and its end of
interrupt in any order, handlers being interrupted by others included. The end of
interrupt names no line, and still ends the interrupt of the handler that sends
it, since handlers return in the order the controllers expect.
-/

namespace ShadOS.Vectors
open Machine Interrupts

/-! ## The calls of pic.c at the chips -/

section calls
variable {p q : Controllers} {c : Chip} {line l irq b : ℕ} {ls : List ℕ}

/-- The initialisation of a chip, from whatever state it was in. -/
theorem program_eq (c : Chip) (b i m : ℕ) :
    (((((c.command 0x11).data b).data i).data 0x01).data m) =
      ⟨.mask, true, false, b / 8 * 8, i, 1, m, fun _ => false, fun _ => false⟩ := by
  have h4 : Nat.testBit 0x11 4 = true := by decide
  have h0 : Nat.testBit 0x11 0 = true := by decide
  have h1 : Nat.testBit 0x11 1 = false := by decide
  simp only [Chip.command, h4, h0, h1, if_true, Chip.data, Bool.false_eq_true, if_false]

theorem picRemap_eq (p : Controllers) : picRemap p =
    ⟨⟨.mask, true, false, 32, 4, 1, p.master.mask % 2 ^ 8, fun _ => false, fun _ => false⟩,
      ⟨.mask, true, false, 40, 2, 1, p.slave.mask % 2 ^ 8, fun _ => false, fun _ => false⟩⟩ := by
  have hmaster := program_eq p.master 32 4 (p.master.mask % 2 ^ 8)
  have hslave := program_eq p.slave 40 2 (p.slave.mask % 2 ^ 8)
  calc picRemap p = ⟨_, _⟩ := rfl
    _ = _ := congrArg₂ Controllers.mk hmaster hslave

/-- Lines 0 to 15 come in as vectors 32 to 47, nothing is in service, and the masks are kept. -/
theorem picRemap_programmed (p : Controllers) : (picRemap p).Programmed 32 40 := by
  rw [picRemap_eq]
  exact ⟨⟨rfl, rfl, rfl, rfl⟩, rfl, rfl, rfl, rfl⟩

theorem picRemap_nested (p : Controllers) : (picRemap p).Nested [] := by
  rw [picRemap_eq]
  exact ⟨by simp, ⟨by simp, List.Pairwise.nil, by simp⟩, by simp, List.Pairwise.nil, by simp⟩

theorem command_eoi (c : Chip) : c.command picEoi = c.endOfInterrupt := by
  have h4 : Nat.testBit picEoi 4 = false := by decide
  have hdiv : picEoi / 8 = 4 := rfl
  simp only [Chip.command, h4, hdiv, if_true, Bool.false_eq_true, if_false]

theorem sendEoi_eq (p : Controllers) (irq : ℕ) : sendEoi p irq =
    ⟨p.master.endOfInterrupt, if irq < 8 then p.slave else p.slave.endOfInterrupt⟩ := by
  rw [← command_eoi, ← command_eoi]
  by_cases h8 : irq < 8
  · rw [if_pos h8, sendEoi, picSendEoi, if_neg (by omega)]
    rfl
  · rw [if_neg h8, sendEoi, picSendEoi, if_pos (by omega)]
    rfl

/-- The handler of the innermost interrupt ends that interrupt and no other. -/
theorem sendEoi_nested (h : p.Nested (irq :: ls)) : (sendEoi p irq).Nested ls := by
  rw [sendEoi_eq]
  split
  · rename_i h8
    exact h.end_master h8
  · rename_i h8
    exact h.end_slave (by omega)

theorem sendEoi_programmed {b b' : ℕ} (h : p.Programmed b b') :
    (sendEoi p irq).Programmed b b' := by
  rw [sendEoi_eq]
  refine ⟨h.master.endOfInterrupt, ?_⟩
  split
  · exact h.slave
  · exact h.slave.endOfInterrupt

theorem sendEoi_requested : (sendEoi p irq).requested line = p.requested line := by
  rw [sendEoi_eq, Controllers.requested, Controllers.requested, Chip.endOfInterrupt_requested]
  split
  · rfl
  · split
    · rfl
    · rw [Chip.endOfInterrupt_requested]

/-- `pic_unmask_irq` writes masks only. -/
theorem unmaskIrq_eq {b b' : ℕ} (h : p.Programmed b b') (irq : ℕ) : ∃ v w,
    unmaskIrq p irq = ⟨{ p.master with mask := v }, { p.slave with mask := w }⟩ := by
  unfold unmaskIrq
  by_cases h8 : irq < 8
  · simp only [if_pos h8]
    exact ⟨_, p.slave.mask, congrArg (Controllers.mk · p.slave) h.master.data⟩
  · simp only [if_neg h8]
    exact ⟨p.master.mask, _, congrArg (Controllers.mk p.master) h.slave.data⟩

end calls

/-! ## The system -/

inductive Entry where
  | raised (line : ℕ)
  | taken (line : ℕ)
  deriving DecidableEq, Repr

/-- The controllers, the lines whose handlers run, the innermost first, the interrupt flag, and the
requests and interrupts so far, the last one first. -/
structure State where
  chips : Controllers
  running : List ℕ
  interruptsOn : Bool
  log : List Entry

inductive Event where
  /-- A device asks for an interrupt. -/
  | raise (line : ℕ)
  /-- The processor takes an interrupt and `irq_handler` starts. -/
  | take
  /-- The innermost `irq_handler` sends its end of interrupt, and the stub returns. -/
  | finish
  | unmask (irq : ℕ)
  /-- `cli` or `sti`, in handlers too. -/
  | setFlag (on : Bool)

def step (s : State) : Event → Option State
  | .raise line => some { s with chips := s.chips.raise line, log := .raised line :: s.log }
  | .take => s.chips.interrupt.map (fun r =>
      { chips := r.2
        running := irqOf r.1 :: s.running
        interruptsOn := false
        log := .taken (irqOf r.1) :: s.log })
  | .finish =>
    match s.running with
    | [] => none
    | irq :: rest =>
      some { s with chips := sendEoi s.chips irq, running := rest, interruptsOn := true }
  | .unmask irq => some { s with chips := unmaskIrq s.chips irq }
  | .setFlag on => some { s with interruptsOn := on }

/-- From `pic_remap` on, whatever the controllers were doing before. Line 2 carries the cascade. -/
def service : System State Event where
  init s := (∃ p, s.chips = picRemap p) ∧ s.running = [] ∧ s.log = []
  allowed s
    | .raise line => line < 16 ∧ line ≠ 2
    | .take => s.interruptsOn = true
    | .unmask irq => irq < 16
    | _ => True
  step := step

/-- The last entry of the line is a request. -/
def asks (line : ℕ) : List Entry → Bool
  | [] => false
  | .raised l :: log => if line = l then true else asks line log
  | .taken l :: log => if line = l then false else asks line log

structure Serving (s : State) : Prop where
  programmed : s.chips.Programmed 32 40
  nested : s.chips.Nested s.running
  requests : ∀ line, line ≠ 2 → s.chips.requested line = asks line s.log

variable {s s' : State} {line v : ℕ} {q : Controllers} {e : Event}

theorem vectorOf_line (hline : line < 16) : Controllers.vectorOf 32 40 line = 32 + line := by
  unfold Controllers.vectorOf
  split <;> omega

theorem irqOf_line (hline : line < 16) : irqOf (32 + line) = line := by
  rw [irqOf, sub32_of_le (by omega) (by omega)]
  omega

namespace Serving

/-- The interrupt offered is that of a line, by its own vector. -/
theorem interrupt_iff (h : Serving s) : s.chips.interrupt = some (v, q) ↔
    ∃ line, s.chips.pending = some line ∧ v = 32 + line ∧ irqOf v = line ∧
      q = s.chips.serve line := by
  rw [h.programmed.interrupt_iff]
  apply exists_congr
  intro line
  apply and_congr_right
  intro hline
  have hlt := ((h.nested.pending_iff h.programmed.ready).mp hline).1.1
  rw [vectorOf_line hlt]
  constructor
  · rintro ⟨rfl, rfl⟩
    exact ⟨rfl, irqOf_line hlt, rfl⟩
  · rintro ⟨rfl, -, rfl⟩
    exact ⟨rfl, rfl⟩

theorem step (h : Serving s) (ha : service.allowed s e) (hs : service.step s e = some s') :
    Serving s' := by
  cases e with
  | raise line =>
    obtain rfl := Option.some.inj hs
    refine ⟨h.programmed.raise, h.nested.raise, fun l hl => ?_⟩
    rw [Controllers.raise_requested, h.requests l hl, asks]
  | take =>
    obtain ⟨⟨v, q⟩, hv, rfl⟩ := Option.map_eq_some_iff.mp hs
    obtain ⟨line, hline, -, hirq, rfl⟩ := h.interrupt_iff.mp hv
    refine ⟨h.programmed.serve, ?_, fun l hl => ?_⟩
    · change (s.chips.serve line).Nested (irqOf v :: s.running)
      rw [hirq]
      exact h.nested.serve h.programmed hline
    · change (s.chips.serve line).requested l = asks l (.taken (irqOf v) :: s.log)
      rw [hirq, Controllers.serve_requested hl, h.requests l hl, asks]
  | finish =>
    obtain ⟨chips, running, on, log⟩ := s
    cases running with
    | nil => cases hs
    | cons irq rest =>
      obtain rfl := Option.some.inj hs
      refine ⟨sendEoi_programmed h.programmed, sendEoi_nested h.nested, fun l hl => ?_⟩
      exact sendEoi_requested.trans (h.requests l hl)
  | unmask irq =>
    obtain rfl := Option.some.inj hs
    obtain ⟨v, w, hchips⟩ := unmaskIrq_eq h.programmed irq
    have hm := h.programmed.master
    have hs := h.programmed.slave
    change Serving { s with chips := unmaskIrq s.chips irq }
    rw [hchips]
    exact ⟨⟨⟨hm.expect, hm.base, hm.icw3, hm.icw4⟩, hs.expect, hs.base, hs.icw3, hs.icw4⟩,
      h.nested.congr rfl rfl, h.requests⟩
  | setFlag on =>
    obtain rfl := Option.some.inj hs
    exact ⟨h.programmed, h.nested, h.requests⟩

theorem start (hs : service.init s) : Serving s := by
  obtain ⟨⟨p, hp⟩, hrun, hlog⟩ := hs
  refine ⟨hp ▸ picRemap_programmed p, hrun ▸ hp ▸ picRemap_nested p, fun line _ => ?_⟩
  rw [hp, picRemap_eq, hlog, Controllers.requested, asks]
  split <;> rfl

end Serving

theorem serving_of_reaches (hs : service.Reaches s) : Serving s := by
  apply hs.invariant
  · exact fun s hs => Serving.start hs
  · exact fun s e s' h ha hstep => h.step ha hstep

/-- In every state: in service are exactly the interrupts whose handlers run; no request is lost or
served twice; and the interrupt offered is the first open line's, by vector 32 and on, with some
interrupt offered whenever an open line is not held back. -/
theorem interrupts_served (hs : service.Reaches s) :
    (∀ l < 8, (s.chips.master.inService l = true ↔ ∃ j ∈ s.running, Controllers.entry j = l) ∧
      (s.chips.slave.inService l = true ↔ l + 8 ∈ s.running)) ∧
    (∀ line, line ≠ 2 → s.chips.requested line = asks line s.log) ∧
    (∀ v q, s.chips.interrupt = some (v, q) ↔ ∃ line, v = 32 + line ∧ q = s.chips.serve line ∧
      s.chips.Open line ∧ (∀ l, s.chips.Open l → Controllers.rank line ≤ Controllers.rank l) ∧
      ∀ l ∈ s.running, Controllers.entry line < Controllers.entry l) ∧
    ∀ line, s.chips.Open line → (∀ l ∈ s.running, Controllers.entry line < Controllers.entry l) →
      ∃ r, s.chips.interrupt = some r := by
  have h := serving_of_reaches hs
  have hr := h.programmed.ready
  refine ⟨fun l hl => ⟨h.nested.master_iff hl, h.nested.slave_iff hl⟩, h.requests, fun v q => ?_, ?_⟩
  · rw [h.interrupt_iff]
    constructor
    · rintro ⟨line, hline, rfl, -, rfl⟩
      exact ⟨line, rfl, rfl, (h.nested.pending_iff hr).mp hline⟩
    · rintro ⟨line, rfl, rfl, hline⟩
      exact ⟨line, (h.nested.pending_iff hr).mpr hline, rfl, irqOf_line hline.1.1, rfl⟩
  · intro line hline hin
    obtain ⟨l, hl⟩ := h.nested.exists_pending hr hline hin
    have hlt := ((h.nested.pending_iff hr).mp hl).1.1
    exact ⟨_, h.interrupt_iff.mpr ⟨l, hl, rfl, irqOf_line hlt, rfl⟩⟩

/-- Two controllers in the middle of something else. -/
def strayChips : Controllers :=
  ⟨⟨.icw3, true, true, 0, 0, 0, 0xB8, fun _ => true, fun _ => true⟩,
    ⟨.mask, true, true, 8, 0, 0, 0x8F, fun _ => true, fun _ => true⟩⟩

/-- Line 0 is served, and line 14 asks meanwhile. -/
theorem interrupts_served_busy : ∃ s, service.Reaches s ∧ s.running = [0] ∧
    s.chips.master.inService 0 = true ∧ s.chips.requested 14 = true := by
  have hinit : service.Reaches ⟨picRemap strayChips, [], true, []⟩ :=
    .start ⟨⟨strayChips, rfl⟩, rfl, rfl⟩
  have hraise := hinit.step (e := .raise 0) (by exact ⟨by decide, by decide⟩) rfl
  have hunmask := hraise.step (e := .unmask 0) (by exact (by decide : 0 < 16)) rfl
  have htake := hunmask.step (e := .take) (by exact (rfl : true = true)) rfl
  have hother := htake.step (e := .raise 14) (by exact ⟨by decide, by decide⟩) rfl
  obtain ⟨hserved, hrequests, -⟩ := interrupts_served hother
  refine ⟨_, hother, rfl, ((hserved 0 (by decide)).1).mpr ⟨0, ?_, rfl⟩, (hrequests 14 (by decide)).trans rfl⟩
  exact List.mem_cons_self

end ShadOS.Vectors

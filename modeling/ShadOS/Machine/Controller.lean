import ShadOS.Machine.Runs
import Mathlib.Data.List.Range
import Mathlib.Data.List.Pairwise
import Mathlib.Data.Nat.Bitwise
import Mathlib.Logic.Function.Basic
import Mathlib.Order.WellFounded

/-! # The interrupt controllers of a PC

Two 8259A chips with eight lines each, the slave behind line 2 of the master. A
chip passes its first request that is neither masked nor held back by an
interrupt in service of the same or of an earlier line. The rotating and the
special modes are left out.
-/

namespace ShadOS.Machine

/-- What the next byte at the data port of a chip is. -/
inductive Expect where
  | mask
  | icw2
  | icw3
  | icw4
  deriving DecidableEq, Repr

structure Chip where
  expect : Expect
  /-- Bits 0 and 1 of ICW1: whether an ICW4 follows, and no ICW3. -/
  fourth : Bool
  single : Bool
  base : ℕ
  icw3 : ℕ
  icw4 : ℕ
  mask : ℕ
  requested : ℕ → Bool
  inService : ℕ → Bool

namespace Chip

/-- The first line with a property. -/
def first (p : ℕ → Bool) : Option ℕ := (List.range 8).find? p

/-- A request that the mask lets through. -/
def passes (c : Chip) (l : ℕ) : Bool := c.requested l && !c.mask.testBit l

/-- The line of the request passed on. -/
def highest (c : Chip) : Option ℕ :=
  if c.expect = .mask then
    (first c.passes).filter (fun l => (List.range (l + 1)).all (fun j => !c.inService j))
  else none

/-- The processor takes the request; an automatic end of interrupt leaves nothing in service. -/
def acknowledge (c : Chip) (l : ℕ) : Chip :=
  { c with
    requested := Function.update c.requested l false
    inService := if c.icw4.testBit 1 then c.inService else Function.update c.inService l true }

/-- The end of interrupt that names no line. -/
def endOfInterrupt (c : Chip) : Chip :=
  match first c.inService with
  | none => c
  | some l => { c with inService := Function.update c.inService l false }

/-- A byte at the command port: ICW1, or an end of interrupt. -/
def command (c : Chip) (v : ℕ) : Chip :=
  if v.testBit 4 then
    { expect := .icw2
      fourth := v.testBit 0
      single := v.testBit 1
      base := c.base
      icw3 := c.icw3
      icw4 := 0
      mask := 0
      requested := fun _ => false
      inService := fun _ => false }
  else if v / 8 = 4 then c.endOfInterrupt
  else if v / 8 = 12 then { c with inService := Function.update c.inService (v % 8) false }
  else c

/-- A byte at the data port: the next ICW, or the mask. -/
def data (c : Chip) (v : ℕ) : Chip :=
  let last := if c.fourth then Expect.icw4 else .mask
  match c.expect with
  | .mask => { c with mask := v }
  | .icw2 => { c with base := v / 8 * 8, expect := if c.single then last else .icw3 }
  | .icw3 => { c with icw3 := v, expect := last }
  | .icw4 => { c with icw4 := v, expect := .mask }

def raise (c : Chip) (l : ℕ) : Chip := { c with requested := Function.update c.requested l true }

end Chip

structure Controllers where
  master : Chip
  slave : Chip

namespace Controllers

def masterCommand : ℕ := 0x20
def masterData : ℕ := 0x21
def slaveCommand : ℕ := 0xA0
def slaveData : ℕ := 0xA1

def outb (p : Controllers) (port v : ℕ) : Controllers :=
  if port = masterCommand then { p with master := p.master.command v }
  else if port = masterData then { p with master := p.master.data v }
  else if port = slaveCommand then { p with slave := p.slave.command v }
  else if port = slaveData then { p with slave := p.slave.data v }
  else p

/-- The masks at the data ports; the command ports are not modelled. -/
def inb (p : Controllers) (port : ℕ) : ℕ :=
  if port = masterData then p.master.mask % 2 ^ 8
  else if port = slaveData then p.slave.mask % 2 ^ 8
  else 0

/-- A device asks for an interrupt on one of the lines 0 to 15. -/
def raise (p : Controllers) (line : ℕ) : Controllers :=
  if line < 8 then { p with master := p.master.raise line }
  else { p with slave := p.slave.raise (line - 8) }

/-- The master sees the output of the slave on line 2. -/
def cascaded (p : Controllers) : Chip :=
  { p.master with
    requested := Function.update p.master.requested 2 p.slave.highest.isSome }

/-- The line the processor is asked to serve. -/
def pending (p : Controllers) : Option ℕ :=
  p.cascaded.highest.bind (fun l => if l = 2 then p.slave.highest.map (· + 8) else some l)

/-- The processor takes an interrupt: the vector, from the chip that knows the line. Chips that
are not told of the cascade, or not in the mode of the 8086, have none to offer. -/
def interrupt (p : Controllers) : Option (ℕ × Controllers) :=
  p.pending.bind (fun line =>
    if line < 8 then
      if p.master.icw4.testBit 0 ∧ ¬ p.master.icw3.testBit line then
        some (p.master.base + line, { p with master := p.master.acknowledge line })
      else none
    else if p.master.icw3.testBit 2 ∧ p.slave.icw3 % 8 = 2 ∧ p.master.icw4.testBit 0 ∧
        p.slave.icw4.testBit 0 then
      some (p.slave.base + (line - 8),
        ⟨p.master.acknowledge 2, p.slave.acknowledge (line - 8)⟩)
    else none)

end Controllers

namespace Chip
variable {c : Chip} {l : ℕ} {ls : List ℕ} {p : ℕ → Bool}

theorem first_eq_some : first p = some l ↔ l < 8 ∧ p l = true ∧ ∀ j < l, p j = false := by
  simp only [first, List.find?_range_eq_some, List.mem_range, Bool.not_eq_eq_eq_not, Bool.not_true]
  exact and_left_comm

theorem highest_eq_some : c.highest = some l ↔ c.expect = .mask ∧ l < 8 ∧ c.passes l = true ∧
    (∀ j < l, c.passes j = false) ∧ ∀ j ≤ l, c.inService j = false := by
  unfold highest
  split
  · rename_i hx
    simp [Option.filter_eq_some_iff, first_eq_some, hx, Nat.lt_succ_iff, and_assoc]
  · rename_i hx
    simp [hx]

/-- A chip with nothing in service passes on what its mask lets through. -/
theorem exists_highest (hx : c.expect = .mask) (hl : l < 8) (hpass : c.passes l = true)
    (hfree : ∀ j < 8, c.inService j = false) : ∃ k, c.highest = some k := by
  cases hfirst : first c.passes with
  | none =>
    have hno := List.find?_range_eq_none.mp hfirst l hl
    rw [hpass] at hno
    cases hno
  | some k =>
    obtain ⟨hk, hpass, hbefore⟩ := first_eq_some.mp hfirst
    refine ⟨k, highest_eq_some.mpr ⟨hx, hk, hpass, hbefore, ?_⟩⟩
    intro j hj
    apply hfree
    omega

/-! ## Interrupts within interrupts -/

/-- The lines in service are these, the innermost one first: each has come in over the others. -/
structure Nested (c : Chip) (ls : List ℕ) : Prop where
  lines : ∀ l ∈ ls, l < 8
  sorted : ls.Pairwise (· < ·)
  serves : ∀ l < 8, c.inService l = true ↔ l ∈ ls

theorem Nested.acknowledge (h : c.Nested ls) (hl : l < 8) (hauto : c.icw4.testBit 1 = false)
    (hfree : ∀ j ≤ l, c.inService j = false) : (c.acknowledge l).Nested (l :: ls) := by
  have habove : ∀ j ∈ ls, l < j := by
    intro j hj
    by_contra hle
    have hserved := (h.serves j (h.lines j hj)).mpr hj
    rw [hfree j (by omega)] at hserved
    cases hserved
  refine ⟨List.forall_mem_cons.mpr ⟨hl, h.lines⟩, List.pairwise_cons.mpr ⟨habove, h.sorted⟩, ?_⟩
  intro j hj
  rw [Chip.acknowledge, hauto, List.mem_cons, ← h.serves j hj]
  by_cases hjl : j = l <;> simp [hjl]

/-- The end of interrupt without a number ends the innermost interrupt. -/
theorem Nested.endOfInterrupt (h : c.Nested (l :: ls)) : c.endOfInterrupt.Nested ls := by
  obtain ⟨habove, hsorted⟩ := List.pairwise_cons.mp h.sorted
  have hlines := List.forall_mem_cons.mp h.lines
  have hfirst : first c.inService = some l := by
    refine first_eq_some.mpr ⟨hlines.1, (h.serves l hlines.1).mpr List.mem_cons_self, ?_⟩
    intro j hj
    by_contra hserved
    have hmem := (h.serves j (by omega)).mp (by simpa using hserved)
    rcases List.mem_cons.mp hmem with rfl | hmem
    · omega
    · have := habove j hmem
      omega
  refine ⟨hlines.2, hsorted, fun j hj => ?_⟩
  rw [Chip.endOfInterrupt, hfirst]
  by_cases hjl : j = l
  · subst hjl
    have hnot : j ∉ ls := fun hmem => Nat.lt_irrefl _ (habove j hmem)
    simp [hnot]
  · simp [hjl, h.serves j hj]

/-- The chip has its ICWs: vectors from `b` on, `i` for the cascade, the mode of the 8086. -/
structure Programmed (c : Chip) (b i : ℕ) : Prop where
  expect : c.expect = .mask
  base : c.base = b
  icw3 : c.icw3 = i
  icw4 : c.icw4 = 1

theorem Programmed.acknowledge {b i : ℕ} (h : c.Programmed b i) :
    (c.acknowledge l).Programmed b i := ⟨h.expect, h.base, h.icw3, h.icw4⟩

theorem Programmed.raise {b i : ℕ} (h : c.Programmed b i) : (c.raise l).Programmed b i :=
  ⟨h.expect, h.base, h.icw3, h.icw4⟩

theorem Programmed.endOfInterrupt {b i : ℕ} (h : c.Programmed b i) :
    c.endOfInterrupt.Programmed b i := by
  unfold Chip.endOfInterrupt
  split
  · exact h
  · exact ⟨h.expect, h.base, h.icw3, h.icw4⟩

theorem endOfInterrupt_requested : c.endOfInterrupt.requested = c.requested := by
  unfold Chip.endOfInterrupt
  split <;> rfl

/-- A byte at the data port of a programmed chip is a mask. -/
theorem Programmed.data {b i v : ℕ} (h : c.Programmed b i) : c.data v = { c with mask := v } := by
  simp only [Chip.data, h.expect]

theorem Nested.congr {d : Chip} (h : c.Nested ls) (hd : d.inService = c.inService) : d.Nested ls :=
  ⟨h.lines, h.sorted, hd ▸ h.serves⟩

end Chip

namespace Controllers
variable {p : Controllers} {line l : ℕ} {ls : List ℕ}

/-- The line of the master on which a line comes in. -/
def entry (line : ℕ) : ℕ := if line < 8 then line else 2

/-- The lines in the order of their priorities. -/
def rank (line : ℕ) : ℕ := if line < 8 then 8 * line else line + 8

/-- A device asks on this line, and neither chip masks it. -/
def Open (p : Controllers) (line : ℕ) : Prop :=
  line < 16 ∧ line ≠ 2 ∧ if line < 8 then p.master.passes line = true
    else p.slave.passes (line - 8) = true ∧ p.master.mask.testBit 2 = false

/-- The lines in service, the innermost one first. -/
structure Nested (p : Controllers) (ls : List ℕ) : Prop where
  lines : ∀ l ∈ ls, l < 16 ∧ l ≠ 2
  master : p.master.Nested (ls.map entry)
  slave : p.slave.Nested ((ls.filter (8 ≤ ·)).map (· - 8))

/-- No byte of an initialisation is missing. -/
def Ready (p : Controllers) : Prop := p.master.expect = .mask ∧ p.slave.expect = .mask

theorem Nested.master_iff (h : p.Nested ls) (hl : l < 8) :
    p.master.inService l = true ↔ ∃ j ∈ ls, entry j = l := by
  rw [h.master.serves l hl, List.mem_map]

theorem Nested.slave_iff (h : p.Nested ls) (hl : l < 8) :
    p.slave.inService l = true ↔ l + 8 ∈ ls := by
  rw [h.slave.serves l hl, List.mem_map]
  constructor
  · rintro ⟨j, hj, rfl⟩
    obtain ⟨hj, h8⟩ := List.mem_filter.mp hj
    rwa [Nat.sub_add_cancel (by simpa using h8)]
  · intro hmem
    exact ⟨l + 8, List.mem_filter.mpr ⟨hmem, by simp⟩, by omega⟩

theorem cascaded_passes : p.cascaded.passes l = (if l = 2 then
    p.slave.highest.isSome && !p.master.mask.testBit 2 else p.master.passes l) := by
  by_cases hl : l = 2
  · subst hl
    simp [cascaded, Chip.passes]
  · simp [cascaded, Chip.passes, hl]

/-- What the slave passes on is open as soon as the master lets the cascade through. -/
theorem open_of_slave (hl : p.slave.highest = some l) (hmask : p.master.mask.testBit 2 = false) :
    p.Open (l + 8) := by
  obtain ⟨-, hl8, hpass, -⟩ := Chip.highest_eq_some.mp hl
  refine ⟨by omega, by omega, ?_⟩
  rw [if_neg (by omega), Nat.add_sub_cancel]
  exact ⟨hpass, hmask⟩

theorem entry_of_slave : entry (l + 8) = 2 := if_neg (by omega)

theorem rank_of_slave : rank (l + 8) = l + 16 := if_neg (by omega)

theorem entry_of_master (hl : l < 8) : entry l = l := if_pos hl

theorem rank_of_master (hl : l < 8) : rank l = 8 * l := if_pos hl

theorem open_master_iff (hl : l < 8) (h2 : l ≠ 2) : p.Open l ↔ p.master.passes l = true := by
  simp only [Open, if_pos hl, h2, ne_eq, not_false_eq_true, true_and, and_iff_right_iff_imp]
  omega

theorem open_slave_iff (hl : l < 8) : p.Open (l + 8) ↔
    p.slave.passes l = true ∧ p.master.mask.testBit 2 = false := by
  rw [Open, if_neg (by omega), Nat.add_sub_cancel]
  constructor
  · exact fun h => h.2.2
  · exact fun h => ⟨by omega, by omega, h⟩

/-- Every open line is one of the master, or one of the slave. -/
theorem Open.cases (h : p.Open line) : (line < 8 ∧ line ≠ 2 ∧ p.master.passes line = true) ∨
    ∃ l < 8, line = l + 8 ∧ p.slave.passes l = true ∧ p.master.mask.testBit 2 = false := by
  obtain ⟨hlt, h2, hopen⟩ := h
  by_cases h8 : line < 8
  · exact .inl ⟨h8, h2, by rwa [if_pos h8] at hopen⟩
  · rw [if_neg h8] at hopen
    exact .inr ⟨line - 8, by omega, by omega, hopen⟩

theorem pending_eq_some : p.pending = some line ↔
    (line ≠ 2 ∧ p.cascaded.highest = some line) ∨
      ∃ l, line = l + 8 ∧ p.slave.highest = some l ∧ p.cascaded.highest = some 2 := by
  rw [pending, Option.bind_eq_some_iff]
  constructor
  · rintro ⟨e, he, hline⟩
    by_cases h2 : e = 2
    · rw [if_pos h2] at hline
      obtain ⟨l, hl, rfl⟩ := Option.map_eq_some_iff.mp hline
      exact .inr ⟨l, rfl, hl, h2 ▸ he⟩
    · rw [if_neg h2] at hline
      obtain rfl := Option.some.inj hline
      exact .inl ⟨h2, he⟩
  · rintro (⟨h2, he⟩ | ⟨l, rfl, hl, he⟩)
    · exact ⟨line, he, if_neg h2⟩
    · exact ⟨2, he, by rw [if_pos rfl, hl]; rfl⟩

/-- A request that the slave holds back although nothing masks it finds an interrupt of the slave
in service. -/
theorem Nested.slave_busy (h : p.Nested ls) (hr : p.Ready) (hl : l < 8)
    (hpass : p.slave.passes l = true) (hnone : p.slave.highest = none) :
    p.master.inService 2 = true := by
  by_contra hfree
  obtain ⟨k, hk⟩ := Chip.exists_highest hr.2 hl hpass (fun j hj => by
    by_contra hbusy
    have hmem := (h.slave_iff hj).mp (by simpa using hbusy)
    exact hfree ((h.master_iff (by decide)).mpr ⟨_, hmem, entry_of_slave⟩))
  rw [hnone] at hk
  cases hk

/-- The line passed on through the master alone is the first one open. -/
theorem Nested.first_of_master (h : p.Nested ls) (hr : p.Ready)
    (he : p.cascaded.highest = some line) (hl : p.Open l) : rank line ≤ rank l := by
  obtain ⟨-, he8, hpass, hbefore, hserve⟩ := Chip.highest_eq_some.mp he
  rw [rank_of_master he8]
  rcases hl.cases with ⟨hl8, hl2, hlpass⟩ | ⟨k, hk, rfl, hkpass, hmask⟩
  · rw [rank_of_master hl8]
    by_contra hlt
    have hno := hbefore l (by omega)
    rw [cascaded_passes, if_neg hl2, hlpass] at hno
    cases hno
  · rw [rank_of_slave]
    by_contra hlt
    have hno := hbefore 2 (by omega)
    rw [cascaded_passes, if_pos rfl, hmask] at hno
    have hnone : p.slave.highest = none := by simpa using hno
    have hbusy := h.slave_busy hr hk hkpass hnone
    have hfree : p.master.inService 2 = false := hserve 2 (by omega)
    rw [hbusy] at hfree
    cases hfree

/-- The line passed on through the slave is the first one open. -/
theorem first_of_slave (hl : p.slave.highest = some l) (he : p.cascaded.highest = some 2) {j : ℕ}
    (hj : p.Open j) : rank (l + 8) ≤ rank j := by
  obtain ⟨-, hl8, -, hfirst, -⟩ := Chip.highest_eq_some.mp hl
  obtain ⟨-, -, -, hbefore, -⟩ := Chip.highest_eq_some.mp he
  rw [rank_of_slave]
  rcases hj.cases with ⟨hj8, hj2, hjpass⟩ | ⟨k, hk, rfl, hkpass, -⟩
  · rw [rank_of_master hj8]
    by_contra hlt
    have hno := hbefore j (by omega)
    rw [cascaded_passes, if_neg hj2, hjpass] at hno
    cases hno
  · rw [rank_of_slave]
    by_contra hlt
    have hno := hfirst k (by omega)
    rw [hkpass] at hno
    cases hno

/-- Nothing in service holds the line of the master back. -/
theorem Nested.free_iff (h : p.Nested ls) {e : ℕ} (he : e < 8) :
    (∀ j ≤ e, p.master.inService j = false) ↔ ∀ l ∈ ls, e < entry l := by
  constructor
  · intro hfree l hl
    by_contra hle
    have hbusy := (h.master_iff (by omega)).mpr ⟨l, hl, rfl⟩
    rw [hfree _ (by omega)] at hbusy
    cases hbusy
  · intro habove j hj
    by_contra hbusy
    rw [Bool.not_eq_false] at hbusy
    obtain ⟨l, hl, hlj⟩ := (h.master_iff (by omega)).mp hbusy
    have := habove l hl
    omega

theorem Nested.highest_of_master (h : p.Nested ls) (hr : p.Ready) (hopen : p.Open line)
    (hmin : ∀ l, p.Open l → rank line ≤ rank l) (hin : ∀ l ∈ ls, line < entry l) (h8 : line < 8) :
    p.cascaded.highest = some line := by
  rw [rank_of_master h8] at hmin
  refine Chip.highest_eq_some.mpr ⟨hr.1, h8, ?_, fun j hj => ?_, (h.free_iff h8).mpr hin⟩
  · rw [cascaded_passes, if_neg hopen.2.1]
    exact (open_master_iff h8 hopen.2.1).mp hopen
  · rw [cascaded_passes]
    split
    · by_contra hpass
      rw [Bool.not_eq_false, Bool.and_eq_true, Bool.not_eq_true', Option.isSome_iff_exists] at hpass
      obtain ⟨⟨k, hk⟩, hmask⟩ := hpass
      have hrank := hmin _ (open_of_slave hk hmask)
      have hk8 := (Chip.highest_eq_some.mp hk).2.1
      rw [rank_of_slave] at hrank
      omega
    · rename_i h2
      by_contra hpass
      have hrank := hmin j ((open_master_iff (by omega) h2).mpr (by simpa using hpass))
      rw [rank_of_master (by omega)] at hrank
      omega

theorem Nested.highest_of_slave (h : p.Nested ls) (hr : p.Ready) (hl : l < 8)
    (hpass : p.slave.passes l = true) (hmask : p.master.mask.testBit 2 = false)
    (hmin : ∀ j, p.Open j → l + 16 ≤ rank j) (hin : ∀ j ∈ ls, 2 < entry j) :
    p.slave.highest = some l ∧ p.cascaded.highest = some 2 := by
  have hslave : p.slave.highest = some l := by
    refine Chip.highest_eq_some.mpr ⟨hr.2, hl, hpass, fun j hj => ?_, fun j hj => ?_⟩
    · by_contra hj'
      have hrank := hmin (j + 8) ((open_slave_iff (by omega)).mpr ⟨by simpa using hj', hmask⟩)
      rw [rank_of_slave] at hrank
      omega
    · by_contra hbusy
      rw [Bool.not_eq_false] at hbusy
      have hlt := hin _ ((h.slave_iff (by omega)).mp hbusy)
      rw [entry_of_slave] at hlt
      omega
  refine ⟨hslave, Chip.highest_eq_some.mpr ⟨hr.1, by decide, ?_, fun j hj => ?_, ?_⟩⟩
  · rw [cascaded_passes, if_pos rfl, hslave, hmask]
    rfl
  · rw [cascaded_passes, if_neg (by omega)]
    by_contra hj'
    have hrank := hmin j ((open_master_iff (by omega) (by omega)).mpr (by simpa using hj'))
    rw [rank_of_master (by omega)] at hrank
    omega
  · exact (h.free_iff (by decide)).mpr hin

/-- The processor is asked to serve the first open line, unless an interrupt in service came in on
the same line of the master or on an earlier one. -/
theorem Nested.pending_iff (h : p.Nested ls) (hr : p.Ready) : p.pending = some line ↔
    p.Open line ∧ (∀ l, p.Open l → rank line ≤ rank l) ∧ ∀ l ∈ ls, entry line < entry l := by
  rw [pending_eq_some]
  constructor
  · rintro (⟨h2, he⟩ | ⟨l, rfl, hl, he⟩)
    · obtain ⟨-, he8, hpass, -, hserve⟩ := Chip.highest_eq_some.mp he
      rw [cascaded_passes, if_neg h2] at hpass
      refine ⟨(open_master_iff he8 h2).mpr hpass, fun l => h.first_of_master hr he, ?_⟩
      rw [entry_of_master he8]
      exact (h.free_iff he8).mp hserve
    · obtain ⟨-, -, hpass, -, hserve⟩ := Chip.highest_eq_some.mp he
      rw [cascaded_passes, if_pos rfl, Bool.and_eq_true, Bool.not_eq_true'] at hpass
      refine ⟨open_of_slave hl hpass.2, fun j => first_of_slave hl he, ?_⟩
      rw [entry_of_slave]
      exact (h.free_iff (by decide)).mp hserve
  · rintro ⟨hopen, hmin, hin⟩
    rcases hopen.cases with ⟨h8, h2, hpass⟩ | ⟨k, hk, rfl, hkpass, hmask⟩
    · rw [entry_of_master h8] at hin
      exact .inl ⟨h2, h.highest_of_master hr hopen hmin hin h8⟩
    · rw [entry_of_slave] at hin
      simp only [rank_of_slave] at hmin
      exact .inr ⟨k, rfl, h.highest_of_slave hr hk hkpass hmask hmin hin⟩

theorem entry_le {l' : ℕ} (hl' : l' < 16) (h : rank l ≤ rank l') : entry l ≤ entry l' := by
  unfold rank at h
  unfold entry
  split_ifs at h ⊢ <;> omega

/-- An open line that nothing in service holds back is not kept waiting, unless by an earlier one. -/
theorem Nested.exists_pending (h : p.Nested ls) (hr : p.Ready) (hline : p.Open line)
    (hin : ∀ l ∈ ls, entry line < entry l) : ∃ l, p.pending = some l := by
  obtain ⟨l, hl, hmin⟩ := (measure rank).wf.has_min {l | p.Open l} ⟨line, hline⟩
  have hfirst : ∀ j, p.Open j → rank l ≤ rank j := fun j hj => not_lt.mp (hmin j hj)
  refine ⟨l, (h.pending_iff hr).mpr ⟨hl, hfirst, fun j hj => ?_⟩⟩
  exact (entry_le hline.1 (hfirst line hline)).trans_lt (hin j hj)

/-! ## Taking interrupts and ending them -/

variable {q : Controllers} {b b' v : ℕ}

/-- The chips are told their vectors, the cascade between them, and the mode of the 8086. -/
structure Programmed (p : Controllers) (b b' : ℕ) : Prop where
  master : p.master.Programmed b 4
  slave : p.slave.Programmed b' 2

theorem Programmed.ready (h : p.Programmed b b') : p.Ready := ⟨h.master.expect, h.slave.expect⟩

/-- The vector of a line. -/
def vectorOf (b b' line : ℕ) : ℕ := if line < 8 then b + line else b' + (line - 8)

/-- The interrupt of the line is taken. -/
def serve (p : Controllers) (line : ℕ) : Controllers :=
  if line < 8 then { p with master := p.master.acknowledge line }
  else ⟨p.master.acknowledge 2, p.slave.acknowledge (line - 8)⟩

theorem Programmed.interrupt_iff (hp : p.Programmed b b') : p.interrupt = some (v, q) ↔
    ∃ line, p.pending = some line ∧ v = vectorOf b b' line ∧ q = p.serve line := by
  rw [interrupt, Option.bind_eq_some_iff]
  apply exists_congr
  intro line
  apply and_congr_right
  intro hline
  rw [hp.master.icw3, hp.slave.icw3, hp.master.icw4, hp.slave.icw4, hp.master.base, hp.slave.base,
    vectorOf, serve]
  have hsome {x y : ℕ × Controllers} : some x = some y ↔ y.1 = x.1 ∧ y.2 = x.2 := by
    rw [Option.some.injEq, Prod.ext_iff, eq_comm, @eq_comm _ x.2]
  by_cases h8 : line < 8
  · have h2 : line ≠ 2 := by
      rcases pending_eq_some.mp hline with ⟨h2, -⟩ | ⟨l, rfl, -⟩
      · exact h2
      · omega
    have hbit : Nat.testBit 4 line = false := by
      rw [show (4 : ℕ) = 2 ^ 2 from rfl, Nat.testBit_two_pow]
      exact decide_eq_false (Ne.symm h2)
    rw [if_pos h8, if_pos ⟨by decide, by rw [hbit]; decide⟩, if_pos h8, if_pos h8, hsome]
  · rw [if_neg h8, if_pos (by decide), if_neg h8, if_neg h8, hsome]

theorem Nested.serve (h : p.Nested ls) (hp : p.Programmed b b') (hline : p.pending = some line) :
    (p.serve line).Nested (line :: ls) := by
  obtain ⟨hopen, -, hin⟩ := (h.pending_iff hp.ready).mp hline
  have hauto : p.master.icw4.testBit 1 = false ∧ p.slave.icw4.testBit 1 = false := by
    rw [hp.master.icw4, hp.slave.icw4]
    exact ⟨by decide, by decide⟩
  have hlines : ∀ l ∈ line :: ls, l < 16 ∧ l ≠ 2 :=
    List.forall_mem_cons.mpr ⟨⟨hopen.1, hopen.2.1⟩, h.lines⟩
  rcases hopen.cases with ⟨h8, -⟩ | ⟨k, hk, rfl, -⟩
  · rw [entry_of_master h8] at hin
    have hslave : ((line :: ls).filter (8 ≤ ·)).map (· - 8) = (ls.filter (8 ≤ ·)).map (· - 8) := by
      rw [List.filter_cons_of_neg (by simpa using h8)]
    rw [Controllers.serve, if_pos h8]
    refine ⟨hlines, ?_, hslave ▸ h.slave⟩
    rw [List.map_cons, entry_of_master h8]
    exact h.master.acknowledge h8 hauto.1 ((h.free_iff h8).mpr hin)
  · rw [entry_of_slave] at hin
    rw [Controllers.serve, if_neg (by omega), Nat.add_sub_cancel]
    refine ⟨hlines, ?_, ?_⟩
    · rw [List.map_cons, entry_of_slave]
      exact h.master.acknowledge (by decide) hauto.1 ((h.free_iff (by decide)).mpr hin)
    · rw [List.filter_cons_of_pos (by simp), List.map_cons, Nat.add_sub_cancel]
      apply h.slave.acknowledge hk hauto.2
      intro j hj
      by_contra hbusy
      rw [Bool.not_eq_false] at hbusy
      have hlt := hin _ ((h.slave_iff (by omega)).mp hbusy)
      rw [entry_of_slave] at hlt
      omega

/-- An end of interrupt at the master ends an interrupt of its own lines. -/
theorem Nested.end_master (h : p.Nested (line :: ls)) (h8 : line < 8) :
    Nested { p with master := p.master.endOfInterrupt } ls := by
  have hmaster := h.master
  have hslave := h.slave
  rw [List.map_cons] at hmaster
  rw [List.filter_cons_of_neg (by simpa using h8)] at hslave
  exact ⟨(List.forall_mem_cons.mp h.lines).2, hmaster.endOfInterrupt, hslave⟩

/-- An end of interrupt at both chips ends an interrupt of the slave. -/
theorem Nested.end_slave (h : p.Nested (line :: ls)) (h8 : 8 ≤ line) :
    Nested ⟨p.master.endOfInterrupt, p.slave.endOfInterrupt⟩ ls := by
  have hmaster := h.master
  have hslave := h.slave
  rw [List.map_cons] at hmaster
  rw [List.filter_cons_of_pos (by simpa using h8), List.map_cons] at hslave
  exact ⟨(List.forall_mem_cons.mp h.lines).2, hmaster.endOfInterrupt, hslave.endOfInterrupt⟩

/-- Masks and requests do not change what is in service. -/
theorem Nested.congr (h : p.Nested ls) (hm : q.master.inService = p.master.inService)
    (hs : q.slave.inService = p.slave.inService) : q.Nested ls :=
  ⟨h.lines, h.master.congr hm, h.slave.congr hs⟩

theorem Programmed.serve (h : p.Programmed b b') : (p.serve line).Programmed b b' := by
  unfold Controllers.serve
  split
  · exact ⟨h.master.acknowledge, h.slave⟩
  · exact ⟨h.master.acknowledge, h.slave.acknowledge⟩

theorem Programmed.raise (h : p.Programmed b b') : (p.raise line).Programmed b b' := by
  unfold Controllers.raise
  split
  · exact ⟨h.master.raise, h.slave⟩
  · exact ⟨h.master, h.slave.raise⟩

theorem Nested.raise (h : p.Nested ls) : (p.raise line).Nested ls := by
  unfold Controllers.raise
  split
  · exact h.congr rfl rfl
  · exact h.congr rfl rfl

/-- The request of a line at its chip. -/
def requested (p : Controllers) (line : ℕ) : Bool :=
  if line < 8 then p.master.requested line else p.slave.requested (line - 8)

theorem raise_requested : (p.raise line).requested l =
    if l = line then true else p.requested l := by
  by_cases h8 : line < 8 <;> by_cases hl8 : l < 8
  · simp only [requested, Controllers.raise, if_pos h8, if_pos hl8, Chip.raise, Function.update_apply]
  · rw [if_neg (by omega)]
    simp only [requested, Controllers.raise, if_pos h8, if_neg hl8]
  · rw [if_neg (by omega)]
    simp only [requested, Controllers.raise, if_neg h8, if_pos hl8]
  · simp only [requested, Controllers.raise, if_neg h8, if_neg hl8, Chip.raise,
      Function.update_apply]
    congr 1
    simp only [eq_iff_iff]
    omega

theorem serve_requested (h2 : l ≠ 2) : (p.serve line).requested l =
    if l = line then false else p.requested l := by
  by_cases h8 : line < 8 <;> by_cases hl8 : l < 8
  · simp only [requested, Controllers.serve, if_pos h8, if_pos hl8, Chip.acknowledge,
      Function.update_apply]
  · rw [if_neg (by omega)]
    simp only [requested, Controllers.serve, if_pos h8, if_neg hl8]
  · rw [if_neg (by omega)]
    simp only [requested, Controllers.serve, if_neg h8, if_pos hl8, Chip.acknowledge,
      Function.update_of_ne h2]
  · simp only [requested, Controllers.serve, if_neg h8, if_neg hl8, Chip.acknowledge,
      Function.update_apply]
    congr 1
    simp only [eq_iff_iff]
    omega

end Controllers
end ShadOS.Machine

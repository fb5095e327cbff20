import ShadOS.Rtl8139.Init
import ShadOS.Pci.Search

/-! # The interrupt route of the card

The line number is whatever the configuration space says. The handler is inside
the table for lines below 16, and a line of the slave reaches the processor only
if another driver let the cascade through before.
-/

namespace ShadOS.Rtl8139
open Machine Pci Interrupts

universe u v

/-- The interrupt line register of a function. -/
def interruptLine (c : Config) (p : Place) : ℕ := c.register p 0x3C % 2 ^ 8

variable {C : Type u} {H : Type v} {P : Ports C} {A : Allocator H} {handler : ℕ}
  {k k' : Platform C H} {c : Config} {p : Place}

theorem pciGetInterruptLine_eq (c : Config) (p : Place) :
    (pciGetInterruptLine c p.1 p.2.1 p.2.2).1 = interruptLine c p := by
  have hmask := Nat.and_two_pow_sub_one_eq_mod (c.register p 0x3C) 8
  simp only [Nat.reducePow, Nat.reduceSub] at hmask
  simp only [pciGetInterruptLine, pciConfigRead32_eq, hmask, interruptLine, Nat.reducePow,
    Nat.mod_mod]

/-- Bus mastering is a bit of another register. -/
theorem interruptLine_enable (hp : InRange p) :
    interruptLine (pciGetBar0 (pciEnableBusMastering c p.1 p.2.1 p.2.2) p.1 p.2.1 p.2.2).2 p =
      interruptLine c p := by
  rw [interruptLine, interruptLine]
  congr 1
  exact register_write_other _ hp hp (by decide) (by decide) (.inr (by decide))

/-- A successful initialisation found the card and routed its line. -/
theorem rtl8139Init_route (hrun : rtl8139Init P A handler k = some (1, k')) :
    ∃ p, (pciFindDevice rtlVendorId rtlDeviceId k.config).1 = some p ∧
      k'.masks = picUnmaskIrq k.masks (interruptLine k.config p) ∧
      k'.routines = irqInstallHandler k.routines (interruptLine k.config p) handler := by
  obtain ⟨-, hdata⟩ := pciFindDevice_eq rtlVendorId rtlDeviceId k.config
  rw [rtl8139Init] at hrun
  rcases hfind : pciFindDevice rtlVendorId rtlDeviceId k.config with ⟨_ | p, config⟩
  · rw [hfind] at hrun
    cases hrun
  · rw [hfind] at hrun hdata
    have hrange := (pciFindDevice_some.mp (congrArg Prod.fst hfind)).1
    refine ⟨p, rfl, ?_⟩
    obtain ⟨rx, -, hrun⟩ := Option.bind_eq_some_iff.mp hrun
    obtain ⟨tx, -, hrun⟩ := Option.bind_eq_some_iff.mp hrun
    have hline : (pciGetInterruptLine (pciGetBar0 (pciEnableBusMastering config p.1 p.2.1 p.2.2)
        p.1 p.2.1 p.2.2).2 p.1 p.2.1 p.2.2).1 = interruptLine k.config p := by
      rw [pciGetInterruptLine_eq, interruptLine_enable hrange, interruptLine, interruptLine,
        register_congr hdata]
    split at hrun
    · cases hrun
    · cases hrun
      exact ⟨congrArg (picUnmaskIrq k.masks) hline,
        congrArg (fun l => irqInstallHandler k.routines l handler) hline⟩

/-- The interrupt of the card at `line` reaches its handler; no line is closed. -/
structure WorkingRoute (handler line : ℕ) (k k' : Platform C H) : Prop where
  stored : line < irqRoutinesSize ∧ k'.routines line = handler
  called : (irqHandler k'.routines (32 + line)).1 = some handler
  passes : k'.masks.masked line = false
  others : ∀ l < 16, k'.masks.masked l = true → k.masks.masked l = true
  cascade : 8 ≤ line → k'.masks.masked 2 = false

/-- What the calls behind the buffers leave, for the lines of the two controllers. -/
theorem route_below {line : ℕ} (hline : line < 16) (h0 : handler ≠ 0)
    (hmasks : k'.masks = picUnmaskIrq k.masks line)
    (hroutines : k'.routines = irqInstallHandler k.routines line handler)
    (hcascade : 8 ≤ line → k.masks.masked 2 = false) : WorkingRoute handler line k k' := by
  have hbit {l : ℕ} (hl : l < 16) :
      k'.masks.masked l = (k.masks.masked l && !decide (line = l)) := by
    rw [hmasks]
    exact picUnmaskIrq_masked hline hl
  refine ⟨⟨hline, ?_⟩, ?_, ?_, fun l hl h => ?_, fun h8 => ?_⟩
  · rw [hroutines]
    exact Function.update_self _ _ _
  · rw [hroutines]
    exact irqHandler_installed k.routines hline h0
  · rw [hbit hline, decide_eq_true rfl, Bool.not_true, Bool.and_false]
  · rw [hbit hl, Bool.and_eq_true] at h
    exact h.1
  · rw [hbit (by decide), hcascade h8, Bool.false_and]

/-- A line of the slave leaves the bit of the cascade alone. -/
theorem cascade_unchanged {line : ℕ} (hline : line < 16) (h8 : 8 ≤ line)
    (hmasks : k'.masks = picUnmaskIrq k.masks line) : k'.masks.masked 2 = k.masks.masked 2 := by
  have hne : line ≠ 2 := by omega
  rw [hmasks, picUnmaskIrq_masked hline (by decide), decide_eq_false hne, Bool.not_false,
    Bool.and_true]

/-- For every card, heap, configuration space and pair of masks: after a successful
initialisation the route works exactly when the line is one of the master, or one of the slave
with the cascade already open. -/
theorem interrupt_route_iff (P : Ports C) (A : Allocator H) (k k' : Platform C H)
    (h0 : handler ≠ 0) (hrun : rtl8139Init P A handler k = some (1, k')) :
    ∃ p, (pciFindDevice rtlVendorId rtlDeviceId k.config).1 = some p ∧
      (WorkingRoute handler (interruptLine k.config p) k k' ↔
        interruptLine k.config p < 8 ∨
          interruptLine k.config p < 16 ∧ k.masks.masked 2 = false) := by
  obtain ⟨p, hfind, hmasks, hroutines⟩ := rtl8139Init_route hrun
  refine ⟨p, hfind, fun h => ?_, fun h => ?_⟩
  · by_cases h8 : interruptLine k.config p < 8
    · exact .inl h8
    · refine .inr ⟨h.stored.1, ?_⟩
      rw [← cascade_unchanged h.stored.1 (by omega) hmasks]
      exact h.cascade (by omega)
  · rcases h with h8 | ⟨h16, hcascade⟩
    · exact route_below (by omega) h0 hmasks hroutines (fun hge => by omega)
    · exact route_below h16 h0 hmasks hroutines (fun _ => hcascade)

/-- A card that answers 0 on every port. -/
def quietPorts : Ports Unit where
  inb _ c := (0, c)
  inw _ c := (0, c)
  outw _ _ c := c
  load16 _ c := (0, c)
  outb _ _ c := c
  outl _ _ c := c

/-- One RTL8139 at bus 0, slot 0, function 0, with its ports from 0xC000 on. -/
def oneCard (line : ℕ) : Config :=
  ⟨0, fun a => if a = 0x80000000 then 0x813910EC else if a = 0x80000010 then 0xC001
    else if a = 0x8000003C then line else 0⟩

/-- All lines closed, and memory from 1 MiB on. -/
def closedPlatform (line : ℕ) : Platform Unit ℕ :=
  ⟨(), oneCard line, ⟨0xFF, 0xFF⟩, fun _ => 0, 0x100000, fun _ => 0, ⟨0, 0, 0, 0⟩, 0, [], false⟩

theorem oneCard_found (line : ℕ) :
    (pciFindDevice rtlVendorId rtlDeviceId (oneCard line)).1 = some (0, 0, 0) := by
  have hreg : (oneCard line).register (0, 0, 0) 0 = 0x813910EC := by
    simp [Config.register, oneCard, pciMakeAddress, u32]
  refine pciFindDevice_some.mpr ⟨⟨by decide, by decide, by decide⟩, ⟨?_, ?_⟩, ?_⟩
  · rw [hreg]
    rfl
  · rw [hreg]
    rfl
  · rintro ⟨b, s, f⟩ - (h | ⟨-, h | ⟨-, h⟩⟩)
    all_goals exact absurd h (Nat.not_lt_zero _)

theorem oneCard_line {line : ℕ} (h : line < 2 ^ 8) :
    interruptLine (oneCard line) (0, 0, 0) = line := by
  have hreg : (oneCard line).register (0, 0, 0) 0x3C = u32 line := by
    simp [Config.register, oneCard, pciMakeAddress, u32]
  rw [interruptLine, hreg, u32_of_lt (by omega), Nat.mod_eq_of_lt h]

theorem closedPlatform_runs (line : ℕ) : ∃ k',
    rtl8139Init quietPorts Allocator.bump 1 (closedPlatform line) = some (1, k') := by
  have hserved {h n : ℕ} {m : Mem} (hn : h + n < 2 ^ 32) :
      Allocator.bump.kmalloc h m n = some (h, h + n, m) := if_pos hn
  obtain ⟨k', hrun, -⟩ := rtl8139Init_found (P := quietPorts) (A := Allocator.bump)
    (k := closedPlatform line) (p := (0, 0, 0)) (oneCard_found line)
    (hserved (show 0x100000 + rxBufSize < 2 ^ 32 by decide))
    (hserved (show 0x100000 + rxBufSize + txBufSize < 2 ^ 32 by decide))
  exact ⟨k', hrun⟩

/-- The card on line 5, with every line closed before. -/
theorem interrupt_route_line5 : ∃ k', WorkingRoute 1 5 (closedPlatform 5) k' := by
  obtain ⟨k', hrun⟩ := closedPlatform_runs 5
  obtain ⟨p, hfind, hiff⟩ := interrupt_route_iff quietPorts Allocator.bump (closedPlatform 5) k'
    (by decide) hrun
  obtain rfl : (0, 0, 0) = p := Option.some.inj ((oneCard_found 5).symm.trans hfind)
  have hline : interruptLine (closedPlatform 5).config (0, 0, 0) = 5 := oneCard_line (by decide)
  rw [hline] at hiff
  exact ⟨k', hiff.mpr (.inl (by decide))⟩

/-- The card on line 11: the cascade stays closed. -/
theorem line11_closed : ∃ k',
    rtl8139Init quietPorts Allocator.bump 1 (closedPlatform 11) = some (1, k') ∧
      interruptLine (closedPlatform 11).config (0, 0, 0) = 11 ∧ k'.masks.masked 2 = true ∧
      ¬ WorkingRoute 1 11 (closedPlatform 11) k' := by
  obtain ⟨k', hrun⟩ := closedPlatform_runs 11
  obtain ⟨p, hfind, hmasks, -⟩ := rtl8139Init_route hrun
  obtain rfl : (0, 0, 0) = p := Option.some.inj ((oneCard_found 11).symm.trans hfind)
  have hline : interruptLine (closedPlatform 11).config (0, 0, 0) = 11 := oneCard_line (by decide)
  rw [hline] at hmasks
  have hclosed : k'.masks.masked 2 = true := by
    rw [cascade_unchanged (by decide) (by decide) hmasks]
    decide
  refine ⟨k', hrun, hline, hclosed, fun h => ?_⟩
  have hopen := h.cascade (by decide)
  rw [hclosed] at hopen
  cases hopen

end ShadOS.Rtl8139

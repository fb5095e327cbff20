import Mathlib.Algebra.BigOperators.Group.Finset.Basic
import ShadOS.Rtl8139.Chip

/-! # What `rtl8139_init` hands over

A successful call leaves the card running with both of its buffers, and the
driver where the receive path and the transmit path begin, exactly if the reset
was over when the wait for it ended.
-/

namespace ShadOS.Rtl8139
open Machine Pci Interrupts
open Heap (HeapVars HeapOk heapC alignUp alignment geometry)

variable {frames : ℕ → Frame} {ioBase : ℕ} {c : Chip}

/-! ## Time on a card that receives nothing -/

/-- The accesses of a wait take time from the reset, and touch nothing else. -/
theorem elapse_iterate (c : Chip) (n : ℕ) :
    ∃ r k, Chip.elapse^[n] c = { c with resetting := r, since := k } := by
  induction n with
  | zero => exact ⟨_, _, rfl⟩
  | succ n ih =>
    obtain ⟨r, k, h⟩ := ih
    rw [Function.iterate_succ_apply', h, Chip.elapse]
    split_ifs
    · exact ⟨r, k, rfl⟩
    · exact ⟨_, _, rfl⟩

/-- As long as the reset is not over, each of them counts. -/
theorem elapse_resetting (h : c.since = 0) (n : ℕ) :
    (Chip.elapse^[n] c).resetting = c.resetting - ∑ i ∈ Finset.range n, c.pace i ∧
    ((Chip.elapse^[n] c).resetting ≠ 0 → (Chip.elapse^[n] c).since = n) := by
  induction n with
  | zero => exact ⟨rfl, fun _ => h⟩
  | succ n ih =>
    obtain ⟨r, k, hn⟩ := elapse_iterate c n
    rw [hn] at ih
    obtain ⟨hleft, hcount⟩ := ih
    rw [Function.iterate_succ_apply', hn, Finset.sum_range_succ, ← Nat.sub_sub, ← hleft, Chip.elapse]
    dsimp only at hcount ⊢
    split_ifs with hover
    · exact ⟨by rw [hover, Nat.zero_sub], fun hr => absurd hover hr⟩
    · rw [hcount hover]
      exact ⟨rfl, fun _ => rfl⟩

theorem elapse_over (h : c.resetting = 0) (n : ℕ) : Chip.elapse^[n] c = c := by
  have hfix : c.elapse = c := if_pos h
  exact Function.iterate_fixed hfix n

section quiet
variable (h : c.receiver = false)
include h

theorem touch_quiet : c.touch frames = c.elapse := by
  have hquiet : c.elapse.receiver = false := by
    obtain ⟨r, k, hn⟩ := elapse_iterate c 1
    rw [← Function.iterate_one Chip.elapse, hn]
    exact h
  rw [Chip.touch, Chip.arrive, if_neg (by simp [hquiet])]

variable (hio : Reached ioBase) (hon : c.config1 = 0)
include hio hon

theorem inb_cmd_quiet :
    (chipPorts frames ioBase).inb (ioBase + regCmd) c = (c.elapse.cmd, c.elapse) := by
  have hport := hio.port (show regCmd < 0x100 by decide)
  have hon' : c.elapse.config1 = 0 := by
    obtain ⟨r, k, hn⟩ := elapse_iterate c 1
    rw [← Function.iterate_one Chip.elapse, hn]
    exact hon
  simp only [chipPorts, touch_quiet h, hport, hon', ne_eq, not_true, if_false, if_true]

theorem inb_mac_quiet {i : ℕ} (hi : i < 6) : (chipPorts frames ioBase).inb (ioBase + regMac0 + i) c =
    ((c.idr.toList.getD i 0).toNat, c.elapse) := by
  have hmac : regMac0 = 0 := rfl
  have hcmd : regCmd = 0x37 := rfl
  have hport : (ioBase + regMac0 + i) % 2 ^ 16 = ioBase + i := by
    rw [hmac, Nat.add_zero]
    exact hio.port (by omega)
  have hne : ioBase + i ≠ ioBase + regCmd := by omega
  obtain ⟨r, k, hn⟩ := elapse_iterate c 1
  rw [Function.iterate_one] at hn
  simp only [chipPorts, touch_quiet h, hport, hn, hon, hne, ne_eq, not_true, if_false,
    Nat.le_add_right, if_true, Nat.add_sub_cancel_left]

end quiet

theorem cmd_reset (c : Chip) : c.cmd &&& 0x10 = 0 ↔ c.resetting = 0 := by
  rw [Chip.cmd]
  split_ifs with h <;> simp [h]

/-- The wait ends with the reset or with `guard`. -/
theorem resetWait_chip (hio : Reached ioBase) (hon : c.config1 = 0) (h : c.receiver = false) (guard : ℕ) :
    resetWait (chipPorts frames ioBase) ioBase guard c = Chip.elapse^[guard + 1] c := by
  induction guard generalizing c with
  | zero =>
    rw [resetWait, inb_cmd_quiet h hio hon]
    rfl
  | succ guard ih =>
    rw [resetWait, inb_cmd_quiet h hio hon, Function.iterate_succ_apply]
    dsimp only
    by_cases h0 : c.elapse.resetting = 0
    · rw [if_pos ((cmd_reset _).mpr h0), elapse_over h0]
    · obtain ⟨r, k, hn⟩ := elapse_iterate c 1
      rw [Function.iterate_one] at hn
      rw [if_neg (fun hcmd => h0 ((cmd_reset _).mp hcmd)), ih (hn ▸ hon) (hn ▸ h)]

theorem readMac_chip (hio : Reached ioBase) (hon : c.config1 = 0) (h : c.receiver = false) :
    readMac (chipPorts frames ioBase) ioBase c = (c.idr.toList.map UInt8.toNat, Chip.elapse^[6] c) := by
  have hsix : c.idr.toList.map UInt8.toNat = (List.range 6).map (fun i => (c.idr.toList.getD i 0).toNat) := by
    apply List.ext_getElem (by simp)
    intro i hi hi'
    simp at hi
    simp [List.getD_eq_getElem?_getD, hi]
  have hfold : ∀ n ≤ 6, (List.range n).foldl (fun r i =>
      let (b, c) := (chipPorts frames ioBase).inb (ioBase + regMac0 + i) r.2
      (r.1 ++ [b], c)) ([], c) =
        ((List.range n).map (fun i => (c.idr.toList.getD i 0).toNat), Chip.elapse^[n] c) := by
    intro n
    induction n with
    | zero => exact fun _ => rfl
    | succ n ih =>
      intro hn
      obtain ⟨r, k, hcard⟩ := elapse_iterate c n
      have hread : (chipPorts frames ioBase).inb (ioBase + regMac0 + n) (Chip.elapse^[n] c) = _ :=
        inb_mac_quiet (hcard ▸ h) hio (hcard ▸ hon) (show n < 6 by omega)
      have hidr : (Chip.elapse^[n] c).idr = c.idr := by rw [hcard]
      rw [hidr] at hread
      rw [List.range_succ, List.foldl_append, ih (by omega), List.foldl_cons, List.foldl_nil,
        List.map_append, Function.iterate_succ_apply']
      simp only [hread, List.map_cons, List.map_nil]
  rw [readMac, hfold 6 le_rfl, hsix]

/-- The reads of CMD that the wait makes at most. -/
def resetReads : ℕ := 1000000 + 1

/-- The accesses up to the first register written behind the reset: the wait, the address, and that
write. -/
def resetAccesses : ℕ := resetReads + 6 + 1

def Chip.switchedOn (c : Chip) : Chip := { c with config1 := 0 }

/-- The card when `rtl8139_init` begins to program it. -/
def Chip.waited (c : Chip) : Chip := Chip.elapse^[resetAccesses] c.switchedOn.reset

/-- The reset is over by then. -/
def Chip.InTime (c : Chip) : Prop := c.resetTime ≤ ∑ i ∈ Finset.range resetAccesses, c.pace i

theorem waited_resetting (c : Chip) : c.waited.resetting = 0 ↔ c.InTime := by
  rw [Chip.waited, (elapse_resetting rfl _).1]
  exact Nat.sub_eq_zero_iff_le

theorem waited_rest (c : Chip) : ∃ r k, c.waited = { c.switchedOn.reset with resetting := r, since := k } :=
  elapse_iterate _ _

theorem touch_steady (h : c.receiver = false) (h0 : c.resetting = 0) : c.touch frames = c := by
  rw [touch_quiet h, Chip.elapse, if_pos h0]

/-- The card waits for its first frame, and knows of no ring. -/
def Chip.Blank (c : Chip) : Prop := c.receiver = false ∧ c.rx.rbstart = 0

/-- The card is on, and one access ahead of being programmed. -/
theorem resetCard_chip (hio : Reached ioBase) (h : c.receiver = false) (h0 : c.resetting = 0) :
    ∃ e : Chip, resetCard (chipPorts frames ioBase) ioBase c = (c.idr.toList.map UInt8.toNat, e) ∧
      e.Blank ∧ e.config1 = 0 ∧ e.elapse = c.waited := by
  have hconfig : (chipPorts frames ioBase).outb (ioBase + regConfig1) 0x00 c = c.switchedOn := by
    have hport := hio.port (show regConfig1 < 0x100 by decide)
    simp only [chipPorts, touch_steady h h0, hport, h0, and_self, if_true, Chip.switchedOn]
  have hreset : (chipPorts frames ioBase).outb (ioBase + regCmd) 0x10 c.switchedOn = c.switchedOn.reset := by
    have hport := hio.port (show regCmd < 0x100 by decide)
    have hne : ¬ (ioBase + regCmd = ioBase + regConfig1 ∧ c.switchedOn.resetting = 0) := by
      simp [regCmd, regConfig1]
    have hhears : ¬ c.switchedOn.Deaf := not_or.mpr ⟨not_not.mpr rfl, not_not.mpr h0⟩
    simp only [chipPorts, touch_steady (c := c.switchedOn) h h0, hport, if_neg hne, if_neg hhears]
    rfl
  have hwait : resetWait (chipPorts frames ioBase) ioBase 1000000 c.switchedOn.reset =
      Chip.elapse^[resetReads] c.switchedOn.reset := resetWait_chip hio rfl rfl 1000000
  obtain ⟨r, k, hn⟩ := elapse_iterate c.switchedOn.reset resetReads
  have hidr : (Chip.elapse^[resetReads] c.switchedOn.reset).idr = c.idr := by
    rw [hn]
    rfl
  obtain ⟨r', k', hn'⟩ := elapse_iterate c.switchedOn.reset (resetReads + 6)
  refine ⟨Chip.elapse^[resetReads + 6] c.switchedOn.reset, ?_, hn' ▸ ⟨rfl, rfl⟩, by rw [hn']; rfl,
    (Function.iterate_succ_apply' _ _ _).symm⟩
  rw [resetCard, hconfig, hreset, hwait, readMac_chip hio (by rw [hn]; rfl) (by rw [hn]; rfl), hidr,
    Nat.add_comm, Function.iterate_add_apply]

/-! ## The accesses behind the buffers -/

variable {k k' : Platform Chip HeapVars} {handler bus slot func : ℕ}

/-- The ring at its buffer, interrupts for ROK and TOK, every frame accepted, both directions on. -/
def Chip.programmed (c : Chip) (rxBuffer : ℕ) : Chip :=
  { c with
    rx := { c.rx with rbstart := rxBuffer }
    imr := 0x0005
    rcr := 0x0000008F
    receiver := true
    transmitter := true }

theorem Chip.Blank.touch (h : c.Blank) : (c.touch frames).Blank := by
  obtain ⟨r, k, hn⟩ := elapse_iterate c 1
  rw [touch_quiet h.1, ← Function.iterate_one Chip.elapse, hn]
  exact h

variable {v : ℕ}

theorem Chip.Blank.outw (hio : Reached ioBase) (h : c.Blank) :
    ((chipPorts frames ioBase).outw (ioBase + regImr) v c).Blank := by
  have hport := hio.port (show regImr < 0x100 by decide)
  have hne : ioBase + regImr ≠ ioBase + regIsr ∧ ioBase + regImr ≠ ioBase + regCapr := by
    simp [regImr, regIsr, regCapr]
  have htouch : (c.touch frames).Blank := h.touch
  simp only [chipPorts, hport, if_neg hne.1, if_neg hne.2]
  split_ifs <;> exact htouch

theorem Chip.Blank.outl (hio : Reached ioBase) (h : c.Blank) :
    ((chipPorts frames ioBase).outl (ioBase + regRcr) v c).Blank := by
  have hport := hio.port (show regRcr < 0x100 by decide)
  have hne : ioBase + regRcr ≠ ioBase + regRbstart := by simp [regRcr, regRbstart]
  have htouch : (c.touch frames).Blank := h.touch
  simp only [chipPorts, hport, if_neg hne]
  split_ifs <;> exact htouch

theorem Chip.Blank.outb (hio : Reached ioBase) (h : c.Blank) :
    ((chipPorts frames ioBase).outb (ioBase + regCmd) v c).rx.rbstart = 0 := by
  have hport := hio.port (show regCmd < 0x100 by decide)
  have htouch : (c.touch frames).rx.rbstart = 0 := h.touch.2
  simp only [chipPorts, hport]
  split_ifs <;> first | exact htouch | rfl

/-- With the reset over, each of the writes arrives. -/
theorem program_card (hio : Reached ioBase) (h : c.receiver = false) (hon : c.config1 = 0)
    (h0 : c.resetting = 0) :
    (chipPorts frames ioBase).outb (ioBase + regCmd) 0x0C
      ((chipPorts frames ioBase).outl (ioBase + regRcr) 0x0000008F
        ((chipPorts frames ioBase).outw (ioBase + regImr) 0x0005
          { c with rx := { c.rx with rbstart := v } })) = c.programmed v := by
  have hrcr := hio.port (show regRcr < 0x100 by decide)
  have himr := hio.port (show regImr < 0x100 by decide)
  have hcmd := hio.port (show regCmd < 0x100 by decide)
  have hhears (x i r) : ¬ ({ c with rx := x, imr := i, rcr := r } : Chip).Deaf :=
    not_or.mpr ⟨not_not.mpr hon, not_not.mpr h0⟩
  have hsteady (x i r) : ({ c with rx := x, imr := i, rcr := r } : Chip).touch frames =
      { c with rx := x, imr := i, rcr := r } := touch_steady h h0
  have hisr : ioBase + regImr ≠ ioBase + regIsr := by simp [regImr, regIsr]
  have hcapr : ioBase + regImr ≠ ioBase + regCapr := by simp [regImr, regCapr]
  have hrbstart : ioBase + regRcr ≠ ioBase + regRbstart := by simp [regRcr, regRbstart]
  have hconfig : ioBase + regCmd ≠ ioBase + regConfig1 := by simp [regCmd, regConfig1]
  simp only [chipPorts, hsteady, hrcr, himr, hcmd, if_neg (hhears _ _ _), if_neg hisr, if_neg hcapr,
    if_neg hrbstart, if_true, hconfig, false_and, if_false]
  rfl

/-- In time, every write arrives; otherwise the first one is lost. -/
theorem bringUp_card (hio : Reached ioBase) (hk : k.driver.ioBase = ioBase) (h : k.card.Blank)
    (hon : k.card.config1 = 0) :
    (k.card.elapse.resetting = 0 → (bringUp (chipPorts frames ioBase) handler bus slot func k).card =
      k.card.elapse.programmed k.driver.rxBuffer) ∧
    (k.card.elapse.resetting ≠ 0 →
      (bringUp (chipPorts frames ioBase) handler bus slot func k).card.rx.rbstart = 0) := by
  have hport := hio.port (show regRbstart < 0x100 by decide)
  have hblank : (k.card.touch frames).Blank := h.touch
  have htouch : k.card.touch frames = k.card.elapse := touch_quiet h.1
  have hon' : k.card.elapse.config1 = 0 := by
    obtain ⟨r, n, hn⟩ := elapse_iterate k.card 1
    rw [← Function.iterate_one Chip.elapse, hn]
    exact hon
  rw [htouch] at hblank
  rw [bringUp, hk]
  dsimp only
  constructor
  · intro h0
    have hhears : ¬ k.card.elapse.Deaf := not_or.mpr ⟨not_not.mpr hon', not_not.mpr h0⟩
    have hrbstart : (chipPorts frames ioBase).outl (ioBase + regRbstart) k.driver.rxBuffer k.card =
        { k.card.elapse with rx := { k.card.elapse.rx with rbstart := k.driver.rxBuffer } } := by
      simp only [chipPorts, htouch, hport, if_true]
      exact if_neg hhears
    rw [hrbstart]
    exact program_card hio hblank.1 hon' h0
  · intro h0
    have hlost : (chipPorts frames ioBase).outl (ioBase + regRbstart) k.driver.rxBuffer k.card =
        k.card.elapse := by
      simp only [chipPorts, htouch]
      exact if_pos (.inr h0)
    rw [hlost]
    exact ((hblank.outw hio).outl hio).outb hio

/-! ## The buffers -/

/-- A live block behind that pointer has room for `n` bytes. -/
def HasBlock (bs : List Block) (p n : ℕ) : Prop := ∃ b ∈ live bs, b.addr + 12 = p ∧ n ≤ b.size

/-- Both buffers are the card's, and the heap is in order. -/
structure Buffers (h : HeapVars) (m : Mem) (rx tx : ℕ) : Prop where
  heap : ∃ bs, HeapOk h m bs ∧ HasBlock bs rx 9712 ∧ HasBlock bs tx 1600
  apart : rx ≠ tx

variable {h h' : HeapVars} {m m' : Mem} {bs : List Block} {n p q : ℕ}

theorem kmalloc_block (hok : HeapOk h m bs) (hn : n ≠ 0) (hrun : heapC.kmalloc h m n = some (p, h', m'))
    (hp : p ≠ 0) : ∃ cs, h' = h ∧ HeapOk h m' cs ∧ HasBlock cs p (alignUp n alignment) ∧
      (∀ b ∈ live bs, b ∈ live cs ∧ b.addr + 12 ≠ p) := by
  rcases hok.kmalloc_cases hn with ⟨-, hnull⟩ | ⟨d, cs, m₁, hf, hsome, hok', -⟩
  · cases hnull.symm.trans hrun
    exact absurd rfl hp
  · cases hsome.symm.trans hrun
    have hlive := Geometry.firstFit_live hf
    obtain ⟨pre, post, hbs, -, hdf, hfit, -⟩ := Geometry.firstFit_some hf
    refine ⟨cs, rfl, hok', ⟨_, (hlive _).mpr (.inr rfl), rfl, Geometry.taken_size hfit⟩, fun b hb =>
      ⟨(hlive b).mpr (.inl hb), fun he => ?_⟩⟩
    obtain ⟨hmem, hbf⟩ := mem_live.mp hb
    have hd : d ∈ bs := hbs ▸ by simp
    have hbd := hok.tiles.eq_of_addr hmem hd (Nat.add_right_cancel he)
    rw [hbd, hdf] at hbf
    cases hbf

/-- Two buffers asked for in turn. -/
theorem kmalloc_buffers {h₁ h₂ : HeapVars} {m₁ m₂ : Mem} (hok : HeapOk h m bs)
    (hrx : heapC.kmalloc h m rxBufSize = some (p, h₁, m₁))
    (htx : heapC.kmalloc h₁ m₁ txBufSize = some (q, h₂, m₂)) (hp : p ≠ 0) (hq : q ≠ 0) :
    Buffers h₂ m₂ p q := by
  obtain ⟨cs, rfl, hok₁, hblock, -⟩ := kmalloc_block hok (by decide) hrx hp
  obtain ⟨ds, rfl, hok₂, hblock', hkept⟩ := kmalloc_block hok₁ (by decide) htx hq
  rw [alignUp_rxBufSize] at hblock
  rw [alignUp_txBufSize] at hblock'
  obtain ⟨b, hb, haddr, hsize⟩ := hblock
  obtain ⟨hkeep, hne⟩ := hkept b hb
  exact ⟨⟨ds, hok₂, ⟨b, hkeep, haddr, hsize⟩, hblock'⟩, haddr ▸ hne⟩

/-! ## The call -/

/-- Before the call, which is made once: the receiver of the card is off, and the card itself may be. -/
structure Before (ioBase : ℕ) (k : Platform Chip HeapVars) : Prop where
  reached : Reached ioBase
  heap : ∃ bs, HeapOk k.heap k.mem bs
  bar : ∀ p, (pciFindDevice rtlVendorId rtlDeviceId k.config).1 = some p →
    k.config.register p 0x10 &&& 0xFFFFFFFC = ioBase
  off : k.card.receiver = false
  idle : k.card.resetting = 0
  seen : k.driver.rxPacketsSeen = 0

/-- The receive path behind the call. -/
def receivePath (k : Platform Chip HeapVars) : Link := ⟨k.driver, { k.card.rx with mem := k.mem }, []⟩

/-- The transmit path behind the call. -/
def transmitPath (k : Platform Chip HeapVars) : Transmitter :=
  ⟨k.mem, k.rtlReady, k.txBuffer, 0, k.card.tsad, k.card.tsd, k.card.waiting, k.card.next, [], []⟩

/-- The card is programmed, and both directions begin at the beginning. -/
structure Ready (ioBase : ℕ) (k : Platform Chip HeapVars) : Prop where
  running : k.card.Running
  causes : k.card.imr = 0x0005
  accepts : k.card.rcr = 0x0000008F
  receive : Link.Fresh ioBase (receivePath k)
  transmit : transmission.init (transmitPath k)

theorem bar_enable {c : Config} {p : Place} (hp : InRange p) :
    (pciGetBar0 (pciEnableBusMastering c p.1 p.2.1 p.2.2) p.1 p.2.1 p.2.2).1 = c.register p 0x10 :=
  register_write_other _ hp hp (by decide) (by decide) (.inr (by decide))

theorem or_five_and (v : ℕ) : (v ||| 1 <<< 2 ||| 1 <<< 0) &&& 0x05 = 0x05 := by
  apply Nat.eq_of_testBit_eq
  intro i
  have hfive : (0x05 : ℕ) = 1 <<< 2 ||| 1 <<< 0 := rfl
  rw [hfive, Nat.testBit_and, Nat.or_assoc, Nat.testBit_or]
  cases (1 <<< 2 ||| 1 <<< 0 : ℕ).testBit i <;> simp

/-- The card may read and write memory. -/
theorem register_enable (c : Config) (p : Place) :
    (pciEnableBusMastering c p.1 p.2.1 p.2.2).register p 0x04 &&& 0x05 = 0x05 := by
  have hwrite : (pciEnableBusMastering c p.1 p.2.1 p.2.2).register p 0x04 =
      u32 (c.register p 0x04 ||| 1 <<< 2 ||| 1 <<< 0) := register_write_self _ p 0x04 _
  have hlt : c.register p 0x04 ||| 1 <<< 2 ||| 1 <<< 0 < 2 ^ 32 :=
    Nat.or_lt_two_pow (Nat.or_lt_two_pow (register_lt c p 0x04) (by decide)) (by decide)
  rw [hwrite, u32_of_lt hlt, or_five_and]

/-- What a successful call did. -/
structure Called (ioBase : ℕ) (p : Place) (k k' : Platform Chip HeapVars) : Prop where
  master : k'.config.register p 0x04 &&& 0x05 = 0x05
  mac : k'.mac = k.card.idr.toList.map UInt8.toNat
  buffers : Buffers k'.heap k'.mem k'.driver.rxBuffer k'.txBuffer
  ready : k'.rtlReady = true
  driver : k'.driver = ⟨ioBase, k'.driver.rxBuffer, 0, k.driver.rxPacketsSeen⟩
  got : k'.driver.rxBuffer ≠ 0
  up : k.card.InTime → k'.card = k.card.waited.programmed k'.driver.rxBuffer
  down : ¬ k.card.InTime → k'.card.rx.rbstart = 0

theorem rtl8139Init_called (hk : Before ioBase k)
    (hrun : rtl8139Init (chipPorts frames ioBase) heapC handler k = some (1, k')) :
    ∃ p, (pciFindDevice rtlVendorId rtlDeviceId k.config).1 = some p ∧
      Called ioBase p k k' := by
  obtain ⟨-, hdata⟩ := pciFindDevice_eq rtlVendorId rtlDeviceId k.config
  obtain ⟨hio, ⟨bs, hok⟩, hbar, hoff, hidle, -⟩ := hk
  rw [rtl8139Init] at hrun
  rcases hfind : pciFindDevice rtlVendorId rtlDeviceId k.config with ⟨_ | p, config⟩
  · rw [hfind] at hrun
    cases hrun
  · rw [hfind] at hrun hdata hbar
    have hrange := (pciFindDevice_some.mp (congrArg Prod.fst hfind)).1
    have hbase : (pciGetBar0 (pciEnableBusMastering config p.1 p.2.1 p.2.2) p.1 p.2.1 p.2.2).1 &&&
        0xFFFFFFFC = ioBase := by
      rw [bar_enable hrange, register_congr hdata, hbar p rfl]
    dsimp only at hrun
    obtain ⟨e, hreset, hblank, hon, hwaited⟩ : ∃ e : Chip,
        resetCard (chipPorts frames ioBase) ioBase k.card = (k.card.idr.toList.map UInt8.toNat, e) ∧
          e.Blank ∧ e.config1 = 0 ∧ e.elapse = k.card.waited := resetCard_chip hio hoff hidle
    rw [hbase, hreset] at hrun
    obtain ⟨⟨rx, h₁, m₁⟩, hrx, hrun⟩ := Option.bind_eq_some_iff.mp hrun
    obtain ⟨⟨tx, h₂, m₂⟩, htx, hrun⟩ := Option.bind_eq_some_iff.mp hrun
    refine ⟨p, rfl, ?_⟩
    split at hrun
    · cases hrun
    · next hnull =>
      rw [not_or] at hnull
      obtain rfl := (Prod.mk.inj (Option.some.inj hrun)).2
      constructor
      · exact (congrArg (· &&& 0x05) (register_congr rfl p 0x04)).trans (register_enable config p)
      · rfl
      · exact kmalloc_buffers hok hrx htx hnull.1 hnull.2
      · rfl
      · rfl
      · exact hnull.1
      · intro htime
        rw [← waited_resetting, ← hwaited] at htime
        rw [← hwaited]
        exact (bringUp_card hio rfl hblank hon).1 htime
      · intro hlate
        rw [← waited_resetting, ← hwaited] at hlate
        exact (bringUp_card hio rfl hblank hon).2 hlate

/-- In time, the card is up and the driver where it starts. -/
theorem Called.handedOver {p : Place} (h : Called ioBase p k k') (hseen : k.driver.rxPacketsSeen = 0)
    (htime : k.card.InTime) : Ready ioBase k' := by
  have hcard := h.up htime
  have hover := (waited_resetting _).mpr htime
  obtain ⟨r, n, hn⟩ := waited_rest k.card
  have hdriver := h.driver
  rw [hseen] at hdriver
  rw [hn] at hcard hover
  constructor
  · rw [hcard]
    exact ⟨rfl, rfl, rfl, hover⟩
  · rw [hcard]
    rfl
  · rw [hcard]
    rfl
  · rw [receivePath, hcard]
    have hrok : (0 : BitVec 16).getLsbD 0 = false := by decide
    exact ⟨by rw [hdriver], by rw [hdriver], by rw [hdriver], rfl, rfl, rfl, hrok, rfl, rfl, rfl⟩
  · rw [transmitPath, hcard]
    exact ⟨rfl, rfl, fun _ _ => rfl, rfl, rfl⟩

/-- From a card that receives nothing, on or off, whatever the configuration space, the heap and the
registers: a successful call let the card use the memory, read its address and got both buffers; and
card and driver are where both directions begin exactly if the reset was over by the first register
written behind the wait, however much time passed between the accesses. -/
theorem rtl8139_init_ready_iff (hk : Before ioBase k)
    (hrun : rtl8139Init (chipPorts frames ioBase) heapC handler k = some (1, k')) :
    (∃ p, (pciFindDevice rtlVendorId rtlDeviceId k.config).1 = some p ∧
      k'.config.register p 0x04 &&& 0x05 = 0x05) ∧
    k'.mac = k.card.idr.toList.map UInt8.toNat ∧
    Buffers k'.heap k'.mem k'.driver.rxBuffer k'.txBuffer ∧
    (Ready ioBase k' ↔ k.card.InTime) := by
  obtain ⟨p, hfind, hcalled⟩ := rtl8139Init_called hk hrun
  refine ⟨⟨p, hfind, hcalled.master⟩, hcalled.mac, hcalled.buffers, fun hready => ?_, hcalled.handedOver hk.seen⟩
  by_contra hlate
  exact hcalled.got (hready.receive.rbstart.symm.trans (hcalled.down hlate))

/-- One card that is switched off, and a heap behind an image that ends at 1 MiB. -/
def coldPlatform : Platform Chip HeapVars where
  card :=
    { idr := #v[0x52, 0x54, 0x00, 0x12, 0x34, 0x57]
      rx := ⟨fun _ => 0, 0, 0, 0, 0, 0, 0, []⟩
      tsad := fun _ => 0
      tsd := fun _ => 0
      waiting := fun _ => false
      next := 0
      imr := 0
      rcr := 0
      receiver := false
      transmitter := false
      config1 := 1
      resetTime := 10
      resetting := 0
      pace := fun _ => 1
      since := 0 }
  config := oneCard 11
  masks := ⟨0xFF, 0xFF⟩
  routines := fun _ => 0
  heap := (Heap.heapInit Heap.smallImage.addr (fun _ => 0)).1
  mem := (Heap.heapInit Heap.smallImage.addr (fun _ => 0)).2
  driver := ⟨0, 0, 0, 0⟩
  txBuffer := 0
  mac := []
  rtlReady := false

theorem coldPlatform_config : coldPlatform.config = oneCard 11 := rfl

theorem coldPlatform_found :
    (pciFindDevice rtlVendorId rtlDeviceId coldPlatform.config).1 = some (0, 0, 0) := by
  rw [coldPlatform_config, oneCard_found]

theorem coldPlatform_heap : HeapOk coldPlatform.heap coldPlatform.mem
    [⟨alignUp Heap.smallImage.addr 4096, Heap.heapSize - Heap.headerSize, true⟩] := by
  simp only [coldPlatform]
  exact Heap.heapInit_ok Heap.smallImage (fun _ => 0)

theorem coldPlatform_before : Before 0xC000 coldPlatform := by
  refine ⟨by simp [Reached], ⟨_, coldPlatform_heap⟩, fun p hp => ?_, rfl, rfl, rfl⟩
  rw [coldPlatform_found] at hp
  cases hp
  have hbar : (oneCard 11).register (0, 0, 0) 0x10 = 0xC001 := by
    simp [Config.register, oneCard, pciMakeAddress, u32]
  rw [coldPlatform_config, hbar]
  decide

theorem coldPlatform_inTime : coldPlatform.card.InTime := by
  rw [Chip.InTime]
  simp [coldPlatform, resetAccesses, resetReads]

theorem coldPlatform_runs (frames : ℕ → Frame) : ∃ k', k'.heap = coldPlatform.heap ∧
    rtl8139Init (chipPorts frames 0xC000) heapC 1 coldPlatform = some (1, k') := by
  obtain ⟨m₁, hrx, hok₁⟩ := coldPlatform_heap.kmalloc_request (n := rxBufSize) (by decide)
  obtain ⟨m₂, htx, -⟩ := hok₁.kmalloc_request (n := txBufSize) (by decide)
  obtain ⟨k', hrun, hheap, -⟩ : ∃ k',
      rtl8139Init (chipPorts frames 0xC000) heapC 1 coldPlatform = some (_, k') ∧ _ :=
    rtl8139Init_found coldPlatform_found hrx htx
  rw [if_neg] at hrun
  · exact ⟨k', hheap, hrun⟩
  · rw [Heap.pointer_eq_zero, Heap.pointer_eq_zero]
    decide

theorem rtl8139_init_ready_cold : ∃ k', Ready 0xC000 k' ∧
    rtl8139Init (chipPorts shortFrames 0xC000) heapC 1 coldPlatform = some (1, k') := by
  obtain ⟨k', -, hrun⟩ := coldPlatform_runs shortFrames
  obtain ⟨-, -, -, hiff⟩ := rtl8139_init_ready_iff coldPlatform_before hrun
  exact ⟨k', hiff.mpr coldPlatform_inTime, hrun⟩

end ShadOS.Rtl8139

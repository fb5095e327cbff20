import ShadOS.Rtl8139.Cursor

/-! # Frames and the end of the receive buffer

With the WRAP bit the card writes a frame that starts near the end of the ring
straight on, past the ring. The buffer leaves 1516 bytes for that behind the
last header, and the handler accepts frames of up to 1600 bytes.
-/

namespace ShadOS.Rtl8139
open Machine

universe u

/-- The driver, and the headers it has read. -/
structure Receiver where
  driver : Driver
  log : List (ℕ × ℕ)

variable {C : Type u} (D : Device C)

/-- One interrupt, with the card in any state. -/
def Receiver.interrupt (s : Receiver) (c : C) : Receiver :=
  let r := rtlIrqHandler (recorded D) s.driver (c, s.log)
  ⟨r.1, r.2.2⟩

/-- Interrupts after `rtl8139_init`, from a card that answers anything. -/
def receiving : System Receiver C where
  init s := s.driver.rxOffset = 0 ∧ s.driver.rxPacketsSeen = 0 ∧ s.log = []
  allowed _ _ := True
  step s c := some (s.interrupt D c)

/-- The frame behind this length field, header included, lies in `rx_buffer`. -/
def Inside (rxBuffer : ℕ) (f : ℕ × ℕ) : Prop :=
  rxBuffer ≤ f.1 - 2 ∧ f.1 - 2 + 4 + f.2 ≤ rxBuffer + rxBufSize

instance (rxBuffer : ℕ) (f : ℕ × ℕ) : Decidable (Inside rxBuffer f) :=
  inferInstanceAs (Decidable (_ ∧ _))

variable {D} {s : Receiver}

theorem reaches_follows (h : (receiving D).Reaches s) : Follows s.driver s.log := by
  apply h.invariant (P := fun s => Follows s.driver s.log)
  · rintro ⟨d, log⟩ ⟨hoff, hseen, rfl⟩
    exact ⟨rfl, hoff, hseen⟩
  · rintro s c t hs - ht
    obtain rfl := Option.some.inj ht
    exact rtlIrqHandler_follows D hs

/-- A frame of up to 1516 bytes fits from every offset of the ring. -/
theorem inside_iff (base : ℕ) (pre : List ℕ) (l : ℕ) :
    Inside base (base + cursor pre + 2, l) ↔ (1516 < l → cursor pre + l ≤ 9704) := by
  have hlt := cursor_lt pre
  obtain ⟨q, hq⟩ := four_dvd_cursor pre
  unfold Inside rxBufSize
  omega

/-- All accepted frames lie inside the buffer exactly when no frame of more than 1516 bytes
arrives while the rounded sizes of the frames before it leave the ring too close to its end. -/
theorem frames_inside_iff (h : (receiving D).Reaches s) :
    (∀ f ∈ accepted s.log, Inside s.driver.rxBuffer f) ↔
      ∀ pre l post, lengths s.log = pre ++ l :: post → 1516 < l →
        (pre.map frameSize).sum % 8192 + l ≤ 9704 := by
  have hf := reaches_follows h
  rw [hf.headers]
  constructor
  · intro hall pre l post hls
    have hmem : (s.driver.rxBuffer + cursor pre + 2, l) ∈
        headers s.driver.rxBuffer (lengths s.log) := mem_headers.mpr ⟨pre, post, hls, rfl⟩
    exact (inside_iff _ pre l).mp (hall _ hmem)
  · rintro hall ⟨addr, l⟩ hmem
    obtain ⟨pre, post, hls, rfl⟩ := mem_headers.mp hmem
    exact (inside_iff _ pre l).mpr (hall pre l post hls)

/-- A card with these length fields to be read, and then an empty ring. -/
def script : Device (List ℕ) where
  inb _ c := (if c = [] then 0x0D else 0x0C, c)
  inw _ c := (1, c)
  outw _ _ c := c
  load16 _ c := (c.headD 0, c.tail)

/-- The driver after `rtl8139_init`, with its buffer in the heap. -/
def freshDriver : Driver := ⟨0xC000, 0x200000, 0, 0⟩

def afterFrames (ls : List ℕ) : Receiver := Receiver.interrupt script ⟨freshDriver, []⟩ ls

theorem afterFrames_reaches (ls : List ℕ) : (receiving script).Reaches (afterFrames ls) := by
  have hstart : (receiving script).Reaches ⟨freshDriver, []⟩ := .start ⟨rfl, rfl, rfl⟩
  apply hstart.step (e := ls) trivial
  simp only [receiving, afterFrames]

/-- The second of two frames at the start of the ring. -/
theorem frames_inside_start : (0x200000 + 68 + 2, 1400) ∈ accepted (afterFrames [64, 1400]).log ∧
    Inside 0x200000 (0x200000 + 68 + 2, 1400) := by
  have hmem : (0x200000 + 68 + 2, 1400) ∈ accepted (afterFrames [64, 1400]).log := by decide
  refine ⟨hmem, (frames_inside_iff (afterFrames_reaches [64, 1400])).mpr ?_ _ hmem⟩
  intro pre l post hls hlt
  have hl : l ∈ lengths (afterFrames [64, 1400]).log := by simp [hls]
  rw [show lengths (afterFrames [64, 1400]).log = [64, 1400] by decide] at hl
  simp at hl
  omega

/-- A frame of full Ethernet length that starts in the last word of the ring ends two bytes
after the buffer. -/
theorem frame_outside : ∃ s, (receiving script).Reaches s ∧ s.driver.rxBuffer = 0x200000 ∧
    (0x200000 + 8188 + 2, 1518) ∈ accepted s.log ∧
    ¬ Inside 0x200000 (0x200000 + 8188 + 2, 1518) :=
  ⟨afterFrames [1518, 1518, 1518, 1518, 1518, 564, 1518], afterFrames_reaches _, by decide,
    by decide, by decide⟩

end ShadOS.Rtl8139

import Mathlib.Data.List.Basic
import Mathlib.Data.Int.Notation

/-! # The mouse of mouse.c

The controller raises one interrupt for each byte. `mouse_callback` collects three
of them into a packet and applies it to the position and the buttons.
-/

namespace ShadOS.Mouse

/-- The static variables of the decoder. -/
structure Decoder where
  cycle : ℕ
  packet : Vector Int8 3
  x : ℤ
  y : ℤ
  buttons : UInt8
  deriving DecidableEq

def initial : Decoder := ⟨0, #v[0, 0, 0], 40, 12, 0⟩

/-- The two comparisons made with each coordinate. -/
def clamp (v : ℤ) : ℤ :=
  let v := if v < 0 then 0 else v
  if v > 300 then 300 else v

/-- A complete packet moves the pointer and sets the buttons. -/
def Decoder.apply (m : Decoder) : Decoder :=
  { m with
    buttons := m.packet[0].toUInt8 &&& 0x07
    x := clamp (m.x + m.packet[1].toInt)
    y := clamp (m.y - m.packet[2].toInt) }

/-- The interrupt with `data` at port 0x60. -/
def mouseCallback (m : Decoder) (data : UInt8) : Decoder :=
  match m.cycle with
  | 0 =>
    if data &&& 0x08 = 0 then m
    else { m with packet := m.packet.set 0 data.toInt8, cycle := 1 }
  | 1 => { m with packet := m.packet.set 1 data.toInt8, cycle := 2 }
  | 2 => { m with packet := m.packet.set 2 data.toInt8, cycle := 0 }.apply
  | _ => m

def feed (m : Decoder) (bytes : List UInt8) : Decoder := bytes.foldl mouseCallback m

/-- The packets applied while the bytes come in. -/
def applied : Decoder → List UInt8 → List (Vector Int8 3)
  | _, [] => []
  | m, data :: bytes =>
    let m' := mouseCallback m data
    if m.cycle = 2 then m'.packet :: applied m' bytes else applied m' bytes

/-- Bit 3 is clear: a packet does not start with this byte. -/
def Quiet (data : UInt8) : Prop := data &&& 0x08 = 0

instance : DecidablePred Quiet := fun data => inferInstanceAs (Decidable (data &&& 0x08 = 0))

/-- A packet as the mouse sends it. -/
structure Packet where
  flags : UInt8
  dx : UInt8
  dy : UInt8
  sync : ¬ Quiet flags

namespace Packet

def bytes (p : Packet) : List UInt8 := [p.flags, p.dx, p.dy]

/-- The packet as `mouse_packet` holds it. -/
def stored (p : Packet) : Vector Int8 3 := #v[p.flags.toInt8, p.dx.toInt8, p.dy.toInt8]

end Packet

def stream (ps : List Packet) : List UInt8 := ps.flatMap Packet.bytes

variable {m : Decoder} {data a b : UInt8} {p : Packet} {ps : List Packet}

@[simp] theorem feed_nil (m : Decoder) : feed m [] = m := rfl

@[simp] theorem feed_cons (m : Decoder) (data : UInt8) (bytes : List UInt8) :
    feed m (data :: bytes) = feed (mouseCallback m data) bytes := rfl

theorem feed_append (m : Decoder) (s t : List UInt8) : feed m (s ++ t) = feed (feed m s) t :=
  List.foldl_append

theorem applied_append (m : Decoder) (s t : List UInt8) :
    applied m (s ++ t) = applied m s ++ applied (feed m s) t := by
  induction s generalizing m with
  | nil => rfl
  | cons data s ih =>
    rw [List.cons_append, applied, applied, feed_cons, ih]
    by_cases h : m.cycle = 2
    · rw [if_pos h, if_pos h, List.cons_append]
    · rw [if_neg h, if_neg h]

@[simp] theorem applied_nil (m : Decoder) : applied m [] = [] := rfl

theorem applied_cons_of_ne (hm : m.cycle ≠ 2) (bytes : List UInt8) :
    applied m (data :: bytes) = applied (mouseCallback m data) bytes := by
  rw [applied, if_neg hm]

@[simp] theorem stream_nil : stream [] = [] := rfl

@[simp] theorem stream_cons (p : Packet) (ps : List Packet) :
    stream (p :: ps) = p.bytes ++ stream ps := rfl

theorem stream_append (ps qs : List Packet) : stream (ps ++ qs) = stream ps ++ stream qs :=
  List.flatMap_append

/-! ## One byte -/

@[simp] theorem apply_cycle (m : Decoder) : m.apply.cycle = m.cycle := rfl

@[simp] theorem apply_packet (m : Decoder) : m.apply.packet = m.packet := rfl

theorem callback_quiet (hm : m.cycle = 0) (hd : Quiet data) : mouseCallback m data = m := by
  simp only [mouseCallback, hm, if_pos (show data &&& 0x08 = 0 from hd)]

theorem callback_flags (hm : m.cycle = 0) (hd : ¬ Quiet data) :
    mouseCallback m data = { m with packet := m.packet.set 0 data.toInt8, cycle := 1 } := by
  simp only [mouseCallback, hm, if_neg (show ¬ data &&& 0x08 = 0 from hd)]

theorem callback_dx (hm : m.cycle = 1) :
    mouseCallback m data = { m with packet := m.packet.set 1 data.toInt8, cycle := 2 } := by
  simp only [mouseCallback, hm]

theorem callback_dy (hm : m.cycle = 2) :
    mouseCallback m data = { m with packet := m.packet.set 2 data.toInt8, cycle := 0 }.apply := by
  simp only [mouseCallback, hm]

theorem applied_cons (hm : m.cycle = 2) (bytes : List UInt8) :
    applied m (data :: bytes) =
      m.packet.set 2 data.toInt8 :: applied (mouseCallback m data) bytes := by
  rw [applied, if_pos hm, callback_dy hm, apply_packet]

/-- The states of the decoder are the three positions in a packet. -/
theorem callback_cycle_lt (hm : m.cycle < 3) : (mouseCallback m data).cycle < 3 := by
  obtain h | h | h : m.cycle = 0 ∨ m.cycle = 1 ∨ m.cycle = 2 := by omega
  · by_cases hd : Quiet data
    · rw [callback_quiet h hd]
      exact hm
    · simp [callback_flags h hd]
  · simp [callback_dx h]
  · simp [callback_dy h]

theorem feed_cycle_lt (bytes : List UInt8) (hm : m.cycle < 3) : (feed m bytes).cycle < 3 := by
  induction bytes generalizing m with
  | nil => exact hm
  | cons data bytes ih => exact ih (callback_cycle_lt hm)

theorem clamp_bounds (v : ℤ) : 0 ≤ clamp v ∧ clamp v ≤ 300 := by
  simp only [clamp]
  split <;> split <;> omega

/-- The position stays on the screen. -/
theorem feed_bounds (bytes : List UInt8) (hx : 0 ≤ m.x ∧ m.x ≤ 300) (hy : 0 ≤ m.y ∧ m.y ≤ 300) :
    (0 ≤ (feed m bytes).x ∧ (feed m bytes).x ≤ 300) ∧
      (0 ≤ (feed m bytes).y ∧ (feed m bytes).y ≤ 300) := by
  induction bytes generalizing m with
  | nil => exact ⟨hx, hy⟩
  | cons data bytes ih =>
    rw [feed_cons]
    unfold mouseCallback
    split
    · split <;> exact ih hx hy
    · exact ih hx hy
    · exact ih (clamp_bounds _) (clamp_bounds _)
    · exact ih hx hy

/-! ## One packet -/

theorem set_stored (v : Vector Int8 3) (p : Packet) :
    ((v.set 0 p.flags.toInt8).set 1 p.dx.toInt8).set 2 p.dy.toInt8 = p.stored := by
  ext i hi
  obtain rfl | rfl | rfl : i = 0 ∨ i = 1 ∨ i = 2 := by omega
  all_goals simp [Packet.stored]

/-- A packet that begins where the decoder expects one is applied. -/
theorem feed_aligned (hm : m.cycle = 0) :
    feed m p.bytes = { m with cycle := 0, packet := p.stored }.apply := by
  rw [Packet.bytes, feed_cons, callback_flags hm p.sync, feed_cons, callback_dx rfl, feed_cons,
    callback_dy rfl, set_stored, feed_nil]

theorem applied_aligned (hm : m.cycle = 0) : applied m p.bytes = [p.stored] := by
  rw [Packet.bytes, applied_cons_of_ne (by omega), callback_flags hm p.sync,
    applied_cons_of_ne (by simp), callback_dx rfl, applied_cons rfl, set_stored]
  rfl

end ShadOS.Mouse

import ShadOS.Mouse.Source
import Mathlib.Data.List.Induction
import Mathlib.Data.UInt

/-! # The motion sent and the motion decoded

Each delta has nine bits, the highest among the flags. The decoder takes the sign
from the low byte instead, so that it follows a motion of up to 127 steps, and the
others only where both end at the same border.
-/

namespace ShadOS.Mouse

/-- A packet without overflow. -/
structure Motion extends Packet where
  noOverflow : flags &&& 0xC0 = 0

namespace Motion

/-- The deltas in nine-bit two's complement: the sign bits weigh -256. -/
def deltaX (p : Motion) : ℤ := p.dx.toNat - if p.flags &&& 0x10 = 0 then 0 else 256
def deltaY (p : Motion) : ℤ := p.dy.toNat - if p.flags &&& 0x20 = 0 then 0 else 256

end Motion

/-- A packet, and the bytes without bit 3 that come in before it. -/
structure Sent where
  noise : List UInt8
  quiet : ∀ b ∈ noise, Quiet b
  motion : Motion

def Sent.bytes (s : Sent) : List UInt8 := s.noise ++ s.motion.bytes

def received (ss : List Sent) : List UInt8 := ss.flatMap Sent.bytes

/-- On the screen of 0 to 300 in both directions, y downwards. -/
def moved (position : ℤ × ℤ) (s : Sent) : ℤ × ℤ :=
  (max 0 (min (position.1 + s.motion.deltaX) 300), max 0 (min (position.2 - s.motion.deltaY) 300))

def Decoder.position (m : Decoder) : ℤ × ℤ := (m.x, m.y)

/-- The decoder shows what was sent, whatever comes in before the next packet. -/
def Decoded (m : Decoder) (ss : List Sent) : Prop :=
  ∀ noise : List UInt8, (∀ b ∈ noise, Quiet b) →
    (feed m (received ss ++ noise)).cycle = 0 ∧
    (feed m (received ss ++ noise)).position = ss.foldl moved m.position ∧
    ∀ s ∈ ss.getLast?, (feed m (received ss ++ noise)).buttons = s.motion.flags &&& 0x07

/-- The delta is that of its low byte, or is the whole way down to a border reached already. -/
def Narrow (position : ℤ × ℤ) (s : Sent) : Prop :=
  (-128 ≤ s.motion.deltaX ∧ s.motion.deltaX < 128 ∨
    position.1 = 0 ∧ s.motion.deltaX = -256) ∧
  (-128 ≤ s.motion.deltaY ∧ s.motion.deltaY < 128 ∨
    position.2 = 300 ∧ s.motion.deltaY = -256)

variable {m : Decoder} {s : Sent} {ss : List Sent}

theorem clamp_eq (v : ℤ) : clamp v = max 0 (min v 300) := by
  simp only [clamp]
  split <;> split <;> omega

theorem toInt_toInt8 (b : UInt8) :
    b.toInt8.toInt = b.toNat - if b.toNat < 128 then 0 else 256 := by
  have hlt := b.toNat_lt
  have h : b.toInt8.toInt = b.toBitVec.toInt := rfl
  rw [h, BitVec.toInt_eq_toNat_cond, UInt8.toNat_toBitVec]
  split <;> split <;> omega

theorem feed_quiet {noise : List UInt8} (hm : m.cycle = 0) (hq : ∀ b ∈ noise, Quiet b) :
    feed m noise = m := by
  induction noise with
  | nil => rfl
  | cons b noise ih =>
    rw [feed_cons, callback_quiet hm (hq b List.mem_cons_self)]
    exact ih fun c hc => hq c (List.mem_cons_of_mem b hc)

theorem feed_sent (s : Sent) (hm : m.cycle = 0) :
    feed m s.bytes = { m with cycle := 0, packet := s.motion.stored }.apply := by
  rw [Sent.bytes, feed_append, feed_quiet hm s.quiet, feed_aligned hm]

/-- The decoder is between two packets after each of them. -/
theorem feed_received_cycle (hm : m.cycle = 0) : (feed m (received ss)).cycle = 0 := by
  induction ss generalizing m with
  | nil => exact hm
  | cons s ss ih =>
    rw [received, List.flatMap_cons, feed_append]
    exact ih (by rw [feed_sent s hm, apply_cycle])

theorem received_snoc (ss : List Sent) (s : Sent) : received (ss ++ [s]) = received ss ++ s.bytes := by
  simp [received]

theorem feed_received_snoc (ss : List Sent) (s : Sent) (hm : m.cycle = 0) :
    feed m (received (ss ++ [s])) =
      { feed m (received ss) with cycle := 0, packet := s.motion.stored }.apply := by
  rw [received_snoc, feed_append, feed_sent s (feed_received_cycle hm)]

/-- One coordinate: the low byte moves it as the nine bits do. -/
theorem clamp_narrow_iff {x d low : ℤ} (hx : 0 ≤ x ∧ x ≤ 300)
    (hd : low = d ∧ -128 ≤ d ∧ d < 128 ∨ low = d - 256 ∧ 128 ≤ d ∧ d < 256 ∨
      low = d + 256 ∧ -256 ≤ d ∧ d < -128) :
    (clamp (x + low) = max 0 (min (x + d) 300) ↔ -128 ≤ d ∧ d < 128 ∨ x = 0 ∧ d = -256) ∧
    (clamp (x - low) = max 0 (min (x - d) 300) ↔ -128 ≤ d ∧ d < 128 ∨ x = 300 ∧ d = -256) := by
  rw [clamp_eq, clamp_eq]
  omega

/-- The low byte alone, against the nine bits. -/
theorem low_cases (b : UInt8) (sign : Prop) [Decidable sign] :
    let d : ℤ := b.toNat - if sign then 0 else 256
    b.toInt8.toInt = d ∧ -128 ≤ d ∧ d < 128 ∨ b.toInt8.toInt = d - 256 ∧ 128 ≤ d ∧ d < 256 ∨
      b.toInt8.toInt = d + 256 ∧ -256 ≤ d ∧ d < -128 := by
  have hlt := b.toNat_lt
  rw [toInt_toInt8]
  split <;> split <;> omega

theorem apply_position_iff (s : Sent) (hx : 0 ≤ m.x ∧ m.x ≤ 300) (hy : 0 ≤ m.y ∧ m.y ≤ 300) :
    { m with cycle := 0, packet := s.motion.stored }.apply.position = moved m.position s ↔
      Narrow m.position s := by
  have hdx := (clamp_narrow_iff hx (low_cases s.motion.dx (s.motion.flags &&& 0x10 = 0))).1
  have hdy := (clamp_narrow_iff hy (low_cases s.motion.dy (s.motion.flags &&& 0x20 = 0))).2
  exact Prod.ext_iff.trans (and_congr hdx hdy)

theorem decoded_nil (hm : m.cycle = 0) : Decoded m [] := by
  intro noise hq
  rw [received, List.flatMap_nil, List.nil_append, feed_quiet hm hq]
  simp [hm]

/-- One more packet is decoded when its deltas are narrow, and only then. -/
theorem decoded_snoc_iff (earlier : List UInt8) (hm : m = feed initial earlier) (h0 : m.cycle = 0)
    (h : Decoded m ss) : Decoded m (ss ++ [s]) ↔ Narrow (ss.foldl moved m.position) s := by
  have hbounds := feed_bounds (m := initial) (earlier ++ received ss) (by decide) (by decide)
  rw [feed_append, ← hm] at hbounds
  have hbefore := (h [] (by simp)).2.1
  rw [List.append_nil] at hbefore
  rw [← hbefore, ← apply_position_iff s hbounds.1 hbounds.2]
  constructor
  · intro hafter
    have hposition := (hafter [] (by simp)).2.1
    rw [List.append_nil, feed_received_snoc ss s h0, List.foldl_append, ← hbefore] at hposition
    exact hposition
  · intro hposition noise hq
    rw [feed_append, feed_quiet (feed_received_cycle h0) hq, feed_received_snoc ss s h0, hposition,
      hbefore]
    refine ⟨rfl, by simp, ?_⟩
    intro t ht
    obtain rfl : s = t := by simpa using ht
    exact congrArg (· &&& 0x07) (UInt8.toUInt8_toInt8 _)

/-- From between two packets the decoder shows what was sent, after every packet of a sequence,
exactly when each delta is narrow at the position before it. -/
theorem mouse_motion_iff (earlier : List UInt8) (ss : List Sent)
    (h : (feed initial earlier).cycle = 0) :
    (∀ rs, rs <+: ss → Decoded (feed initial earlier) rs) ↔
      ∀ rs s, rs ++ [s] <+: ss →
        Narrow (rs.foldl moved (feed initial earlier).position) s := by
  constructor
  · intro hall rs s hpre
    have hrs : rs <+: ss := (List.prefix_append rs [s]).trans hpre
    exact (decoded_snoc_iff earlier rfl h (hall rs hrs)).mp (hall _ hpre)
  · intro hall rs
    induction rs using List.reverseRecOn with
    | nil => exact fun _ => decoded_nil h
    | append_singleton rs s ih =>
      intro hpre
      have hrs : rs <+: ss := (List.prefix_append rs [s]).trans hpre
      exact (decoded_snoc_iff earlier rfl h (ih hrs)).mpr (hall rs s hpre)

/-- A packet that moves by five to the right and six down, with noise before it. -/
def shortMotion : Sent where
  noise := [0x00, 0xF7]
  quiet := by
    intro b hb
    obtain rfl | rfl : b = 0x00 ∨ b = 0xF7 := by simpa using hb
    all_goals decide
  motion := { flags := 0x29, dx := 5, dy := 250, sync := by decide, noOverflow := by decide }

/-- A packet that moves by 200 to the right. -/
def longMotion : Sent where
  noise := []
  quiet := fun _ hb => absurd hb List.not_mem_nil
  motion := { flags := 0x08, dx := 200, dy := 0, sync := by decide, noOverflow := by decide }

theorem short_motion_decoded : Decoded (feed initial []) [shortMotion] := by
  refine (mouse_motion_iff [] [shortMotion] rfl).mpr (fun rs s hpre => ?_) _ (List.prefix_refl _)
  have hlen : rs.length = 0 := by simpa using hpre.length_le
  obtain rfl := List.length_eq_zero_iff.mp hlen
  obtain rfl : s = shortMotion := by simpa using hpre
  exact ⟨.inl (by decide), .inl (by decide)⟩

/-- The pointer goes to the left border instead. -/
theorem long_motion_reversed : ¬ ∀ (earlier : List UInt8) (ss : List Sent),
    (feed initial earlier).cycle = 0 → Decoded (feed initial earlier) ss := by
  intro h
  have hposition := (h [] [longMotion] rfl [] (by simp)).2.1
  exact absurd hposition (by decide)

end ShadOS.Mouse

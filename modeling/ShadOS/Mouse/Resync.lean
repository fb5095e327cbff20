import ShadOS.Mouse.Source

/-! # A byte lost on the way

Only the first byte of a packet is looked at, and a delta byte with bit 3 set
passes for one. From inside a packet the decoder finds the beginning of the next
one when the delta bytes it takes for flags have bit 3 clear.
-/

namespace ShadOS.Mouse

/-- The decoder has the last packet, and waits for the next one. -/
def Recovered (m : Decoder) (bytes : List UInt8) (p : Packet) : Prop :=
  (feed m bytes).cycle = 0 ∧ (applied m bytes).getLast? = some p.stored

/-- From this value of `mouse_cycle` the packets bring the decoder to the start of the next one. -/
def Resyncs : ℕ → List Packet → Prop
  | 0, _ => True
  | 1, ps => ∃ p ∈ ps, Quiet p.dy
  | _, ps => ∃ pre p post, ps = pre ++ p :: post ∧ Quiet p.dx ∧ ∃ q ∈ p :: post, Quiet q.dy

/-- The value of `mouse_cycle` after a packet. -/
def cycleAfter (p : Packet) : ℕ → ℕ
  | 0 => 0
  | 1 => if Quiet p.dy then 0 else 1
  | _ => if Quiet p.dx then (if Quiet p.dy then 0 else 1) else 2

variable {m : Decoder} {p : Packet} {ps : List Packet} {c : ℕ}

@[simp] theorem cycleAfter_one (p : Packet) :
    cycleAfter p 1 = if Quiet p.dy then 0 else 1 := rfl

@[simp] theorem cycleAfter_two (p : Packet) :
    cycleAfter p 2 = if Quiet p.dx then (if Quiet p.dy then 0 else 1) else 2 := rfl

theorem callback_idle_cycle (data : UInt8) (hm : m.cycle = 0) :
    (mouseCallback m data).cycle = if Quiet data then 0 else 1 := by
  split
  · next hd => rw [callback_quiet hm hd, hm]
  · next hd => rw [callback_flags hm hd]

theorem feed_packet_cycle (p : Packet) (hm : m.cycle < 3) :
    (feed m p.bytes).cycle = cycleAfter p m.cycle := by
  obtain h | h | h : m.cycle = 0 ∨ m.cycle = 1 ∨ m.cycle = 2 := by omega
  · rw [feed_aligned h, h]
    rfl
  · -- the first delta byte ends a packet, the second may begin one
    rw [Packet.bytes, feed_cons, callback_dx h, feed_cons, callback_dy rfl, feed_cons, feed_nil,
      callback_idle_cycle _ rfl, h]
    rfl
  · rw [Packet.bytes, feed_cons, callback_dy h, feed_cons, feed_cons, feed_nil, h]
    by_cases hx : Quiet p.dx
    · rw [callback_quiet rfl hx, callback_idle_cycle _ rfl, cycleAfter_two, if_pos hx]
    · rw [callback_flags rfl hx, callback_dx rfl, cycleAfter_two, if_neg hx]

theorem resyncs_nil : Resyncs c [] ↔ c = 0 := by
  match c with
  | 0 => simp [Resyncs]
  | 1 => simp [Resyncs]
  | c + 2 => simp [Resyncs]

theorem resyncs_one_cons : Resyncs 1 (p :: ps) ↔ Quiet p.dy ∨ Resyncs 1 ps := by
  simp [Resyncs]

/-- A packet to begin with is no hindrance. -/
theorem Resyncs.one_of_two (h : Resyncs 2 ps) : Resyncs 1 ps := by
  obtain ⟨pre, p, post, rfl, -, q, hq, hdy⟩ := h
  exact ⟨q, List.mem_append_right pre hq, hdy⟩

theorem resyncs_two_cons :
    Resyncs 2 (p :: ps) ↔ Quiet p.dx ∧ Resyncs 1 (p :: ps) ∨ Resyncs 2 ps := by
  constructor
  · rintro ⟨pre, q, post, heq, hdx, hdy⟩
    cases pre with
    | nil =>
      cases heq
      exact .inl ⟨hdx, hdy⟩
    | cons p' pre =>
      cases heq
      exact .inr ⟨pre, q, post, rfl, hdx, hdy⟩
  · rintro (⟨hdx, hdy⟩ | ⟨pre, q, post, rfl, hdx, hdy⟩)
    · exact ⟨[], p, ps, rfl, hdx, hdy⟩
    · exact ⟨p :: pre, q, post, rfl, hdx, hdy⟩

theorem resyncs_cons (hc : c < 3) : Resyncs c (p :: ps) ↔ Resyncs (cycleAfter p c) ps := by
  obtain rfl | rfl | rfl : c = 0 ∨ c = 1 ∨ c = 2 := by omega
  · exact Iff.rfl
  · rw [resyncs_one_cons, cycleAfter_one]
    by_cases hy : Quiet p.dy
    · simp [hy, Resyncs]
    · simp [hy]
  · rw [resyncs_two_cons, resyncs_one_cons, cycleAfter_two]
    have hweaker : Resyncs 2 ps → Resyncs 1 ps := Resyncs.one_of_two
    by_cases hx : Quiet p.dx
    · by_cases hy : Quiet p.dy
      · simp [hx, hy, Resyncs]
      · simpa [hx, hy] using hweaker
    · simp [hx]

/-- When the packets have been fed, the decoder waits for the next one exactly then. -/
theorem feed_stream_aligned (hm : m.cycle < 3) :
    (feed m (stream ps)).cycle = 0 ↔ Resyncs m.cycle ps := by
  induction ps generalizing m with
  | nil => exact resyncs_nil.symm
  | cons p ps ih =>
    rw [stream_cons, feed_append, ih (feed_cycle_lt _ hm), feed_packet_cycle p hm, resyncs_cons hm]

theorem toInt8_inj {a b : UInt8} (h : a.toInt8 = b.toInt8) : a = b := by
  rw [← UInt8.toUInt8_toInt8 a, h, UInt8.toUInt8_toInt8]

/-- A packet that begins elsewhere is not applied, or leaves the decoder inside another one. -/
theorem recovered_last (hm : m.cycle < 3) : Recovered m p.bytes p ↔ m.cycle = 0 := by
  constructor
  · rintro ⟨hcycle, hlast⟩
    by_contra h0
    rw [feed_packet_cycle p hm] at hcycle
    obtain h | h : m.cycle = 1 ∨ m.cycle = 2 := by omega
    · -- the packet applied ends with the flags and the first delta
      have hy : Quiet p.dy := by simpa [h] using hcycle
      rw [Packet.bytes, applied_cons_of_ne (by omega), callback_dx h, applied_cons rfl,
        applied_cons_of_ne (by rw [callback_dy rfl]; simp)] at hlast
      have hset : (m.packet.set 1 p.flags.toInt8).set 2 p.dx.toInt8 = p.stored := by
        simpa using hlast
      have hdx : p.flags = p.dx := toInt8_inj (by simpa [Packet.stored] using congrArg (·[1]) hset)
      have hdy : p.dx = p.dy := toInt8_inj (by simpa [Packet.stored] using congrArg (·[2]) hset)
      exact p.sync (hdx ▸ hdy ▸ hy)
    · -- the packet applied ends with the flags, and no other one begins
      have hxy : Quiet p.dx ∧ Quiet p.dy := by
        rw [h, cycleAfter_two] at hcycle
        split_ifs at hcycle with hx hy
        exact ⟨hx, hy⟩
      rw [Packet.bytes, applied_cons h, callback_dy h, applied_cons_of_ne (by simp),
        callback_quiet rfl hxy.1, applied_cons_of_ne (by simp)] at hlast
      have hset : m.packet.set 2 p.flags.toInt8 = p.stored := by simpa using hlast
      have hdy : p.flags = p.dy := toInt8_inj (by simpa [Packet.stored] using congrArg (·[2]) hset)
      exact p.sync (hdy ▸ hxy.2)
  · intro h0
    rw [Recovered, feed_aligned h0, applied_aligned h0]
    exact ⟨rfl, rfl⟩

/-- Three bytes complete a packet, wherever the decoder is. -/
theorem applied_packet_ne_nil (p : Packet) (hm : m.cycle < 3) : applied m p.bytes ≠ [] := by
  obtain h | h | h : m.cycle = 0 ∨ m.cycle = 1 ∨ m.cycle = 2 := by omega
  · simp [applied_aligned h]
  · rw [Packet.bytes, applied_cons_of_ne (by omega), callback_dx h, applied_cons rfl]
    exact List.cons_ne_nil _ _
  · rw [Packet.bytes, applied_cons h]
    exact List.cons_ne_nil _ _

theorem recovered_append (ps : List Packet) (p : Packet) (hm : m.cycle < 3) :
    Recovered m (stream (ps ++ [p])) p ↔ Recovered (feed m (stream ps)) p.bytes p := by
  have hne := applied_packet_ne_nil p (feed_cycle_lt (stream ps) hm)
  rw [Recovered, Recovered, stream_append, stream_cons, stream_nil, List.append_nil, feed_append,
    applied_append, List.getLast?_append_of_ne_nil _ hne]

/-- From any state the decoder has come to, the last of a sequence of packets is applied at its
end exactly when the packets before it bring the decoder to the start of one. -/
theorem mouse_recovers_iff (earlier : List UInt8) (ps : List Packet) (p : Packet) :
    Recovered (feed initial earlier) (stream (ps ++ [p])) p ↔
      Resyncs (feed initial earlier).cycle ps := by
  have hm : (feed initial earlier).cycle < 3 := feed_cycle_lt earlier (by decide)
  rw [recovered_append ps p hm, recovered_last (feed_cycle_lt _ hm), feed_stream_aligned hm]

/-- After one byte too many, the decoder stays one byte behind a mouse that moves by eight. -/
theorem one_byte_behind : ¬ ∀ (earlier : List UInt8) (ps : List Packet) (p : Packet),
    2 ≤ ps.length → Recovered (feed initial earlier) (stream (ps ++ [p])) p := by
  intro h
  let p : Packet := ⟨0x08, 0x08, 0x08, by decide⟩
  have hcycle : (feed (feed initial [0x08]) (stream [p, p, p])).cycle = 0 :=
    (h [0x08] [p, p] p (by decide)).1
  exact absurd hcycle (by decide)

end ShadOS.Mouse

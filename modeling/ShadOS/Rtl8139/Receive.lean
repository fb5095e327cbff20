import ShadOS.Rtl8139.Card

/-! # Driver and card in step

At every access the card knows the reader as the driver left it, and the
headers of all frames in between are intact. The loop of the handler reads them
in order, whenever the next ones come in.
-/

namespace ShadOS.Rtl8139
open Machine RecordRing

variable {frames : ℕ → Frame} {ioBase m k : ℕ} {c : Card} {s t : Link}

/-- The bytes of frame `k` in the ring. -/
def sizes (frames : ℕ → Frame) (k : ℕ) : ℕ := frameSize (frameLength frames k)

theorem sizes_pos (k : ℕ) : 0 < sizes frames k := frameSize_pos _

theorem four_dvd_offset (frames : ℕ → Frame) (k : ℕ) : 4 ∣ offset (sizes frames) 8192 k :=
  dvd_offset (fun _ => four_dvd_frameSize _) (by decide) k

theorem ringOffset_eq (k : ℕ) :
    ringOffset (frameLength frames) k = offset (sizes frames) 8192 k := by
  induction k with
  | zero => rfl
  | succ k ih =>
    obtain ⟨q, hq⟩ := four_dvd_offset frames k
    rw [ringOffset, ih, offset_succ, hq, sizes, frameSize]
    congr 1
    omega

theorem frame_length (f : Frame) : f.bytes.length = 4 + f.data.length := by
  rw [Frame.bytes, List.length_append]
  rfl

theorem readHalf_header (mem : Mem) (a : ℕ) (f : Frame) :
    readHalf (writeBytes mem a f.bytes) (a + 2) = f.data.length := by
  have hmax := f.max
  have h2 : writeBytes mem a f.bytes (a + 2) = UInt8.ofNat f.data.length :=
    writeBytes_inside (by rw [frame_length]; omega)
  have h3 : writeBytes mem a f.bytes (a + 2 + 1) = UInt8.ofNat (f.data.length / 2 ^ 8) :=
    writeBytes_inside (i := 3) (by rw [frame_length]; omega)
  rw [readHalf, h2, h3, UInt8.toNat_ofNat', UInt8.toNat_ofNat']
  omega

/-- What a new frame keeps, the frames before an access keep. -/
theorem arrive_rule {P : Card → Prop} (h : P c)
    (hns : ∀ c ns, P c → P { c with arrivals := ns }) (hdel : ∀ c, P c → P (c.deliver frames)) :
    P (c.arrive frames) := by
  have hiter (n : ℕ) (c : Card) (hc : P c) : P ((Card.deliver frames)^[n] c) := by
    induction n generalizing c with
    | zero => exact hc
    | succ n ih => exact ih _ (hdel c hc)
  unfold Card.arrive
  split
  · exact h
  · exact hiter _ _ (hns c _ h)

/-! ## The card, with the reader at frame `m` -/

structure Behind (frames : ℕ → Frame) (m : ℕ) (c : Card) : Prop where
  le : m ≤ c.written
  fits : position (sizes frames) c.written < position (sizes frames) m + 8192
  cbr : c.cbr = offset (sizes frames) 8192 c.written
  capr : (c.capr + 16) % 2 ^ 16 = offset (sizes frames) 8192 m
  headers : ∀ k, m ≤ k → k < c.written →
    readHalf c.mem (c.rbstart + offset (sizes frames) 8192 k + 2) = frameLength frames k

namespace Behind

theorem readPtr (h : Behind frames m c) : c.readPtr = offset (sizes frames) 8192 m := by
  have hlt := offset_lt (sizes frames) (show 0 < 8192 by decide) m
  have hcapr := h.capr
  unfold Card.readPtr
  omega

theorem room (h : Behind frames m c) :
    c.room = 8192 - (position (sizes frames) c.written - position (sizes frames) m) := by
  rw [Card.room, h.readPtr, h.cbr, pending_eq h.le h.fits]

/-- BUFE. -/
theorem empty_iff (h : Behind frames m c) : c.readPtr = c.cbr ↔ m = c.written := by
  rw [h.readPtr, h.cbr]
  exact offset_eq_iff sizes_pos h.le h.fits

theorem deliver (h : Behind frames m c) : Behind frames m (c.deliver frames) := by
  unfold Card.deliver
  dsimp only
  split
  · rename_i hroom
    have hmono := position_mono (sizes frames) h.le
    have hfits := h.fits
    have hnext : position (sizes frames) (c.written + 1) =
        position (sizes frames) c.written + sizes frames c.written := rfl
    have hfit : position (sizes frames) (c.written + 1) < position (sizes frames) m + 8192 := by
      rw [h.room] at hroom
      change sizes frames c.written < _ at hroom
      omega
    constructor
    · exact Nat.le_succ_of_le h.le
    · exact hfit
    · dsimp only
      rw [offset_succ, h.cbr]
      rfl
    · exact h.capr
    · intro k hmk hk
      dsimp only at hk ⊢
      by_cases hkw : k = c.written
      · subst hkw
        rw [h.cbr]
        exact readHalf_header _ _ _
      · have hlt : k < c.written := by omega
        -- The new frame lies apart from the header of an older one.
        have hap := apart hlt (show 4 ≤ sizes frames k by unfold sizes frameSize; omega)
          (hfit.trans_le (Nat.add_le_add_right (position_mono (sizes frames) hmk) _))
        have hlen : (frames c.written).bytes.length ≤ sizes frames c.written := by
          rw [frame_length]
          unfold sizes frameSize frameLength
          omega
        rw [← h.headers k hmk hlt, h.cbr]
        apply readHalf_congr <;> apply writeBytes_outside <;> omega
  · exact h

/-- Neither the causes in ISR nor what is still to come in play a part. -/
theorem status (h : Behind frames m c) (isr : BitVec 16) (acked : ℕ) (arrivals : List ℕ) :
    Behind frames m { c with isr := isr, acked := acked, arrivals := arrivals } :=
  ⟨h.le, h.fits, h.cbr, h.capr, h.headers⟩

theorem arrive (h : Behind frames m c) : Behind frames m (c.arrive frames) :=
  arrive_rule h (fun c ns h => h.status c.isr c.acked ns) (fun _ h => h.deliver)

/-- The driver moves the reader on. -/
theorem advance (h : Behind frames m c) (hm : m < c.written) {v : ℕ}
    (hv : (v + 16) % 2 ^ 16 = offset (sizes frames) 8192 (m + 1)) :
    Behind frames (m + 1) (c.setCapr v) where
  le := hm
  fits := by
    have hmono := position_mono (sizes frames) (Nat.le_add_right m 1)
    have hfits := h.fits
    change position (sizes frames) c.written < _
    omega
  cbr := h.cbr
  capr := hv
  headers := fun k hk hkw => h.headers k (by omega) hkw

end Behind

/-- `t` is the card `s` some frames later: ROK is set if any came after its acknowledgement. -/
structure Later (s t : Card) : Prop where
  rbstart : t.rbstart = s.rbstart
  acked : t.acked = s.acked
  written : s.written ≤ t.written
  rok : (s.acked < s.written → s.rok = true) → t.acked < t.written → t.rok = true

theorem Later.refl (c : Card) : Later c c := ⟨rfl, rfl, le_rfl, id⟩

theorem Later.trans {c₁ c₂ c₃ : Card} (h : Later c₁ c₂) (h' : Later c₂ c₃) : Later c₁ c₃ where
  rbstart := h'.rbstart.trans h.rbstart
  acked := h'.acked.trans h.acked
  written := h.written.trans h'.written
  rok := h'.rok ∘ h.rok

theorem later_deliver (frames : ℕ → Frame) (c : Card) : Later c (c.deliver frames) := by
  unfold Card.deliver
  dsimp only
  split
  · exact ⟨rfl, rfl, Nat.le_succ _, fun _ _ => by simp [Card.rok]⟩
  · exact Later.refl c

theorem later_arrive (frames : ℕ → Frame) (c : Card) : Later c (c.arrive frames) :=
  arrive_rule (P := Later c) (Later.refl c) (fun _ _ h => ⟨h.rbstart, h.acked, h.written, h.rok⟩)
    (fun c' h => h.trans (later_deliver frames c'))

@[simp] theorem setCapr_rbstart (v : ℕ) : (c.setCapr v).rbstart = c.rbstart := rfl

theorem Later.setCapr {c' : Card} (h : Later c c') (v : ℕ) : Later c (c'.setCapr v) :=
  ⟨h.rbstart, h.acked, h.written, h.rok⟩

/-! ## Driver and card -/

structure Sync (frames : ℕ → Frame) (ioBase : ℕ) (d : Driver) (c : Card) (log : List (ℕ × ℕ)) :
    Prop where
  io : d.ioBase = ioBase
  base : c.rbstart = d.rxBuffer
  follows : Follows d log
  all : accepted log = log
  stream : lengths log = (List.range log.length).map (frameLength frames)
  behind : Behind frames log.length c

variable {d : Driver} {log : List (ℕ × ℕ)}

theorem cursor_stream (m : ℕ) :
    cursor ((List.range m).map (frameLength frames)) = offset (sizes frames) 8192 m := by
  unfold cursor offset
  congr 1
  induction m with
  | zero => rfl
  | succ m ih =>
    rw [List.range_succ, List.map_append, List.map_append, List.sum_append, ih]
    rfl

theorem Sync.rxOffset (h : Sync frames ioBase d c log) :
    d.rxOffset = offset (sizes frames) 8192 log.length := by
  rw [h.follows.offset, h.stream, cursor_stream]

theorem accepted_frame (k : ℕ) : Accepted (frameLength frames k) := ⟨(frames k).min, (frames k).max⟩

/-- The value for CAPR. -/
theorem capr_add (off : ℕ) (h : off < 8192) : (sub32 off 16 % 2 ^ 16 + 16) % 2 ^ 16 = off := by
  unfold sub32 u32
  omega

/-- One header is read and its frame passed, with the card going on in between. -/
theorem Sync.consume (h : Sync frames ioBase d c log) (hpend : log.length < c.written) {c' : Card}
    (hbehind : Behind frames log.length c') (hlater : Later c c') :
    Sync frames ioBase (d.advance (frameLength frames log.length))
      (c'.setCapr (sub32 (nextOffset d.rxOffset (frameLength frames log.length)) 16 % 2 ^ 16))
      (log ++ [(d.rxBuffer + d.rxOffset + 2, frameLength frames log.length)]) := by
  have hacc : Accepted (frameLength frames log.length) := accepted_frame _
  have hoff := h.rxOffset
  have hlt := offset_lt (sizes frames) (show 0 < 8192 by decide) log.length
  have hnext : nextOffset d.rxOffset (frameLength frames log.length) =
      offset (sizes frames) 8192 (log.length + 1) := by
    rw [offset_succ, hoff]
    exact nextOffset_eq (four_dvd_offset _ _) hlt hacc
  have hlen : (log ++ [(d.rxBuffer + d.rxOffset + 2, frameLength frames log.length)]).length =
      log.length + 1 := by
    rw [List.length_append, List.length_singleton]
  constructor
  · exact h.io
  · rw [setCapr_rbstart]
    exact hlater.rbstart.trans h.base
  · exact h.follows.accept hacc
  · simpa [accepted, hacc] using h.all
  · rw [lengths_accept hacc, hlen, h.stream, List.range_succ, List.map_append]
    rfl
  · rw [hlen]
    apply hbehind.advance (lt_of_lt_of_le hpend hlater.written)
    rw [hnext]
    exact capr_add _ (offset_lt _ (by decide) _)

/-! ## The handler -/

section device
variable (frames ioBase) (c log)

@[simp] theorem inb_cmd : (recorded (ringCard frames ioBase)).inb (ioBase + regCmd) (c, log) =
    (if (c.arrive frames).readPtr = (c.arrive frames).cbr then 0x0D else 0x0C,
      c.arrive frames, log) := by
  simp [recorded, ringCard]

@[simp] theorem inw_isr : (recorded (ringCard frames ioBase)).inw (ioBase + regIsr) (c, log) =
    ((c.arrive frames).isr.toNat, c.arrive frames, log) := by
  simp [recorded, ringCard]

@[simp] theorem outw_isr (v : ℕ) :
    (recorded (ringCard frames ioBase)).outw (ioBase + regIsr) v (c, log) =
      ((c.arrive frames).acknowledge v, log) := by
  simp [recorded, ringCard]

@[simp] theorem outw_capr (v : ℕ) :
    (recorded (ringCard frames ioBase)).outw (ioBase + regCapr) v (c, log) =
      ((c.arrive frames).setCapr v, log) := by
  simp [recorded, ringCard, regIsr, regCapr]

@[simp] theorem load16_ring (a : ℕ) :
    (recorded (ringCard frames ioBase)).load16 a (c, log) =
      (readHalf (c.arrive frames).mem a, c.arrive frames,
        log ++ [(a, readHalf (c.arrive frames).mem a)]) := rfl

end device

/-- The header at the cursor is the one of the next frame. -/
theorem Sync.load (h : Sync frames ioBase d c log) (hpend : log.length < c.written) {c' : Card}
    (hbehind : Behind frames log.length c') (hlater : Later c c') :
    readHalf c'.mem (d.rxBuffer + d.rxOffset + 2) = frameLength frames log.length := by
  rw [h.rxOffset, ← h.base, ← hlater.rbstart]
  exact hbehind.headers _ le_rfl (lt_of_lt_of_le hpend hlater.written)

/-- The driver stays in step while the card works on its own. -/
theorem Sync.card (h : Sync frames ioBase d c log) {c' : Card} (hbase : c'.rbstart = c.rbstart)
    (hbehind : Behind frames log.length c') : Sync frames ioBase d c' log :=
  ⟨h.io, hbase.trans h.base, h.follows, h.all, h.stream, hbehind⟩

theorem Sync.arrive (h : Sync frames ioBase d c log) : Sync frames ioBase d (c.arrive frames) log :=
  h.card (later_arrive frames c).rbstart h.behind.arrive

/-- One test of the loop: the ring is empty, or the next header is passed. -/
theorem Sync.round (n : ℕ) (h : Sync frames ioBase d c log) :
    (drain (recorded (ringCard frames ioBase)) (n + 1) d (c, log) = (d, c.arrive frames, log) ∧
      log.length = (c.arrive frames).written) ∨
    ∃ d' c' f, drain (recorded (ringCard frames ioBase)) (n + 1) d (c, log) =
        drain (recorded (ringCard frames ioBase)) n d' (c', log ++ [f]) ∧
      Sync frames ioBase d' c' (log ++ [f]) ∧ Later c c' := by
  obtain rfl := h.io
  have hsync := h.arrive
  have hbehind := hsync.behind
  have hlater := later_arrive frames c
  simp only [drain, inb_cmd, hbehind.empty_iff]
  by_cases hempty : log.length = (c.arrive frames).written
  · rw [if_pos hempty, if_pos (by decide)]
    exact Or.inl ⟨rfl, hempty⟩
  · have hpend : log.length < (c.arrive frames).written := lt_of_le_of_ne hbehind.le hempty
    have hlater₂ := later_arrive frames (c.arrive frames)
    have hlater₃ := hlater₂.trans (later_arrive frames _)
    rw [if_neg hempty, if_neg (by decide)]
    simp only [load16_ring, hsync.load hpend hbehind.arrive hlater₂, accepted_frame, not_true,
      if_false, outw_capr]
    have hnext := hsync.consume hpend hbehind.arrive.arrive hlater₃
    have hlast := hlater.trans hlater₃
    exact Or.inr ⟨_, _, _, rfl, hnext, hlast.setCapr _⟩

/-- What `n` rounds of the loop do to a driver in step with the card. -/
structure Drained (frames : ℕ → Frame) (ioBase n : ℕ) (c : Card) (log : List (ℕ × ℕ))
    (r : Driver × Card × List (ℕ × ℕ)) : Prop where
  sync : Sync frames ioBase r.1 r.2.1 r.2.2
  later : Later c r.2.1
  grows : log.length ≤ r.2.2.length ∧ r.2.2.length ≤ log.length + n
  done : r.2.2.length = log.length + n ∨ r.2.2.length = r.2.1.written

theorem drain_spec (n : ℕ) (h : Sync frames ioBase d c log) :
    Drained frames ioBase n c log (drain (recorded (ringCard frames ioBase)) n d (c, log)) := by
  induction n generalizing d c log with
  | zero =>
    rw [drain, h.io, inb_cmd]
    exact ⟨h.arrive, later_arrive frames c, ⟨le_rfl, le_rfl⟩, Or.inl rfl⟩
  | succ n ih =>
    rcases h.round n with ⟨he, hempty⟩ | ⟨d', c', f, he, hsync, hlater⟩
    · rw [he]
      exact ⟨h.arrive, later_arrive frames c, ⟨le_rfl, Nat.le_add_right _ _⟩, Or.inr hempty⟩
    · obtain ⟨hs, hl, hgrows, hdone⟩ := ih hsync
      rw [← he] at hs hl hgrows hdone
      rw [List.length_append, List.length_singleton] at hgrows hdone
      exact ⟨hs, hlater.trans hl, by omega, hdone.imp_left (fun hd => by omega)⟩

/-- The card after the two accesses to ISR. -/
def Card.acknowledged (frames : ℕ → Frame) (c : Card) : Card :=
  ((c.arrive frames).arrive frames).acknowledge (c.arrive frames).isr.toNat

theorem rok_status (c : Card) : c.isr.toNat &&& 0x01 ≠ 0 ↔ c.rok = true := by
  rw [Card.rok, ← BitVec.testBit_toNat, Nat.testBit_zero]
  change c.isr.toNat &&& (2 ^ 1 - 1) ≠ 0 ↔ _
  rw [Nat.and_two_pow_sub_one_eq_mod]
  simp

theorem Sync.acknowledged (h : Sync frames ioBase d c log) :
    Sync frames ioBase d (c.acknowledged frames) log :=
  h.arrive.arrive.card rfl (h.arrive.arrive.behind.status _ _ _)

/-- The handler drains the ring for up to 64 frames if it finds ROK, and does nothing else. -/
theorem handler_spec (h : Sync frames ioBase d c log) :
    ((c.arrive frames).rok = true ∧ Drained frames ioBase 64 (c.acknowledged frames) log
      (rtlIrqHandler (recorded (ringCard frames ioBase)) d (c, log))) ∨
    ((c.arrive frames).rok = false ∧
      rtlIrqHandler (recorded (ringCard frames ioBase)) d (c, log) =
        (d, c.acknowledged frames, log)) := by
  obtain rfl := h.io
  simp only [rtlIrqHandler, inw_isr, outw_isr, rok_status]
  cases hrok : (c.arrive frames).rok
  · exact Or.inr ⟨rfl, if_neg (by decide)⟩
  · left
    rw [if_pos rfl]
    exact ⟨rfl, drain_spec 64 h.acknowledged⟩

/-! ## Runs -/

/-- The driver of `s` is in step with its card. -/
def Link.InStep (frames : ℕ → Frame) (ioBase : ℕ) (s : Link) : Prop :=
  Sync frames ioBase s.driver s.card s.log

theorem Sync.arrivals (h : Sync frames ioBase d c log) (ns : List ℕ) :
    Sync frames ioBase d { c with arrivals := ns } log :=
  h.card rfl (h.behind.status _ _ ns)

theorem fresh_inStep (h : Link.Fresh ioBase s) : s.InStep frames ioBase := by
  have hoff := h.rxOffset
  constructor
  · exact h.io
  · exact h.rbstart
  · rw [h.log]
    exact ⟨rfl, hoff, h.rxPacketsSeen⟩
  · rw [h.log]
    rfl
  · rw [h.log]
    rfl
  · rw [h.log]
    constructor
    · exact Nat.zero_le _
    · rw [h.written]
      exact Nat.lt_add_of_pos_right (by decide)
    · rw [h.written, h.cbr]
      rfl
    · rw [h.capr]
      exact (Nat.zero_mod 8192).symm
    · intro k _ hk
      rw [h.written] at hk
      omega

theorem inStep_step {e : Event} (h : s.InStep frames ioBase)
    (hs : (link frames ioBase).step s e = some t) : t.InStep frames ioBase := by
  cases e with
  | deliver =>
    obtain rfl := Option.some.inj hs
    exact Sync.card h (later_deliver frames _).rbstart h.behind.deliver
  | raise causes =>
    obtain rfl := Option.some.inj hs
    exact Sync.card h rfl (h.behind.status _ _ _)
  | interrupt arrivals =>
    obtain rfl := Option.some.inj hs
    have hcard := Sync.arrivals h arrivals
    rcases handler_spec hcard with ⟨-, hd⟩ | ⟨-, he⟩
    · exact hd.sync
    · unfold Link.InStep
      rw [he]
      exact hcard.acknowledged

theorem reaches_inStep (h : (link frames ioBase).Reaches s) : s.InStep frames ioBase :=
  h.invariant (fun _ h => fresh_inStep h) (fun _ _ _ h _ hs => inStep_step h hs)

/-- After the first `m` frames of any stream, however they were batched, the cursor, the register
and the counter of the driver are those of frame `m`, and the headers read are those the card
wrote, each once and in order. -/
theorem cursor_in_step (h : (link frames ioBase).Reaches s) :
    let L := frameLength frames
    let m := s.log.length
    s.driver.rxOffset = ringOffset L m ∧ s.driver.rxOffset % 4 = 0 ∧ s.driver.rxOffset < 8192 ∧
      (0 < m → (s.card.capr + 16) % 2 ^ 16 = s.driver.rxOffset) ∧
      s.driver.rxPacketsSeen = m % 2 ^ 32 ∧
      m ≤ s.card.written ∧
      s.log = (List.range m).map (fun k => (s.driver.rxBuffer + ringOffset L k + 2, L k)) := by
  have hs := reaches_inStep h
  have hoff := hs.rxOffset
  have hlen : (lengths s.log).length = s.log.length := by
    rw [hs.stream, List.length_map, List.length_range]
  refine ⟨hoff.trans (ringOffset_eq _).symm, ?_, ?_, fun _ => ?_, ?_, hs.behind.le, ?_⟩
  · rw [hoff]
    exact Nat.mod_eq_zero_of_dvd (four_dvd_offset _ _)
  · rw [hoff]
    exact offset_lt _ (by decide) _
  · rw [hoff]
    exact hs.behind.capr
  · rw [hs.follows.seen, hlen]
    rfl
  · have hheaders := hs.follows.headers
    rw [hs.all, headers, hlen, hs.stream] at hheaders
    apply hheaders.trans
    apply List.map_congr_left
    intro k hk
    have hlt := List.mem_range.mp hk
    rw [← List.map_take, List.take_range, Nat.min_eq_left hlt.le, cursor_stream, ringOffset_eq]
    congr 1
    simp [hlt]

/-- Every call of the handler returns, at any time. -/
theorem link_executes {es : List Event} (h : ∀ e ∈ es, ∀ s : Link, s.allowed e) (s : Link) :
    (link frames ioBase).Executes s es := by
  induction es generalizing s with
  | nil => trivial
  | cons e es ih =>
    refine ⟨h e List.mem_cons_self s, ?_⟩
    cases e <;> exact ⟨_, rfl, ih (fun e he => h e (List.mem_cons_of_mem _ he)) _⟩

/-- Frames of the least Ethernet length. -/
def shortFrames (_ : ℕ) : Frame := ⟨1, List.replicate 64 0, by decide, by decide⟩

/-- A card after `rtl8139_init`. -/
def freshLink : Link where
  driver := ⟨0xC000, 0x200000, 0, 0⟩
  card := ⟨fun _ => 0, 0x200000, 0xFFF0, 0, 0, 0, 0, []⟩
  log := []

theorem freshLink_fresh : freshLink.Fresh 0xC000 := by constructor <;> rfl

/-- Two frames wait at the interrupt, and a third one comes in during the handler. -/
theorem cursor_in_step_batch : ∃ s, (link shortFrames 0xC000).exec freshLink
      [.deliver, .deliver, .interrupt [1]] = some s ∧ s.log.length = 3 ∧
    s.driver.rxOffset = ringOffset (frameLength shortFrames) s.log.length := by
  have hlen : ((link shortFrames 0xC000).exec freshLink [.deliver, .deliver, .interrupt [1]]).map
      (fun s => s.log.length) = some 3 := by decide
  obtain ⟨s, hs, hlog⟩ := Option.map_eq_some_iff.mp hlen
  have hreach := (System.Reaches.start freshLink_fresh).exec
    (link_executes (by simp [Link.allowed]) _) hs
  exact ⟨s, hs, hlog, (cursor_in_step hreach).1⟩

end ShadOS.Rtl8139

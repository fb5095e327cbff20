import ShadOS.Rtl8139.Receive

/-! # Frames left in the ring

The handler clears ROK once and then passes at most 64 frames. If more were
pending, the rest stays in the ring without an interrupt, until a new frame
raises ROK again.
-/

namespace ShadOS.Rtl8139
open Machine RecordRing

variable {frames : ℕ → Frame} {ioBase : ℕ} {c : Card} {s t : Link} {d : Driver}
  {log : List (ℕ × ℕ)}

/-- The frames delivered before the last acknowledgement of ROK are consumed, and a pending frame
has its ROK. -/
def Link.NotStranded (s : Link) : Prop :=
  s.card.acked ≤ s.log.length ∧ (s.log.length < s.card.written → s.card.rok = true)

/-- The frames written when the handler acknowledges, if it starts now. -/
def Link.writtenAtAck (frames : ℕ → Frame) (s : Link) (arrivals : List ℕ) : ℕ :=
  ((({ s.card with arrivals := arrivals } : Card).arrive frames).arrive frames).written

/-- The handler finds ROK, if it starts now. -/
def Link.FindsRok (frames : ℕ → Frame) (s : Link) (arrivals : List ℕ) : Prop :=
  (({ s.card with arrivals := arrivals } : Card).arrive frames).rok = true

/-- A handler that finds ROK acknowledges at most 64 pending frames. -/
def Link.FewPending (frames : ℕ → Frame) (s : Link) : Event → Prop
  | .interrupt arrivals =>
    s.FindsRok frames arrivals → s.writtenAtAck frames arrivals ≤ s.log.length + 64
  | _ => True

theorem acknowledged_acked (hrok : (c.arrive frames).rok = true) :
    (c.acknowledged frames).acked = ((c.arrive frames).arrive frames).written := by
  apply if_pos
  rwa [BitVec.testBit_toNat]

/-- Without ROK, the acknowledgement leaves it to the frames that came in since. -/
theorem later_acknowledged (hrok : (c.arrive frames).rok = false) :
    Later c (c.acknowledged frames) := by
  have hlater := (later_arrive frames c).trans (later_arrive frames _)
  have hbit : (c.arrive frames).isr.toNat.testBit 0 = false := by
    rwa [BitVec.testBit_toNat]
  have hacked : (c.acknowledged frames).acked = ((c.arrive frames).arrive frames).acked :=
    if_neg (by simp [hbit])
  have hclear : (c.arrive frames).isr[0] = false := by simpa [Card.rok] using hrok
  have hkeep : (c.acknowledged frames).rok = ((c.arrive frames).arrive frames).rok := by
    simp [Card.rok, Card.acknowledged, Card.acknowledge, hclear]
  refine ⟨hlater.rbstart, hacked.trans hlater.acked, hlater.written, fun h => ?_⟩
  rw [hacked, hkeep]
  exact hlater.rok h

/-- What one handler call leaves: with ROK, all written frames are acknowledged and the loop has
made 64 rounds or emptied the ring; without it, nothing is read. -/
theorem interrupt_cases {arrivals : List ℕ} (h : s.InStep frames ioBase)
    (hs : (link frames ioBase).step s (.interrupt arrivals) = some t) :
    (s.FindsRok frames arrivals ∧ t.card.acked = s.writtenAtAck frames arrivals ∧
      s.writtenAtAck frames arrivals ≤ t.card.written ∧
      (t.card.acked < t.card.written → t.card.rok = true) ∧
      t.log.length ≤ s.log.length + 64 ∧
      (t.log.length = s.log.length + 64 ∨ t.log.length = t.card.written)) ∨
    (¬ s.FindsRok frames arrivals ∧ t.log = s.log ∧ Later s.card t.card) := by
  obtain rfl := Option.some.inj hs
  rcases handler_spec (Sync.arrivals h arrivals) with ⟨hrok, hd⟩ | ⟨hrok, he⟩
  · have hack := acknowledged_acked hrok
    have hlater := hd.later
    refine Or.inl ⟨hrok, hlater.acked.trans hack, hlater.written, ?_, hd.grows.2, hd.done⟩
    apply hlater.rok
    intro hlt
    rw [hack] at hlt
    exact absurd hlt (lt_irrefl _)
  · have hlater := later_acknowledged hrok
    refine Or.inr ⟨by simp [Link.FindsRok, hrok], by rw [he], ?_⟩
    rw [he]
    exact ⟨hlater.rbstart, hlater.acked, hlater.written, hlater.rok⟩

/-- The invariant of runs without a stranded frame. -/
structure Link.Live (frames : ℕ → Frame) (ioBase : ℕ) (s : Link) : Prop where
  inStep : s.InStep frames ioBase
  raised : s.card.acked < s.card.written → s.card.rok = true
  consumed : s.card.acked ≤ s.log.length

theorem Link.Live.notStranded (h : s.Live frames ioBase) : s.NotStranded :=
  ⟨h.consumed, fun hpend => h.raised (lt_of_le_of_lt h.consumed hpend)⟩

theorem fresh_live (h : Link.Fresh ioBase s) : s.Live frames ioBase where
  inStep := fresh_inStep h
  raised := by
    intro hlt
    rw [h.acked, h.written] at hlt
    omega
  consumed := by
    rw [h.acked]
    exact Nat.zero_le _

theorem live_step {e : Event} (h : s.Live frames ioBase) (hC : s.FewPending frames e)
    (hs : (link frames ioBase).step s e = some t) : t.Live frames ioBase := by
  have hsync := inStep_step h.inStep hs
  cases e with
  | deliver =>
    obtain rfl := Option.some.inj hs
    have hlater := later_deliver frames s.card
    exact ⟨hsync, hlater.rok h.raised, hlater.acked.trans_le h.consumed⟩
  | raise causes =>
    obtain rfl := Option.some.inj hs
    refine ⟨hsync, fun hlt => ?_, h.consumed⟩
    have hrok : s.card.isr.getLsbD 0 = true := h.raised hlt
    simp [Card.rok, hrok]
  | interrupt arrivals =>
    rcases interrupt_cases h.inStep hs with
      ⟨hrok, hacked, hwritten, hraised, -, hdone⟩ | ⟨-, hlog, hlater⟩
    · have hfew := hC hrok
      exact ⟨hsync, hraised, by omega⟩
    · refine ⟨hsync, hlater.rok h.raised, ?_⟩
      rw [hlater.acked, hlog]
      exact h.consumed

/-- More than 64 frames acknowledged at once are not all consumed. -/
theorem stranded_of_many {arrivals : List ℕ} (h : s.InStep frames ioBase)
    (hC : ¬ s.FewPending frames (.interrupt arrivals))
    (hs : (link frames ioBase).step s (.interrupt arrivals) = some t) : ¬ t.NotStranded := by
  intro ht
  apply hC
  intro hrok
  rcases interrupt_cases h hs with ⟨-, hacked, -, -, hgrows, -⟩ | ⟨hno, -⟩
  · have := ht.1
    omega
  · exact absurd hrok hno

/-- The runs on which no frame is ever stranded are those in which no handler acknowledges more
than 64 pending frames at once. -/
theorem none_stranded_iff {es : List Event} (h : (link frames ioBase).init s)
    (he : (link frames ioBase).Executes s es) :
    (link frames ioBase).Always Link.NotStranded s es ↔
      (link frames ioBase).EachStep (Link.FewPending frames) s es := by
  apply System.always_iff_eachStep (I := Link.Live frames ioBase) _ _ _ (fresh_live h) he
  · exact fun s hs => hs.notStranded
  · exact fun s e t hs _ hC ht => live_step hs hC ht
  · intro s e t hs _ hC ht
    cases e with
    | interrupt arrivals => exact stranded_of_many hs.inStep hC ht
    | deliver => exact absurd trivial hC
    | raise causes => exact absurd trivial hC

theorem none_stranded_one :
    (link shortFrames 0xC000).Always Link.NotStranded freshLink [.deliver, .interrupt []] := by
  apply (none_stranded_iff freshLink_fresh (link_executes (by simp [Link.allowed]) _)).mpr
  refine ⟨trivial, fun s hs => ⟨?_, fun _ _ => trivial⟩⟩
  obtain rfl := Option.some.inj hs
  intro _
  decide

/-- With 65 short frames pending at the interrupt, one is left behind without ROK. -/
theorem frame_stranded : ∃ s, (link shortFrames 0xC000).Reaches s ∧ s.log.length = 64 ∧
    s.card.written = 65 ∧ s.card.rok = false ∧ ¬ s.NotStranded := by
  have hrun : ((link shortFrames 0xC000).exec freshLink
      (List.replicate 65 .deliver ++ [.interrupt []])).map
      (fun s => (s.log.length, s.card.written, s.card.rok)) = some (64, 65, false) := by
    decide +kernel
  obtain ⟨s, hs, hval⟩ := Option.map_eq_some_iff.mp hrun
  obtain ⟨hlog, hwritten, hrok⟩ : s.log.length = 64 ∧ s.card.written = 65 ∧ s.card.rok = false := by
    simpa using hval
  have hreach := (System.Reaches.start freshLink_fresh).exec
    (link_executes (by simp [Link.allowed]) _) hs
  refine ⟨s, hreach, hlog, hwritten, hrok, fun h => ?_⟩
  have := h.2 (by omega)
  simp [hrok] at this

end ShadOS.Rtl8139

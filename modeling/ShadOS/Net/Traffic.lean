import ShadOS.Net.Station

/-! # Both directions at once

The blocks of the two buffers are apart, so what the card writes is no part of a
request, and a request is no part of a frame that waits to be read.
-/

namespace ShadOS.Net
open Machine Rtl8139
open Heap (HeapVars HeapOk heapC InHeader payload_not_inHeader stop_eq)

variable {frames : ℕ → Frame} {ioBase : ℕ} {c : Card} {d : Driver} {log : List (ℕ × ℕ)} {base : ℕ}
  {m m' : Mem}

/-! ## What the handler keeps -/

section device
variable {C : Type} {D : Device C} {Q : C → Prop}

/-- What every access keeps, the loop keeps. -/
theorem drain_keeps (hinb : ∀ p c, Q c → Q (D.inb p c).2) (hload : ∀ a c, Q c → Q (D.load16 a c).2)
    (houtw : ∀ p v c, Q c → Q (D.outw p v c)) (n : ℕ) (d : Driver) {c : C} (h : Q c) :
    Q (drain D n d c).2 := by
  induction n generalizing d c with
  | zero => exact hinb _ c h
  | succ n ih =>
    rw [drain_succ]
    split_ifs
    · exact hinb _ c h
    · exact ih _ (houtw _ _ _ (hload _ _ (hinb _ c h)))
    · exact hload _ _ (hinb _ c h)

theorem handler_keeps (hinb : ∀ p c, Q c → Q (D.inb p c).2) (hinw : ∀ p c, Q c → Q (D.inw p c).2)
    (hload : ∀ a c, Q c → Q (D.load16 a c).2) (houtw : ∀ p v c, Q c → Q (D.outw p v c)) (d : Driver)
    {c : C} (h : Q c) : Q (rtlIrqHandler D d c).2 := by
  have hread : Q (D.outw (d.ioBase + regIsr) (D.inw (d.ioBase + regIsr) c).1
      (D.inw (d.ioBase + regIsr) c).2) := houtw _ _ _ (hinw _ c h)
  rw [rtlIrqHandler]
  dsimp only
  split_ifs
  · exact drain_keeps hinb hload houtw 64 d hread
  · exact hread

end device

/-! ## What the card writes -/

/-- Since the memory was `m` the card wrote inside the block of `rx_buffer`. -/
structure Writes (base : ℕ) (m : Mem) (c : Card) : Prop where
  start : c.rbstart = base
  offset : c.cbr < 8192
  aligned : 4 ∣ c.cbr
  outside : ∀ x, ¬ (base ≤ x ∧ x < base + 9712) → c.mem x = m x

theorem Writes.deliver (hframes : ∀ k, (frames k).data.length ≤ 1520) (h : Writes base m c) :
    Writes base m (c.deliver frames) := by
  rw [Card.deliver]
  split_ifs
  · have hlen := hframes c.written
    obtain ⟨q, hq⟩ := h.aligned
    have hoffset := h.offset
    refine ⟨h.start, Nat.mod_lt _ (by decide), ?_, fun x hx => ?_⟩
    · obtain ⟨r, hr⟩ := four_dvd_frameSize (frames c.written).data.length
      refine ⟨(q + r) % 2048, ?_⟩
      dsimp only
      omega
    · dsimp only
      rw [writeBytes_outside, h.outside x hx]
      rw [frame_length, h.start]
      omega
  · exact h

theorem Writes.arrive (hframes : ∀ k, (frames k).data.length ≤ 1520) (h : Writes base m c) :
    Writes base m (c.arrive frames) :=
  arrive_rule h (fun _ _ h => ⟨h.start, h.offset, h.aligned, h.outside⟩) (fun _ h => h.deliver hframes)

theorem Writes.handler (hframes : ∀ k, (frames k).data.length ≤ 1520) (h : Writes base m c) :
    Writes base m (rtlIrqHandler (recorded (ringCard frames ioBase)) d (c, log)).2.1 := by
  apply handler_keeps (D := recorded (ringCard frames ioBase)) (Q := fun r => Writes base m r.1)
  · exact fun _ _ h => h.arrive hframes
  · exact fun _ _ h => h.arrive hframes
  · exact fun _ _ h => h.arrive hframes
  · intro p v r h
    have harrive := h.arrive hframes
    simp only [recorded, ringCard]
    split_ifs
    · exact ⟨harrive.start, harrive.offset, harrive.aligned, harrive.outside⟩
    · exact ⟨harrive.start, harrive.offset, harrive.aligned, harrive.outside⟩
    · exact harrive
  · exact h

/-- Memory outside the block plays no part in what is read. -/
theorem sync_store (h : Sync frames ioBase d c log)
    (hm : ∀ x, d.rxBuffer ≤ x → x < d.rxBuffer + 9712 → m x = c.mem x) :
    Sync frames ioBase d { c with mem := m } log := by
  refine h.card rfl ⟨h.behind.le, h.behind.fits, h.behind.cbr, h.behind.capr, fun k hmk hk => ?_⟩
  have hoffset := RecordRing.offset_lt (sizes frames) (show 0 < 8192 by decide) k
  rw [← h.behind.headers k hmk hk]
  have hbase : c.rbstart = d.rxBuffer := h.base
  apply readHalf_congr
  · exact hm _ (by dsimp only; omega) (by dsimp only; omega)
  · exact hm _ (by dsimp only; omega) (by dsimp only; omega)

/-! ## The buffers -/

section buffers
variable {h : HeapVars} {rx tx : ℕ}

/-- The headers alone decide on the heap. -/
theorem buffers_write (hB : Buffers h m rx tx)
    (hm : ∀ bs, HeapOk h m bs → ∀ b ∈ bs, ∀ x, InHeader b.addr x → m' x = m x) : Buffers h m' rx tx := by
  obtain ⟨bs, hok, hrx, htx⟩ := hB.heap
  exact ⟨⟨bs, ⟨hok.chain.congr (hm bs hok), hok.tiles, hok.coalesced, hok.start, hok.fits⟩, hrx, htx⟩,
    hB.apart⟩

theorem block_not_header {bs : List Block} {p n x : ℕ} (hok : HeapOk h m bs) (hp : HasBlock bs p n)
    (hx : p ≤ x ∧ x < p + n) {b : Block} (hb : b ∈ bs) : ¬ InHeader b.addr x := by
  obtain ⟨c, hc, rfl, hsize⟩ := hp
  exact payload_not_inHeader hok.tiles (mem_live.mp hc).1 hb (by omega)

theorem ring_not_header (hB : Buffers h m rx tx) {bs : List Block} (hok : HeapOk h m bs) {b : Block}
    (hb : b ∈ bs) {x : ℕ} (hx : rx ≤ x ∧ x < rx + 9712) : ¬ InHeader b.addr x := by
  obtain ⟨cs, hcs, hrx, -⟩ := hB.heap
  obtain rfl := hok.unique hcs
  exact block_not_header hok hrx hx hb

theorem buffer_not_header (hB : Buffers h m rx tx) {bs : List Block} (hok : HeapOk h m bs) {b : Block}
    (hb : b ∈ bs) {x : ℕ} (hx : tx ≤ x ∧ x < tx + txBufSize) : ¬ InHeader b.addr x := by
  obtain ⟨cs, hcs, -, htx⟩ := hB.heap
  obtain rfl := hok.unique hcs
  exact block_not_header hok htx hx hb

theorem ring_not_buffer (hB : Buffers h m rx tx) {x : ℕ} (hx : rx ≤ x ∧ x < rx + 9712) :
    ¬ (tx ≤ x ∧ x < tx + txBufSize) := by
  obtain ⟨bs, hok, ⟨b, hb, rfl, hbsize⟩, ⟨c, hc, rfl, hcsize⟩⟩ := hB.heap
  intro hx'
  have hsize : txBufSize = 1600 := rfl
  have hbc : b = c := hok.tiles.eq_of_overlap (mem_live.mp hb).1 (mem_live.mp hc).1 (x := x)
    (by rw [stop_eq]; omega) (by rw [stop_eq]; omega)
  exact hB.apart (by rw [hbc])

end buffers

/-! ## A request writes its array and the buffer -/

section request
variable {s t : Sender} {frame targetIp : ℕ}

/-- The rest of the memory, and what `net_init` set, are as before. -/
structure SameRest (s t : Sender) (frame : ℕ) : Prop where
  mem : ∀ x, ¬ (frame ≤ x ∧ x < frame + 42) → ¬ (s.tx.txBuffer ≤ x ∧ x < s.tx.txBuffer + txBufSize) →
    t.tx.mem x = s.tx.mem x
  txBuffer : t.tx.txBuffer = s.tx.txBuffer
  mac : t.mac = s.mac
  ready : t.netReady = s.netReady ∧ t.tx.rtlReady = s.tx.rtlReady
  cur : s.tx.txCur < 4 → t.tx.txCur < 4

theorem request_sameRest (ha : s.allowed (.request frame targetIp))
    (ht : s.step (.request frame targetIp) = some t) : SameRest s t frame := by
  obtain ⟨hap, hip⟩ := ha
  have hbuild : ∀ x, ¬ (frame ≤ x ∧ x < frame + 42) →
      buildFrame s.tx.mem frame s.mac targetIp x = s.tx.mem x := by
    intro x hx
    rw [buildFrame_eq hip, writeBytes_outside]
    rw [arpFrame_length]
    omega
  have hsent : SameRest s (netSendArpRequest s frame targetIp).2 frame := by
    rw [netSendArpRequest]
    split
    · exact ⟨fun _ _ _ => rfl, rfl, rfl, ⟨rfl, rfl⟩, id⟩
    · rw [Transmitter.rtl8139Send_eq]
      split
      · exact ⟨fun x hx _ => hbuild x hx, rfl, rfl, ⟨rfl, rfl⟩, id⟩
      · refine ⟨fun x hx hx' => ?_, rfl, rfl, ⟨rfl, rfl⟩, fun _ => Nat.mod_lt _ (by decide)⟩
        have hfill := Transmitter.fillBuffer_apply (s := s.laidOut frame targetIp) hap x
        have hsize : txBufSize = 1600 := rfl
        rw [if_neg] at hfill
        · exact hfill.trans (hbuild x hx)
        · rw [Transmitter.padFrame_length, readBytes_length]
          change ¬ (s.tx.txBuffer ≤ x ∧ x < s.tx.txBuffer + _)
          omega
  cases ht
  exact ⟨hsent.mem, hsent.txBuffer, hsent.mac, hsent.ready, hsent.cur⟩

end request

/-! ## One event -/

/-- Events on the receive side. -/
def Traffic.Receives : Traffic → Prop
  | .deliver | .raise _ | .interrupt _ => True
  | _ => False

namespace Station
variable {s t : Station} {e : Traffic} {x : Card}

/-- The receive path is in step with the card, and the buffers are in the heap. -/
structure InOrder (frames : ℕ → Frame) (ioBase : ℕ) (s : Station) : Prop where
  reached : Reached ioBase
  running : s.chip.Running
  sync : Sync frames ioBase s.driver s.chip.rx s.log
  buffers : Buffers s.heap s.mem s.driver.rxBuffer s.txBuffer
  own : s.mac = s.chip.idr
  ready : s.netReady = true ∧ s.rtlReady = true
  cur : s.txCur < 4

namespace InOrder

/-- What `rtl8139_send` does to the descriptors is what the card makes of its writes. -/
theorem sends (h : s.InOrder frames ioBase) {frame targetIp : ℕ}
    (ht : s.step frames ioBase (.request frame targetIp) = some t) :
    (s.written frames ioBase).Carries t.sender.tx := by
  rw [step] at ht
  obtain ⟨u, hu, rfl⟩ := Option.map_eq_some_iff.mp ht
  have hready : ¬ s.sender.netReady = false := by
    change ¬ s.netReady = false
    simp [h.ready.1]
  have hsend : u.tx = (({ s.sender.tx with mem := buildFrame s.mem frame s.mac targetIp } :
      Transmitter).rtl8139Send frame 42).2 := by
    rw [Sender.step, netSendArpRequest, if_neg hready] at hu
    cases hu
    rfl
  have hlen : 42 ≤ txBufSize := by decide
  change (s.written frames ioBase).Carries u.tx
  rw [hsend]
  exact Chip.Carries.send (s := { s.sender.tx with mem := buildFrame s.mem frame s.mac targetIp })
    ⟨rfl, rfl, rfl, rfl⟩ h.running h.reached h.cur h.ready.2 hlen

theorem received (h : s.InOrder frames ioBase) : s.Received frames ioBase := by
  have hlengths : lengths s.log = s.log.map Prod.snd := by
    rw [lengths, h.sync.all]
  refine ⟨?_, ?_, h.sync.behind.le, h.buffers, h.own, fun _ _ _ => h.sends⟩
  · rw [h.sync.follows.seen, h.sync.stream, List.length_map, List.length_range]
  · rw [← hlengths]
    exact h.sync.stream

/-- A card that only wrote frames, with the driver in step. -/
theorem card (h : s.InOrder frames ioBase) {d : Driver} {log : List (ℕ × ℕ)}
    (hsync : Sync frames ioBase d x log) (hw : Writes s.driver.rxBuffer s.mem x) :
    ({ s with driver := d, chip := { s.chip with rx := x }, log := log } : Station).InOrder frames
      ioBase := by
  have hrx : d.rxBuffer = s.driver.rxBuffer := hsync.base.symm.trans hw.start
  refine ⟨h.reached, h.running, hsync, ?_, h.own, h.ready, h.cur⟩
  change Buffers s.heap x.mem d.rxBuffer s.txBuffer
  rw [hrx]
  apply buffers_write h.buffers
  intro bs hok b hb a ha
  exact hw.outside a (fun hring => ring_not_header h.buffers hok hb hring ha)

/-- To the transmit path it is a store elsewhere. -/
theorem card_sender (h : s.InOrder frames ioBase) (hw : Writes s.driver.rxBuffer s.mem x) :
    s.sender.allowed (.store x.mem) :=
  fun a hlo hhi => hw.outside a (fun hring => ring_not_buffer h.buffers hring ⟨hlo, hhi⟩)

theorem writes (h : s.InOrder frames ioBase) (arrivals : List ℕ) (isr : BitVec 16) :
    Writes s.driver.rxBuffer s.mem { s.chip.rx with arrivals := arrivals, isr := isr } := by
  have hcbr := h.sync.behind.cbr
  refine ⟨h.sync.base, ?_, ?_, fun _ _ => rfl⟩
  · dsimp only
    rw [hcbr]
    exact RecordRing.offset_lt _ (by decide) _
  · dsimp only
    rw [hcbr]
    exact four_dvd_offset _ _

end InOrder

/-- The card and the handler: the receive path goes on in step, and only its ring is written. -/
theorem card_step (hframes : ∀ k, (frames k).data.length ≤ 1520) (h : s.InOrder frames ioBase)
    (he : e.Receives) (ht : s.step frames ioBase e = some t) :
    ∃ d x log, Sync frames ioBase d x log ∧ Writes s.driver.rxBuffer s.mem x ∧
      t = { s with driver := d, chip := { s.chip with rx := x }, log := log } := by
  cases e with
  | request | transmit | store => exact he.elim
  | interrupt arrivals =>
    rw [step] at ht
    obtain rfl := Option.some.inj ht
    have hrun : ({ s.chip with rx := { s.chip.rx with arrivals := arrivals } } : Rtl8139.Chip).Running :=
      h.running
    rw [hrun.handler h.reached h.sync.io]
    have hsync := h.sync.arrivals arrivals
    refine ⟨_, _, _, ?_, (h.writes arrivals s.chip.rx.isr).handler hframes, rfl⟩
    rcases handler_spec hsync with ⟨-, hd⟩ | ⟨-, hd⟩
    · exact hd.sync
    · rw [hd]
      exact hsync.acknowledged
  | raise causes =>
    rw [step] at ht
    obtain rfl := Option.some.inj ht
    exact ⟨s.driver, { s.chip.rx with isr := s.chip.rx.isr ||| causes }, s.log,
      h.sync.card rfl (h.sync.behind.status _ _ _), h.writes s.chip.rx.arrivals _, rfl⟩
  | deliver =>
    rw [step, if_pos h.running.1] at ht
    obtain rfl := Option.some.inj ht
    exact ⟨s.driver, _, s.log, h.sync.card (later_deliver frames _).rbstart h.sync.behind.deliver,
      (h.writes s.chip.rx.arrivals s.chip.rx.isr).deliver hframes, rfl⟩

/-- A step of the transmit path that leaves the ring and the headers alone. -/
theorem InOrder.withSender (h : s.InOrder frames ioBase) {u : Sender} (hmac : u.mac = s.mac)
    (htx : u.tx.txBuffer = s.txBuffer) (hring : ∀ a, s.Ring a → u.tx.mem a = s.mem a)
    (hheader : ∀ bs, HeapOk s.heap s.mem bs → ∀ b ∈ bs, ∀ a, InHeader b.addr a → u.tx.mem a = s.mem a)
    (hready : u.netReady = s.netReady ∧ u.tx.rtlReady = s.rtlReady) (hcur : u.tx.txCur < 4) :
    (s.withSender u).InOrder frames ioBase := by
  refine ⟨h.reached, h.running, sync_store h.sync (fun a hlo hhi => hring a ⟨hlo, hhi⟩), ?_,
    hmac.trans h.own, ⟨hready.1.trans h.ready.1, hready.2.trans h.ready.2⟩, hcur⟩
  change Buffers s.heap u.tx.mem s.driver.rxBuffer u.tx.txBuffer
  rw [htx]
  exact buffers_write h.buffers hheader

theorem inOrder_step (hframes : ∀ k, (frames k).data.length ≤ 1520) (h : s.InOrder frames ioBase)
    (ha : s.allowed e) (ht : s.step frames ioBase e = some t) : t.InOrder frames ioBase := by
  have hcard : e.Receives → t.InOrder frames ioBase := by
    intro he
    obtain ⟨d, x, log, hsync, hw, rfl⟩ := card_step hframes h he ht
    exact h.card hsync hw
  cases e with
  | deliver | raise | interrupt => exact hcard trivial
  | request frame targetIp =>
    obtain ⟨hsend, hclear⟩ := ha
    rw [step] at ht
    obtain ⟨u, hu, rfl⟩ := Option.map_eq_some_iff.mp ht
    have hrest := request_sameRest hsend hu
    apply h.withSender hrest.mac hrest.txBuffer
    · intro a hring
      exact hrest.mem a (fun hx => (hclear a hx.1 hx.2).1 hring) (ring_not_buffer h.buffers hring)
    · intro bs hok b hb a ha
      exact hrest.mem a (fun hx => (hclear a hx.1 hx.2).2 bs hok b hb ha)
        (fun hx => buffer_not_header h.buffers hok hb hx ha)
    · exact hrest.ready
    · exact hrest.cur h.cur
  | transmit =>
    rw [step] at ht
    obtain ⟨u, hu, rfl⟩ := Option.map_eq_some_iff.mp ht
    obtain rfl := Option.some.inj hu
    have hkeep : s.sender.tx.transmit.mem = s.mem ∧ s.sender.tx.transmit.txBuffer = s.txBuffer ∧
        s.sender.tx.transmit.rtlReady = s.rtlReady ∧ s.sender.tx.transmit.txCur = s.txCur := by
      rw [Transmitter.transmit]
      split <;> exact ⟨rfl, rfl, rfl, rfl⟩
    apply h.withSender rfl hkeep.2.1
    · exact fun a _ => congrFun hkeep.1 a
    · exact fun _ _ _ _ a _ => congrFun hkeep.1 a
    · exact ⟨rfl, hkeep.2.2.1⟩
    · exact hkeep.2.2.2.trans_lt h.cur
  | store mem =>
    obtain ⟨-, hring, hbuffers⟩ := ha
    cases ht
    exact ⟨h.reached, h.running, sync_store h.sync (fun a hlo hhi => hring a ⟨hlo, hhi⟩), hbuffers, h.own,
      h.ready, h.cur⟩

theorem sound_step (hframes : ∀ k, (frames k).data.length ≤ 1520) (h : s.InOrder frames ioBase)
    (hs : s.sender.Sound) (ha : s.allowed e) (hC : s.Same e) (ht : s.step frames ioBase e = some t) :
    t.sender.Sound := by
  have hcard : e.Receives → t.sender.Sound := by
    intro he
    obtain ⟨d, x, log, -, hw, rfl⟩ := card_step hframes h he ht
    exact hs.step (e := .store x.mem) (h.card_sender hw) trivial rfl
  cases e with
  | deliver | raise | interrupt => exact hcard trivial
  | request frame targetIp =>
    rw [step] at ht
    obtain ⟨u, hu, rfl⟩ := Option.map_eq_some_iff.mp ht
    exact hs.step ha.1 hC hu
  | transmit =>
    rw [step] at ht
    obtain ⟨u, hu, rfl⟩ := Option.map_eq_some_iff.mp ht
    exact hs.step (e := .transmit) trivial trivial hu
  | store mem =>
    cases ht
    exact hs.step (e := .store mem) ha.1 trivial rfl

theorem not_asks_step (hs : s.sender.Sound) (ha : s.allowed e) (hC : ¬ s.Same e)
    (ht : s.step frames ioBase e = some t) : ¬ t.sender.Asks := by
  cases e with
  | request frame targetIp =>
    rw [step] at ht
    obtain ⟨u, hu, rfl⟩ := Option.map_eq_some_iff.mp ht
    exact hs.not_asks ha.1 hC hu
  | deliver | raise | interrupt | transmit | store => exact absurd trivial hC

theorem boot_inOrder {k k' : Platform Rtl8139.Chip HeapVars} {handler : ℕ} (hk : Before ioBase k)
    (htime : k.card.InTime)
    (hrun : rtl8139Init (chipPorts frames ioBase) heapC handler k = some (1, k')) :
    (boot k').InOrder frames ioBase ∧ (boot k').sender.Sound := by
  obtain ⟨p, -, hcalled⟩ := rtl8139Init_called hk hrun
  have hready := hcalled.handedOver hk.seen htime
  have hidr : k'.card.idr = k.card.idr := by
    obtain ⟨r, n, hn⟩ := waited_rest k.card
    rw [hcalled.up htime, hn]
    rfl
  have hown : (boot k').mac = k'.card.idr := by
    rw [boot, hidr, hcalled.mac]
    ext i hi
    simp [List.getD_eq_getElem?_getD]
  exact ⟨⟨hk.reached, hready.running, fresh_inStep hready.receive, hcalled.buffers, hown,
      ⟨hcalled.ready, hcalled.ready⟩, show 0 < 4 by decide⟩,
    ⟨Transmitter.init_sound hready.transmit, rfl, rfl⟩⟩

/-- An array below the heap, such as one on the stack of the boot, is apart from all of it. -/
theorem InOrder.allowed_below {frame targetIp : ℕ} (h : s.InOrder frames ioBase)
    (hframe : frame + 42 ≤ s.heap.heapBaseAddr) (hip : targetIp + 4 ≤ frame ∨ frame + 42 ≤ targetIp) :
    s.allowed (.request frame targetIp) := by
  obtain ⟨bs, hok, ⟨b, hb, hrx, -⟩, ⟨c, hc, htx, -⟩⟩ := h.buffers.heap
  have hlow : ∀ {d}, d ∈ live bs → s.heap.heapBaseAddr ≤ d.addr :=
    fun hd => (hok.bounds (mem_live.mp hd).1).1
  have hb' := hlow hb
  have hc' := hlow hc
  refine ⟨⟨.inl ?_, hip⟩, fun a _ hhi => ⟨?_, fun cs hok' d hd hheader => ?_⟩⟩
  · change frame + 42 ≤ s.txBuffer
    omega
  · rintro ⟨hlo, -⟩
    omega
  · have hd' := (hok'.bounds hd).1
    have hlo := hheader.1
    omega

end Station

/-- From `net_init` on, along every run in which frames come in, interrupts are handled, requests go
out and the rest of the kernel writes elsewhere: every frame is read in order, once; every request is
handed to the card as its registers take it; and the requests made are those on the wire and those
that wait, in order, if and only if no request is made while four wait or one for another address
does. -/
theorem station_traffic (hframes : ∀ k, (frames k).data.length ≤ 1520) {s : Station} {es : List Traffic}
    (hs : (station frames ioBase).init s) (he : (station frames ioBase).Executes s es) :
    (station frames ioBase).Always (Station.Received frames ioBase) s es ∧
    ((station frames ioBase).Always (fun s => s.sender.Asks) s es ↔
      (station frames ioBase).EachStep Station.Same s es) := by
  obtain ⟨k, k', handler, hk, htime, hrun, rfl⟩ := hs
  have hboot := Station.boot_inOrder hk htime hrun
  constructor
  · apply he.always hboot.1
    · exact fun s h => h.received
    · exact fun s e t h ha ht => Station.inOrder_step hframes h ha ht
  · apply System.always_iff_eachStep (I := fun s => s.InOrder frames ioBase ∧ s.sender.Sound) _ _ _ hboot he
    · exact fun s h => h.2.asks
    · exact fun s e t h ha hC ht =>
        ⟨Station.inOrder_step hframes h.1 ha ht, Station.sound_step hframes h.1 h.2 ha hC ht⟩
    · exact fun s e t h ha hC ht => Station.not_asks_step h.2 ha hC ht

/-- A frame comes in while a request goes out. -/
theorem station_traffic_cold : ∃ s, (station shortFrames 0xC000).init s ∧
    (station shortFrames 0xC000).Always (Station.Received shortFrames 0xC000) s
      [.request 0x80000 0x80100, .deliver, .interrupt [], .transmit] := by
  obtain ⟨k', hheap, hrun⟩ := coldPlatform_runs shortFrames
  have htime := coldPlatform_inTime
  have hbase : (Station.boot k').heap.heapBaseAddr = 0x100000 :=
    (congrArg HeapVars.heapBaseAddr hheap).trans coldPlatform_heap.tiles.1.symm
  have hinit : (station shortFrames 0xC000).init (Station.boot k') :=
    ⟨_, k', 1, coldPlatform_before, htime, hrun, rfl⟩
  have hrequest : (Station.boot k').allowed (.request 0x80000 0x80100) := by
    apply (Station.boot_inOrder coldPlatform_before htime hrun).1.allowed_below
    · rw [hbase]
      decide
    · exact .inr (by decide)
  refine ⟨_, hinit, (station_traffic (fun _ => ?_) hinit ?_).1⟩
  · simp [shortFrames]
  · exact ⟨hrequest, _, rfl, trivial, _, rfl, trivial, _, rfl, trivial, _, rfl, trivial⟩

end ShadOS.Net

import ShadOS.Net.Source

/-! # Requests on the wire

The frame that `net_send_arp_request` lays out is an ARP request, so what the
driver says of frames in general can be said of requests: they all reach the
wire, in order, exactly if a request that does not ask for the same address
waits until the card has taken the one before.
-/

namespace ShadOS.Net
open Machine Rtl8139

variable {m : Mem} {p n frame targetIp : ℕ} {mac : Vector UInt8 6} {ip : Vector UInt8 4}
  {bs cs : List UInt8}

/-! ## The layout -/

/-- The 42 bytes of a request. -/
def arpFrame (mac : Vector UInt8 6) (ip : Vector UInt8 4) : List UInt8 :=
  List.replicate 6 0xFF ++ mac.toList ++ [0x08, 0x06] ++ [0, 1] ++ [0x08, 0] ++ [6] ++ [4] ++ [0, 1] ++
    mac.toList ++ senderIp.toList ++ List.replicate 6 0 ++ ip.toList

theorem writeBytes_append {q : ℕ} (hq : q = p + bs.length) :
    writeBytes (writeBytes m p bs) q cs = writeBytes m p (bs ++ cs) := by
  subst hq
  funext x
  simp only [writeBytes, List.length_append]
  by_cases hcs : p + bs.length ≤ x ∧ x < p + bs.length + cs.length
  · rw [if_pos hcs, if_pos (by omega), List.getD_append_right _ _ _ _ (by omega)]
    congr 1
    omega
  · rw [if_neg hcs]
    by_cases hbs : p ≤ x ∧ x < p + bs.length
    · rw [if_pos hbs, if_pos (by omega), List.getD_append _ _ _ _ (by omega)]
    · rw [if_neg hbs, if_neg (by omega)]

theorem writeBytes_one (v : UInt8) : Function.update m p v = writeBytes m p [v] := by
  funext x
  by_cases hx : x = p
  · subst hx
    simp [writeBytes]
  · rw [Function.update_of_ne hx, writeBytes_outside]
    simp only [List.length_singleton]
    omega

/-- A loop that writes `bs` when its source is not what it writes. -/
theorem fillLoop_eq {v : Mem → ℕ → UInt8} (hn : bs.length = n)
    (hv : ∀ i < n, v (writeBytes m p (bs.take i)) i = bs.getD i 0) :
    fillLoop m p n v = writeBytes m p bs := by
  have hloop : ∀ k ≤ n, fillLoop m p k v = writeBytes m p (bs.take k) := by
    intro k
    induction k with
    | zero =>
      intro _
      funext x
      rw [writeBytes_outside (by simp; omega)]
      rfl
    | succ k ih =>
      intro hk
      have hlast : bs.take (k + 1) = bs.take k ++ [bs.getD k 0] := by
        rw [List.take_succ_eq_append_getElem (by omega), List.getD_eq_getElem _ _ (by omega)]
      have hlen : (bs.take k).length = k := by simp; omega
      rw [fillLoop, List.range_succ, List.foldl_append, List.foldl_cons, List.foldl_nil]
      change Function.update (fillLoop m p k v) (p + k) (v (fillLoop m p k v) k) = _
      rw [ih (by omega), hv k (by omega), writeBytes_one, hlast, writeBytes_append (by rw [hlen])]
  rw [hloop n le_rfl, ← hn, List.take_length]

theorem fillLoop_const {k : ℕ} (c : UInt8) :
    fillLoop m p k (fun _ _ => c) = writeBytes m p (List.replicate k c) := by
  apply fillLoop_eq List.length_replicate
  intro i hi
  rw [List.getD_eq_getElem _ _ (by simpa using hi), List.getElem_replicate]

section append
variable {q k : ℕ} (hq : q = p + bs.length)
include hq

theorem append_const (c : UInt8) : fillLoop (writeBytes m p bs) q k (fun _ _ => c) =
    writeBytes m p (bs ++ List.replicate k c) := by
  rw [← writeBytes_append hq, fillLoop_const]

theorem append_list (v : Vector UInt8 k) :
    fillLoop (writeBytes m p bs) q k (fun _ i => v.toList.getD i 0) =
      writeBytes m p (bs ++ v.toList) := by
  rw [← writeBytes_append hq]
  exact fillLoop_eq v.length_toList (fun _ _ => rfl)

theorem append_byte (v : UInt8) :
    Function.update (writeBytes m p bs) q v = writeBytes m p (bs ++ [v]) := by
  rw [writeBytes_one, writeBytes_append hq]

theorem append_be16 (v : ℕ) : writeBe16 (writeBytes m p bs) q v =
    writeBytes m p (bs ++ [UInt8.ofNat (v >>> 8), UInt8.ofNat v]) := by
  rw [writeBe16, append_byte hq, append_byte, List.append_assoc]
  · rfl
  · rw [List.length_append, List.length_singleton, hq, Nat.add_assoc]

/-- The address asked for is read while the array is written. -/
theorem append_ip (hap : targetIp + 4 ≤ p ∨ p + bs.length + 4 ≤ targetIp) :
    fillLoop (writeBytes m p bs) q 4 (fun m i => m (targetIp + i)) =
      writeBytes m p (bs ++ (ipAt m targetIp).toList) := by
  have hip : (ipAt m targetIp).toList = readBytes m targetIp 4 := rfl
  rw [← writeBytes_append hq]
  apply fillLoop_eq (Vector.length_toList)
  intro i hi
  rw [writeBytes_append hq, writeBytes_outside, hip, Transmitter.readBytes_getD, if_pos hi]
  simp only [List.length_append, List.length_take, Vector.length_toList]
  omega

end append

/-- The array holds the request, and nothing else was written. -/
theorem buildFrame_eq (hap : targetIp + 4 ≤ frame ∨ frame + 42 ≤ targetIp) :
    buildFrame m frame mac targetIp = writeBytes m frame (arpFrame mac (ipAt m targetIp)) := by
  rw [buildFrame, fillLoop_const (m := m) (p := frame), append_list (by simp), append_be16 (by simp), append_be16 (by simp),
    append_be16 (by simp), append_byte (by simp), append_byte (by simp), append_be16 (by simp),
    append_list (by simp), append_list (by simp), append_const (by simp),
    append_ip (by simp) (by simp; omega)]
  rfl

theorem arpFrame_length : (arpFrame mac ip).length = 42 := by simp [arpFrame]

theorem readBytes_buildFrame (hap : targetIp + 4 ≤ frame ∨ frame + 42 ≤ targetIp) :
    readBytes (buildFrame m frame mac targetIp) frame 42 = arpFrame mac (ipAt m targetIp) := by
  rw [buildFrame_eq hap]
  apply List.ext_getElem
  · rw [readBytes_length, arpFrame_length]
  · intro i hi hi'
    rw [readBytes_getElem, writeBytes_inside hi', List.getD_eq_getElem]

/-! ## The meaning -/

theorem be16At_padFrame (i : ℕ) : be16At (padFrame bs) i = be16At bs i := by
  rw [be16At, be16At, Transmitter.padFrame_getD, Transmitter.padFrame_getD]

theorem field_padFrame {i : ℕ} (h : i + n ≤ bs.length) : field (padFrame bs) i n = field bs i n := by
  rw [field, field, padFrame, List.drop_append_of_le_length (by omega),
    List.take_append_of_le_length (by rw [List.length_drop]; omega)]

theorem toList_six (v : Vector UInt8 6) : v.toList = [v[0], v[1], v[2], v[3], v[4], v[5]] := by
  apply List.ext_getElem (by simp)
  intro i h h'
  have hi : i < 6 := by simpa using h'
  interval_cases i <;> simp

theorem toList_four (v : Vector UInt8 4) : v.toList = [v[0], v[1], v[2], v[3]] := by
  apply List.ext_getElem (by simp)
  intro i h h'
  have hi : i < 4 := by simpa using h'
  interval_cases i <;> simp

/-- Any station reads the request back. -/
theorem parseArp_arpFrame (mac : Vector UInt8 6) (ip : Vector UInt8 4) :
    parseArp (padFrame (arpFrame mac ip)) = some (whoHas mac ip) := by
  have hlen : (arpFrame mac ip).length = 42 := arpFrame_length
  have hpad : 60 ≤ (padFrame (arpFrame mac ip)).length := by
    rw [Transmitter.padFrame_length]
    omega
  have hkind : be16At (arpFrame mac ip) 12 = 0x0806 ∧ be16At (arpFrame mac ip) 14 = 1 ∧
      be16At (arpFrame mac ip) 16 = 0x0800 ∧ (arpFrame mac ip).getD 18 0 = 6 ∧
      (arpFrame mac ip).getD 19 0 = 4 := by
    simp [be16At, arpFrame, toList_six mac]
  rw [parseArp, be16At_padFrame, be16At_padFrame, be16At_padFrame, be16At_padFrame,
    Transmitter.padFrame_getD, Transmitter.padFrame_getD, if_pos ⟨hpad, hkind⟩,
    field_padFrame (by omega), field_padFrame (by omega), field_padFrame (by omega),
    field_padFrame (by omega), field_padFrame (by omega), field_padFrame (by omega)]
  simp [be16At, arpFrame, whoHas, field, senderIp, toList_six mac, toList_four ip]

/-- The frame of a request. -/
def frameOf (mac : Vector UInt8 6) (ip : Vector UInt8 4) : List UInt8 := padFrame (arpFrame mac ip)

theorem frameOf_length : (frameOf mac ip).length = 60 := by
  rw [frameOf, Transmitter.padFrame_length, arpFrame_length]
  rfl

theorem parseArp_frameOf : parseArp (frameOf mac ip) = some (whoHas mac ip) :=
  parseArp_arpFrame mac ip

theorem whoHas_injective (mac : Vector UInt8 6) : Function.Injective (whoHas mac) := fun _ _ h =>
  Vector.toList_inj.mp (congrArg Arp.targetIp h)

theorem frameOf_injective (mac : Vector UInt8 6) : Function.Injective (frameOf mac) := by
  intro ip ip' h
  apply whoHas_injective mac
  apply Option.some.inj
  rw [← parseArp_frameOf, ← parseArp_frameOf, h]

/-- Frames of requests that read alike are the same. -/
theorem frames_of_parse {fs : List (List UInt8)} {ips : List (Vector UInt8 4)}
    (hfs : ∀ f ∈ fs, ∃ ip, f = frameOf mac ip)
    (h : fs.map parseArp = ips.map (fun ip => some (whoHas mac ip))) : fs = ips.map (frameOf mac) := by
  induction fs generalizing ips with
  | nil =>
    cases ips with
    | nil => rfl
    | cons => cases h
  | cons f fs ih =>
    cases ips with
    | nil => cases h
    | cons ip ips =>
      obtain ⟨ip', rfl⟩ := hfs f List.mem_cons_self
      rw [List.map_cons, List.map_cons, parseArp_frameOf] at h
      injection h with hip hrest
      rw [whoHas_injective mac (Option.some.inj hip), List.map_cons,
        ih (fun f hf => hfs f (List.mem_cons_of_mem _ hf)) hrest]

theorem agree_eq {w v : List UInt8} (h : Transmitter.Agree w v) (hl : w.length = v.length) :
    w = v := by
  apply List.ext_getElem hl
  intro i hi hi'
  have hget := h i hi hi'
  rwa [List.getD_eq_getElem _ _ hi, List.getD_eq_getElem _ _ hi'] at hget

/-! ## Runs -/

namespace Sender
variable {s t : Sender} {e : Event} {i : ℕ}

/-- What the driver was given are the requests. -/
structure Sound (s : Sender) : Prop where
  tx : s.tx.Sound
  ready : s.netReady = s.tx.rtlReady
  sent : s.tx.sent = s.asked.map (frameOf s.mac)

namespace Sound

theorem asks (h : s.Sound) : s.Asks := by
  have hintact := h.tx.1
  rw [Transmitter.Intact, h.sent] at hintact
  rw [Asks, hintact, List.map_map]
  apply List.map_congr_left
  intro ip _
  rw [Function.comp_apply, parseArp_frameOf]

theorem mem_sent (h : s.Sound) {f : List UInt8} (hf : f ∈ s.tx.wire ++ s.tx.queue.map s.tx.frameAt) :
    ∃ ip, f = frameOf s.mac ip := by
  have hintact := h.tx.1
  rw [Transmitter.Intact, h.sent] at hintact
  rw [hintact] at hf
  obtain ⟨ip, -, he⟩ := List.mem_map.mp hf
  exact ⟨ip, he.symm⟩

/-- The descriptors that wait all point at the one buffer, with the size of a request. -/
theorem waiting (h : s.Sound) (hi : i ∈ s.tx.queue) : s.tx.tsad i = s.tx.txBuffer ∧ s.tx.tsd i = 60 := by
  obtain ⟨-, n, hq⟩ := h.tx
  obtain ⟨ip, hip⟩ := h.mem_sent (List.mem_append_right _ (List.mem_map_of_mem hi))
  have hsize := congrArg List.length hip
  rw [Transmitter.frameAt, readBytes_length, frameOf_length] at hsize
  rw [hq.queue_eq] at hi
  obtain ⟨k, hk, rfl⟩ := List.mem_map.mp hi
  exact ⟨hq.address k (List.mem_range.mp hk), hsize⟩

theorem frameAt_eq (h : s.Sound) (hi : i ∈ s.tx.queue) :
    s.tx.frameAt i = readBytes s.tx.mem s.tx.txBuffer 60 := by
  obtain ⟨hbase, hsize⟩ := h.waiting hi
  rw [Transmitter.frameAt, hbase, hsize]

/-- So they all show the last request. -/
theorem frameAt_last (h : s.Sound) (hi : i ∈ s.tx.queue) :
    ∃ ip, s.asked.getLast? = some ip ∧ s.tx.frameAt i = frameOf s.mac ip := by
  have hne : s.tx.queue ≠ [] := List.ne_nil_of_mem hi
  have hlast := h.frameAt_eq (List.getLast_mem hne)
  have hintact := congrArg List.getLast? h.tx.1
  rw [h.sent, List.getLast?_append, List.getLast?_map, List.getLast?_map,
    List.getLast?_eq_some_getLast hne, Option.map_some, Option.some_or] at hintact
  obtain ⟨ip, hip, he⟩ := Option.map_eq_some_iff.mp hintact.symm
  refine ⟨ip, hip, ?_⟩
  rw [h.frameAt_eq hi, ← hlast]
  exact he.symm

end Sound

/-- The transmit path once the array is written. -/
def laidOut (s : Sender) (frame targetIp : ℕ) : Transmitter :=
  { s.tx with mem := buildFrame s.tx.mem frame s.mac targetIp }

theorem step_request (h : s.Sound) (hready : s.netReady = true) :
    s.step (.request frame targetIp) = some { s with
      tx := (s.laidOut frame targetIp).pushed frame 42
      asked := s.asked ++ [ipAt s.tx.mem targetIp] } := by
  have hgo : ¬ ((s.laidOut frame targetIp).rtlReady = false ∨ txBufSize < 42) := by
    have hr : (s.laidOut frame targetIp).rtlReady = true := h.ready ▸ hready
    rw [hr]
    decide
  have hsend := Transmitter.rtl8139Send_eq (s.laidOut frame targetIp) frame 42
  rw [if_neg hgo] at hsend
  rw [Sender.step, netSendArpRequest, if_neg (by simp [hready])]
  change some _ = some _
  simp only [laidOut] at hsend ⊢
  rw [hsend]
  rfl

/-- The array is memory of the kernel like any other. -/
theorem Sound.laidOut (h : s.Sound) (ha : s.allowed (.request frame targetIp)) :
    (s.laidOut frame targetIp).Sound ∧
      (∀ i ∈ s.tx.queue, (s.laidOut frame targetIp).frameAt i = s.tx.frameAt i) ∧
      readBytes (s.laidOut frame targetIp).mem frame 42 = arpFrame s.mac (ipAt s.tx.mem targetIp) := by
  obtain ⟨hap, hip⟩ := ha
  have hm : ∀ x, s.tx.txBuffer ≤ x → x < s.tx.txBuffer + txBufSize →
      buildFrame s.tx.mem frame s.mac targetIp x = s.tx.mem x := by
    intro x hlo hhi
    rw [buildFrame_eq hip, writeBytes_outside]
    rw [arpFrame_length]
    omega
  refine ⟨Transmitter.sound_step (e := .store _) h.tx hm trivial rfl, fun i hi => ?_,
    readBytes_buildFrame hip⟩
  obtain ⟨hbase, hsize⟩ := h.waiting hi
  rw [Transmitter.frameAt, Transmitter.frameAt]
  change readBytes _ (s.tx.tsad i) (s.tx.tsd i) = _
  rw [hbase, hsize]
  apply readBytes_congr
  intro j hj
  apply hm _ (Nat.le_add_right _ _)
  unfold txBufSize
  omega

/-- A request is harmless to those that wait exactly if they ask for the same address. -/
theorem Sound.harmless_iff (h : s.Sound) (ha : s.allowed (.request frame targetIp))
    (hready : s.netReady = true) :
    (s.laidOut frame targetIp).Harmless (.send frame 42) ↔ s.Same (.request frame targetIp) := by
  obtain ⟨-, hframes, hnew⟩ := h.laidOut ha
  have hqueue : (s.laidOut frame targetIp).queue = s.tx.queue := rfl
  have hr : (s.laidOut frame targetIp).rtlReady = true := h.ready ▸ hready
  have hlen : 42 ≤ txBufSize := by decide
  simp only [Transmitter.Harmless, hr, hlen, forall_const, hqueue, hnew, Same, hready]
  apply and_congr_right
  intro _
  constructor
  · intro hagree hne
    obtain ⟨i, hi⟩ := List.exists_mem_of_ne_nil _ hne
    obtain ⟨ip, hlast, hip⟩ := h.frameAt_last hi
    have heq := agree_eq (hagree i hi) (by
      rw [hframes i hi, hip, frameOf_length, ← frameOf, frameOf_length])
    rw [hframes i hi, hip] at heq
    rw [hlast, frameOf_injective s.mac heq]
  · intro hsame i hi
    obtain ⟨ip, hlast, hip⟩ := h.frameAt_last hi
    rw [hframes i hi, hip, ← Option.some.inj (hlast.symm.trans (hsame (List.ne_nil_of_mem hi)))]
    exact fun _ _ _ => rfl

theorem Sound.step (h : s.Sound) (ha : s.allowed e) (hC : s.Same e) (ht : s.step e = some t) :
    t.Sound := by
  cases e with
  | request frame targetIp =>
    by_cases hready : s.netReady = true
    · obtain ⟨htx, -, hnew⟩ := h.laidOut ha
      rw [step_request h hready] at ht
      obtain rfl := Option.some.inj ht
      have hstep : (s.laidOut frame targetIp).step (.send frame 42) =
          some ((s.laidOut frame targetIp).pushed frame 42) := by
        have hr : (s.laidOut frame targetIp).rtlReady = true := h.ready ▸ hready
        rw [Transmitter.step, Transmitter.rtl8139Send_eq, if_neg (by rw [hr]; decide)]
      have hsend : (s.laidOut frame targetIp).allowed (.send frame 42) := ha.1
      refine ⟨Transmitter.sound_step htx hsend ((h.harmless_iff ha hready).mpr hC) hstep, h.ready, ?_⟩
      change s.tx.sent ++ [_] = _
      rw [hnew, h.sent, List.map_append]
      rfl
    · rw [Sender.step, netSendArpRequest, if_pos (by simpa using hready)] at ht
      obtain rfl := Option.some.inj ht
      exact ⟨h.tx, h.ready, h.sent⟩
  | transmit =>
    obtain rfl := Option.some.inj ht
    have hkeep : s.tx.transmit.rtlReady = s.tx.rtlReady ∧ s.tx.transmit.sent = s.tx.sent := by
      rw [Transmitter.transmit]
      split <;> exact ⟨rfl, rfl⟩
    exact ⟨Transmitter.sound_step (e := .transmit) h.tx trivial trivial rfl, h.ready.trans hkeep.1.symm,
      hkeep.2.trans h.sent⟩
  | store m =>
    obtain rfl := Option.some.inj ht
    exact ⟨Transmitter.sound_step (e := .store m) h.tx ha trivial rfl, h.ready, h.sent⟩

/-- Behind any request, every frame that left or waits is a request. -/
theorem Sound.mem_request (h : s.Sound) (ha : s.allowed (.request frame targetIp)) {f : List UInt8}
    (hf : f ∈ ((s.laidOut frame targetIp).pushed frame 42).wire ++
      ((s.laidOut frame targetIp).pushed frame 42).queue.map
        ((s.laidOut frame targetIp).pushed frame 42).frameAt) : ∃ ip, f = frameOf s.mac ip := by
  obtain ⟨-, -, hnew⟩ := h.laidOut ha
  have hcur := Transmitter.frameAt_new (s := s.laidOut frame targetIp) ha.1
  rw [hnew] at hcur
  rcases List.mem_append.mp hf with hwire | hqueue
  · exact h.mem_sent (List.mem_append_left _ hwire)
  · obtain ⟨i, hi, rfl⟩ := List.mem_map.mp hqueue
    refine ⟨ipAt s.tx.mem targetIp, ?_⟩
    by_cases hic : i = s.tx.txCur
    · rw [hic]
      exact hcur
    · -- an older descriptor shows the buffer too
      have hwait : i ∈ s.tx.queue := by
        obtain ⟨hmem, hw⟩ := List.mem_filter.mp hi
        refine List.mem_filter.mpr ⟨hmem, ?_⟩
        have hsame : ((s.laidOut frame targetIp).pushed frame 42).waiting i = s.tx.waiting i :=
          Function.update_of_ne hic _ _
        rwa [hsame] at hw
      obtain ⟨hbase, hsize⟩ := h.waiting hwait
      have htsad : ((s.laidOut frame targetIp).pushed frame 42).tsad i = s.tx.txBuffer :=
        (Function.update_of_ne hic _ _).trans hbase
      have htsd : ((s.laidOut frame targetIp).pushed frame 42).tsd i = 60 :=
        (Function.update_of_ne hic _ _).trans hsize
      have hbase' : ((s.laidOut frame targetIp).pushed frame 42).tsad s.tx.txCur = s.tx.txBuffer := by
        simp [Transmitter.pushed, Sender.laidOut]
      have hsize' : ((s.laidOut frame targetIp).pushed frame 42).tsd s.tx.txCur = 60 := by
        simp [Transmitter.pushed, Sender.laidOut]
      rw [Transmitter.frameAt, htsad, htsd, ← hbase', ← hsize']
      exact hcur

theorem Sound.not_asks (h : s.Sound) (ha : s.allowed e) (hC : ¬ s.Same e) (ht : s.step e = some t) :
    ¬ t.Asks := by
  cases e with
  | request frame targetIp =>
    have hready : s.netReady = true := by
      by_contra hr
      exact hC (fun h1 => absurd h1 hr)
    obtain ⟨⟨hintact, n, hq⟩, -, hnew⟩ := h.laidOut ha
    rw [step_request h hready] at ht
    obtain rfl := Option.some.inj ht
    intro hasks
    have hframes := frames_of_parse (fun f hf => h.mem_request ha hf) hasks
    apply hC
    apply (h.harmless_iff ha hready).mp
    intro _ hlen
    apply (Transmitter.intact_pushed hq hintact ha.1 hlen).mp
    rw [Transmitter.Intact, hframes]
    change _ = s.tx.sent ++ [_]
    rw [hnew, h.sent, List.map_append]
    rfl
  | transmit => exact absurd trivial hC
  | store m => exact absurd trivial hC

end Sender

/-- In every state of a run the requests made are, in order, those on the wire and those that wait,
if and only if no request is made while four wait or one for another address does. -/
theorem requests_asked_iff {s : Sender} {es : List Event} (hs : requests.init s)
    (he : requests.Executes s es) :
    requests.Always Sender.Asks s es ↔ requests.EachStep Sender.Same s es := by
  apply System.always_iff_eachStep (I := Sender.Sound) _ _ _ _ he
  · exact fun s h => h.asks
  · exact fun s e t h ha hC ht => h.step ha hC ht
  · exact fun s e t h ha hC ht => h.not_asks ha hC ht
  · obtain ⟨htx, hready, hasked⟩ := hs
    refine ⟨Transmitter.init_sound htx, hready, ?_⟩
    rw [hasked, htx.2.2.2.2]
    rfl

/-- Behind `net_init`. -/
def freshSender : Sender := ⟨true, #v[0x52, 0x54, 0x00, 0x12, 0x34, 0x56], freshTransmitter, []⟩

theorem same_of_queue_nil {s : Sender} (h : s.tx.queue = []) (e : Event) : s.Same e := by
  cases e with
  | request frame targetIp =>
    intro _
    rw [h]
    exact ⟨by decide, fun hne => absurd rfl hne⟩
  | transmit => trivial
  | store m => trivial

/-- Two addresses in turn. -/
theorem requests_asked_turns : requests.Always Sender.Asks freshSender
    [.request 0x80000 0x80100, .transmit, .request 0x80000 0x80200, .transmit] := by
  apply (requests_asked_iff ⟨freshTransmitter_init, rfl, rfl⟩ _).mpr
  · refine ⟨same_of_queue_nil (by decide) _, fun s hs => ⟨trivial, fun t ht => ⟨?_, fun u hu =>
      ⟨trivial, fun _ _ => trivial⟩⟩⟩⟩
    obtain rfl := Option.some.inj hs
    obtain rfl := Option.some.inj ht
    exact same_of_queue_nil (by decide) _
  · exact ⟨⟨.inl (by decide), .inr (by decide)⟩, _, rfl, trivial, _, rfl,
      ⟨.inl (by decide), .inr (by decide)⟩, _, rfl, trivial, _, rfl, trivial⟩

end ShadOS.Net

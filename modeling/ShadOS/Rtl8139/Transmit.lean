import ShadOS.Machine.Memory
import ShadOS.Machine.Runs
import ShadOS.Rtl8139.Source
import Mathlib.Logic.Function.Basic
import Mathlib.Data.List.GetD
import Mathlib.Tactic.IntervalCases

/-! # Transmission through one buffer

The driver fills the same buffer for each of the four descriptors and never
asks whether the card has taken the last frame out of it. The card takes the
descriptors in order, at any later time, and sends what it finds then.
-/

namespace ShadOS.Rtl8139
open Machine

/-- The static variables of the transmit path, the four descriptors of the card, and what
went in and out. -/
structure Transmitter where
  mem : Mem
  rtlReady : Bool
  txBuffer : ℕ
  txCur : ℕ
  tsad : ℕ → ℕ
  tsd : ℕ → ℕ
  /-- Descriptors whose TSD was written, until the card takes them. -/
  waiting : ℕ → Bool
  /-- The descriptor the card takes next. -/
  next : ℕ
  wire : List (List UInt8)
  /-- The data of the successful calls, zero-padded to 60 bytes. -/
  sent : List (List UInt8)

/-- The frame of the bytes `data`, as it should appear on the wire. -/
def padFrame (data : List UInt8) : List UInt8 := data ++ List.replicate (60 - data.length) 0

namespace Transmitter

/-- The two loops that fill `tx_buffer`. -/
def fillBuffer (s : Transmitter) (data len : ℕ) : Mem :=
  let m := (List.range len).foldl
    (fun m i => Function.update m (s.txBuffer + i) (m (data + i))) s.mem
  (List.range' len (60 - len)).foldl (fun m i => Function.update m (s.txBuffer + i) 0) m

/-- `rtl8139_send`, with its return code. -/
def rtl8139Send (s : Transmitter) (data len : ℕ) : ℤ × Transmitter :=
  if s.rtlReady = false ∨ txBufSize < len then (-1, s)
  else
    let paddedLen := if len < 60 then 60 else len
    (0, { s with
      mem := s.fillBuffer data len
      tsad := Function.update s.tsad s.txCur s.txBuffer
      tsd := Function.update s.tsd s.txCur paddedLen
      waiting := Function.update s.waiting s.txCur true
      txCur := (s.txCur + 1) % 4
      sent := s.sent ++ [padFrame (readBytes s.mem data len)] })

/-- The card sends what the next descriptor points at, if that descriptor waits. -/
def transmit (s : Transmitter) : Transmitter :=
  if s.waiting s.next then
    { s with
      wire := s.wire ++ [readBytes s.mem (s.tsad s.next) (s.tsd s.next)]
      waiting := Function.update s.waiting s.next false
      next := (s.next + 1) % 4 }
  else s

end Transmitter

inductive TxEvent where
  | send (data len : ℕ)
  | transmit
  /-- The kernel writes memory outside `tx_buffer`. -/
  | store (mem : Mem)

/-- The buffer is private to the driver. -/
def Transmitter.allowed (s : Transmitter) : TxEvent → Prop
  | .send data len => data + len ≤ s.txBuffer ∨ s.txBuffer + txBufSize ≤ data
  | .transmit => True
  | .store mem => ∀ x, s.txBuffer ≤ x → x < s.txBuffer + txBufSize → mem x = s.mem x

def Transmitter.step (s : Transmitter) : TxEvent → Option Transmitter
  | .send data len => some (s.rtl8139Send data len).2
  | .transmit => some s.transmit
  | .store mem => some { s with mem := mem }

/-- Sends, and the card, after `rtl8139_init`. -/
def transmission : System Transmitter TxEvent where
  init s := s.txCur = 0 ∧ s.next = 0 ∧ (∀ i < 4, s.waiting i = false) ∧ s.wire = [] ∧ s.sent = []
  allowed := Transmitter.allowed
  step := Transmitter.step

namespace Transmitter
variable {s t : Transmitter} {n data len : ℕ}

/-- The descriptors that wait, in the order of the card. -/
def queue (s : Transmitter) : List ℕ :=
  ((List.range 4).map (fun k => (s.next + k) % 4)).filter s.waiting

/-- The frame the card finds at a descriptor. -/
def frameAt (s : Transmitter) (i : ℕ) : List UInt8 := readBytes s.mem (s.tsad i) (s.tsd i)

/-- What is on the wire, and what the waiting descriptors point at, are the frames sent. -/
def Intact (s : Transmitter) : Prop := s.wire ++ s.queue.map s.frameAt = s.sent

/-- The two frames agree as far as both go. -/
def Agree (w p : List UInt8) : Prop := ∀ i < w.length, i < p.length → w.getD i 0 = p.getD i 0

/-- A successful send finds a free descriptor, and its frame agrees with all that wait. -/
def Harmless (s : Transmitter) : TxEvent → Prop
  | .send data len => s.rtlReady = true → len ≤ txBufSize → s.queue.length < 4 ∧
      ∀ i ∈ s.queue, Agree (s.frameAt i) (padFrame (readBytes s.mem data len))
  | _ => True

/-! ## The buffer after the loops -/

theorem padFrame_length (l : List UInt8) : (padFrame l).length = max l.length 60 := by
  rw [padFrame, List.length_append, List.length_replicate]
  omega

theorem padFrame_getD (l : List UInt8) (i : ℕ) : (padFrame l).getD i 0 = l.getD i 0 := by
  by_cases h : i < l.length
  · rw [padFrame, List.getD_append _ _ _ _ h]
  · rw [padFrame, List.getD_append_right _ _ _ _ (by omega), List.getD_eq_default l _ (by omega)]
    simp [List.getD_eq_getElem?_getD, List.getElem?_replicate]
    split <;> rfl

theorem readBytes_getD (m : Mem) (a i : ℕ) :
    (readBytes m a n).getD i 0 = if i < n then m (a + i) else 0 := by
  by_cases h : i < n
  · simp [readBytes, h, List.getD_eq_getElem?_getD]
  · simp [readBytes, h, List.getD_eq_getElem?_getD]

theorem copyLoop_apply (hap : data + len ≤ s.txBuffer ∨ s.txBuffer + txBufSize ≤ data)
    (hn : n ≤ len) (x : ℕ) :
    (List.range n).foldl (fun m i => Function.update m (s.txBuffer + i) (m (data + i))) s.mem x =
      if s.txBuffer ≤ x ∧ x < s.txBuffer + n then s.mem (data + (x - s.txBuffer)) else s.mem x := by
  induction n generalizing x with
  | zero => rw [if_neg (by omega)]; rfl
  | succ n ih =>
    rw [List.range_succ, List.foldl_append]
    simp only [List.foldl_cons, List.foldl_nil]
    have hsrc := ih (by omega) (data + n)
    rw [if_neg (by omega)] at hsrc
    by_cases hx : x = s.txBuffer + n
    · rw [hx, Function.update_self, hsrc, if_pos (by omega), Nat.add_sub_cancel_left]
    · rw [Function.update_of_ne hx, ih (by omega)]
      congr 1
      simp only [eq_iff_iff]
      omega

theorem zeroLoop_apply (m : Mem) (a start n x : ℕ) :
    (List.range' start n).foldl (fun m i => Function.update m (a + i) 0) m x =
      if a + start ≤ x ∧ x < a + start + n then 0 else m x := by
  induction n with
  | zero => rw [if_neg (by omega)]; rfl
  | succ n ih =>
    rw [List.range'_1_concat, List.foldl_append]
    simp only [List.foldl_cons, List.foldl_nil]
    by_cases hx : x = a + (start + n)
    · rw [hx, Function.update_self, if_pos (by omega)]
    · rw [Function.update_of_ne hx, ih]
      congr 1
      simp only [eq_iff_iff]
      omega

/-- The buffer holds the padded frame, and nothing else has changed. -/
theorem fillBuffer_apply (hap : data + len ≤ s.txBuffer ∨ s.txBuffer + txBufSize ≤ data)
    (x : ℕ) : s.fillBuffer data len x =
      if s.txBuffer ≤ x ∧ x < s.txBuffer + (padFrame (readBytes s.mem data len)).length then
        (padFrame (readBytes s.mem data len)).getD (x - s.txBuffer) 0
      else s.mem x := by
  rw [padFrame_length, padFrame_getD, readBytes_getD, readBytes_length, fillBuffer]
  rw [zeroLoop_apply, copyLoop_apply hap le_rfl]
  split_ifs <;> first | rfl | omega

/-! ## The waiting descriptors -/

/-- The `k`-th descriptor the card takes from now on. -/
def slot (s : Transmitter) (k : ℕ) : ℕ := (s.next + k) % 4

/-- The next `n` descriptors wait, up to the one the driver uses next. -/
structure Queued (s : Transmitter) (n : ℕ) : Prop where
  bound : n ≤ 4
  next : s.next < 4
  cur : s.txCur = s.slot n
  waiting : ∀ k < 4, s.waiting (s.slot k) = decide (k < n)
  address : ∀ k < n, s.tsad (s.slot k) = s.txBuffer
  size : ∀ k < n, s.tsd (s.slot k) ≤ txBufSize

theorem queue_length_le (s : Transmitter) : s.queue.length ≤ 4 := by
  apply (List.length_filter_le _ _).trans
  simp

namespace Queued

theorem queue_eq (h : Queued s n) : s.queue = (List.range n).map s.slot := by
  have hfilter : (List.range 4).filter (s.waiting ∘ s.slot) = (List.range 4).filter (· < n) :=
    List.filter_congr (fun k hk => h.waiting k (List.mem_range.mp hk))
  have hrange : (List.range 4).filter (· < n) = List.range n := by
    have hbound := h.bound
    interval_cases n <;> decide
  change ((List.range 4).map s.slot).filter s.waiting = _
  rw [List.filter_map, hfilter, hrange]

theorem queue_length (h : Queued s n) : s.queue.length = n := by
  rw [h.queue_eq, List.length_map, List.length_range]

theorem slot_ne (h : Queued s n) {k : ℕ} (hk : k < n) (hn : n < 4) : s.slot k ≠ s.txCur := by
  have hnext := h.next
  rw [h.cur]
  unfold slot
  omega

end Queued

/-- The state a successful call leaves. -/
def pushed (s : Transmitter) (data len : ℕ) : Transmitter :=
  { s with
    mem := s.fillBuffer data len
    tsad := Function.update s.tsad s.txCur s.txBuffer
    tsd := Function.update s.tsd s.txCur (if len < 60 then 60 else len)
    waiting := Function.update s.waiting s.txCur true
    txCur := (s.txCur + 1) % 4
    sent := s.sent ++ [padFrame (readBytes s.mem data len)] }

theorem rtl8139Send_eq (s : Transmitter) (data len : ℕ) : s.rtl8139Send data len =
    if s.rtlReady = false ∨ txBufSize < len then (-1, s) else (0, s.pushed data len) := rfl

/-- A send with a free descriptor adds it at the end. -/
theorem Queued.pushed (h : Queued s n) (hn : n < 4) (data : ℕ) (hlen : len ≤ txBufSize) :
    Queued (s.pushed data len) (n + 1) := by
  have hcur := h.cur
  have hnext := h.next
  constructor
  · exact hn
  · exact hnext
  · change (s.txCur + 1) % 4 = (s.next + (n + 1)) % 4
    rw [hcur, slot]
    omega
  · intro k hk
    change Function.update s.waiting s.txCur true (s.slot k) = _
    by_cases hkn : k = n
    · rw [hkn, ← hcur, Function.update_self]
      simp
    · have hne : s.slot k ≠ s.txCur := by
        rw [hcur]
        unfold slot
        omega
      rw [Function.update_of_ne hne, h.waiting k hk]
      simp only [decide_eq_decide]
      omega
  · intro k hk
    change Function.update s.tsad s.txCur s.txBuffer (s.slot k) = s.txBuffer
    by_cases hkn : k = n
    · rw [hkn, ← hcur, Function.update_self]
    · rw [Function.update_of_ne (h.slot_ne (by omega) hn), h.address k (by omega)]
  · intro k hk
    change Function.update s.tsd s.txCur _ (s.slot k) ≤ txBufSize
    by_cases hkn : k = n
    · rw [hkn, ← hcur, Function.update_self]
      unfold txBufSize at *
      split <;> omega
    · rw [Function.update_of_ne (h.slot_ne (by omega) hn)]
      exact h.size k (by omega)

theorem readBytes_eq_iff {m m' : Mem} {a : ℕ} :
    readBytes m' a n = readBytes m a n ↔ ∀ i < n, m' (a + i) = m (a + i) := by
  simp [readBytes, List.map_inj_left]

/-- The new descriptor points at the padded frame. -/
theorem frameAt_new (hap : data + len ≤ s.txBuffer ∨ s.txBuffer + txBufSize ≤ data) :
    (s.pushed data len).frameAt s.txCur = padFrame (readBytes s.mem data len) := by
  have hsize : (if len < 60 then 60 else len) = (padFrame (readBytes s.mem data len)).length := by
    rw [padFrame_length, readBytes_length]
    split <;> omega
  have htsad : (s.pushed data len).tsad s.txCur = s.txBuffer := Function.update_self ..
  have htsd : (s.pushed data len).tsd s.txCur = if len < 60 then 60 else len :=
    Function.update_self ..
  rw [frameAt, htsad, htsd, hsize]
  apply List.ext_getElem (readBytes_length _ _ _)
  intro i h₁ h₂
  have happ := fillBuffer_apply hap (s.txBuffer + i)
  rw [if_pos (by omega), Nat.add_sub_cancel_left, List.getD_eq_getElem _ _ h₂] at happ
  simp only [readBytes, List.getElem_map, List.getElem_range]
  exact happ

/-- An earlier one keeps its frame if and only if the new frame agrees with it. -/
theorem frameAt_old (h : Queued s n) (hn : n < 4)
    (hap : data + len ≤ s.txBuffer ∨ s.txBuffer + txBufSize ≤ data) {k : ℕ} (hk : k < n) :
    (s.pushed data len).frameAt (s.slot k) = s.frameAt (s.slot k) ↔
      Agree (s.frameAt (s.slot k)) (padFrame (readBytes s.mem data len)) := by
  have htsad : (s.pushed data len).tsad (s.slot k) = s.tsad (s.slot k) :=
    Function.update_of_ne (h.slot_ne hk hn) ..
  have htsd : (s.pushed data len).tsd (s.slot k) = s.tsd (s.slot k) :=
    Function.update_of_ne (h.slot_ne hk hn) ..
  rw [frameAt, frameAt, htsad, htsd, h.address k hk, readBytes_eq_iff, Agree, readBytes_length]
  apply forall_congr'
  intro i
  apply forall_congr'
  intro hi
  change s.fillBuffer data len (s.txBuffer + i) = _ ↔ _
  rw [fillBuffer_apply hap, readBytes_getD, if_pos hi, Nat.add_sub_cancel_left]
  by_cases hip : i < (padFrame (readBytes s.mem data len)).length
  · rw [if_pos (by omega)]
    exact ⟨fun he _ => he.symm, fun he => (he hip).symm⟩
  · rw [if_neg (by omega)]
    exact ⟨fun _ hh => absurd hh hip, fun _ => rfl⟩

/-- A successful send keeps everything intact exactly when it finds a free descriptor and its
frame agrees with those that wait. -/
theorem intact_pushed (h : Queued s n) (hs : s.Intact)
    (hap : data + len ≤ s.txBuffer ∨ s.txBuffer + txBufSize ≤ data) (hlen : len ≤ txBufSize) :
    (s.pushed data len).Intact ↔ s.queue.length < 4 ∧
      ∀ i ∈ s.queue, Agree (s.frameAt i) (padFrame (readBytes s.mem data len)) := by
  have hq := h.queue_eq
  have hcount := h.queue_length
  rw [hcount]
  by_cases hn : n < 4
  · have hq' := (h.pushed hn data hlen).queue_eq
    have hslot : (s.pushed data len).slot = s.slot := rfl
    rw [hslot, List.range_succ, List.map_append, List.map_singleton, ← h.cur] at hq'
    unfold Intact at hs ⊢
    change s.wire ++ (s.pushed data len).queue.map _ = s.sent ++ [_] ↔ _
    rw [hq', List.map_append, List.map_singleton, frameAt_new hap, ← hs, hq, ← List.append_assoc,
      List.append_left_inj, List.append_right_inj, List.map_map, List.map_map]
    simp only [List.map_inj_left, List.mem_range, Function.comp_apply, hn, true_and, List.mem_map,
      forall_exists_index, and_imp, forall_apply_eq_imp_iff₂]
    apply forall_congr'
    intro k
    apply forall_congr'
    intro hk
    exact frameAt_old h hn hap hk
  · simp only [hn, false_and, iff_false]
    intro hintact
    have hlen' := congrArg List.length hintact
    have hlen := congrArg List.length hs
    change (s.wire ++ _).length = (s.sent ++ [_]).length at hlen'
    simp only [List.length_append, List.length_map, List.length_singleton, hcount] at hlen hlen'
    have hle := queue_length_le (s.pushed data len)
    omega

theorem Queued.slot_zero (h : Queued s n) : s.slot 0 = s.next := Nat.mod_eq_of_lt h.next

/-- The card takes the head of the queue. -/
theorem Queued.transmit_eq (h : Queued s (n + 1)) : s.transmit = { s with
    wire := s.wire ++ [s.frameAt s.next]
    waiting := Function.update s.waiting s.next false
    next := (s.next + 1) % 4 } := by
  apply if_pos
  rw [← h.slot_zero, h.waiting 0 (by decide)]
  simp

theorem Queued.transmit_slot (h : Queued s (n + 1)) (k : ℕ) :
    s.transmit.slot k = s.slot (k + 1) := by
  rw [h.transmit_eq]
  unfold slot
  dsimp only
  omega

theorem Queued.transmit (h : Queued s (n + 1)) : Queued s.transmit n := by
  have hnext := h.next
  have hbound := h.bound
  have he := h.transmit_eq
  constructor
  · omega
  · rw [he]
    exact Nat.mod_lt _ (by decide)
  · rw [h.transmit_slot, he]
    exact h.cur
  · intro k hk
    rw [h.transmit_slot, he]
    change Function.update s.waiting s.next false (s.slot (k + 1)) = _
    by_cases hk3 : k = 3
    · have : s.slot (k + 1) = s.next := by
        unfold slot
        omega
      rw [this, Function.update_self]
      symm
      simp only [decide_eq_false_iff_not]
      omega
    · have hne : s.slot (k + 1) ≠ s.next := by
        unfold slot
        omega
      rw [Function.update_of_ne hne, h.waiting (k + 1) (by omega)]
      simp only [decide_eq_decide]
      omega
  · intro k hk
    rw [h.transmit_slot, he]
    exact h.address (k + 1) (by omega)
  · intro k hk
    rw [h.transmit_slot, he]
    exact h.size (k + 1) (by omega)

/-- What leaves the queue appears on the wire. -/
theorem Queued.transmit_intact (h : Queued s (n + 1)) (hs : s.Intact) : s.transmit.Intact := by
  have he := h.transmit_eq
  have hframes : s.transmit.frameAt = s.frameAt := by rw [he]; rfl
  have hwire : s.transmit.wire = s.wire ++ [s.frameAt s.next] := by rw [he]
  have hsent : s.transmit.sent = s.sent := by rw [he]
  have hqueue : s.queue = s.next :: s.transmit.queue := by
    rw [h.queue_eq, h.transmit.queue_eq, List.range_succ_eq_map, List.map_cons, List.map_map,
      h.slot_zero]
    congr 1
    exact List.map_congr_left (fun k _ => (h.transmit_slot k).symm)
  unfold Intact at hs ⊢
  rw [hqueue, List.map_cons] at hs
  rw [hframes, hwire, hsent, List.append_assoc, ← hs]
  rfl

/-- A card with nothing to take does nothing. -/
theorem Queued.transmit_empty (h : Queued s 0) : s.transmit = s := by
  have hwait := h.waiting 0 (by decide)
  rw [h.slot_zero] at hwait
  exact if_neg (by simp [hwait])

/-- Memory outside the buffer plays no part. -/
theorem Queued.store (h : Queued s n) (hs : s.Intact) {m : Mem}
    (hm : ∀ x, s.txBuffer ≤ x → x < s.txBuffer + txBufSize → m x = s.mem x) :
    Queued { s with mem := m } n ∧ ({ s with mem := m } : Transmitter).Intact := by
  have hq : Queued { s with mem := m } n :=
    ⟨h.bound, h.next, h.cur, h.waiting, h.address, h.size⟩
  refine ⟨hq, ?_⟩
  have hframes : ∀ i ∈ s.queue, ({ s with mem := m } : Transmitter).frameAt i = s.frameAt i := by
    intro i hi
    rw [h.queue_eq, List.mem_map] at hi
    obtain ⟨k, hk, rfl⟩ := hi
    have hkn := List.mem_range.mp hk
    have hsize := h.size k hkn
    change readBytes m (s.tsad (s.slot k)) (s.tsd (s.slot k)) = s.frameAt (s.slot k)
    rw [frameAt, h.address k hkn]
    exact readBytes_eq_iff.mpr (fun i hi => hm _ (by omega) (by omega))
  exact (congrArg (s.wire ++ ·) (List.map_congr_left hframes)).trans hs

/-- The invariant of runs on which nothing is lost or altered. -/
def Sound (s : Transmitter) : Prop := s.Intact ∧ ∃ n, Queued s n

theorem init_sound (h : transmission.init s) : s.Sound := by
  obtain ⟨hcur, hnext, hwait, hwire, hsent⟩ := h
  have hq : Queued s 0 := by
    constructor
    · omega
    · omega
    · rw [hcur, slot, hnext]
    · intro k _
      exact hwait _ (Nat.mod_lt _ (by decide))
    · omega
    · omega
  refine ⟨?_, 0, hq⟩
  rw [Intact, hq.queue_eq, hwire, hsent]
  rfl

theorem sound_step {e : TxEvent} (h : s.Sound) (ha : s.allowed e) (hC : s.Harmless e)
    (ht : s.step e = some t) : t.Sound := by
  obtain ⟨hs, n, hq⟩ := h
  cases e with
  | send data len =>
    obtain rfl := Option.some.inj ht
    rw [rtl8139Send_eq]
    split
    · exact ⟨hs, n, hq⟩
    · rename_i hok
      rw [not_or, Bool.not_eq_false, Nat.not_lt] at hok
      have hh := hC hok.1 hok.2
      have hcount := hq.queue_length
      exact ⟨(intact_pushed hq hs ha hok.2).mpr hh, n + 1, hq.pushed (by omega) data hok.2⟩
  | transmit =>
    obtain rfl := Option.some.inj ht
    cases n with
    | zero =>
      rw [hq.transmit_empty]
      exact ⟨hs, 0, hq⟩
    | succ n => exact ⟨hq.transmit_intact hs, n, hq.transmit⟩
  | store m =>
    obtain rfl := Option.some.inj ht
    have hstore := hq.store hs ha
    exact ⟨hstore.2, n, hstore.1⟩

theorem not_intact_step {e : TxEvent} (h : s.Sound) (ha : s.allowed e) (hC : ¬ s.Harmless e)
    (ht : s.step e = some t) : ¬ t.Intact := by
  obtain ⟨hs, n, hq⟩ := h
  cases e with
  | send data len =>
    obtain rfl := Option.some.inj ht
    simp only [Harmless, Classical.not_imp] at hC
    obtain ⟨hready, hlen, hC⟩ := hC
    rw [rtl8139Send_eq, if_neg (by simp [hready, hlen]), intact_pushed hq hs ha hlen]
    exact hC
  | transmit => exact absurd trivial hC
  | store m => exact absurd trivial hC

/-- The frames on the wire, and those the waiting descriptors point at, are the data of the
successful calls at every moment of a run if and only if each successful call finds a free
descriptor and agrees with the frames that still wait. -/
theorem frames_intact_iff {es : List TxEvent} (h : transmission.init s)
    (he : transmission.Executes s es) :
    transmission.Always Intact s es ↔ transmission.EachStep Harmless s es := by
  apply System.always_iff_eachStep (I := Sound) _ _ _ (init_sound h) he
  · exact fun s hs => hs.1
  · exact fun s e t hs ha hC ht => sound_step hs ha hC ht
  · exact fun s e t hs ha hC ht => not_intact_step hs ha hC ht

end Transmitter

/-- A card after `rtl8139_init`, and two one-byte messages in memory. -/
def freshTransmitter : Transmitter where
  mem x := if x = 0x1000 then 1 else if x = 0x2000 then 2 else 0
  rtlReady := true
  txBuffer := 0x200000
  txCur := 0
  tsad _ := 0
  tsd _ := 0
  waiting _ := false
  next := 0
  wire := []
  sent := []

theorem freshTransmitter_init : transmission.init freshTransmitter :=
  ⟨rfl, rfl, fun _ _ => rfl, rfl, rfl⟩

theorem harmless_of_queue_nil {s : Transmitter} (h : s.queue = []) (e : TxEvent) :
    s.Harmless e := by
  cases e with
  | send data len =>
    intro _ _
    rw [h]
    exact ⟨by decide, fun i hi => absurd hi List.not_mem_nil⟩
  | transmit => trivial
  | store m => trivial

/-- Each message is taken by the card before the next call. -/
theorem frames_intact_turns : transmission.Always Transmitter.Intact freshTransmitter
    [.send 0x1000 1, .transmit, .send 0x2000 1, .transmit] := by
  apply (Transmitter.frames_intact_iff freshTransmitter_init _).mpr
  · refine ⟨harmless_of_queue_nil (by decide) _, fun s hs => ⟨trivial, fun t ht => ⟨?_, fun u hu =>
      ⟨trivial, fun _ _ => trivial⟩⟩⟩⟩
    obtain rfl := Option.some.inj hs
    obtain rfl := Option.some.inj ht
    exact harmless_of_queue_nil (by decide) _
  · exact ⟨Or.inl (by decide), _, rfl, trivial, _, rfl, Or.inl (by decide), _, rfl, trivial, _, rfl,
      trivial⟩

/-- Two calls before the card takes the first frame: the second message goes out twice. -/
theorem frame_overwritten : ∃ s, transmission.Reaches s ∧
    s.sent = [padFrame [1], padFrame [2]] ∧ s.wire = [padFrame [2], padFrame [2]] := by
  have hexec : transmission.Executes freshTransmitter
      [.send 0x1000 1, .send 0x2000 1, .transmit, .transmit] :=
    ⟨Or.inl (by decide), _, rfl, Or.inl (by decide), _, rfl, trivial, _, rfl, trivial, _, rfl,
      trivial⟩
  have hrun : (transmission.exec freshTransmitter
      [.send 0x1000 1, .send 0x2000 1, .transmit, .transmit]).map (fun s => (s.sent, s.wire)) =
      some ([padFrame [1], padFrame [2]], [padFrame [2], padFrame [2]]) := by
    decide +kernel
  obtain ⟨s, hs, hval⟩ := Option.map_eq_some_iff.mp hrun
  have hreach := (System.Reaches.start freshTransmitter_init).exec hexec hs
  exact ⟨s, hreach, congrArg Prod.fst hval, congrArg Prod.snd hval⟩

end ShadOS.Rtl8139

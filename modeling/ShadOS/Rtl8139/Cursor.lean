import ShadOS.Rtl8139.Source
import Mathlib.Algebra.BigOperators.Group.List.Basic
import Mathlib.Data.List.GetD

/-! # The cursor of the driver, whatever the card answers

Each accepted header moves `rx_offset` by its frame, rounded up to words, around
the ring. Whatever the card does, the offset is the sum of the rounded sizes of
the frames accepted so far, modulo the size of the ring.
-/

namespace ShadOS.Rtl8139
open Machine
open Heap (not32 and_not32_two_pow)

universe u

/-- The bytes of a frame in the ring: header, frame, padding. -/
def frameSize (length : ℕ) : ℕ := (4 + length + 3) / 4 * 4

theorem frameSize_pos (length : ℕ) : 0 < frameSize length := by
  unfold frameSize
  omega

theorem four_dvd_frameSize (length : ℕ) : 4 ∣ frameSize length := Nat.dvd_mul_left 4 _

theorem nextOffset_eq {off length : ℕ} (h4 : 4 ∣ off) (hoff : off < 8192) (h : Accepted length) :
    nextOffset off length = (off + frameSize length) % 8192 := by
  have hlen := h.2
  have hmask : u32 (off + length + 4 + 3) &&& not32 3 = off + frameSize length := by
    rw [u32_of_lt (by omega)]
    apply (and_not32_two_pow (k := 2) (by omega) (by decide)).trans
    unfold frameSize
    omega
  have hsize : off + frameSize length < 2 * 8192 := by
    unfold frameSize
    omega
  rw [nextOffset, hmask]
  split <;> omega

/-- Where the frames of these lengths leave the cursor. -/
def cursor (lengths : List ℕ) : ℕ := (lengths.map frameSize).sum % 8192

theorem cursor_lt (ls : List ℕ) : cursor ls < 8192 := Nat.mod_lt _ (by decide)

theorem four_dvd_cursor (ls : List ℕ) : 4 ∣ cursor ls := by
  have hsum : 4 ∣ (ls.map frameSize).sum := by
    induction ls with
    | nil => exact dvd_zero 4
    | cons l ls ih =>
      rw [List.map_cons, List.sum_cons]
      exact Nat.dvd_add (four_dvd_frameSize l) ih
  exact (Nat.dvd_mod_iff (by decide)).mpr hsum

theorem cursor_concat (ls : List ℕ) (l : ℕ) :
    cursor (ls ++ [l]) = (cursor ls + frameSize l) % 8192 := by
  simp [cursor, Nat.mod_add_mod]

/-- The headers of frames of these lengths: address and value of the length field. -/
def headers (base : ℕ) (lengths : List ℕ) : List (ℕ × ℕ) :=
  (List.range lengths.length).map
    (fun k => (base + cursor (lengths.take k) + 2, lengths.getD k 0))

theorem headers_concat (base : ℕ) (ls : List ℕ) (l : ℕ) :
    headers base (ls ++ [l]) = headers base ls ++ [(base + cursor ls + 2, l)] := by
  unfold headers
  rw [List.length_append, List.length_singleton, List.range_succ, List.map_append]
  congr 1
  · apply List.map_congr_left
    intro k hk
    have hlt := List.mem_range.mp hk
    rw [List.take_append_of_le_length hlt.le, List.getD_append _ _ _ _ hlt]
  · simp

theorem mem_headers {base : ℕ} {ls : List ℕ} {f : ℕ × ℕ} : f ∈ headers base ls ↔
    ∃ pre post, ls = pre ++ f.2 :: post ∧ f.1 = base + cursor pre + 2 := by
  unfold headers
  simp only [List.mem_map, List.mem_range]
  constructor
  · rintro ⟨k, hk, rfl⟩
    refine ⟨ls.take k, ls.drop (k + 1), ?_, rfl⟩
    rw [List.getD_eq_getElem _ _ hk, ← List.drop_eq_getElem_cons hk, List.take_append_drop]
  · rintro ⟨pre, post, hls, hf⟩
    refine ⟨pre.length, by simp [hls], ?_⟩
    apply Prod.ext <;> simp [hls, hf]

/-! ## What a call records -/

/-- The accepted headers among those read. -/
def accepted (log : List (ℕ × ℕ)) : List (ℕ × ℕ) := log.filter (fun f => Accepted f.2)

def lengths (log : List (ℕ × ℕ)) : List ℕ := (accepted log).map Prod.snd

/-- The driver stands behind the frames it accepted. -/
structure Follows (d : Driver) (log : List (ℕ × ℕ)) : Prop where
  headers : accepted log = headers d.rxBuffer (lengths log)
  offset : d.rxOffset = cursor (lengths log)
  seen : d.rxPacketsSeen = u32 (lengths log).length

/-- One more accepted header. -/
def Driver.advance (d : Driver) (length : ℕ) : Driver :=
  { d with rxPacketsSeen := u32 (d.rxPacketsSeen + 1), rxOffset := nextOffset d.rxOffset length }

section
variable {d : Driver} {log : List (ℕ × ℕ)} {length addr : ℕ}

theorem lengths_accept (h : Accepted length) :
    lengths (log ++ [(addr, length)]) = lengths log ++ [length] := by
  simp [lengths, accepted, h]

theorem Follows.accept (h : Follows d log) (hlen : Accepted length) :
    Follows (d.advance length) (log ++ [(d.rxBuffer + d.rxOffset + 2, length)]) := by
  have hacc (addr : ℕ) : accepted (log ++ [(addr, length)]) = accepted log ++ [(addr, length)] := by
    simp [accepted, hlen]
  have hoff := h.offset
  constructor
  · rw [lengths_accept hlen, headers_concat, hacc, h.headers, hoff]
    rfl
  · rw [lengths_accept hlen, cursor_concat, ← hoff]
    apply nextOffset_eq _ _ hlen
    · rw [hoff]
      exact four_dvd_cursor _
    · rw [hoff]
      exact cursor_lt _
  · rw [lengths_accept hlen, List.length_append, List.length_singleton]
    change u32 (d.rxPacketsSeen + 1) = _
    rw [h.seen]
    exact Nat.mod_add_mod _ _ _

theorem Follows.reject (h : Follows d log) (hlen : ¬ Accepted length) (addr : ℕ) :
    Follows d (log ++ [(addr, length)]) := by
  have hacc : accepted (log ++ [(addr, length)]) = accepted log := by
    simp [accepted, hlen]
  constructor
  · rw [lengths, hacc]
    exact h.headers
  · rw [lengths, hacc]
    exact h.offset
  · rw [lengths, hacc]
    exact h.seen

end

variable {C : Type u} (D : Device C)

theorem drain_follows (n : ℕ) {d : Driver} {c : C × List (ℕ × ℕ)} (h : Follows d c.2) :
    Follows (drain (recorded D) n d c).1 (drain (recorded D) n d c).2.2 := by
  induction n generalizing d c with
  | zero => exact h
  | succ n ih =>
    simp only [drain]
    split
    · exact h
    · split
      · rename_i hlen
        exact h.reject hlen _
      · rename_i hlen
        exact ih (h.accept (not_not.mp hlen))

theorem rtlIrqHandler_follows {d : Driver} {c : C × List (ℕ × ℕ)} (h : Follows d c.2) :
    Follows (rtlIrqHandler (recorded D) d c).1 (rtlIrqHandler (recorded D) d c).2.2 := by
  simp only [rtlIrqHandler]
  split
  · exact drain_follows D 64 h
  · exact h

end ShadOS.Rtl8139

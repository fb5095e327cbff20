import ShadOS.Machine.Tiling
import Mathlib.Algebra.GroupWithZero.Nat

/-! # How much a tiling has left

The headers and the payloads fill the region. No two neighbours are free, so the
free blocks are at most one more than the live ones, and one of them is at least
as large as their average.
-/

namespace ShadOS.Machine

def holes (bs : List Block) : List Block := bs.filter (fun b => b.free)

def totalSize (bs : List Block) : ℕ := (bs.map Block.size).sum

variable {b d : Block} {bs cs : List Block} {n a e : ℕ}

@[simp] theorem totalSize_nil : totalSize [] = 0 := rfl

@[simp] theorem totalSize_cons (b : Block) (bs : List Block) : totalSize (b :: bs) = b.size + totalSize bs :=
  List.sum_cons

theorem holes_cons_of_free (h : b.free = true) (bs : List Block) : holes (b :: bs) = b :: holes bs :=
  List.filter_cons_of_pos h

theorem holes_cons_of_live (h : b.free = false) (bs : List Block) : holes (b :: bs) = holes bs :=
  List.filter_cons_of_neg (by simp [h])

theorem live_cons_of_live (h : b.free = false) (bs : List Block) : live (b :: bs) = b :: live bs :=
  List.filter_cons_of_pos (by simp [h])

theorem live_cons_of_free (h : b.free = true) (bs : List Block) : live (b :: bs) = live bs :=
  List.filter_cons_of_neg (by simp [h])

theorem totalSize_split (bs : List Block) : totalSize (live bs) + totalSize (holes bs) = totalSize bs := by
  induction bs with
  | nil => rfl
  | cons b bs ih =>
    cases h : b.free with
    | true =>
      simp only [live_cons_of_free h, holes_cons_of_free h, totalSize_cons]
      omega
    | false =>
      simp only [live_cons_of_live h, holes_cons_of_live h, totalSize_cons]
      omega

theorem length_split (bs : List Block) : (live bs).length + (holes bs).length = bs.length := by
  induction bs with
  | nil => rfl
  | cons b bs ih =>
    cases h : b.free with
    | true =>
      simp only [live_cons_of_free h, holes_cons_of_free h, List.length_cons]
      omega
    | false =>
      simp only [live_cons_of_live h, holes_cons_of_live h, List.length_cons]
      omega

/-- Between two free blocks there is a live one. -/
theorem Coalesced.holes_le (h : Coalesced bs) : (holes bs).length ≤ (live bs).length + 1 := by
  have hhead : (holes bs).length ≤ (live bs).length + if (bs.head?.any Block.free) then 1 else 0 := by
    induction bs with
    | nil => simp [holes]
    | cons b bs ih =>
      have htail := ih (List.IsChain.tail h)
      cases hb : b.free with
      | false =>
        simp only [live_cons_of_live hb, holes_cons_of_live hb, List.length_cons, List.head?_cons,
          Option.any_some, hb]
        split_ifs at htail
        · omega
        · omega
      | true =>
        have hnext : bs.head?.any Block.free = false := by
          cases bs with
          | nil => rfl
          | cons c bs =>
            rw [Coalesced, List.isChain_cons_cons] at h
            simpa [hb] using h.1
        rw [hnext] at htail
        simpa [live_cons_of_free hb, holes_cons_of_free hb, hb] using htail
  split at hhead
  · exact hhead
  · omega

/-- One of the blocks has at least the average size. -/
theorem totalSize_le_of_lt (h : ∀ b ∈ bs, b.size < n) : totalSize bs ≤ bs.length * (n - 1) := by
  induction bs with
  | nil => simp
  | cons b bs ih =>
    have hb := h b List.mem_cons_self
    have hbs := ih (fun c hc => h c (List.mem_cons_of_mem b hc))
    rw [totalSize_cons, List.length_cons, Nat.succ_mul]
    omega

namespace Geometry
variable {G : Geometry}

/-- Each byte of the region is a byte of a header or of a payload. -/
theorem Tiles.totalSize_eq (h : G.Tiles a bs e) : a + G.header * bs.length + totalSize bs = e := by
  induction bs generalizing a with
  | nil => exact h
  | cons b bs ih =>
    obtain ⟨rfl, hrest⟩ := h
    have hbs := ih hrest
    rw [stop] at hbs
    rw [totalSize_cons, List.length_cons, Nat.mul_succ]
    omega

/-- A block is cut unless too little would be left of it. -/
theorem taken_slack (n : ℕ) (b : Block) : (G.taken n b).size < n + (G.header + G.minData) := by
  have hheader := G.header_pos
  rw [taken]
  dsimp only
  split <;> omega

end Geometry
end ShadOS.Machine

import ShadOS.Rtl8139.Init
import ShadOS.Heap.Requests

/-! # The buffers of the card

`rtl8139_init` asks for both buffers before it looks at either pointer, and frees
nothing. When it fails for want of memory, a buffer it was given stays taken.
-/

namespace ShadOS.Rtl8139
open Machine Pci
open Heap (HeapVars HeapOk heapC geometry pointer pointer_eq_zero alignUp alignment)

universe u

/-- Free blocks that hold both buffers, or neither. -/
def BufferRoom (frees : List Block) : Prop :=
  (∀ b ∈ frees, b.size < 1600) ∨
    ∃ d ∈ frees, 9712 ≤ d.size ∧ (11324 ≤ d.size ∨ ∃ e ∈ frees, e ≠ d ∧ 1600 ≤ e.size)

variable {C : Type u} {bs cs : List Block} {K : Platform C HeapVars}

theorem alignUp_rxBufSize : alignUp rxBufSize alignment = 9712 := by decide

theorem alignUp_txBufSize : alignUp txBufSize alignment = 1600 := by decide

/-- The blocks after the call, and its result. -/
theorem rtl8139Init_blocks (P : Ports C) (handler : ℕ) (hok : HeapOk K.heap K.mem bs) :
    ∃ code K' cs, rtl8139Init P heapC handler K = some (code, K') ∧ K'.heap = K.heap ∧
      HeapOk K.heap K'.mem cs ∧ ((code = 0 → cs = bs) ↔
        (pciFindDevice rtlVendorId rtlDeviceId K.config).1 = none ∨
          Geometry.AllOrNone (geometry.requests [9712, 1600] bs).1) := by
  cases hfind : (pciFindDevice rtlVendorId rtlDeviceId K.config).1 with
  | none =>
    obtain ⟨K', hrun, hheap, hmem⟩ : ∃ K', rtl8139Init P heapC handler K = some (0, K') ∧
      K'.heap = K.heap ∧ K'.mem = K.mem := rtl8139Init_absent hfind
    exact ⟨0, K', bs, hrun, hheap, hmem ▸ hok, iff_of_true (fun _ => rfl) (.inl rfl)⟩
  | some p =>
    obtain ⟨m₁, hrx, hok₁⟩ := hok.kmalloc_request (n := rxBufSize) (by decide)
    rw [alignUp_rxBufSize] at hrx hok₁
    obtain ⟨m₂, htx, hok₂⟩ := hok₁.kmalloc_request (n := txBufSize) (by decide)
    rw [alignUp_txBufSize] at htx hok₂
    obtain ⟨K', hrun, hheap, hmem⟩ : ∃ K', rtl8139Init P heapC handler K = some (_, K') ∧
      K'.heap = K.heap ∧ K'.mem = m₂ := rtl8139Init_found hfind hrx htx
    refine ⟨_, K', _, hrun, hheap, hmem ▸ hok₂, ?_⟩
    have hrs : (geometry.requests [9712, 1600] bs).1 = [(geometry.request 9712 bs).1,
      (geometry.request 1600 (geometry.request 9712 bs).2).1] := rfl
    simp only [pointer_eq_zero, reduceCtorEq, false_or]
    split_ifs with hnull
    · have hnone : none ∈ (geometry.requests [9712, 1600] bs).1 := by
        rw [hrs]
        simpa [eq_comm] using hnull
      rw [← Geometry.requests_kept_iff hok.tiles hnone]
      exact ⟨fun h => h rfl, fun h _ => h⟩
    · refine iff_of_true (fun h => h.elim) (.inr ?_)
      rw [hrs]
      simpa using hnull

theorem allOrNone_iff_bufferRoom {a e : ℕ} (ht : geometry.Tiles a bs e) :
    Geometry.AllOrNone (geometry.requests [9712, 1600] bs).1 ↔
      BufferRoom (bs.filter (fun b => b.free)) := by
  unfold BufferRoom
  simp only [List.mem_filter, and_assoc, and_imp]
  cases hd : geometry.firstFit 9712 bs with
  | none =>
    have hno := Geometry.firstFit_none.mp hd
    rw [Geometry.allOrNone_of_none hd, Geometry.refused_singleton, Geometry.not_fits]
    refine (or_iff_left ?_).symm
    rintro ⟨d, hdbs, hdf, hdsize, -⟩
    have := hno d hdbs hdf
    omega
  | some r =>
    obtain ⟨d, cs⟩ := r
    have hheader : geometry.header = 12 := rfl
    obtain ⟨pre, post, hbs, -, hdf, hdsize, -⟩ := Geometry.firstFit_some hd
    have hdbs : d ∈ bs := hbs ▸ by simp
    rw [Geometry.allOrNone_of_some hd, Geometry.serves_singleton,
      Geometry.fits_after ht hd (by decide) (by decide), hheader]
    constructor
    · rintro (⟨c, hc, hcf, hcd, hcsize⟩ | hroom)
      · exact .inr ⟨d, hdbs, hdf, hdsize, .inr ⟨c, hc, hcf, hcd, hcsize⟩⟩
      · exact .inr ⟨d, hdbs, hdf, hdsize, .inl (by omega)⟩
    · rintro (hsmall | ⟨c, hc, hcf, hcsize, hroom⟩)
      · have := hsmall d hdbs hdf
        omega
      · by_cases hcd : c = d
        · subst hcd
          rcases hroom with hroom | hother
          · exact .inr (by omega)
          · exact .inl hother
        · -- the block that is not first has room for the other buffer
          exact .inl ⟨c, hc, hcf, hcd, by omega⟩

end ShadOS.Rtl8139

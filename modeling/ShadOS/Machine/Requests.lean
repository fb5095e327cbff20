import ShadOS.Machine.Tiling

/-! # Several requests in a row

A caller that asks for several blocks before it looks at any answer may be given
some and refused others. The blocks are unchanged exactly when it was refused all
of them. What it was given is new, and giving it all back restores the live blocks.
-/

namespace ShadOS.Machine.Geometry
variable (G : Geometry)

/-- The block a request is given, if any, and the blocks after it. -/
def request (n : ℕ) (bs : List Block) : Option Block × List Block :=
  match G.firstFit n bs with
  | none => (none, bs)
  | some (d, cs) => (some (G.taken n d), cs)

/-- The answers to requests made one after another, and the blocks after them. -/
def requests : List ℕ → List Block → List (Option Block) × List Block
  | [], bs => ([], bs)
  | n :: ns, bs =>
    ((G.request n bs).1 :: (requests ns (G.request n bs).2).1,
      (requests ns (G.request n bs).2).2)

/-- Every block given is marked free again. -/
def releaseAll (ds : List Block) (bs : List Block) : List Block :=
  ds.foldl (fun bs d => G.release d.addr bs) bs

variable {G} {a e n k : ℕ} {ns : List ℕ} {b c d : Block} {bs cs ds : List Block}

theorem request_of_none (h : G.firstFit n bs = none) : G.request n bs = (none, bs) := by
  rw [request, h]

theorem request_of_some (h : G.firstFit n bs = some (d, cs)) :
    G.request n bs = (some (G.taken n d), cs) := by
  rw [request, h]

theorem Fits.served (h : Fits n bs) : ∃ d cs, G.firstFit n bs = some (d, cs) := by
  obtain ⟨r, hr⟩ := Option.ne_none_iff_exists'.mp fun hno => firstFit_eq_none.mp hno h
  exact ⟨r.1, r.2, hr⟩

theorem request_eq_none : (G.request n bs).1 = none ↔ ¬ Fits n bs := by
  rw [← firstFit_eq_none (G := G)]
  cases h : G.firstFit n bs with
  | none => simp [request_of_none h]
  | some r => simp [request_of_some h]

theorem request_tiles (ht : G.Tiles a bs e) : G.Tiles a (G.request n bs).2 e := by
  cases h : G.firstFit n bs with
  | none => rwa [request_of_none h]
  | some r =>
    rw [request_of_some h]
    exact firstFit_tiles ht h

/-- A block given was not live before. -/
theorem request_new (ht : G.Tiles a bs e) (h : (G.request n bs).1 = some c) : c ∉ live bs := by
  cases hf : G.firstFit n bs with
  | none =>
    rw [request_of_none hf] at h
    cases h
  | some r =>
    obtain ⟨d, cs⟩ := r
    rw [request_of_some hf] at h
    obtain rfl := Option.some.inj h
    exact taken_not_live ht hf

theorem request_size (h : (G.request n bs).1 = some c) : n ≤ c.size := by
  cases hf : G.firstFit n bs with
  | none =>
    rw [request_of_none hf] at h
    cases h
  | some r =>
    obtain ⟨-, -, -, -, -, hfit, -⟩ := firstFit_some hf
    rw [request_of_some hf] at h
    obtain rfl := Option.some.inj h
    exact taken_size hfit

theorem request_live : c ∈ live (G.request n bs).2 ↔ c ∈ live bs ∨ (G.request n bs).1 = some c := by
  cases h : G.firstFit n bs with
  | none => simp [request_of_none h]
  | some r =>
    rw [request_of_some h, firstFit_live h, Option.some_inj, eq_comm (a := c)]

/-- The live blocks afterwards are those before and those given. -/
theorem requests_live : c ∈ live (G.requests ns bs).2 ↔
    c ∈ live bs ∨ some c ∈ (G.requests ns bs).1 := by
  induction ns generalizing bs with
  | nil => simp [requests]
  | cons n ns ih =>
    rw [requests, ih, request_live, List.mem_cons, or_assoc, eq_comm (a := some c)]

theorem requests_new (ht : G.Tiles a bs e) (h : some c ∈ (G.requests ns bs).1) : c ∉ live bs := by
  induction ns generalizing bs with
  | nil => simp [requests] at h
  | cons n ns ih =>
    rw [requests, List.mem_cons] at h
    rcases h with h | h
    · exact request_new ht h.symm
    · exact fun hlive => ih (request_tiles ht) h (request_live.mpr (.inl hlive))

theorem requests_tiles (ht : G.Tiles a bs e) : G.Tiles a (G.requests ns bs).2 e := by
  induction ns generalizing bs with
  | nil => exact ht
  | cons n ns ih => exact ih (request_tiles ht)

/-- The blocks given are different ones. -/
theorem requests_nodup (ht : G.Tiles a bs e) (h : (G.requests ns bs).1 = ds.map some) :
    ds.Nodup := by
  induction ns generalizing bs ds with
  | nil =>
    obtain rfl : ds = [] := by simpa [requests] using h.symm
    exact List.nodup_nil
  | cons n ns ih =>
    cases ds with
    | nil => exact List.nodup_nil
    | cons d ds =>
      obtain ⟨hd, hds⟩ := List.cons.inj h
      refine List.nodup_cons.mpr ⟨fun hmem => ?_, ih (request_tiles ht) hds⟩
      have hgiven : some d ∈ (G.requests ns (G.request n bs).2).1 :=
        hds ▸ List.mem_map_of_mem hmem
      exact requests_new (request_tiles ht) hgiven (request_live.mpr (.inr hd))

/-- A block given has room for what was asked. -/
theorem requests_size (h : (G.requests ns bs).1 = ds.map some) :
    List.Forall₂ (fun n d => n ≤ d.size) ns ds := by
  induction ns generalizing bs ds with
  | nil =>
    obtain rfl : ds = [] := by simpa [requests] using h.symm
    exact .nil
  | cons n ns ih =>
    cases ds with
    | nil => cases h
    | cons d ds =>
      obtain ⟨hd, hds⟩ := List.cons.inj h
      exact .cons (request_size hd) (ih hds)

/-- Only a caller that was refused everything leaves the blocks as they were. -/
theorem requests_unchanged_iff (ht : G.Tiles a bs e) :
    (G.requests ns bs).2 = bs ↔ ∀ r ∈ (G.requests ns bs).1, r = none := by
  constructor
  · intro heq r hr
    cases r with
    | none => rfl
    | some c => exact absurd (heq ▸ requests_live.mpr (.inr hr)) (requests_new ht hr)
  · intro hall
    induction ns generalizing bs with
    | nil => rfl
    | cons n ns ih =>
      rw [requests, List.forall_mem_cons] at hall
      have hsame : (G.request n bs).2 = bs := by
        rw [request_of_none (firstFit_eq_none.mpr (request_eq_none.mp hall.1))]
      rw [requests, hsame]
      rw [hsame] at hall
      exact ih ht hall.2

theorem live_releaseAll : c ∈ live (G.releaseAll ds bs) ↔
    c ∈ live bs ∧ ∀ d ∈ ds, c.addr ≠ d.addr := by
  induction ds generalizing bs with
  | nil => simp [releaseAll]
  | cons d ds ih =>
    have hstep : G.releaseAll (d :: ds) bs = G.releaseAll ds (G.release d.addr bs) := rfl
    rw [hstep, ih, live_release, List.mem_filter, List.forall_mem_cons, and_assoc,
      decide_eq_true_eq]

/-- Giving back all that was given leaves the old live blocks. -/
theorem releaseAll_live (ht : G.Tiles a bs e) (hgiven : ∀ d, d ∈ ds ↔ some d ∈ (G.requests ns bs).1)
    (c : Block) : c ∈ live (G.releaseAll ds (G.requests ns bs).2) ↔ c ∈ live bs := by
  have htiles : G.Tiles a (G.requests ns bs).2 e := requests_tiles ht
  rw [live_releaseAll, requests_live, ← hgiven]
  constructor
  · rintro ⟨hc | hc, hne⟩
    · exact hc
    · exact absurd rfl (hne c hc)
  · intro hc
    refine ⟨.inl hc, fun d hd haddr => ?_⟩
    have hlive : d ∈ live (G.requests ns bs).2 := requests_live.mpr (.inr ((hgiven d).mp hd))
    have hkept : c ∈ live (G.requests ns bs).2 := requests_live.mpr (.inl hc)
    have hcd : c = d := htiles.eq_of_addr (mem_live.mp hkept).1 (mem_live.mp hlive).1 haddr
    exact requests_new ht ((hgiven d).mp hd) (hcd ▸ hc)

/-! ## Room for the next request -/

/-- The first fit is the first free block with room. -/
theorem firstFit_find (n : ℕ) (bs : List Block) : (G.firstFit n bs).map Prod.fst =
    (bs.filter (fun b => b.free)).find? (fun b => n ≤ b.size) := by
  induction bs with
  | nil => rfl
  | cons b bs ih =>
    rw [firstFit]
    by_cases hb : b.free = true
    · rw [List.filter_cons_of_pos hb, List.find?_cons]
      by_cases hn : n ≤ b.size
      · simp [hb, hn]
      · simp [hn, ← ih, Option.map_map, Function.comp_def]
    · rw [List.filter_cons_of_neg hb, if_neg (fun h => hb h.1), ← ih]
      simp [Option.map_map, Function.comp_def]

/-- What is left of a block has room for a further request that is worth a block of its own. -/
theorem fits_after (ht : G.Tiles a bs e) (h : G.firstFit n bs = some (d, cs)) (hk : 0 < k)
    (hmin : G.minData ≤ k) : Fits k cs ↔
      (∃ c ∈ bs, c.free = true ∧ c ≠ d ∧ k ≤ c.size) ∨ n + G.header + k ≤ d.size := by
  rw [fits_firstFit ht h]
  unfold Cut
  constructor
  · rintro (hother | ⟨-, hrest⟩)
    · exact .inl hother
    · exact .inr (by omega)
  · rintro (hother | hrest)
    · exact .inl hother
    · exact .inr ⟨by omega, by omega⟩

/-- A second block was free before the first request, or is what that one left over. -/
theorem firstFit_second {f : Block} {es : List Block} (ht : G.Tiles a bs e)
    (hd : G.firstFit n bs = some (d, cs)) (hf : G.firstFit k cs = some (f, es)) :
    f.free = true ∧ k ≤ f.size ∧ (f ∈ bs ∧ f ≠ d ∨ G.Cut n d ∧ f = G.rest n d) := by
  obtain ⟨pre, post, hcs, -, hffree, hfsize, -⟩ := firstFit_some hf
  have hfcs : f ∈ cs := hcs ▸ by simp
  rcases (mem_free_firstFit ht hd f).mp ⟨hfcs, hffree⟩ with ⟨hfbs, -, hne⟩ | hrest
  · exact ⟨hffree, hfsize, .inl ⟨hfbs, hne⟩⟩
  · exact ⟨hffree, hfsize, .inr hrest⟩

/-- The second block was left over from the first one. -/
theorem fits_after_rest {j : ℕ} {es : List Block} (ht : G.Tiles a bs e)
    (hd : G.firstFit n bs = some (d, cs)) (hf : G.firstFit k cs = some (G.rest n d, es))
    (hcut : G.Cut n d) (hj : 0 < j) (hmin : G.minData ≤ j) : Fits j es ↔
      (∃ c ∈ bs, c.free = true ∧ c ≠ d ∧ j ≤ c.size) ∨
        n + G.header + (k + G.header) + j ≤ d.size := by
  obtain ⟨pre, post, hbs, -, -, -, -⟩ := firstFit_some hd
  have hsize : (G.rest n d).size = d.size - n - G.header := rfl
  rw [fits_after (firstFit_tiles ht hd) hf hj hmin, hsize]
  refine or_congr ⟨?_, ?_⟩ (by omega)
  · rintro ⟨c, hc, hcf, hne, hcj⟩
    rcases (mem_free_firstFit ht hd c).mp ⟨hc, hcf⟩ with ⟨hc, hcf, hcd⟩ | ⟨-, hrest⟩
    · exact ⟨c, hc, hcf, hcd, hcj⟩
    · exact absurd hrest hne
  · rintro ⟨c, hc, hcf, hcd, hcj⟩
    have hcs := (mem_free_firstFit ht hd c).mpr (.inl ⟨hc, hcf, hcd⟩)
    refine ⟨c, hcs.1, hcs.2, fun hrest => ?_, hcj⟩
    exact rest_not_mem ht (hbs ▸ by simp) hcut (hrest ▸ hc)

/-- The second block was free before the first request. -/
theorem fits_after_other {j : ℕ} {f : Block} {es : List Block} (ht : G.Tiles a bs e)
    (hd : G.firstFit n bs = some (d, cs)) (hf : G.firstFit k cs = some (f, es)) (hfbs : f ∈ bs)
    (hj : 0 < j) (hmin : G.minData ≤ j) : Fits j es ↔
      (∃ c ∈ bs, c.free = true ∧ c ≠ d ∧ c ≠ f ∧ j ≤ c.size) ∨
        n + G.header + j ≤ d.size ∨ k + G.header + j ≤ f.size := by
  obtain ⟨pre, post, hbs, -, -, -, -⟩ := firstFit_some hd
  rw [fits_after (firstFit_tiles ht hd) hf hj hmin, ← or_assoc]
  refine or_congr_left ⟨?_, ?_⟩
  · rintro ⟨c, hc, hcf, hne, hcj⟩
    rcases (mem_free_firstFit ht hd c).mp ⟨hc, hcf⟩ with ⟨hc, hcf, hcd⟩ | ⟨hcut, rfl⟩
    · exact .inl ⟨c, hc, hcf, hcd, hne, hcj⟩
    · have hsize : (G.rest n d).size = d.size - n - G.header := rfl
      exact .inr (by omega)
  · rintro (⟨c, hc, hcf, hcd, hne, hcj⟩ | hroom)
    · have hcs := (mem_free_firstFit ht hd c).mpr (.inl ⟨hc, hcf, hcd⟩)
      exact ⟨c, hcs.1, hcs.2, hne, hcj⟩
    · have hcut : G.Cut n d := by unfold Cut; omega
      have hcs := (mem_free_firstFit ht hd (G.rest n d)).mpr (.inr ⟨hcut, rfl⟩)
      refine ⟨G.rest n d, hcs.1, hcs.2, fun hrest => ?_, ?_⟩
      · exact rest_not_mem ht (hbs ▸ by simp) hcut (hrest ▸ hfbs)
      · have hsize : (G.rest n d).size = d.size - n - G.header := rfl
        omega

/-! ## All or none -/

/-- The caller was given every block it asked for, or none of them. -/
def AllOrNone (rs : List (Option Block)) : Prop := (∀ r ∈ rs, r = none) ∨ ∀ r ∈ rs, r ≠ none

/-- Every request is served. -/
def Serves (G : Geometry) (ns : List ℕ) (bs : List Block) : Prop :=
  ∀ r ∈ (G.requests ns bs).1, r ≠ none

theorem serves_nil : G.Serves [] bs := by
  simp [Serves, requests]

theorem serves_cons : G.Serves (n :: ns) bs ↔
    ∃ d cs, G.firstFit n bs = some (d, cs) ∧ G.Serves ns cs := by
  rw [Serves, requests, List.forall_mem_cons]
  cases h : G.firstFit n bs with
  | none => simp [request_of_none h]
  | some r =>
    obtain ⟨d, cs⟩ := r
    rw [request_of_some h]
    constructor
    · exact fun hserves => ⟨d, cs, rfl, hserves.2⟩
    · rintro ⟨d, cs, heq, hserves⟩
      cases heq
      exact ⟨Option.some_ne_none _, hserves⟩

/-- A last request is served when a free block has room for it. -/
theorem serves_singleton : G.Serves [n] bs ↔ Fits n bs := by
  rw [serves_cons]
  constructor
  · rintro ⟨d, cs, h, -⟩
    by_contra hno
    rw [firstFit_eq_none.mpr hno] at h
    cases h
  · intro hfits
    obtain ⟨d, cs, h⟩ := hfits.served
    exact ⟨d, cs, h, serves_nil⟩

theorem requests_refused (h : ∀ n ∈ ns, ¬ Fits n bs) : ∀ r ∈ (G.requests ns bs).1, r = none := by
  induction ns with
  | nil => simp [requests]
  | cons n ns ih =>
    obtain ⟨hn, hns⟩ := List.forall_mem_cons.mp h
    rw [requests, request_of_none (firstFit_eq_none.mpr hn), List.forall_mem_cons]
    exact ⟨rfl, ih hns⟩

theorem refused_singleton : (∀ r ∈ (G.requests [n] bs).1, r = none) ↔ ¬ Fits n bs := by
  rw [requests, List.forall_mem_cons, request_eq_none]
  simp [requests]

theorem not_fits : ¬ Fits n bs ↔ ∀ b ∈ bs, b.free = true → b.size < n := by
  simp [Fits]

theorem allOrNone_of_refused {rs : List (Option Block)} (h : none ∈ rs) :
    AllOrNone rs ↔ ∀ r ∈ rs, r = none :=
  or_iff_left fun hall => hall none h rfl

/-- A caller that was refused one block has changed nothing if it was refused all. -/
theorem requests_kept_iff (ht : G.Tiles a bs e) (h : none ∈ (G.requests ns bs).1) :
    (G.requests ns bs).2 = bs ↔ AllOrNone (G.requests ns bs).1 := by
  rw [allOrNone_of_refused h]
  exact requests_unchanged_iff ht

theorem allOrNone_of_none (h : G.firstFit n bs = none) :
    AllOrNone (G.requests (n :: ns) bs).1 ↔ ∀ r ∈ (G.requests ns bs).1, r = none := by
  rw [requests, request_of_none h, AllOrNone]
  simp

theorem allOrNone_of_some (h : G.firstFit n bs = some (d, cs)) :
    AllOrNone (G.requests (n :: ns) bs).1 ↔ G.Serves ns cs := by
  rw [requests, request_of_some h, AllOrNone]
  simp [Serves]

end ShadOS.Machine.Geometry

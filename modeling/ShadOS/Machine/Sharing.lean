import ShadOS.Machine.Allocator

/-! # An allocator shared by two clients

For one client the blocks of the other are memory that the allocator does not
own: nothing is handed out there, and nothing written. Each client can be
verified as if it were alone, against an invariant that hides the other.
-/

namespace ShadOS.Machine.Allocator

universe u
variable {H : Type u} {A : Allocator H}

/-! ## A keeping allocator -/

section keeping
variable {I : H → Mem → Set Span → Set Span → Prop} {clear : Span → Span → Prop}

/-- The blocks `B` are another client's, with the bytes they have in `c`. -/
structure Beside (I : H → Mem → Set Span → Set Span → Prop) (B : Set Span) (c : Mem) (h : H) (m : Mem)
    (L W : Set Span) : Prop where
  sub : L ⊆ W
  other : ∀ b ∈ B, b ∉ W
  bytes : Keeps B c m
  all : I h m (L ∪ B) (W ∪ B)

/-- What a client of the allocator may rely on, it may rely on beside another client. -/
theorem Keeping.beside (hA : A.Keeping I clear) (B : Set Span) (c : Mem) :
    A.Keeping (Beside I B c) clear where
  live_sub hI := hI.sub
  bounds hI hs := hA.bounds hI.all (.inl hs)
  apart hI := (hA.apart hI.all).mono Set.subset_union_left
  kmalloc := by
    intro h m L W n hI hn hn'
    obtain ⟨p, h', m', hrun, hnull, hsome⟩ := hA.kmalloc hI.all hn hn'
    refine ⟨p, h', m', hrun, fun h0 => ?_, fun h0 hclear => ?_⟩
    · obtain ⟨hI', hk⟩ := hnull h0
      exact ⟨⟨hI.sub, hI.other, hI.bytes.trans (hk.mono Set.subset_union_right), hI'⟩,
        hk.mono Set.subset_union_left⟩
    · obtain ⟨hI', hk, hnew⟩ := hsome h0 (fun w hw => by
        cases hw with
        | inl hw => exact (hclear w hw).imp_left .inl
        | inr hw => exact .inl (.inr hw))
      refine ⟨⟨Set.insert_subset_insert hI.sub, fun b hb hbW => ?_,
        hI.bytes.trans (hk.mono Set.subset_union_right), ?_⟩, hk.mono Set.subset_union_left,
        fun hm => hnew (.inl hm)⟩
      · cases hbW with
        | inl he => exact hnew (.inr (he ▸ hb))
        | inr hbW => exact hI.other b hb hbW
      · rw [Set.insert_union, Set.insert_union]
        exact hI'
  kfree := by
    intro h m L W s hI hs
    have hsB : s ∉ B := fun hsB => hI.other s hsB (hI.sub hs)
    obtain ⟨h', m', hrun, hI', hk⟩ := hA.kfree hI.all (.inl hs)
    rw [Set.union_sdiff_distrib, Set.sdiff_singleton_eq_self hsB] at hI'
    exact ⟨h', m', hrun, ⟨Set.sdiff_subset.trans hI.sub, hI.other,
      hI.bytes.trans (hk.mono Set.subset_union_right), hI'⟩, hk.mono Set.subset_union_left⟩
  store := by
    intro h m L W m' hI hm
    refine ⟨hI.sub, hI.other, hI.bytes.trans (fun b hb x hx => ?_), hA.store hI.all (fun x hx => ?_)⟩
    · by_contra hne
      obtain ⟨s, hs, hsx⟩ := hm x hne
      have hsb : s ≠ b := by
        rintro rfl
        exact hI.other s hb (hI.sub hs)
      exact (hA.apart hI.all (.inl (hI.sub hs)) (.inr hb) hsb).not_has hsx hx
    · obtain ⟨s, hs, hsx⟩ := hm x hx
      exact ⟨s, .inl hs, hsx⟩
  forget hI hLV hVW :=
    ⟨hLV, fun b hb hbV => hI.other b hb (hVW hbV), hI.bytes,
      hA.forget hI.all (Set.union_subset_union_left _ hLV) (Set.union_subset_union_left _ hVW)⟩

end keeping

/-! ## A lawful allocator -/

section lawful
variable {I : H → Mem → Set Span → Prop} {region : Set ℕ} {ok : ℕ → Prop} {B : Set Span} {x : ℕ}

/-- The region without the blocks `B` of another client. -/
def around (region : Set ℕ) (B : Set Span) : Set ℕ := {x | x ∈ region ∧ ∀ b ∈ B, ¬ b.Has x}

theorem notMem_around : x ∉ around region B ↔ x ∉ region ∨ ∃ b ∈ B, b.Has x := by
  rw [around, Set.mem_ofPred_eq, not_and_or]
  simp

/-- The blocks `B` are another client's. -/
structure Around (I : H → Mem → Set Span → Prop) (B : Set Span) (h : H) (m : Mem) (L : Set Span) :
    Prop where
  other : ∀ b ∈ B, b ∉ L
  all : I h m (L ∪ B)

/-- For the one client the region ends where the blocks of the other begin. -/
theorem Lawful.around (hA : A.Lawful I region ok) (B : Set Span) :
    A.Lawful (Around I B) (around region B) ok where
  size_pos hI hs := hA.size_pos hI.all (.inl hs)
  apart hI := (hA.apart hI.all).mono Set.subset_union_left
  inside := by
    intro h m L s x hI hs hx
    refine ⟨hA.inside hI.all (.inl hs) hx, fun b hb hbx => ?_⟩
    have hsb : s ≠ b := by
      rintro rfl
      exact hI.other s hb hs
    exact (hA.apart hI.all (.inl hs) (.inr hb) hsb).not_has hx hbx
  serves := by
    intro h m L src n hI hr
    refine hA.serves hI.all ⟨hr.1, fun x hx hx' => ?_⟩
    rcases hr.2 x hx hx' with hout | ⟨s, hs, hsx⟩
    · exact (notMem_around.mp hout).imp_right (fun ⟨b, hb, hbx⟩ => ⟨b, .inr hb, hbx⟩)
    · exact .inr ⟨s, .inl hs, hsx⟩
  kmalloc := by
    intro h m L n hI hn hok
    obtain ⟨p, h', m', hrun, hk, hout, hcases⟩ := hA.kmalloc hI.all hn hok
    refine ⟨p, h', m', hrun, hk.mono Set.subset_union_left, fun x hx => ?_, ?_⟩
    · rcases notMem_around.mp hx with hx | ⟨b, hb, hbx⟩
      · exact hout x hx
      · exact hk b (.inr hb) x hbx
    · rcases hcases with ⟨h0, hI'⟩ | ⟨h0, hap, hI'⟩
      · exact .inl ⟨h0, hI.other, hI'⟩
      · refine .inr ⟨h0, fun s hs => hap s (.inl hs), fun b hb hbL => ?_, ?_⟩
        · cases hbL with
          | inl he =>
          subst he
          exact (hap _ (.inr hb)).not_self hn
          | inr hbL => exact hI.other b hb hbL
        · rwa [Set.insert_union]
  kfree := by
    intro h m L s hI hs
    have hsB : s ∉ B := fun hsB => hI.other s hsB hs
    obtain ⟨h', m', hrun, hk, hout, hI'⟩ := hA.kfree hI.all (.inl hs)
    rw [Set.union_sdiff_distrib, Set.sdiff_singleton_eq_self hsB] at hk hI'
    refine ⟨h', m', hrun, hk.mono Set.subset_union_left, fun x hx => ?_,
      fun b hb hbL => hI.other b hb hbL.1, hI'⟩
    rcases notMem_around.mp hx with hx | ⟨b, hb, hbx⟩
    · exact hout x hx
    · exact hk b (.inr hb) x hbx
  store := by
    intro h m L m' hI hm
    refine ⟨hI.other, hA.store hI.all (fun x hx => ?_)⟩
    rcases hm x hx with hout | ⟨s, hs, hsx⟩
    · exact (notMem_around.mp hout).imp_right (fun ⟨b, hb, hbx⟩ => ⟨b, .inr hb, hbx⟩)
    · exact .inr ⟨s, .inl hs, hsx⟩

end lawful
end ShadOS.Machine.Allocator

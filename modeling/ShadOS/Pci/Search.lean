import ShadOS.Pci.Source
import Mathlib.Tactic.Push

/-! # The search of the configuration space

An address holds bus, slot, function and register in fields of their own, so
different functions never meet. The search reads the identifiers of every
function in turn and stops at the first match.
-/

namespace ShadOS.Pci
open Machine

/-- A place in the configuration space. -/
abbrev Place := ℕ × ℕ × ℕ

/-- Bus, slot and function in their ranges. -/
def InRange (p : Place) : Prop := p.1 < 256 ∧ p.2.1 < 32 ∧ p.2.2 < 8

/-- The search comes to `p` before it comes to `q`. -/
def Before (p q : Place) : Prop :=
  p.1 < q.1 ∨ p.1 = q.1 ∧ (p.2.1 < q.2.1 ∨ p.2.1 = q.2.1 ∧ p.2.2 < q.2.2)

/-- What the register at `offset` of a function holds. -/
def Config.register (c : Config) (p : Place) (offset : ℕ) : ℕ :=
  u32 (c.data (u32 (pciMakeAddress p.1 p.2.1 p.2.2 offset)))

/-- Register 0 holds the two identifiers. -/
def Identifies (c : Config) (vendor device : ℕ) (p : Place) : Prop :=
  c.register p 0 % 2 ^ 16 = vendor ∧ c.register p 0 / 2 ^ 16 = device

instance (c : Config) (vendor device : ℕ) (p : Place) : Decidable (Identifies c vendor device p) :=
  inferInstanceAs (Decidable (_ ∧ _))

/-- The fields of an address: bus, slot, function and register. -/
def decodeAddress (a : ℕ) : Place × ℕ :=
  ((a / 2 ^ 16 % 2 ^ 8, a / 2 ^ 11 % 2 ^ 5, a / 2 ^ 8 % 2 ^ 3), a % 2 ^ 8)

variable {c : Config} {bus slot func offset v vendor device : ℕ} {p q : Place}

/-! ## Addresses -/

theorem and_0xFC (h : offset < 256) : offset &&& 0xFC = offset / 4 * 4 := by
  have hhigh : (offset &&& 0xFC) / 2 ^ 2 = offset / 4 := by
    rw [Nat.and_div_two_pow]
    exact (Nat.and_two_pow_sub_one_eq_mod _ 6).trans (Nat.mod_eq_of_lt (by omega))
  have hlow : (offset &&& 0xFC) % 2 ^ 2 = 0 := by
    rw [Nat.and_mod_two_pow]
    exact Nat.and_zero _
  omega

/-- The fields do not overlap, so the address is their sum. -/
theorem pciMakeAddress_eq (hb : bus < 256) (hs : slot < 32) (hf : func < 8) (ho : offset < 256) :
    pciMakeAddress bus slot func offset =
      2 ^ 31 + bus * 2 ^ 16 + slot * 2 ^ 11 + func * 2 ^ 8 + offset / 4 * 4 := by
  have hor {i x y : ℕ} (hy : y < 2 ^ i) : x <<< i ||| y = x * 2 ^ i + y := by
    rw [← Nat.shiftLeft_add_eq_or_of_lt hy, Nat.shiftLeft_eq]
  have h1 : func <<< 8 ||| offset / 4 * 4 = func * 2 ^ 8 + offset / 4 * 4 := hor (by omega)
  have h2 : slot <<< 11 ||| (func * 2 ^ 8 + offset / 4 * 4) =
      slot * 2 ^ 11 + (func * 2 ^ 8 + offset / 4 * 4) := hor (by omega)
  have h3 : bus <<< 16 ||| (slot * 2 ^ 11 + (func * 2 ^ 8 + offset / 4 * 4)) =
      bus * 2 ^ 16 + (slot * 2 ^ 11 + (func * 2 ^ 8 + offset / 4 * 4)) := hor (by omega)
  have h4 : 1 <<< 31 ||| (bus * 2 ^ 16 + (slot * 2 ^ 11 + (func * 2 ^ 8 + offset / 4 * 4))) =
      1 * 2 ^ 31 + (bus * 2 ^ 16 + (slot * 2 ^ 11 + (func * 2 ^ 8 + offset / 4 * 4))) :=
    hor (by omega)
  rw [pciMakeAddress, and_0xFC ho]
  simp only [Nat.or_assoc]
  rw [h1, h2, h3, h4]
  omega

theorem decode_pciMakeAddress (hp : InRange p) (ho : offset < 256) :
    decodeAddress (pciMakeAddress p.1 p.2.1 p.2.2 offset) = (p, offset / 4 * 4) := by
  obtain ⟨bus, slot, func⟩ := p
  obtain ⟨hb, hs, hf⟩ := hp
  rw [pciMakeAddress_eq hb hs hf ho, decodeAddress]
  simp only [Prod.mk.injEq]
  dsimp only at hb hs hf
  omega

theorem pciMakeAddress_lt (hp : InRange p) (ho : offset < 256) :
    pciMakeAddress p.1 p.2.1 p.2.2 offset < 2 ^ 32 := by
  obtain ⟨hb, hs, hf⟩ := hp
  rw [pciMakeAddress_eq hb hs hf ho]
  omega

/-- Two registers have one address only if place and register are the same. -/
theorem pciMakeAddress_inj {o o' : ℕ} (hp : InRange p) (hq : InRange q) (ho : o < 256)
    (ho' : o' < 256) (h : u32 (pciMakeAddress p.1 p.2.1 p.2.2 o) =
      u32 (pciMakeAddress q.1 q.2.1 q.2.2 o')) : p = q ∧ o / 4 = o' / 4 := by
  rw [u32_of_lt (pciMakeAddress_lt hp ho), u32_of_lt (pciMakeAddress_lt hq ho')] at h
  have hdec := (decode_pciMakeAddress hp ho).symm.trans
    ((congrArg decodeAddress h).trans (decode_pciMakeAddress hq ho'))
  obtain ⟨hpq, hoff⟩ := Prod.mk.inj hdec
  exact ⟨hpq, by omega⟩

/-! ## Reads and writes -/

theorem pciConfigRead32_eq (c : Config) (p : Place) (offset : ℕ) :
    pciConfigRead32 c p.1 p.2.1 p.2.2 offset =
      (c.register p offset, { c with address := u32 (pciMakeAddress p.1 p.2.1 p.2.2 offset) }) :=
  rfl

theorem pciConfigWrite32_data (c : Config) (p : Place) (offset v : ℕ) :
    (pciConfigWrite32 c p.1 p.2.1 p.2.2 offset v).data =
      Function.update c.data (u32 (pciMakeAddress p.1 p.2.1 p.2.2 offset)) (u32 v) := rfl

theorem register_congr {c' : Config} (h : c'.data = c.data) (p : Place) (offset : ℕ) :
    c'.register p offset = c.register p offset := by
  rw [Config.register, Config.register, h]

theorem register_lt (c : Config) (p : Place) (offset : ℕ) : c.register p offset < 2 ^ 32 := u32_lt _

theorem register_write_self (c : Config) (p : Place) (offset v : ℕ) :
    (pciConfigWrite32 c p.1 p.2.1 p.2.2 offset v).register p offset = u32 v := by
  rw [Config.register, pciConfigWrite32_data, Function.update_self, u32_of_lt (u32_lt v)]

theorem register_write_other {o : ℕ} (v : ℕ) (hp : InRange p) (hq : InRange q) (ho : offset < 256)
    (ho' : o < 256) (hne : q ≠ p ∨ o / 4 ≠ offset / 4) :
    (pciConfigWrite32 c p.1 p.2.1 p.2.2 offset v).register q o = c.register q o := by
  rw [Config.register, pciConfigWrite32_data, Function.update_of_ne, Config.register]
  intro h
  obtain ⟨hqp, hoo⟩ := pciMakeAddress_inj hq hp ho' ho h
  exact hne.elim (fun hn => hn hqp) (fun hn => hn hoo)

/-! ## The loops -/

/-- The first result for an index below `n`. -/
def firstOf {α : Type} (f : ℕ → Option α) (n : ℕ) : Option α := (List.range n).findSome? f

theorem firstOf_eq_none {α : Type} {f : ℕ → Option α} {n : ℕ} :
    firstOf f n = none ↔ ∀ i < n, f i = none := by
  simp [firstOf, List.findSome?_eq_none_iff]

theorem firstOf_succ {α : Type} (f : ℕ → Option α) (n : ℕ) :
    firstOf f (n + 1) = (firstOf f n).or (f n) := by
  simp [firstOf, List.range_succ, List.findSome?_append]

theorem firstOf_eq_some {α : Type} {f : ℕ → Option α} {n : ℕ} {r : α} :
    firstOf f n = some r ↔ ∃ i < n, f i = some r ∧ ∀ j < i, f j = none := by
  induction n generalizing r with
  | zero => simp [firstOf]
  | succ n ih =>
    rw [firstOf_succ]
    cases hn : firstOf f n with
    | some x =>
      obtain ⟨i, hi, hfi, hbefore⟩ := ih.mp hn
      refine ⟨fun h => ⟨i, by omega, hfi.trans h, hbefore⟩, ?_⟩
      rintro ⟨k, hk, hfk, hbefore'⟩
      rcases Nat.lt_trichotomy i k with hlt | rfl | hgt
      · rw [hbefore' i hlt] at hfi
        cases hfi
      · exact hfi.symm.trans hfk
      · rw [hbefore k hgt] at hfk
        cases hfk
    | none =>
      have hnone := firstOf_eq_none.mp hn
      refine ⟨fun h => ⟨n, by omega, h, hnone⟩, ?_⟩
      rintro ⟨k, hk, hfk, -⟩
      obtain rfl : k = n := by
        by_contra hne
        rw [hnone k (by omega)] at hfk
        cases hfk
      exact hfk

/-- A loop whose body only looks at the registers finds the first result. -/
theorem searchLoop_eq {α : Type} {body : ℕ → Config → Option α × Config} {f : ℕ → Option α}
    (data : ℕ → ℕ) (hbody : ∀ i c, c.data = data → (body i c).1 = f i ∧ (body i c).2.data = data)
    (n first : ℕ) (c : Config) (hc : c.data = data) :
    (searchLoop body n first c).1 = firstOf (fun i => f (first + i)) n ∧
      (searchLoop body n first c).2.data = data := by
  induction n generalizing first c with
  | zero => exact ⟨rfl, hc⟩
  | succ n ih =>
    obtain ⟨hres, hdata⟩ := hbody first c hc
    have hsplit : firstOf (fun i => f (first + i)) (n + 1) =
        (f first).or (firstOf (fun i => f (first + 1 + i)) n) := by
      rw [firstOf, List.range_succ_eq_map, List.findSome?_cons, firstOf, List.findSome?_map]
      simp only [Nat.add_zero, Function.comp_def, Nat.succ_eq_add_one]
      cases f first with
      | some r => rfl
      | none => simp only [Option.none_or, Nat.add_assoc, Nat.add_comm 1]
    rw [hsplit, searchLoop, ← hres]
    cases hb : body first c with
    | mk r c' =>
      rw [hb] at hdata
      cases r with
      | some r => exact ⟨rfl, hdata⟩
      | none => exact ih (first + 1) c' hdata

theorem pciVendorId_eq (c : Config) (p : Place) : pciVendorId c p.1 p.2.1 p.2.2 =
    (c.register p 0 % 2 ^ 16, { c with address := u32 (pciMakeAddress p.1 p.2.1 p.2.2 0) }) := by
  have hmask := Nat.and_two_pow_sub_one_eq_mod (c.register p 0) 16
  simp only [Nat.reducePow, Nat.reduceSub] at hmask
  simp only [pciVendorId, pciConfigRead32_eq, hmask, Nat.reducePow, Nat.mod_mod]

theorem pciDeviceId_eq (c : Config) (p : Place) : pciDeviceId c p.1 p.2.1 p.2.2 =
    (c.register p 0 / 2 ^ 16, { c with address := u32 (pciMakeAddress p.1 p.2.1 p.2.2 0) }) := by
  have hlt := register_lt c p 0
  have hhigh : (c.register p 0 >>> 16) % 2 ^ 16 = c.register p 0 / 2 ^ 16 := by
    rw [Nat.shiftRight_eq_div_pow, Nat.mod_eq_of_lt (by omega)]
  simp only [pciDeviceId, pciConfigRead32_eq, hhigh]

/-- The place the casts of the loop counters name. -/
def place (bus slot func : ℕ) : Place := (bus % 2 ^ 8, slot % 2 ^ 8, func % 2 ^ 8)

/-- What the innermost body returns. -/
def found (c : Config) (vendor device bus slot func : ℕ) : Option Place :=
  if Identifies c vendor device (place bus slot func) then some (place bus slot func) else none

theorem probe_eq (vendor device bus slot func : ℕ) (c : Config) :
    (probe vendor device bus slot func c).1 = found c vendor device bus slot func ∧
      (probe vendor device bus slot func c).2.data = c.data := by
  unfold found
  have hv := pciVendorId_eq c (place bus slot func)
  have hd (a : ℕ) := pciDeviceId_eq { c with address := a } (place bus slot func)
  have hreg (a : ℕ) : ({ c with address := a } : Config).register (place bus slot func) 0 =
      c.register (place bus slot func) 0 := rfl
  simp only [hreg] at hd
  by_cases hvendor : c.register (place bus slot func) 0 % 2 ^ 16 = vendor
  · by_cases hdevice : c.register (place bus slot func) 0 / 2 ^ 16 = device
    · rw [if_pos ⟨hvendor, hdevice⟩]
      simp only [place] at hv hd hvendor hdevice ⊢
      simp only [probe, hv, if_pos hvendor, hd, if_pos hdevice, and_self]
    · rw [if_neg fun h : Identifies _ _ _ _ => hdevice h.2]
      simp only [place] at hv hd hvendor hdevice
      simp only [probe, hv, if_pos hvendor, hd, if_neg hdevice, and_self]
  · rw [if_neg fun h : Identifies _ _ _ _ => hvendor h.1]
    simp only [place] at hv hvendor
    simp only [probe, hv, if_neg hvendor, and_self]

/-- What the three loops compute: the first match in their order. -/
theorem pciFindDevice_eq (vendor device : ℕ) (c : Config) :
    (pciFindDevice vendor device c).1 = firstOf (fun bus => firstOf (fun slot =>
      firstOf (found c vendor device bus slot) 8) 32) 256 ∧
      (pciFindDevice vendor device c).2.data = c.data := by
  have hprobe (bus slot func : ℕ) (c' : Config) (hc : c'.data = c.data) :
      (probe vendor device bus slot func c').1 = found c vendor device bus slot func ∧
        (probe vendor device bus slot func c').2.data = c.data := by
    obtain ⟨hres, hdata⟩ := probe_eq vendor device bus slot func c'
    have hident : Identifies c' vendor device (place bus slot func) ↔
        Identifies c vendor device (place bus slot func) := by
      rw [Identifies, Identifies, register_congr hc]
    refine ⟨hres.trans ?_, hdata.trans hc⟩
    simp only [found, hident]
  have hfunc (bus slot : ℕ) := searchLoop_eq c.data (hprobe bus slot) 8 0
  have hslot (bus : ℕ) := searchLoop_eq c.data (hfunc bus) 32 0
  have hbus := searchLoop_eq c.data hslot 256 0 c rfl
  simp only [Nat.zero_add] at hbus
  exact hbus

theorem found_some {c : Config} {vendor device bus slot func : ℕ} (hp : InRange (bus, slot, func))
    {p : Place} : found c vendor device bus slot func = some p ↔
      (bus, slot, func) = p ∧ Identifies c vendor device p := by
  obtain ⟨hb, hs, hf⟩ := hp
  have hplace : place bus slot func = (bus, slot, func) := by
    dsimp only at hb hs hf
    simp only [place, Prod.mk.injEq]
    omega
  rw [found, hplace]
  constructor
  · intro h
    split at h
    · rename_i hid
      cases h
      exact ⟨rfl, hid⟩
    · cases h
  · rintro ⟨rfl, hid⟩
    exact if_pos hid

theorem found_none {c : Config} {vendor device bus slot func : ℕ} (hp : InRange (bus, slot, func)) :
    found c vendor device bus slot func = none ↔ ¬ Identifies c vendor device (bus, slot, func) := by
  rw [← not_iff_not, not_not, Option.eq_none_iff_forall_ne_some]
  simp only [ne_eq, not_forall, not_not, found_some hp]
  exact ⟨fun ⟨p, hp, hid⟩ => hp ▸ hid, fun hid => ⟨_, rfl, hid⟩⟩

theorem pciFindDevice_none : (pciFindDevice vendor device c).1 = none ↔
    ∀ p, InRange p → ¬ Identifies c vendor device p := by
  rw [(pciFindDevice_eq vendor device c).1]
  simp only [firstOf_eq_none]
  constructor
  · rintro h ⟨bus, slot, func⟩ ⟨hb, hs, hf⟩
    exact (found_none ⟨hb, hs, hf⟩).mp (h bus hb slot hs func hf)
  · intro h bus hb slot hs func hf
    exact (found_none ⟨hb, hs, hf⟩).mpr (h _ ⟨hb, hs, hf⟩)

/-- The place found is the first one in the order of the loops that has the identifiers. -/
theorem pciFindDevice_some : (pciFindDevice vendor device c).1 = some p ↔
    InRange p ∧ Identifies c vendor device p ∧
      ∀ q, InRange q → Before q p → ¬ Identifies c vendor device q := by
  rw [(pciFindDevice_eq vendor device c).1, firstOf_eq_some]
  constructor
  · rintro ⟨bus, hb, hbus, hbefore⟩
    obtain ⟨slot, hs, hslot, hsbefore⟩ := firstOf_eq_some.mp hbus
    obtain ⟨func, hf, hfunc, hfbefore⟩ := firstOf_eq_some.mp hslot
    obtain ⟨rfl, hid⟩ := (found_some ⟨hb, hs, hf⟩).mp hfunc
    refine ⟨⟨hb, hs, hf⟩, hid, ?_⟩
    rintro ⟨b, s, f⟩ ⟨hb', hs', hf'⟩ (hlt | ⟨rfl, hlt | ⟨rfl, hlt⟩⟩)
    · exact (found_none ⟨hb', hs', hf'⟩).mp
        (firstOf_eq_none.mp (firstOf_eq_none.mp (hbefore b hlt) s hs') f hf')
    · exact (found_none ⟨hb', hs', hf'⟩).mp (firstOf_eq_none.mp (hsbefore s hlt) f hf')
    · exact (found_none ⟨hb', hs', hf'⟩).mp (hfbefore f hlt)
  · obtain ⟨bus, slot, func⟩ := p
    rintro ⟨⟨hb, hs, hf⟩, hid, hfirst⟩
    refine ⟨bus, hb, firstOf_eq_some.mpr ⟨slot, hs, firstOf_eq_some.mpr ⟨func, hf,
      (found_some ⟨hb, hs, hf⟩).mpr ⟨rfl, hid⟩, ?_⟩, ?_⟩, ?_⟩
    · intro f hlt
      have hp : InRange (bus, slot, f) := ⟨hb, hs, lt_trans hlt hf⟩
      exact (found_none hp).mpr (hfirst _ hp (.inr ⟨rfl, .inr ⟨rfl, hlt⟩⟩))
    · intro s hlt
      refine firstOf_eq_none.mpr fun f hf' => ?_
      have hp : InRange (bus, s, f) := ⟨hb, lt_trans hlt hs, hf'⟩
      exact (found_none hp).mpr (hfirst _ hp (.inr ⟨rfl, .inl hlt⟩))
    · intro b hlt
      refine firstOf_eq_none.mpr fun s hs' => firstOf_eq_none.mpr fun f hf' => ?_
      have hp : InRange (b, s, f) := ⟨lt_trans hlt hb, hs', hf'⟩
      exact (found_none hp).mpr (hfirst _ hp (.inl hlt))

/-- For every configuration space: the search returns the first function with the identifiers
and 0 only if there is none, addresses decode to what they were made of, and a write changes
the register a read with the same arguments reads, and no other. -/
theorem pci_search_exact (c : Config) (vendor device : ℕ) :
    ((pciFindDevice vendor device c).2.data = c.data ∧
      ((pciFindDevice vendor device c).1.isSome ↔ ∃ p, InRange p ∧ Identifies c vendor device p) ∧
      ∀ p, (pciFindDevice vendor device c).1 = some p → InRange p ∧ Identifies c vendor device p ∧
        ∀ q, InRange q → Before q p → ¬ Identifies c vendor device q) ∧
    (∀ p offset, InRange p → offset < 256 →
      decodeAddress (pciMakeAddress p.1 p.2.1 p.2.2 offset) = (p, offset / 4 * 4)) ∧
    ∀ p offset v, InRange p → offset < 256 →
      (pciConfigRead32 (pciConfigWrite32 c p.1 p.2.1 p.2.2 offset v) p.1 p.2.1 p.2.2 offset).1 =
        u32 v ∧
      ∀ q o, InRange q → o < 256 → (q ≠ p ∨ o / 4 ≠ offset / 4) →
        (pciConfigRead32 (pciConfigWrite32 c p.1 p.2.1 p.2.2 offset v) q.1 q.2.1 q.2.2 o).1 =
          (pciConfigRead32 c q.1 q.2.1 q.2.2 o).1 := by
  refine ⟨⟨(pciFindDevice_eq vendor device c).2, ?_, fun p hp => pciFindDevice_some.mp hp⟩,
    fun p offset hp ho => decode_pciMakeAddress hp ho, fun p offset v hp ho => ⟨?_, ?_⟩⟩
  · rw [← Option.ne_none_iff_isSome, ne_eq, pciFindDevice_none]
    push Not
    rfl
  · rw [pciConfigRead32_eq]
    exact register_write_self c p offset v
  · intro q o hq ho' hne
    rw [pciConfigRead32_eq, pciConfigRead32_eq]
    exact register_write_other v hp hq ho ho' hne

end ShadOS.Pci

import ShadOS.Vectors.Source

/-! # The table of idt.c

A vector has a gate exactly if low_level.S has a stub for it, and only the gate
of the system calls is open to ring 3.
-/

namespace ShadOS.Vectors
open Machine Interrupts

variable {idt num base sel flags a v x vector : ℕ} {m m' : Mem} {r : Idtr} {stubs : ℕ → ℕ}

/-! ## Half words -/

theorem writeHalf_outside (h : x < a ∨ a + 2 ≤ x) : writeHalf m a v x = m x := by
  rw [writeHalf, Function.update_of_ne (by omega), Function.update_of_ne (by omega)]

theorem readHalf_writeHalf (m : Mem) (a v : ℕ) : readHalf (writeHalf m a v) a = v % 2 ^ 16 := by
  have hlo : writeHalf m a v a = UInt8.ofNat v := by
    rw [writeHalf, Function.update_of_ne (by omega), Function.update_self]
  have hhi : writeHalf m a v (a + 1) = UInt8.ofNat (v / 2 ^ 8) := Function.update_self _ _ _
  rw [readHalf, hlo, hhi, UInt8.toNat_ofNat', UInt8.toNat_ofNat']
  omega

theorem readHalf_writeHalf_of_disjoint {b : ℕ} (h : b + 2 ≤ a ∨ a + 2 ≤ b) :
    readHalf (writeHalf m a v) b = readHalf m b :=
  readHalf_congr (writeHalf_outside (by omega)) (writeHalf_outside (by omega))

/-! ## One gate -/

theorem idtSetGate_outside (h : x < idt + 8 * num ∨ idt + 8 * num + 8 ≤ x) :
    idtSetGate idt m num base sel flags x = m x := by
  simp only [idtSetGate]
  rw [Function.update_of_ne (by omega), Function.update_of_ne (by omega),
    writeHalf_outside (by omega), writeHalf_outside (by omega), writeHalf_outside (by omega)]

/-- The gate that the processor reads in an entry with these fields. -/
def decoded (base sel flags : ℕ) : Option Gate :=
  if (flags % 2 ^ 8).testBit 7 then
    some ⟨u32 base, sel % 2 ^ 16, flags % 2 ^ 8 / 2 ^ 5 % 4, flags % 2 ^ 8 % 2 ^ 4⟩
  else none

theorem decoded_absent : decoded base sel 0 = none := by
  rw [decoded, if_neg (by decide)]

theorem decoded_kernel : decoded base 0x08 0x8E = some ⟨u32 base, 0x08, 0, 14⟩ := by
  have hpresent : Nat.testBit 0x8E 7 = true := by decide
  simp only [decoded, Nat.reducePow, Nat.reduceMod, Nat.reduceDiv, hpresent, if_true]

theorem decoded_user : decoded base 0x08 0xEE = some ⟨u32 base, 0x08, 3, 14⟩ := by
  have hpresent : Nat.testBit 0xEE 7 = true := by decide
  simp only [decoded, Nat.reducePow, Nat.reduceMod, Nat.reduceDiv, hpresent, if_true]

theorem gateOf_congr (h : ∀ x, r.base + 8 * vector ≤ x → x < r.base + 8 * vector + 8 → m' x = m x) :
    gateOf r m' vector = gateOf r m vector := by
  simp only [gateOf]
  rw [h _ (by omega) (by omega), readHalf_congr (h _ (by omega) (by omega)) (h _ (by omega) (by omega)),
    readHalf_congr (h _ (by omega) (by omega)) (h _ (by omega) (by omega)),
    readHalf_congr (h _ (by omega) (by omega)) (h _ (by omega) (by omega))]

theorem gateOf_idtSetGate (hr : 8 * num + 7 ≤ r.limit) :
    gateOf r (idtSetGate r.base m num base sel flags) num = decoded base sel flags := by
  obtain ⟨a, ha⟩ : ∃ a, a = r.base + 8 * num := ⟨_, rfl⟩
  obtain ⟨w, hw⟩ : ∃ w, w = writeHalf (writeHalf (writeHalf m a (base &&& 0xFFFF)) (a + 6)
    ((base >>> 16) &&& 0xFFFF)) (a + 2) sel := ⟨_, rfl⟩
  obtain ⟨g, hg⟩ : ∃ g, g = idtSetGate r.base m num base sel flags := ⟨_, rfl⟩
  have hgw : g = Function.update (Function.update w (a + 4) 0) (a + 5) (UInt8.ofNat flags) := by
    rw [hg, hw, ha, idtSetGate]
  have hkeep (x : ℕ) (h4 : x ≠ a + 4) (h5 : x ≠ a + 5) : g x = w x := by
    rw [hgw, Function.update_of_ne h5, Function.update_of_ne h4]
  have hmask (k : ℕ) : k &&& 0xFFFF = k % 2 ^ 16 := Nat.and_two_pow_sub_one_eq_mod k 16
  have hlow : readHalf g a = base % 2 ^ 16 := by
    rw [readHalf_congr (hkeep a (by omega) (by omega)) (hkeep _ (by omega) (by omega)), hw,
      readHalf_writeHalf_of_disjoint (by omega), readHalf_writeHalf_of_disjoint (by omega),
      readHalf_writeHalf, hmask, Nat.mod_mod]
  have hhigh : readHalf g (a + 6) = base / 2 ^ 16 % 2 ^ 16 := by
    rw [readHalf_congr (hkeep _ (by omega) (by omega)) (hkeep _ (by omega) (by omega)), hw,
      readHalf_writeHalf_of_disjoint (by omega), readHalf_writeHalf, hmask,
      Nat.shiftRight_eq_div_pow, Nat.mod_mod]
  have hsel : readHalf g (a + 2) = sel % 2 ^ 16 := by
    rw [readHalf_congr (hkeep _ (by omega) (by omega)) (hkeep _ (by omega) (by omega)), hw,
      readHalf_writeHalf]
  have hflags : (g (a + 5)).toNat = flags % 2 ^ 8 := by
    rw [hgw, Function.update_self, UInt8.toNat_ofNat']
  have hbase : base % 2 ^ 16 + 2 ^ 16 * (base / 2 ^ 16 % 2 ^ 16) = u32 base := by
    unfold u32
    omega
  simp only [gateOf, ← hg, ← ha, hlow, hhigh, hsel, hflags, hbase, hr, true_and, decoded]

theorem gateOf_idtSetGate_other (h : vector ≠ num) :
    gateOf r (idtSetGate r.base m num base sel flags) vector = gateOf r m vector := by
  apply gateOf_congr
  intro x hx hx'
  apply idtSetGate_outside
  omega

/-! ## The whole table -/

/-- Entries set in turn, each number once. -/
theorem gateOf_foldl (stubs : ℕ → ℕ) {gs : List (ℕ × ℕ × ℕ)} (hgs : (gs.map Prod.fst).Nodup)
    (hr : ∀ g ∈ gs, 8 * g.1 + 7 ≤ r.limit) :
    gateOf r (gs.foldl (fun m g => idtSetGate r.base m g.1 (stubs g.1) g.2.1 g.2.2) m) vector =
      match gs.find? (fun g => g.1 = vector) with
      | some g => decoded (stubs vector) g.2.1 g.2.2
      | none => gateOf r m vector := by
  induction gs generalizing m with
  | nil => rfl
  | cons g gs ih =>
    obtain ⟨hnew, hgs⟩ := List.nodup_cons.mp hgs
    obtain ⟨hg, hr⟩ := List.forall_mem_cons.mp hr
    rw [List.foldl_cons, ih hgs hr]
    by_cases hv : g.1 = vector
    · have hnone : gs.find? (fun g => g.1 = vector) = none := by
        apply List.find?_eq_none.mpr
        intro j hj hjv
        apply hnew
        rw [hv]
        exact List.mem_map.mpr ⟨j, hj, by simpa using hjv⟩
      rw [hnone, List.find?_cons_of_pos (by simpa using hv), ← hv]
      exact gateOf_idtSetGate hg
    · rw [List.find?_cons_of_neg (by simpa using hv), gateOf_idtSetGate_other (Ne.symm hv)]

theorem foldl_outside (stubs : ℕ → ℕ) {gs : List (ℕ × ℕ × ℕ)} (hgs : ∀ g ∈ gs, g.1 < idtEntries)
    (hx : x < idt ∨ idt + 8 * idtEntries ≤ x) :
    gs.foldl (fun m g => idtSetGate idt m g.1 (stubs g.1) g.2.1 g.2.2) m x = m x := by
  induction gs generalizing m with
  | nil => rfl
  | cons g gs ih =>
    obtain ⟨hg, hgs⟩ := List.forall_mem_cons.mp hgs
    rw [List.foldl_cons, ih hgs, idtSetGate_outside (by omega)]

/-- The loop of `idt_init` leaves no gate. -/
theorem gateOf_cleared (hv : vector < idtEntries) (hr : 8 * idtEntries - 1 ≤ r.limit) :
    gateOf r ((List.range idtEntries).foldl (fun m i => idtSetGate r.base m i 0 0 0) m) vector =
      none := by
  have hfold : (List.range idtEntries).foldl (fun m i => idtSetGate r.base m i 0 0 0) m =
      ((List.range idtEntries).map (fun i => (i, 0, 0))).foldl
        (fun m g => idtSetGate r.base m g.1 0 g.2.1 g.2.2) m := by
    rw [List.foldl_map]
  have hfind : ((List.range idtEntries).map (fun i => (i, 0, 0))).find? (fun g => g.1 = vector) =
      some (vector, 0, 0) := by
    rw [List.find?_map, Option.map_eq_some_iff]
    refine ⟨vector, List.find?_range_eq_some.mpr ⟨by simp, List.mem_range.mpr hv, ?_⟩, rfl⟩
    intro j hj
    simpa using Nat.ne_of_lt hj
  have hnodup : (((List.range idtEntries).map (fun i => (i, 0, 0))).map
      (Prod.fst : ℕ × ℕ × ℕ → ℕ)).Nodup := by
    simpa [Function.comp_def] using List.nodup_range
  rw [hfold, gateOf_foldl (fun _ => 0) hnodup, hfind]
  · exact decoded_absent
  · intro g hg
    obtain ⟨i, hi, rfl⟩ := List.mem_map.mp hg
    have := List.mem_range.mp hi
    unfold idtEntries at *
    omega

theorem stub_none : Stubs.stub vector = none ↔ ¬ (vector < 48 ∨ vector = 128) := by
  unfold Stubs.stub Stubs.errcodeVectors
  grind

theorem find_gates (hv : vector < 48 ∨ vector = 128) : gates.find? (fun g => g.1 = vector) =
    some (vector, 0x08, if vector = 128 then 0xEE else 0x8E) := by
  rw [gates, List.find?_append, List.find?_map]
  by_cases h48 : vector < 48
  · have hrange : (List.range 48).find? ((fun g : ℕ × ℕ × ℕ => decide (g.1 = vector)) ∘
        (fun num => (num, 0x08, 0x8E))) = some vector := by
      refine List.find?_range_eq_some.mpr ⟨by simp, List.mem_range.mpr h48, fun j hj => ?_⟩
      simpa using Nat.ne_of_lt hj
    rw [hrange, if_neg (by omega)]
    rfl
  · obtain rfl : vector = 128 := hv.resolve_left h48
    rfl

theorem find_gates_none (hv : ¬ (vector < 48 ∨ vector = 128)) :
    gates.find? (fun g => g.1 = vector) = none := by
  apply List.find?_eq_none.mpr
  intro g hg hgv
  simp only [gates, List.mem_append, List.mem_map, List.mem_range, List.mem_singleton] at hg
  rcases hg with ⟨i, hi, rfl⟩ | rfl <;> simp at hgv <;> omega

theorem idtInit_gateOf (idt : ℕ) (stubs : ℕ → ℕ) (m : Mem) (p : Controllers) (vector : ℕ) :
    gateOf (idtInit idt stubs m p).1 (idtInit idt stubs m p).2.1 vector =
      (Stubs.stub vector).map (fun _ =>
        ⟨u32 (stubs vector), 0x08, if vector = 128 then 3 else 0, 14⟩) := by
  obtain ⟨r, hr⟩ : ∃ r : Idtr, r = ⟨8 * idtEntries - 1, idt⟩ := ⟨_, rfl⟩
  have hgates : gateOf (idtInit idt stubs m p).1 (idtInit idt stubs m p).2.1 vector =
      match gates.find? (fun g => g.1 = vector) with
      | some g => decoded (stubs vector) g.2.1 g.2.2
      | none => gateOf r ((List.range idtEntries).foldl (fun m i => idtSetGate r.base m i 0 0 0) m)
          vector := by
    rw [hr]
    apply gateOf_foldl stubs (r := ⟨8 * idtEntries - 1, idt⟩)
    · decide
    · exact (by decide : ∀ g ∈ gates, 8 * g.1 + 7 ≤ 8 * idtEntries - 1)
  rw [hgates]
  by_cases hv : vector < 48 ∨ vector = 128
  · obtain ⟨code, hcode⟩ := Option.ne_none_iff_exists'.mp (fun hn => stub_none.mp hn hv)
    rw [find_gates hv, hcode]
    by_cases h128 : vector = 128
    · rw [if_pos h128, Option.map_some, if_pos h128]
      exact decoded_user
    · rw [if_neg h128, Option.map_some, if_neg h128]
      exact decoded_kernel
  · rw [find_gates_none hv, stub_none.mpr hv]
    by_cases h256 : vector < idtEntries
    · exact gateOf_cleared h256 (hr ▸ le_rfl)
    · simp only [gateOf, hr]
      apply if_neg
      unfold idtEntries at *
      omega

/-- `idt_init` on any memory and any controllers: the processor finds a gate for a vector exactly if
low_level.S has a stub for it, and the gate leads there, into ring 0 with interrupts off. Of all
vectors ring 3 can ask for the system calls only, and nothing but the table was written. -/
theorem idt_init_gates (idt : ℕ) (stubs : ℕ → ℕ) (m : Mem) (p : Controllers) :
    (∀ vector, gateOf (idtInit idt stubs m p).1 (idtInit idt stubs m p).2.1 vector =
      (Stubs.stub vector).map (fun _ =>
        ⟨u32 (stubs vector), 0x08, if vector = 128 then 3 else 0, 14⟩)) ∧
    (∀ vector, (softwareGate (idtInit idt stubs m p).1 (idtInit idt stubs m p).2.1 vector 3).isSome ↔
      vector = 128) ∧
    ∀ x, x < idt ∨ idt + 2048 ≤ x → (idtInit idt stubs m p).2.1 x = m x := by
  refine ⟨idtInit_gateOf idt stubs m p, fun vector => ?_, fun x hx => ?_⟩
  · rw [softwareGate, idtInit_gateOf]
    by_cases h128 : vector = 128
    · subst h128
      simp [Stubs.stub, Stubs.errcodeVectors]
    · cases hcode : Stubs.stub vector <;> simp [h128]
  · have hclear : ((List.range idtEntries).map (fun i => (i, 0, 0))).foldl
        (fun m g => idtSetGate idt m g.1 0 g.2.1 g.2.2) m x = m x :=
      foldl_outside (fun _ => 0) (by simp) hx
    rw [List.foldl_map] at hclear
    exact (foldl_outside stubs (by decide) hx).trans hclear

end ShadOS.Vectors

import ShadOS.Machine.Memory
import Mathlib.Data.Set.Pairwise.Basic

/-! # What clients of an allocator may rely on

An allocator works in the memory of its clients. Two sets of spans describe
what it owes them: the live ones, and the kept ones, whose bytes it does not
touch. A lawful allocator keeps the live spans and may hand out freed memory
again; a keeping allocator goes on keeping a span after it was freed, as long
as the blocks it hands out stay clear of it.
-/

namespace ShadOS.Machine

universe u

/-- Requests and releases against a state `H` and the common memory; `NULL` is 0,
and no result means that the call does not return. -/
structure Allocator (H : Type u) where
  kmalloc : H → Mem → ℕ → Option (ℕ × H × Mem)
  kfree : H → Mem → ℕ → Option (H × Mem)

@[ext] structure Span where
  addr : ℕ
  size : ℕ

namespace Span

def Has (s : Span) (x : ℕ) : Prop := s.addr ≤ x ∧ x < s.addr + s.size

/-- One span ends before the other begins. -/
def Apart (s t : Span) : Prop := s.addr + s.size ≤ t.addr ∨ t.addr + t.size ≤ s.addr

theorem Apart.symm {s t : Span} (h : s.Apart t) : t.Apart s := Or.symm h

instance : Std.Symm Apart := ⟨fun _ _ => Apart.symm⟩

theorem Apart.not_self {s : Span} (h : s.Apart s) (hs : 0 < s.size) : False := by
  unfold Apart at h
  omega

theorem Apart.not_has {s t : Span} (h : s.Apart t) {x : ℕ} (hx : s.Has x) : ¬ t.Has x := by
  unfold Apart Has at *
  omega

end Span

/-- The bytes of every span in `W` are the same in both memories. -/
def Keeps (W : Set Span) (m m' : Mem) : Prop := ∀ s ∈ W, ∀ x, s.Has x → m' x = m x

theorem Keeps.refl (W : Set Span) (m : Mem) : Keeps W m m := fun _ _ _ _ => rfl

theorem Keeps.trans {W : Set Span} {m₁ m₂ m₃ : Mem} (h : Keeps W m₁ m₂) (h' : Keeps W m₂ m₃) :
    Keeps W m₁ m₃ := fun s hs x hx => (h' s hs x hx).trans (h s hs x hx)

theorem Keeps.mono {V W : Set Span} {m m' : Mem} (h : Keeps W m m') (hVW : V ⊆ W) :
    Keeps V m m' := fun s hs => h s (hVW hs)

/-- Pairwise apart spans of positive size are determined by their addresses. -/
theorem eq_of_addr_eq {W : Set Span} (hW : W.Pairwise Span.Apart) {s t : Span} (hs : s ∈ W)
    (ht : t ∈ W) (hs0 : 0 < s.size) (ht0 : 0 < t.size) (h : s.addr = t.addr) : s = t := by
  by_contra hne
  have := hW hs ht hne
  unfold Span.Apart at this
  omega

namespace Allocator
variable {H : Type u}

/-- The bytes belong to clients: each lies outside the memory of the allocator or in
a live span. -/
def Readable (region : Set ℕ) (L : Set Span) (src n : ℕ) : Prop :=
  src + n ≤ 2 ^ 32 ∧ ∀ x, src ≤ x → x < src + n → x ∉ region ∨ ∃ s ∈ L, s.Has x

/-- A lawful allocator. `I h m L` says that the blocks `L` are live; they lie in
`region`, and the memory outside belongs to the clients. Sizes in `ok`, among them
those of all buffers of the clients, are served with a block of at least that size. -/
structure Lawful (A : Allocator H) (I : H → Mem → Set Span → Prop) (region : Set ℕ)
    (ok : ℕ → Prop) : Prop where
  size_pos : ∀ {h m L s}, I h m L → s ∈ L → 0 < s.addr ∧ 0 < s.size
  apart : ∀ {h m L}, I h m L → L.Pairwise Span.Apart
  inside : ∀ {h m L s x}, I h m L → s ∈ L → s.Has x → x ∈ region
  serves : ∀ {h m L src n}, I h m L → Readable region L src n → ok n
  kmalloc : ∀ {h m L n}, I h m L → 0 < n → ok n → ∃ p h' m', A.kmalloc h m n = some (p, h', m') ∧
    Keeps L m m' ∧ (∀ x, x ∉ region → m' x = m x) ∧
    (p = 0 ∧ I h' m' L ∨
      p ≠ 0 ∧ (∀ s ∈ L, Span.Apart ⟨p, n⟩ s) ∧ I h' m' (insert ⟨p, n⟩ L))
  kfree : ∀ {h m L s}, I h m L → s ∈ L → ∃ h' m', A.kfree h m s.addr = some (h', m') ∧
    Keeps (L \ {s}) m m' ∧ (∀ x, x ∉ region → m' x = m x) ∧ I h' m' (L \ {s})
  store : ∀ {h m L m'}, I h m L →
    (∀ x, m' x ≠ m x → x ∉ region ∨ ∃ s ∈ L, s.Has x) → I h m' L

/-- A keeping allocator. `I h m L W` says that the blocks `L` are live and the
spans `W` kept; a new block that is clear of the freed kept spans joins both. -/
structure Keeping (A : Allocator H) (I : H → Mem → Set Span → Set Span → Prop)
    (clear : Span → Span → Prop) : Prop where
  live_sub : ∀ {h m L W}, I h m L W → L ⊆ W
  bounds : ∀ {h m L W s}, I h m L W → s ∈ W → 0 < s.addr ∧ 0 < s.size ∧ s.addr + s.size ≤ 2 ^ 32
  apart : ∀ {h m L W}, I h m L W → W.Pairwise Span.Apart
  kmalloc : ∀ {h m L W n}, I h m L W → 0 < n → n + 7 < 2 ^ 32 →
    ∃ p h' m', A.kmalloc h m n = some (p, h', m') ∧
      (p = 0 → I h' m' L W ∧ Keeps W m m') ∧
      (p ≠ 0 → (∀ w ∈ W, w ∈ L ∨ clear ⟨p, n⟩ w) →
        I h' m' (insert ⟨p, n⟩ L) (insert ⟨p, n⟩ W) ∧ Keeps W m m' ∧ ⟨p, n⟩ ∉ W)
  kfree : ∀ {h m L W s}, I h m L W → s ∈ L → ∃ h' m', A.kfree h m s.addr = some (h', m') ∧
    I h' m' (L \ {s}) W ∧ Keeps W m m'
  store : ∀ {h m L W m'}, I h m L W → (∀ x, m' x ≠ m x → ∃ s ∈ L, s.Has x) → I h m' L W
  forget : ∀ {h m L V W}, I h m L W → L ⊆ V → V ⊆ W → I h m L V

inductive Call where
  | malloc (size ptr : ℕ)
  | free (ptr : ℕ)
  deriving DecidableEq, Repr

/-- The calls so far, the last one first. -/
abbrev Ledger := List Call

namespace Ledger

/-- The pointers handed out and not freed yet. -/
def held : Ledger → List ℕ
  | [] => []
  | .malloc _ p :: l => if p = 0 then held l else p :: held l
  | .free p :: l => (held l).erase p

/-- Blocks are handed out while nobody has them, and handed back by whom has them. -/
def Clean : Ledger → Prop
  | [] => True
  | .malloc _ p :: l => p ∉ held l ∧ Clean l
  | .free p :: l => p ∈ held l ∧ Clean l

/-- The calls were clean, and the pointers of `P` are held now. -/
structure Tracks (l : Ledger) (P : Set ℕ) : Prop where
  clean : l.Clean
  nodup : l.held.Nodup
  held : ∀ p, p ∈ l.held ↔ p ∈ P

namespace Tracks
variable {l : Ledger} {P : Set ℕ} {n p : ℕ}

theorem nil : Tracks [] ∅ := ⟨trivial, List.nodup_nil, fun _ => by simp [Ledger.held]⟩

theorem malloc (h : Tracks l P) (h0 : p ≠ 0) (hp : p ∉ P) :
    Tracks (.malloc n p :: l) (insert p P) := by
  have hnew : p ∉ l.held := fun hin => hp ((h.held p).mp hin)
  refine ⟨⟨hnew, h.clean⟩, ?_, fun q => ?_⟩
  · rw [Ledger.held, if_neg h0]
    exact List.nodup_cons.mpr ⟨hnew, h.nodup⟩
  · rw [Ledger.held, if_neg h0, List.mem_cons, h.held, Set.mem_insert_iff]

theorem malloc_null (h : Tracks l P) (h0 : 0 ∉ P) : Tracks (.malloc n 0 :: l) P :=
  ⟨⟨fun hin => h0 ((h.held 0).mp hin), h.clean⟩, h.nodup, h.held⟩

theorem free (h : Tracks l P) (hp : p ∈ P) : Tracks (.free p :: l) (P \ {p}) := by
  refine ⟨⟨(h.held p).mpr hp, h.clean⟩, h.nodup.erase p, fun q => ?_⟩
  rw [Ledger.held, h.nodup.mem_erase_iff, h.held, Set.mem_sdiff, Set.mem_singleton_iff, and_comm]

end Tracks

/-- Every pointer freed. -/
def freed : Ledger → List ℕ
  | [] => []
  | .malloc _ _ :: l => freed l
  | .free p :: l => p :: freed l

end Ledger

/-- The same allocator with a record of its calls. -/
def audited (A : Allocator H) : Allocator (H × Ledger) where
  kmalloc h m n := (A.kmalloc h.1 m n).map (fun r => (r.1, (r.2.1, .malloc n r.1 :: h.2), r.2.2))
  kfree h m p := (A.kfree h.1 m p).map (fun r => ((r.1, .free p :: h.2), r.2))

theorem audited_kmalloc {A : Allocator H} {h h' : H × Ledger} {m m' : Mem} {n p : ℕ}
    (hrun : A.audited.kmalloc h m n = some (p, h', m')) :
    A.kmalloc h.1 m n = some (p, h'.1, m') ∧ h'.2 = .malloc n p :: h.2 := by
  obtain ⟨r, hr, he⟩ := Option.map_eq_some_iff.mp hrun
  cases he
  exact ⟨hr, rfl⟩

theorem audited_kfree {A : Allocator H} {h h' : H × Ledger} {m m' : Mem} {p : ℕ}
    (hrun : A.audited.kfree h m p = some (h', m')) :
    A.kfree h.1 m p = some (h'.1, m') ∧ h'.2 = .free p :: h.2 := by
  obtain ⟨r, hr, he⟩ := Option.map_eq_some_iff.mp hrun
  cases he
  exact ⟨hr, rfl⟩

/-- The record does not change what clients may rely on. -/
theorem Keeping.audited {A : Allocator H} {I : H → Mem → Set Span → Set Span → Prop}
    {clear : Span → Span → Prop} (hA : A.Keeping I clear) :
    A.audited.Keeping (fun h m L W => I h.1 m L W) clear where
  live_sub hI := hA.live_sub hI
  bounds hI := hA.bounds hI
  apart hI := hA.apart hI
  kmalloc hI hn hn' := by
    obtain ⟨p, h', m', hrun, hnull, hsome⟩ := hA.kmalloc hI hn hn'
    exact ⟨p, _, m', by change (A.kmalloc _ _ _).map _ = _; rw [hrun]; rfl, hnull, hsome⟩
  kfree hI hs := by
    obtain ⟨h', m', hrun, hI', hk⟩ := hA.kfree hI hs
    exact ⟨_, m', by change (A.kfree _ _ _).map _ = _; rw [hrun]; rfl, hI', hk⟩
  store hI hm := hA.store hI hm
  forget hI hLV hVW := hA.forget hI hLV hVW

theorem Lawful.audited {A : Allocator H} {I : H → Mem → Set Span → Prop} {region : Set ℕ}
    {ok : ℕ → Prop} (hA : A.Lawful I region ok) :
    A.audited.Lawful (fun h m L => I h.1 m L) region ok where
  size_pos hI := hA.size_pos hI
  apart hI := hA.apart hI
  inside hI := hA.inside hI
  serves hI := hA.serves hI
  kmalloc hI hn hok := by
    obtain ⟨p, h', m', hrun, hrest⟩ := hA.kmalloc hI hn hok
    exact ⟨p, _, m', by change (A.kmalloc _ _ _).map _ = _; rw [hrun]; rfl, hrest⟩
  kfree hI hs := by
    obtain ⟨h', m', hrun, hrest⟩ := hA.kfree hI hs
    exact ⟨_, m', by change (A.kfree _ _ _).map _ = _; rw [hrun]; rfl, hrest⟩
  store hI hm := hA.store hI hm

/-! ## Memory that is never reused -/

/-- The allocator that hands out ascending addresses and ignores frees. -/
def bump : Allocator ℕ where
  kmalloc h m n := if h + n < 2 ^ 32 then some (h, h + n, m) else some (0, h, m)
  kfree h m _ := some (h, m)

/-- What was handed out lies below the next address. -/
structure Below (h : ℕ) (L W : Set Span) : Prop where
  pos : 0 < h
  lt : h < 2 ^ 32
  sub : L ⊆ W
  bounds : ∀ w ∈ W, 0 < w.addr ∧ 0 < w.size ∧ w.addr + w.size ≤ h
  apart : W.Pairwise Span.Apart

theorem Below.insert {h n : ℕ} {L W : Set Span} (hb : Below h L W) (hn : 0 < n)
    (hlt : h + n < 2 ^ 32) : Below (h + n) (insert ⟨h, n⟩ L) (insert ⟨h, n⟩ W) ∧
      ∀ w ∈ W, Span.Apart ⟨h, n⟩ w := by
  have hap : ∀ w ∈ W, Span.Apart ⟨h, n⟩ w := fun w hw => .inr (hb.bounds w hw).2.2
  refine ⟨⟨by have := hb.pos; omega, hlt, Set.insert_subset_insert hb.sub, fun w hw => ?_,
    Set.pairwise_insert_of_symm.mpr ⟨hb.apart, fun w hw _ => hap w hw⟩⟩, hap⟩
  rcases hw with rfl | hw
  · exact ⟨hb.pos, hn, le_rfl⟩
  · have := hb.bounds w hw
    omega

theorem bump_kmalloc (h n : ℕ) (m : Mem) :
    (h + n < 2 ^ 32 ∧ bump.kmalloc h m n = some (h, h + n, m)) ∨
      bump.kmalloc h m n = some (0, h, m) := by
  by_cases hlt : h + n < 2 ^ 32
  · exact .inl ⟨hlt, if_pos hlt⟩
  · exact .inr (if_neg hlt)

/-- Freed spans are kept whatever is handed out later. -/
theorem bump_keeping : bump.Keeping (fun h _ L W => Below h L W) (fun _ _ => True) where
  live_sub hI := hI.sub
  bounds hI hw := by
    have := hI.bounds _ hw
    have := hI.lt
    omega
  apart hI := hI.apart
  kmalloc := by
    intro h m L W n hI hn _
    rcases bump_kmalloc h n m with ⟨hlt, hrun⟩ | hrun
    · obtain ⟨hI', hap⟩ := hI.insert hn hlt
      have := hI.pos
      exact ⟨h, h + n, m, hrun, fun h0 => by omega,
        fun _ _ => ⟨hI', Keeps.refl W m, fun hm => (hap _ hm).not_self hn⟩⟩
    · exact ⟨0, h, m, hrun, fun _ => ⟨hI, Keeps.refl W m⟩, fun h0 => absurd rfl h0⟩
  kfree := by
    intro h m L W s hI _
    exact ⟨h, m, rfl, ⟨hI.pos, hI.lt, Set.sdiff_subset.trans hI.sub, hI.bounds, hI.apart⟩,
      Keeps.refl W m⟩
  store hI _ := hI
  forget hI hLV hVW :=
    ⟨hI.pos, hI.lt, hLV, fun w hw => hI.bounds w (hVW hw), hI.apart.mono hVW⟩

end Allocator
end ShadOS.Machine

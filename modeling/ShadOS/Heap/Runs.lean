import ShadOS.Heap.Invariant
import ShadOS.Machine.Runs
import Mathlib.Logic.Function.Basic

/-! # Clients of the kernel heap

Clients allocate, free the pointers they hold, and store bytes inside their
own allocations, in any order. In every state they reach the headers read from
memory tile the heap, the live blocks are the clients' allocations, and no call
writes a byte of another allocation.
-/

namespace ShadOS.Heap
open Machine

/-- The heap with the pointer and requested size of every allocation not freed yet. -/
structure Session where
  vars : HeapVars
  mem : Mem
  owned : List (ℕ × ℕ)

inductive Event where
  | malloc (size : ℕ)
  | free (ptr : ℕ)
  | store (addr : ℕ) (byte : UInt8)

namespace Session

def step (s : Session) : Event → Option Session
  | .malloc n => (kmalloc s.vars s.mem n).map (fun r =>
      { s with mem := r.2, owned := if r.1 = 0 then s.owned else (r.1, n) :: s.owned })
  | .free p => (kfree s.vars s.mem p).map (fun m =>
      { s with mem := m, owned := s.owned.filter (fun a => a.1 ≠ p) })
  | .store a v => some { s with mem := Function.update s.mem a v }

/-- Sizes are 32-bit, only held pointers or `NULL` are freed, and a store stays
inside `[p, p + n)` for a held `p = kmalloc(n)` whose rounding did not wrap. -/
def allowed (s : Session) : Event → Prop
  | .malloc n => n < 2 ^ 32
  | .free p => p = 0 ∨ ∃ n, (p, n) ∈ s.owned
  | .store a _ => ∃ p n, (p, n) ∈ s.owned ∧ n + 7 < 2 ^ 32 ∧ p ≤ a ∧ a < p + n

def initial (k : KernelEnd) (m : Mem) : Session := ⟨(heapInit k.addr m).1, (heapInit k.addr m).2, []⟩

end Session

/-- Clients of the heap built behind `kernel_end`, from any initial memory. -/
def clients (k : KernelEnd) : System Session Event where
  init s := ∃ m, s = Session.initial k m
  allowed := Session.allowed
  step := Session.step

/-- The live blocks are the allocations held, each with room for its request. -/
structure SessionOk (s : Session) (bs : List Block) : Prop where
  heap : HeapOk s.vars s.mem bs
  held : ∀ b ∈ bs, b.free = false → ∃ n, (b.addr + 12, n) ∈ s.owned
  backed : ∀ p n, (p, n) ∈ s.owned → ∃ b ∈ bs, b.free = false ∧ b.addr + 12 = p ∧
    (n + 7 < 2 ^ 32 → n ≤ b.size)
  nodup : (s.owned.map Prod.fst).Nodup

/-- The payload of `b` is the same in both memories. -/
def SamePayload (b : Block) (m m' : Mem) : Prop :=
  ∀ x, b.addr + 12 ≤ x → x < b.addr + 12 + b.size → m' x = m x

namespace SessionOk
variable {s : Session} {bs : List Block} {n : ℕ}

theorem start (k : KernelEnd) (m : Mem) :
    SessionOk (Session.initial k m) [⟨alignUp k.addr 4096, heapSize - headerSize, true⟩] :=
  ⟨heapInit_ok k m, by simp, by simp [Session.initial], by simp [Session.initial]⟩

/-- An allocation finds no block and changes nothing, or takes the first fit. -/
theorem malloc_cases (hok : SessionOk s bs) (n : ℕ) :
    (kmalloc s.vars s.mem n = some (0, s.mem) ∧ s.step (.malloc n) = some s ∧
      (n = 0 ∨ geometry.firstFit (alignUp n alignment) bs = none)) ∨
    ∃ d cs m', n ≠ 0 ∧ geometry.firstFit (alignUp n alignment) bs = some (d, cs) ∧
      kmalloc s.vars s.mem n = some (d.addr + 12, m') ∧
      s.step (.malloc n) = some { s with mem := m', owned := (d.addr + 12, n) :: s.owned } ∧
      SessionOk { s with mem := m', owned := (d.addr + 12, n) :: s.owned } cs ∧
      ∀ x, ¬ TakeWrites (alignUp n alignment) d x → m' x = s.mem x := by
  have hnone (h : kmalloc s.vars s.mem n = some (0, s.mem)) : s.step (.malloc n) = some s := by
    simp [Session.step, h]
  by_cases hn : n = 0
  · subst hn
    exact .inl ⟨rfl, hnone rfl, .inl rfl⟩
  cases hf : geometry.firstFit (alignUp n alignment) bs with
  | none =>
    have hrun := hok.heap.kmalloc_none hn hf
    exact .inl ⟨hrun, hnone hrun, .inr rfl⟩
  | some r =>
    obtain ⟨d, cs⟩ := r
    obtain ⟨m', hrun, hheap, hframe⟩ := hok.heap.kmalloc_some hn hf
    obtain ⟨pre, post, hbs, -, hdf, hfit, -⟩ := Geometry.firstFit_some hf
    have hd : d ∈ bs := hbs ▸ by simp
    have hlive := Geometry.firstFit_live hf
    have hsize : n + 7 < 2 ^ 32 → n ≤ (geometry.taken (alignUp n alignment) d).size := by
      intro hlt
      have hround := (alignUp_of_lt hlt).1
      exact hround.trans (Geometry.taken_size hfit)
    have hfresh : ∀ p k, (p, k) ∈ s.owned → p ≠ d.addr + 12 := by
      intro p k hpk he
      obtain ⟨b, hb, hbf, hbp, -⟩ := hok.backed p k hpk
      have := hok.heap.tiles.eq_of_addr hb hd (by omega)
      rw [this, hdf] at hbf
      cases hbf
    refine .inr ⟨d, cs, m', hn, rfl, hrun, by simp [Session.step, hrun], ⟨hheap, ?_, ?_, ?_⟩, hframe⟩
    · intro b hb hbf
      rcases (hlive b).mp (mem_live.mpr ⟨hb, hbf⟩) with hb | rfl
      · obtain ⟨k, hk⟩ := hok.held b (mem_live.mp hb).1 hbf
        exact ⟨k, List.mem_cons_of_mem _ hk⟩
      · exact ⟨n, List.mem_cons_self⟩
    · intro p k hpk
      rcases List.mem_cons.mp hpk with he | hpk
      · cases he
        have := (hlive _).mpr (.inr rfl)
        exact ⟨_, (mem_live.mp this).1, rfl, rfl, hsize⟩
      · obtain ⟨b, hb, hbf, hbp⟩ := hok.backed p k hpk
        have := (hlive b).mpr (.inl (mem_live.mpr ⟨hb, hbf⟩))
        exact ⟨b, (mem_live.mp this).1, hbf, hbp⟩
    · refine List.nodup_cons.mpr ⟨?_, hok.nodup⟩
      intro hmem
      obtain ⟨⟨p, k⟩, hpk, he⟩ := List.mem_map.mp hmem
      exact hfresh p k hpk he

/-- An allocation returns and leaves every live payload as it was. -/
theorem malloc (hok : SessionOk s bs) (n : ℕ) : ∃ s' cs, s.step (.malloc n) = some s' ∧
    SessionOk s' cs ∧ s'.vars = s.vars ∧ (∀ b ∈ live bs, SamePayload b s.mem s'.mem) := by
  rcases hok.malloc_cases n with ⟨-, hstep, -⟩ | ⟨d, cs, m', -, hf, -, hstep, hok', hframe⟩
  · exact ⟨s, bs, hstep, hok, rfl, fun _ _ _ _ _ => rfl⟩
  · refine ⟨_, cs, hstep, hok', rfl, fun b hb x hlo hhi => hframe x (fun hw => ?_)⟩
    obtain ⟨pre, post, hbs, -, hdf, -, -⟩ := Geometry.firstFit_some hf
    have hd : d ∈ bs := hbs ▸ by simp
    refine hok.heap.tiles.not_occupied hd hdf (takeWrites_bounds hw) ⟨b, hb, by omega, hhi⟩

/-- One release of a held pointer, with every other live payload as before. -/
theorem free (hok : SessionOk s bs) {p : ℕ} (hp : ∃ n, (p, n) ∈ s.owned) :
    ∃ s' b, b ∈ live bs ∧ b.addr + 12 = p ∧ s.step (.free p) = some s' ∧
      SessionOk s' (geometry.release b.addr bs) ∧ s'.vars = s.vars ∧
      s'.owned = s.owned.filter (fun a => a.1 ≠ p) ∧
      (∀ c ∈ bs, SamePayload c s.mem s'.mem) := by
  obtain ⟨n, hpn⟩ := hp
  obtain ⟨b, hb, hbf, rfl, hbn⟩ := hok.backed p n hpn
  obtain ⟨m', hrun, hheap, hframe⟩ := hok.heap.kfree_some hb
  have hlive : ∀ c, c ∈ live (geometry.release b.addr bs) ↔ c ∈ live bs ∧ c.addr ≠ b.addr := by
    intro c
    rw [Geometry.live_release]
    simp
  refine ⟨{ s with mem := m', owned := s.owned.filter (fun a => a.1 ≠ b.addr + 12) }, b,
    mem_live.mpr ⟨hb, hbf⟩, rfl, by simp [Session.step, hrun], ⟨hheap, ?_, ?_, ?_⟩, rfl, rfl, ?_⟩
  · intro c hc hcf
    obtain ⟨hc, hne⟩ := (hlive c).mp (mem_live.mpr ⟨hc, hcf⟩)
    obtain ⟨k, hk⟩ := hok.held c (mem_live.mp hc).1 hcf
    exact ⟨k, List.mem_filter.mpr ⟨hk, by simpa using hne⟩⟩
  · intro q k hqk
    obtain ⟨hqk, hne⟩ := List.mem_filter.mp hqk
    obtain ⟨c, hc, hcf, rfl, hcn⟩ := hok.backed q k hqk
    have := (hlive c).mpr ⟨mem_live.mpr ⟨hc, hcf⟩, by simpa using hne⟩
    exact ⟨c, (mem_live.mp this).1, hcf, rfl, hcn⟩
  · exact hok.nodup.sublist ((List.filter_sublist).map _)
  · intro c hc x hlo hhi
    exact hframe x (fun d hd _ => payload_not_inHeader hok.heap.tiles hc hd ⟨hlo, hhi⟩)

/-- A store inside a held allocation reaches no header. -/
theorem store (hok : SessionOk s bs) {a : ℕ} {v : UInt8} (ha : s.allowed (.store a v)) :
    SessionOk { s with mem := Function.update s.mem a v } bs := by
  obtain ⟨p, n, hpn, hlt, hlo, hhi⟩ := ha
  obtain ⟨b, hb, hbf, rfl, hbn⟩ := hok.backed p n hpn
  have := hbn hlt
  refine ⟨⟨hok.heap.chain.congr (fun c hc x hx => ?_), hok.heap.tiles, hok.heap.coalesced,
    hok.heap.start, hok.heap.fits⟩, hok.held, hok.backed, hok.nodup⟩
  refine Function.update_of_ne ?_ v s.mem
  rintro rfl
  exact payload_not_inHeader hok.heap.tiles hb hc ⟨hlo, by omega⟩ hx

/-- Every allowed event returns and keeps the invariant. -/
theorem step (hok : SessionOk s bs) {e : Event} (he : s.allowed e) :
    ∃ s' cs, s.step e = some s' ∧ SessionOk s' cs ∧ s'.vars = s.vars := by
  cases e with
  | malloc n =>
    obtain ⟨s', cs, hs, hok', hv, -⟩ := hok.malloc n
    exact ⟨s', cs, hs, hok', hv⟩
  | free p =>
    rcases he with rfl | hp
    · refine ⟨_, bs, rfl, ⟨hok.heap, ?_, ?_, ?_⟩, rfl⟩
      · intro b hb hbf
        obtain ⟨n, hn⟩ := hok.held b hb hbf
        exact ⟨n, List.mem_filter.mpr ⟨hn, by simp⟩⟩
      · intro p n hpn
        exact hok.backed p n (List.mem_filter.mp hpn).1
      · exact hok.nodup.sublist ((List.filter_sublist).map _)
    · obtain ⟨s', b, -, -, hs, hok', hv, -⟩ := hok.free hp
      exact ⟨s', _, hs, hok', hv⟩
  | store a v => exact ⟨_, bs, rfl, hok.store he, rfl⟩

end SessionOk

/-- The invariant holds in every state the clients reach. -/
theorem reaches_ok {k : KernelEnd} {s : Session} (hs : (clients k).Reaches s) :
    (∃ bs, SessionOk s bs) ∧
      s.vars = ⟨alignUp k.addr 4096, alignUp k.addr 4096, heapSize⟩ := by
  refine hs.invariant (P := fun s => (∃ bs, SessionOk s bs) ∧ s.vars = _) ?_ ?_
  · rintro s ⟨m, rfl⟩
    exact ⟨⟨_, SessionOk.start k m⟩, rfl⟩
  · rintro s e s' ⟨⟨bs, hok⟩, hv⟩ ha hstep
    obtain ⟨t, cs, ht, hok', hv'⟩ := hok.step ha
    cases hstep.symm.trans ht
    exact ⟨⟨cs, hok'⟩, hv'.trans hv⟩

/-! ## Safety of every reachable heap -/

/-- The header chain read from memory, and how the clients' allocations sit in it. -/
structure HeapSafe (k : KernelEnd) (s : Session) (bs : List Block) : Prop where
  chain : Chain s.mem s.vars.heapStart bs
  start : s.vars.heapStart = alignUp k.addr 4096
  increasing : (bs.map Block.addr).Pairwise (· < ·)
  tiles : geometry.Tiles (alignUp k.addr 4096) bs (alignUp k.addr 4096 + heapSize)
  coalesced : Coalesced bs
  live_iff : ∀ p, (∃ b ∈ bs, b.free = false ∧ b.addr + 12 = p) ↔ ∃ n, (p, n) ∈ s.owned
  owned_nodup : (s.owned.map Prod.fst).Nodup
  room : ∀ p n, (p, n) ∈ s.owned → n + 7 < 2 ^ 32 →
    ∃ b ∈ bs, b.free = false ∧ b.addr + 12 = p ∧ n ≤ b.size
  payloads_apart : ∀ b ∈ live bs, ∀ c ∈ live bs, b ≠ c → ∀ x,
    b.addr + 12 ≤ x ∧ x < b.addr + 12 + b.size → ¬ (c.addr + 12 ≤ x ∧ x < c.addr + 12 + c.size)
  headers_apart : ∀ b ∈ live bs, ∀ c ∈ bs, ∀ x,
    b.addr + 12 ≤ x ∧ x < b.addr + 12 + b.size → ¬ InHeader c.addr x

theorem SessionOk.safe {k : KernelEnd} {s : Session} {bs : List Block} (hok : SessionOk s bs)
    (hv : s.vars = ⟨alignUp k.addr 4096, alignUp k.addr 4096, heapSize⟩) : HeapSafe k s bs := by
  have ht := hok.heap.tiles
  refine ⟨hok.heap.chain, congrArg HeapVars.heapStart hv, ?_, ?_, hok.heap.coalesced, ?_,
    hok.nodup, ?_, ?_, ?_⟩
  · refine List.pairwise_map.mpr (ht.pairwise.imp (fun {b c} hbc => ?_))
    exact lt_of_lt_of_le (geometry.addr_lt_stop b) hbc
  · rwa [hv] at ht
  · intro p
    constructor
    · rintro ⟨b, hb, hbf, rfl⟩
      exact hok.held b hb hbf
    · rintro ⟨n, hpn⟩
      obtain ⟨b, hb, hbf, hbp, -⟩ := hok.backed p n hpn
      exact ⟨b, hb, hbf, hbp⟩
  · intro p n hpn hn
    obtain ⟨b, hb, hbf, hbp, hbn⟩ := hok.backed p n hpn
    exact ⟨b, hb, hbf, hbp, hbn hn⟩
  · intro b hb c hc hne x hx hx'
    refine hne (ht.eq_of_overlap (mem_live.mp hb).1 (mem_live.mp hc).1 (x := x) ?_ ?_)
    all_goals
      rw [stop_eq]
      omega
  · intro b hb c hc x hx
    exact payload_not_inHeader ht (mem_live.mp hb).1 hc hx

/-- In every reachable state the heap read from memory is well formed and backs
exactly the clients' allocations; every call returns and leaves the payload of
every other allocation as it was. -/
theorem clients_safe (k : KernelEnd) (s : Session) (hs : (clients k).Reaches s) :
    ∃ bs, HeapSafe k s bs ∧
      (∀ n, s.allowed (.malloc n) → ∃ s', s.step (.malloc n) = some s' ∧
        ∀ b ∈ live bs, SamePayload b s.mem s'.mem) ∧
      (∀ p, s.allowed (.free p) → ∃ s', s.step (.free p) = some s' ∧
        ∀ b ∈ live bs, b.addr + 12 ≠ p → SamePayload b s.mem s'.mem) := by
  obtain ⟨⟨bs, hok⟩, hv⟩ := reaches_ok hs
  refine ⟨bs, hok.safe hv, fun n _ => ?_, fun p hp => ?_⟩
  · obtain ⟨s', cs, hstep, -, -, hsame⟩ := hok.malloc n
    exact ⟨s', hstep, hsame⟩
  · rcases hp with rfl | hp
    · exact ⟨_, rfl, fun _ _ _ _ _ _ => rfl⟩
    · obtain ⟨s', b, -, -, hstep, -, -, -, hsame⟩ := hok.free hp
      exact ⟨s', hstep, fun c hc _ => hsame c (mem_live.mp hc).1⟩

/-- An image that ends at 1 MiB. -/
def smallImage : KernelEnd := ⟨0x100000, le_rfl, by decide⟩

/-- The heap of `smallImage` in zeroed memory. -/
def freshSession : Session := Session.initial smallImage (fun _ => 0)

theorem freshSession_reaches : (clients smallImage).Reaches freshSession := .start ⟨_, rfl⟩

/-- An allocation that finds the block `d`. -/
theorem reaches_malloc {k : KernelEnd} {s : Session} {bs cs : List Block} {d : Block} {n : ℕ}
    (hs : (clients k).Reaches s) (hok : SessionOk s bs) (hn : n ≠ 0) (hlt : n < 2 ^ 32)
    (hf : geometry.firstFit (alignUp n alignment) bs = some (d, cs)) :
    ∃ s', (clients k).Reaches s' ∧ s'.owned = (d.addr + 12, n) :: s.owned ∧ SessionOk s' cs := by
  rcases hok.malloc_cases n with ⟨-, -, h0 | hnone⟩ | ⟨d', cs', m', -, hf', -, hstep, hok', -⟩
  · exact absurd h0 hn
  · cases hf.symm.trans hnone
  · cases hf.symm.trans hf'
    have hallowed : (clients k).allowed s (.malloc n) := hlt
    exact ⟨_, hs.step hallowed hstep, rfl, hok'⟩

/-- Two live blocks behind a free one. -/
def fragments : List Block :=
  [⟨0x100000, 32, true⟩, ⟨0x10002c, 40, false⟩, ⟨0x100060, 24, false⟩, ⟨0x100084, 8388464, true⟩]

theorem freshSession_ok : SessionOk freshSession [⟨0x100000, 8388596, true⟩] :=
  SessionOk.start smallImage fun _ => 0

theorem firstFit_fresh : geometry.firstFit (alignUp 32 alignment) [⟨0x100000, 8388596, true⟩] =
    some (⟨0x100000, 8388596, true⟩, [⟨0x100000, 32, false⟩, ⟨0x10002c, 8388552, true⟩]) := by
  decide

theorem firstFit_fragments : geometry.firstFit (alignUp 40 alignment) fragments =
    some (⟨0x100084, 8388464, true⟩, [⟨0x100000, 32, true⟩, ⟨0x10002c, 40, false⟩,
      ⟨0x100060, 24, false⟩, ⟨0x100084, 40, false⟩, ⟨0x1000b8, 8388412, true⟩]) := by
  decide

/-- Three allocations, and the release of the first. -/
theorem fragmented : ∃ s, (clients smallImage).Reaches s ∧ SessionOk s fragments ∧
    s.owned = [(0x10006c, 24), (0x100038, 40)] := by
  obtain ⟨s₁, h₁, ho₁, hok₁⟩ :=
    reaches_malloc freshSession_reaches freshSession_ok (by decide) (by decide) firstFit_fresh
  have hfit₂ : geometry.firstFit (alignUp 40 alignment)
      [⟨0x100000, 32, false⟩, ⟨0x10002c, 8388552, true⟩] = some (⟨0x10002c, 8388552, true⟩,
        [⟨0x100000, 32, false⟩, ⟨0x10002c, 40, false⟩, ⟨0x100060, 8388500, true⟩]) := by decide
  obtain ⟨s₂, h₂, ho₂, hok₂⟩ := reaches_malloc h₁ hok₁ (by decide) (by decide) hfit₂
  have hfit₃ : geometry.firstFit (alignUp 24 alignment)
      [⟨0x100000, 32, false⟩, ⟨0x10002c, 40, false⟩, ⟨0x100060, 8388500, true⟩] =
      some (⟨0x100060, 8388500, true⟩, [⟨0x100000, 32, false⟩, ⟨0x10002c, 40, false⟩,
        ⟨0x100060, 24, false⟩, ⟨0x100084, 8388464, true⟩]) := by decide
  obtain ⟨s₃, h₃, ho₃, hok₃⟩ := reaches_malloc h₂ hok₂ (by decide) (by decide) hfit₃
  have howned : s₃.owned = [(0x10006c, 24), (0x100038, 40), (0x10000c, 32)] := by
    rw [ho₃, ho₂, ho₁]
    rfl
  have hheld : ∃ n, (0x10000c, n) ∈ s₃.owned := ⟨32, by simp [howned]⟩
  obtain ⟨s₄, b, hb, haddr, h₄, hok₄, -, ho₄, -⟩ := hok₃.free hheld
  have hsize : b.addr = 0x100000 := by omega
  rw [hsize] at hok₄
  have hallowed : (clients smallImage).allowed s₃ (.free 0x10000c) := Or.inr hheld
  refine ⟨s₄, h₃.step hallowed h₄, hok₄, ?_⟩
  rw [ho₄, howned]
  rfl

/-- Both allocations are backed, apart from each other and from every header. -/
theorem clients_safe_fragmented : ∃ s bs, (clients smallImage).Reaches s ∧
    s.owned = [(0x10006c, 24), (0x100038, 40)] ∧ HeapSafe smallImage s bs ∧
    ∃ s', s.step (.free 0x100038) = some s' ∧
      ∀ b ∈ live bs, b.addr + 12 ≠ 0x100038 → SamePayload b s.mem s'.mem := by
  obtain ⟨s, hreach, -, howned⟩ := fragmented
  obtain ⟨bs, hsafe, -, hfree⟩ := clients_safe smallImage s hreach
  exact ⟨s, bs, hreach, howned, hsafe, hfree 0x100038 (Or.inr ⟨40, by simp [howned]⟩)⟩

end ShadOS.Heap

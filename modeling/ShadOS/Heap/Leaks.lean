import ShadOS.Shell.Alloctest
import ShadOS.Rtl8139.Buffers
import ShadOS.Rtl8139.Route

/-! # Operations that need several blocks

`cmd_alloctest` and `rtl8139_init` ask for all their blocks first. A request refused
behind one that was served, or before it, leaves the block taken. Whether this
happens is seen from the free blocks before the call.
-/

namespace ShadOS.Heap
open Machine

universe u

/-- The block list read from this heap is that of the session. -/
def Session.SameBlocks (s : Session) (h : HeapVars) (m : Mem) : Prop :=
  h = s.vars ∧ ({ s with mem := m } : Session).blocks = s.blocks

variable {k : KernelEnd} {s : Session} {bs cs : List Block} {h : HeapVars} {m : Mem}

theorem SessionOk.sameBlocks_iff (hok : SessionOk s bs) (hh : h = s.vars) (hcs : HeapOk s.vars m cs) :
    s.SameBlocks h m ↔ cs = bs := by
  rw [Session.SameBlocks, hcs.blocks, hok.blocks, Option.some_inj]
  exact and_iff_right hh

theorem SessionOk.alloctest_iff (hok : SessionOk s bs) {K : Shell.Kernel}
    (hheap : K.fs.heap = s.vars) (hmem : K.fs.mem = s.mem) :
    (∃ K', Shell.cmdAlloctest K = some K' ∧ s.SameBlocks K'.fs.heap K'.fs.mem) ↔
      Shell.TestRoom s.freeBlocks := by
  have hK : Shell.OnBlocks s.vars bs K := ⟨hheap, hmem ▸ hok.heap⟩
  obtain ⟨cs, ⟨K', hrun, hK'⟩, hiff⟩ := hK.alloctest
  rw [hok.freeBlocks_eq, ← Shell.allOrNone_iff_testRoom hok.heap.tiles, ← hiff,
    ← hok.sameBlocks_iff hK'.vars hK'.ok, hrun]
  simp

theorem SessionOk.init_iff (hok : SessionOk s bs) {C : Type u} (P : Rtl8139.Ports C) (handler : ℕ)
    {K : Rtl8139.Platform C HeapVars} (hheap : K.heap = s.vars) (hmem : K.mem = s.mem) :
    (∃ code K', Rtl8139.rtl8139Init P heapC handler K = some (code, K') ∧
        (code = 0 → s.SameBlocks K'.heap K'.mem)) ↔
      (Pci.pciFindDevice Rtl8139.rtlVendorId Rtl8139.rtlDeviceId K.config).1 = none ∨
        Rtl8139.BufferRoom s.freeBlocks := by
  obtain ⟨code, K', cs, hrun, hheap', hcs, hiff⟩ :=
    Rtl8139.rtl8139Init_blocks P handler (hheap ▸ hmem ▸ hok.heap)
  rw [hheap] at hheap' hcs
  rw [hok.freeBlocks_eq, ← Rtl8139.allOrNone_iff_bufferRoom hok.heap.tiles, ← hiff,
    ← hok.sameBlocks_iff hheap' hcs, hrun]
  simp

/-- From every reachable heap the two operations leave the block list as they found it, on every
path and when they fail, exactly when the free blocks serve all their requests or none. -/
theorem several_blocks_iff (hs : (clients k).Reaches s) :
    (∀ K : Shell.Kernel, K.fs.heap = s.vars → K.fs.mem = s.mem →
      ((∃ K', Shell.cmdAlloctest K = some K' ∧ s.SameBlocks K'.fs.heap K'.fs.mem) ↔
        Shell.TestRoom s.freeBlocks)) ∧
    ∀ {C : Type u} (P : Rtl8139.Ports C) (handler : ℕ) (K : Rtl8139.Platform C HeapVars),
      K.heap = s.vars → K.mem = s.mem →
      ((∃ code K', Rtl8139.rtl8139Init P heapC handler K = some (code, K') ∧
          (code = 0 → s.SameBlocks K'.heap K'.mem)) ↔
        (Pci.pciFindDevice Rtl8139.rtlVendorId Rtl8139.rtlDeviceId K.config).1 = none ∨
          Rtl8139.BufferRoom s.freeBlocks) := by
  obtain ⟨⟨bs, hok⟩, -⟩ := reaches_ok hs
  exact ⟨fun K hheap hmem => hok.alloctest_iff hheap hmem,
    fun P handler K hheap hmem => hok.init_iff P handler hheap hmem⟩

/-- The shell of a kernel with the heap of a session, and no files. -/
def Session.shell (s : Session) : Shell.Kernel :=
  ⟨⟨s.vars, s.mem, fun _ => ⟨Vector.replicate _ 0, 0, 0, false⟩, false⟩, []⟩

/-- One card on line 5, for a kernel with the heap of a session. -/
def Session.platform (s : Session) : Rtl8139.Platform Unit HeapVars :=
  ⟨(), Rtl8139.oneCard 5, ⟨0xFF, 0xFF⟩, fun _ => 0, s.vars, s.mem, ⟨0, 0, 0, 0⟩, 0, [], false⟩

theorem shell_heap (s : Session) : s.shell.fs.heap = s.vars ∧ s.shell.fs.mem = s.mem := ⟨rfl, rfl⟩

theorem platform_heap (s : Session) : s.platform.heap = s.vars ∧ s.platform.mem = s.mem :=
  ⟨rfl, rfl⟩

/-- One allocation on the fresh heap. -/
theorem fresh_malloc {n : ℕ} {d : Block} (hn : n ≠ 0) (hlt : n < 2 ^ 32)
    (hf : geometry.firstFit (alignUp n alignment)
      [⟨alignUp smallImage.addr 4096, heapSize - headerSize, true⟩] = some (d, cs)) :
    ∃ s, (clients smallImage).Reaches s ∧ SessionOk s cs := by
  have hok : SessionOk freshSession _ := SessionOk.start smallImage fun _ => 0
  rcases hok.malloc_cases n with ⟨-, -, hnone⟩ | ⟨d', cs', m, -, hf', -, hstep, hok', -⟩
  · rw [hf] at hnone
    exact absurd hnone (by simp [hn])
  · cases hf.symm.trans hf'
    have hallowed : freshSession.allowed (.malloc n) := hlt
    exact ⟨_, freshSession_reaches.step (e := Event.malloc n) hallowed hstep, hok'⟩

/-- The whole heap is room enough. -/
theorem several_blocks_fresh :
    (∃ K', Shell.cmdAlloctest freshSession.shell = some K' ∧
      freshSession.SameBlocks K'.fs.heap K'.fs.mem) ∧
    ∃ code K', Rtl8139.rtl8139Init Rtl8139.quietPorts heapC 1 freshSession.platform =
      some (code, K') ∧ (code = 0 → freshSession.SameBlocks K'.heap K'.mem) := by
  have hok : SessionOk freshSession _ := SessionOk.start smallImage fun _ => 0
  have hfree : freshSession.freeBlocks = [⟨0x100000, 8388596, true⟩] := by
    rw [hok.freeBlocks_eq]
    decide
  obtain ⟨htest, hinit⟩ := several_blocks_iff freshSession_reaches
  refine ⟨(htest _ (shell_heap _).1 (shell_heap _).2).mpr ?_,
    (hinit Rtl8139.quietPorts 1 _ (platform_heap _).1 (platform_heap _).2).mpr (.inr (.inr ?_))⟩
  · intro d hd
    rw [hfree] at hd
    obtain rfl : ⟨0x100000, 8388596, true⟩ = d := Option.some.inj hd
    exact .inl (by decide)
  · rw [hfree]
    exact ⟨_, List.mem_singleton_self _, by decide, .inl (by decide)⟩

/-- With 40 bytes left the first request of `cmd_alloctest` takes them and the others are refused;
with 1600 bytes left `rtl8139_init` takes them for its second buffer and returns 0. -/
theorem blocks_lost :
    (∃ s, (clients smallImage).Reaches s ∧
      s.blocks = some [⟨0x100000, 8388544, false⟩, ⟨0x8fffcc, 40, true⟩] ∧
      ¬ ∃ K', Shell.cmdAlloctest s.shell = some K' ∧ s.SameBlocks K'.fs.heap K'.fs.mem) ∧
    ∃ s, (clients smallImage).Reaches s ∧
      s.blocks = some [⟨0x100000, 8386984, false⟩, ⟨0x8ff9b4, 1600, true⟩] ∧
      ¬ ∃ code K', Rtl8139.rtl8139Init Rtl8139.quietPorts heapC 1 s.platform = some (code, K') ∧
        (code = 0 → s.SameBlocks K'.heap K'.mem) := by
  constructor
  · obtain ⟨s, hs, hok⟩ : ∃ s, (clients smallImage).Reaches s ∧
        SessionOk s [⟨0x100000, 8388544, false⟩, ⟨0x8fffcc, 40, true⟩] :=
      fresh_malloc (n := 8388544) (d := ⟨0x100000, 8388596, true⟩) (by decide) (by decide)
        (by decide)
    refine ⟨s, hs, hok.blocks, fun h => ?_⟩
    have hroom := (hok.alloctest_iff (shell_heap s).1 (shell_heap s).2).mp h
    rw [hok.freeBlocks_eq] at hroom
    have := hroom ⟨0x8fffcc, 40, true⟩ (by decide)
    simp at this
  · obtain ⟨s, hs, hok⟩ : ∃ s, (clients smallImage).Reaches s ∧
        SessionOk s [⟨0x100000, 8386984, false⟩, ⟨0x8ff9b4, 1600, true⟩] :=
      fresh_malloc (n := 8386984) (d := ⟨0x100000, 8388596, true⟩) (by decide) (by decide)
        (by decide)
    refine ⟨s, hs, hok.blocks, fun h => ?_⟩
    have hroom := (hok.init_iff _ 1 (platform_heap s).1 (platform_heap s).2).mp h
    have hfound : (Pci.pciFindDevice Rtl8139.rtlVendorId Rtl8139.rtlDeviceId
        s.platform.config).1 = some (0, 0, 0) := Rtl8139.oneCard_found 5
    rw [hok.freeBlocks_eq, hfound, or_iff_right (by simp)] at hroom
    simp [Rtl8139.BufferRoom] at hroom

end ShadOS.Heap

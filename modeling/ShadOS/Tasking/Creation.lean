import ShadOS.Heap.Rollback
import ShadOS.Tasking.OnHeap

/-! # Creation on the kernel heap

`task_create` asks for a descriptor and a stack. If the heap has no room for
one of them it returns -1 and the block list, the live payloads and the
variables of tasking.c are as before the call. Otherwise two blocks more are
live, and everything it writes lies in them and in the current descriptor.
-/

namespace ShadOS.Tasking
open Machine
open Heap (KernelEnd HeapVars HeapOk heapC geometry headerSize OutsideFree)

/-- One of the two calls of `kmalloc` fails. -/
def NoRoom (h : HeapVars) (m : Mem) : Prop :=
  (∃ m₁, Heap.kmalloc h m taskSize = some (0, m₁)) ∨
    ∃ t m₁ m₂, Heap.kmalloc h m taskSize = some (t, m₁) ∧ t ≠ 0 ∧
      Heap.kmalloc h m₁ taskStackSize = some (0, m₂)

/-- The bytes of the descriptor `t` lie outside the heap or in the payloads of live blocks. -/
def Usable (k : KernelEnd) (lives : List Block) (t : ℕ) : Prop :=
  ∀ x, (descriptor t).Has x → x ∉ Heap.region k ∨
    ∃ b ∈ lives, b.addr + headerSize ≤ x ∧ x < geometry.stop b

/-- The five words `switch_to` pops, `sp` being the saved stack pointer. -/
def FrameAt (m : Mem) (sp tramp : ℕ) : Prop :=
  readWord m sp = 0 ∧ readWord m (sp + 4) = 0 ∧ readWord m (sp + 8) = 0 ∧
    readWord m (sp + 12) = 0 ∧ readWord m (sp + 16) = u32 tramp

variable {k : KernelEnd} {K : Kernel HeapVars} {bs cs ds : List Block} {d e : Block} {m₁ m₂ : Mem}
  {tramp entry x : ℕ}

theorem alignUp_taskSize : Heap.alignUp taskSize Heap.alignment = taskSize := by decide

theorem alignUp_taskStackSize : Heap.alignUp taskStackSize Heap.alignment = taskStackSize := by
  decide

/-- The requests of `task_create` on a block list. -/
theorem twoRequests (hok : HeapOk K.heap K.mem bs) :
    (geometry.firstFit taskSize bs = none ∧
      heapC.kmalloc K.heap K.mem taskSize = some (0, K.heap, K.mem)) ∨
    ∃ d cs m₁, geometry.firstFit taskSize bs = some (d, cs) ∧
      heapC.kmalloc K.heap K.mem taskSize = some (d.addr + 12, K.heap, m₁) ∧
      HeapOk K.heap m₁ cs ∧ OutsideFree bs K.mem m₁ ∧
      ((geometry.firstFit taskStackSize cs = none ∧
          heapC.kmalloc K.heap m₁ taskStackSize = some (0, K.heap, m₁)) ∨
        ∃ e ds m₂, geometry.firstFit taskStackSize cs = some (e, ds) ∧
          heapC.kmalloc K.heap m₁ taskStackSize = some (e.addr + 12, K.heap, m₂) ∧
          HeapOk K.heap m₂ ds ∧ OutsideFree cs m₁ m₂) := by
  rcases hok.kmalloc_cases (n := taskSize) (by decide) with hnone | ⟨d, cs, m₁, hf, hrun, hok₁, hout⟩
  · exact .inl (alignUp_taskSize ▸ hnone)
  · rw [alignUp_taskSize] at hf
    refine .inr ⟨d, cs, m₁, hf, hrun, hok₁, hout, ?_⟩
    rcases hok₁.kmalloc_cases (n := taskStackSize) (by decide) with
      hnone | ⟨e, ds, m₂, hf₂, hrun₂, hok₂, hout₂⟩
    · exact .inl (alignUp_taskStackSize ▸ hnone)
    · exact .inr ⟨e, ds, m₂, alignUp_taskStackSize ▸ hf₂, hrun₂, hok₂, hout₂⟩

/-- Two pointers, and the second request did not fail. -/
theorem room_of_served {h : HeapVars} {m : Mem} {t u : ℕ}
    (hrun : heapC.kmalloc h m taskSize = some (t, h, m₁)) (ht : t ≠ 0)
    (hrun₂ : heapC.kmalloc h m₁ taskStackSize = some (u, h, m₂)) (hu : u ≠ 0) : ¬ NoRoom h m := by
  rintro (⟨m', hn⟩ | ⟨t', m', m'', hn, -, hn₂⟩)
  · cases (Heap.kmalloc_of_heapC hrun).symm.trans hn
    exact ht rfl
  · cases (Heap.kmalloc_of_heapC hrun).symm.trans hn
    cases (Heap.kmalloc_of_heapC hrun₂).symm.trans hn₂
    exact hu rfl

/-- Both requests of `task_create` found a block: `d`, then `e`. -/
structure TwoBlocks (h : HeapVars) (m m₁ m₂ : Mem) (bs cs ds : List Block) (d e : Block) : Prop where
  ok : HeapOk h m bs
  first : geometry.firstFit taskSize bs = some (d, cs)
  ok₁ : HeapOk h m₁ cs
  second : geometry.firstFit taskStackSize cs = some (e, ds)
  ok₂ : HeapOk h m₂ ds

/-- The blocks a new task gets. -/
def descriptorBlock (d : Block) : Block := geometry.taken taskSize d
def stackBlock (e : Block) : Block := geometry.taken taskStackSize e

theorem descriptorBlock_addr (d : Block) : (descriptorBlock d).addr = d.addr :=
  Geometry.taken_addr taskSize d

theorem stackBlock_addr (e : Block) : (stackBlock e).addr = e.addr :=
  Geometry.taken_addr taskStackSize e

namespace TwoBlocks
variable {h : HeapVars} {m : Mem} (two : TwoBlocks h m m₁ m₂ bs cs ds d e)
include two

theorem live_iff (b : Block) :
    b ∈ live ds ↔ b ∈ live bs ∨ b = descriptorBlock d ∨ b = stackBlock e := by
  rw [Geometry.firstFit_live two.second, Geometry.firstFit_live two.first, or_assoc]
  rfl

theorem descriptor_live : descriptorBlock d ∈ live ds := (two.live_iff _).mpr (.inr (.inl rfl))

theorem stack_live : stackBlock e ∈ live ds := (two.live_iff _).mpr (.inr (.inr rfl))

theorem fresh : descriptorBlock d ∉ live bs ∧ stackBlock e ∉ live bs ∧
    descriptorBlock d ≠ stackBlock e := by
  have hcs : ∀ b, b ∈ live cs ↔ b ∈ live bs ∨ b = descriptorBlock d :=
    Geometry.firstFit_live two.first
  have hstack : stackBlock e ∉ live cs := Geometry.taken_not_live two.ok₁.tiles two.second
  refine ⟨Geometry.taken_not_live two.ok.tiles two.first, fun hb => hstack ((hcs _).mpr (.inl hb)), ?_⟩
  intro he
  exact hstack ((hcs _).mpr (.inr he.symm))

theorem room : taskSize ≤ (descriptorBlock d).size ∧ taskStackSize ≤ (stackBlock e).size := by
  obtain ⟨-, -, -, -, -, hfit₁, -⟩ := Geometry.firstFit_some two.first
  obtain ⟨-, -, -, -, -, hfit₂, -⟩ := Geometry.firstFit_some two.second
  exact ⟨Geometry.taken_size hfit₁, Geometry.taken_size hfit₂⟩

theorem apart {b c : Block} (hb : b ∈ live ds) (hc : c ∈ live ds) (hne : b ≠ c) :
    geometry.stop b ≤ c.addr ∨ geometry.stop c ≤ b.addr :=
  (two.ok₂.tiles.disjoint (mem_live.mp hb).1 (mem_live.mp hc).1).resolve_left hne

theorem descriptor_inside (hx : (descriptor (d.addr + 12)).Has x) :
    (descriptorBlock d).addr + 12 ≤ x ∧ x < geometry.stop (descriptorBlock d) := by
  have hroom := two.room.1
  have haddr := descriptorBlock_addr d
  rw [descriptor_has] at hx
  rw [Heap.stop_eq]
  unfold taskSize at hroom
  omega

theorem stack_inside (hx : (stackSpan (e.addr + 12)).Has x) :
    (stackBlock e).addr + 12 ≤ x ∧ x < geometry.stop (stackBlock e) := by
  have hroom := two.room.2
  have haddr := stackBlock_addr e
  rw [stackSpan_has] at hx
  rw [Heap.stop_eq]
  unfold taskStackSize at hroom
  omega

/-- A byte is in the payload of one live block only, and in no header. -/
theorem payload_unique {b c : Block} (hb : b ∈ live ds) (hc : c ∈ live ds)
    (hbx : b.addr + 12 ≤ x ∧ x < geometry.stop b) (hcx : c.addr + 12 ≤ x ∧ x < geometry.stop c) :
    b = c :=
  two.ok₂.tiles.eq_of_overlap (mem_live.mp hb).1 (mem_live.mp hc).1 (x := x)
    ⟨by omega, hbx.2⟩ ⟨by omega, hcx.2⟩

theorem not_header {b c : Block} (hb : b ∈ live ds) (hc : c ∈ ds)
    (hbx : b.addr + 12 ≤ x ∧ x < geometry.stop b) : ¬ Heap.InHeader c.addr x :=
  Heap.payload_not_inHeader two.ok₂.tiles (mem_live.mp hb).1 hc hbx

theorem stack_fits : e.addr + 12 + taskStackSize ≤ 2 ^ 32 := by
  have hlt := two.ok₂.addr_lt (mem_live.mp two.stack_live).1
  have hroom := two.room.2
  have haddr := stackBlock_addr e
  omega

/-- Bytes the current descriptor may use are no header bytes, and none of the new blocks. -/
theorem usable_outside {cur : ℕ} (hbase : h.heapBaseAddr = Heap.alignUp k.addr 4096)
    (hcur : Usable k (live bs) cur) (hx : (descriptor cur).Has x) {c : Block} (hc : c ∈ ds) :
    ¬ Heap.InHeader c.addr x ∧ (c ∉ live bs → c.free = false →
      ¬ (c.addr + 12 ≤ x ∧ x < geometry.stop c)) := by
  have hbounds := two.ok₂.tiles.bounds hc
  rw [hbase] at hbounds
  have hstop := Heap.stop_eq c
  rcases hcur x hx with hout | ⟨b, hb, hbx⟩
  · have hregion : ¬ (c.addr ≤ x ∧ x < geometry.stop c) :=
      fun hin => hout ⟨by omega, by unfold Heap.heapSize at *; omega⟩
    refine ⟨fun hhead => hregion ⟨hhead.1, by have := hhead.2; omega⟩, fun _ _ hin => ?_⟩
    exact hregion ⟨by omega, hin.2⟩
  · have hbds : b ∈ live ds := (two.live_iff b).mpr (.inl hb)
    refine ⟨two.not_header hbds hc hbx, fun hnew hcf hin => ?_⟩
    exact hnew (two.payload_unique hbds (mem_live.mpr ⟨hc, hcf⟩) hbx hin ▸ hb)

/-- What the new task's memory is filled with misses every header. -/
theorem install {cur pid : ℕ} (hbase : h.heapBaseAddr = Heap.alignUp k.addr 4096)
    (hcur : Usable k (live bs) cur) :
    HeapOk h (installTask tramp m₂ cur (d.addr + 12) (e.addr + 12) entry pid) ds := by
  refine two.ok₂.congr fun c hc x hhead => installTask_outside two.stack_fits ?_ ?_ ?_
  · exact fun hx => two.not_header two.stack_live hc (two.stack_inside hx) hhead
  · exact fun hx => two.not_header two.descriptor_live hc (two.descriptor_inside hx) hhead
  · exact fun hx => (two.usable_outside hbase hcur hx hc).1 hhead

/-- The frame lies at the top of the stack block, and is still there at the end. -/
theorem frame {cur pid : ℕ} (hbase : h.heapBaseAddr = Heap.alignUp k.addr 4096)
    (hcur : Usable k (live bs) cur) :
    FrameAt (installTask tramp m₂ cur (d.addr + 12) (e.addr + 12) entry pid)
      (initialSp (e.addr + 12)) tramp := by
  have hsp := initialSp_eq two.stack_fits
  have hkeep : ∀ x, initialSp (e.addr + 12) ≤ x → x < initialSp (e.addr + 12) + 20 →
      installTask tramp m₂ cur (d.addr + 12) (e.addr + 12) entry pid x =
        initialFrame tramp m₂ (initialSp (e.addr + 12)) x := by
    intro x hlo hhi
    have hx : (stackSpan (e.addr + 12)).Has x := by
      rw [stackSpan_has]
      unfold taskStackSize at hsp
      omega
    have hstack := two.stack_inside hx
    have hdesc : ¬ (descriptor (d.addr + 12)).Has x := by
      intro hd
      exact two.fresh.2.2 (two.payload_unique two.descriptor_live two.stack_live
        (two.descriptor_inside hd) hstack)
    have hnew := mem_live.mp two.stack_live
    have hcurx : ¬ (descriptor cur).Has x := fun hc =>
      (two.usable_outside hbase hcur hc hnew.1).2 two.fresh.2.1 hnew.2 hstack
    rw [installTask, insertTask_outside hdesc hcurx, fillTask_outside hdesc]
  obtain ⟨h0, h1, h2, h3, h4⟩ := initialFrame_words m₂ tramp (initialSp (e.addr + 12))
  generalize initialSp (e.addr + 12) = sp at hkeep h0 h1 h2 h3 h4 ⊢
  have hword : ∀ a, sp ≤ a → a + 4 ≤ sp + 20 →
      readWord (installTask tramp m₂ cur (d.addr + 12) (e.addr + 12) entry pid) a =
        readWord (initialFrame tramp m₂ sp) a :=
    fun a hlo hhi => readWord_congr fun x _ _ => hkeep x (by omega) (by omega)
  refine ⟨(hword _ ?_ ?_).trans h0, (hword _ ?_ ?_).trans h1, (hword _ ?_ ?_).trans h2,
    (hword _ ?_ ?_).trans h3, (hword _ ?_ ?_).trans h4⟩
  all_goals omega

/-- The saved stack pointer is the start of the frame. -/
theorem saved {cur pid : ℕ} (hbase : h.heapBaseAddr = Heap.alignUp k.addr 4096)
    (hcur : Usable k (live bs) cur) :
    espOf (installTask tramp m₂ cur (d.addr + 12) (e.addr + 12) entry pid) (d.addr + 12) =
      initialSp (e.addr + 12) := by
  have hnew := mem_live.mp two.descriptor_live
  have hlt : initialSp (e.addr + 12) < 2 ^ 32 := sub32_lt _ _
  rw [installTask]
  generalize initialSp (e.addr + 12) = sp at hlt ⊢
  have hcurx : ∀ x, d.addr + 12 ≤ x → x < d.addr + 12 + 4 → ¬ (descriptor cur).Has x := by
    intro x hlo hhi hc
    have hx : (descriptor (d.addr + 12)).Has x := by
      rw [descriptor_has]
      omega
    exact (two.usable_outside hbase hcur hc hnew.1).2 two.fresh.1 hnew.2 (two.descriptor_inside hx)
  have hcurw : espOf (insertTask (fillTask (initialFrame tramp m₂ sp) (d.addr + 12) sp (e.addr + 12)
      entry pid .ready) cur (d.addr + 12)) (d.addr + 12) = espOf (fillTask
        (initialFrame tramp m₂ sp) (d.addr + 12) sp (e.addr + 12) entry pid .ready) (d.addr + 12) := by
    rw [insertTask, espOf, readWord_congr fun x hlo hhi => setNext_outside (hcurx x hlo hhi)]
    exact readWord_writeWord_of_disjoint (by omega)
  rw [hcurw, espOf_fillTask, u32_of_lt hlt]

end TwoBlocks

/-! ## The two outcomes -/

/-- Block list, live payloads, descriptors in held memory and all variables are as before. -/
structure Unchanged (s : Heap.Session) (K K' : Kernel HeapVars) : Prop where
  blocks : ({ s with mem := K'.mem } : Heap.Session).blocks = s.blocks
  payloads : ∀ b ∈ s.liveBlocks, Heap.SamePayload b K.mem K'.mem
  fields : ∀ t n, (t, n) ∈ s.owned → taskSize ≤ n → n + 7 < 2 ^ 32 → ∀ i < 6,
    readWord K'.mem (t + 4 * i) = readWord K.mem (t + 4 * i)
  vars : K' = { K with mem := K'.mem }

/-- Exactly the blocks `b` and `c` are new; the frame lies inside `c`. -/
structure Created (s : Heap.Session) (tramp : ℕ) (K' : Kernel HeapVars) (b c : Block) : Prop where
  listed : ({ s with mem := K'.mem } : Heap.Session).blocks.isSome
  live : ∀ x, x ∈ ({ s with mem := K'.mem } : Heap.Session).liveBlocks ↔
    x ∈ s.liveBlocks ∨ x = b ∨ x = c
  fresh : b ∉ s.liveBlocks ∧ c ∉ s.liveBlocks ∧ b ≠ c
  room : taskSize ≤ b.size ∧ taskStackSize ≤ c.size
  apart : ∀ x y, (x ∈ s.liveBlocks ∨ x = b ∨ x = c) → (y = b ∨ y = c) → x ≠ y →
    geometry.stop x ≤ y.addr ∨ geometry.stop y ≤ x.addr
  saved : ∃ sp, espOf K'.mem (b.addr + headerSize) = sp ∧ FrameAt K'.mem sp tramp ∧
    c.addr + headerSize ≤ sp ∧ sp + 20 ≤ geometry.stop c

/-- A failed creation gives back what it took. -/
theorem taskCreate_noRoom (hok : HeapOk K.heap K.mem bs) (tramp entry : ℕ)
    (hno : NoRoom K.heap K.mem) :
    ∃ m, taskCreate heapC tramp K entry = some (none, { K with mem := m }) ∧
      HeapOk K.heap m bs ∧ OutsideFree bs K.mem m := by
  rcases twoRequests hok with ⟨-, hnull⟩ | ⟨d, cs, m₁, hf, hrun, hok₁, hout, hrest⟩
  · refine ⟨K.mem, ?_, hok, .refl bs K.mem⟩
    rw [taskCreate, hnull]
    rfl
  · have hd0 : d.addr + 12 ≠ 0 := by omega
    rcases hrest with ⟨-, hnull⟩ | ⟨e, ds, m₂, -, hrun₂, -, -⟩
    · obtain ⟨m₂, hfree, hok₂, hout₂⟩ := hok.kfree_taken hf hok₁ hout
      refine ⟨m₂, ?_, hok₂, hout₂⟩
      simp only [taskCreate, hrun, Option.bind_some, if_neg hd0, hnull, if_true, hfree,
        Option.map_some]
    · exact absurd hno (room_of_served hrun hd0 hrun₂ (by omega))

/-- A creation with room for both blocks. -/
theorem taskCreate_room (hok : HeapOk K.heap K.mem bs) (tramp entry : ℕ)
    (hroom : ¬ NoRoom K.heap K.mem) :
    ∃ d e cs ds m₁ m₂, TwoBlocks K.heap K.mem m₁ m₂ bs cs ds d e ∧
      taskCreate heapC tramp K entry = some (some K.nextPid,
        { K with
          mem := installTask tramp m₂ K.currentTask (d.addr + 12) (e.addr + 12) entry K.nextPid
          nextPid := u32 (K.nextPid + 1) }) := by
  rcases twoRequests hok with ⟨-, hnull⟩ | ⟨d, cs, m₁, hf, hrun, hok₁, -, hrest⟩
  · exact absurd (.inl ⟨_, Heap.kmalloc_of_heapC hnull⟩) hroom
  have hd0 : d.addr + 12 ≠ 0 := by omega
  rcases hrest with ⟨-, hnull⟩ | ⟨e, ds, m₂, hf₂, hrun₂, hok₂, -⟩
  · exact absurd (.inr ⟨_, _, _, Heap.kmalloc_of_heapC hrun, hd0, Heap.kmalloc_of_heapC hnull⟩) hroom
  · have he0 : e.addr + 12 ≠ 0 := by omega
    refine ⟨d, e, cs, ds, m₁, m₂, ⟨hok, hf, hok₁, hf₂, hok₂⟩, ?_⟩
    simp only [taskCreate, hrun, Option.bind_some, if_neg hd0, hrun₂, if_neg he0]

/-- In every reachable heap and with any variables of tasking.c, `task_create` returns -1 when one
of its two requests fails, and nothing has changed; otherwise two blocks more are live, and the
frame of the new task lies in the second one. -/
theorem task_create_atomic (k : KernelEnd) (s : Heap.Session) (hs : (Heap.clients k).Reaches s)
    (K : Kernel HeapVars) (hheap : K.heap = s.vars) (hmem : K.mem = s.mem) (tramp entry : ℕ) :
    (NoRoom K.heap K.mem → ∃ K', taskCreate heapC tramp K entry = some (none, K') ∧
      Unchanged s K K') ∧
    (¬ NoRoom K.heap K.mem → Usable k s.liveBlocks K.currentTask →
      ∃ K' b c, taskCreate heapC tramp K entry = some (some K.nextPid, K') ∧
        Created s tramp K' b c) := by
  obtain ⟨⟨bs, hsok⟩, hv⟩ := Heap.reaches_ok hs
  have hok : HeapOk K.heap K.mem bs := by
    rw [hheap, hmem]
    exact hsok.heap
  have hlive := hsok.liveBlocks
  constructor
  · intro hno
    obtain ⟨m, hrun, hok', hout⟩ := taskCreate_noRoom hok tramp entry hno
    have hpay : ∀ b ∈ s.liveBlocks, Heap.SamePayload b K.mem m := fun b hb =>
      hout.payload hok (hlive ▸ hb)
    rw [hheap] at hok'
    refine ⟨{ K with mem := m }, hrun, hok'.blocks.trans hsok.blocks.symm, hpay, ?_, rfl⟩
    intro t n ht hn hlt i hi
    obtain ⟨b, hb, hbf, rfl, hsize⟩ := hsok.backed t n ht
    have hroom := hsize hlt
    unfold taskSize at hn
    exact readWord_congr fun x hlo hhi =>
      hpay b (hlive ▸ mem_live.mpr ⟨hb, hbf⟩) x (by omega) (by omega)
  · intro hroom hcur
    obtain ⟨d, e, cs, ds, m₁, m₂, two, hrun⟩ := taskCreate_room hok tramp entry hroom
    have hbase : K.heap.heapBaseAddr = Heap.alignUp k.addr 4096 := by rw [hheap, hv]
    have husable : Usable k (live bs) K.currentTask := hlive ▸ hcur
    have hinst : HeapOk K.heap (installTask tramp m₂ K.currentTask (d.addr + 12) (e.addr + 12) entry
      K.nextPid) ds := two.install hbase husable
    have hinst' := hinst
    rw [hheap] at hinst'
    have hiff : ∀ x, x ∈ live ds ↔ x ∈ s.liveBlocks ∨ x = descriptorBlock d ∨ x = stackBlock e :=
      fun x => by rw [two.live_iff, hlive]
    refine ⟨_, descriptorBlock d, stackBlock e, hrun, ?_, ?_, ?_, two.room, ?_, ?_⟩
    · rw [hinst'.blocks]
      rfl
    · rw [hinst'.liveBlocks]
      exact hiff
    · rw [hlive]
      exact two.fresh
    · intro x y hx hy hne
      exact two.apart ((hiff x).mpr hx) ((hiff y).mpr (.inr hy)) hne
    · have hfit := two.stack_fits
      have hsp := initialSp_eq hfit
      have hstack := two.room.2
      refine ⟨_, two.saved hbase husable, two.frame hbase husable, ?_, ?_⟩
      · rw [hsp, stackBlock_addr]
        unfold headerSize taskStackSize
        omega
      · rw [hsp, Heap.stop_eq, stackBlock_addr]
        unfold taskStackSize at hstack ⊢
        omega

/-! ## From tasking_init on -/

/-- `tasking_init` is a client of the heap, and leaves a descriptor `task_create` can use. -/
theorem taskingInit_reaches {s : Heap.Session} (hs : (Heap.clients k).Reaches s)
    (hsok : Heap.SessionOk s bs) (hheap : K.heap = s.vars) (hmem : K.mem = s.mem)
    (hf : geometry.firstFit taskSize bs = some (d, cs)) :
    ∃ s' K', taskingInit heapC K = some K' ∧ (Heap.clients k).Reaches s' ∧ Heap.SessionOk s' cs ∧
      K'.heap = s'.vars ∧ K'.mem = s'.mem ∧ K'.currentTask = d.addr + 12 ∧
      Usable k s'.liveBlocks K'.currentTask := by
  rcases hsok.malloc_cases taskSize with ⟨-, -, hnone⟩ | ⟨d', cs', m, -, hf', hrun, hstep, hok, -⟩
  · rcases hnone with h0 | hnone
    · exact absurd h0 (by decide)
    · rw [alignUp_taskSize, hf] at hnone
      cases hnone
  rw [alignUp_taskSize, hf] at hf'
  cases hf'
  have hallowed : s.allowed (.malloc taskSize) := show taskSize < 2 ^ 32 by decide
  have hreach := hs.step (e := Heap.Event.malloc taskSize) hallowed hstep
  generalize hs₁ : ({ s with mem := m, owned := (d.addr + 12, taskSize) :: s.owned } : Heap.Session) =
    s₁ at hok hreach
  have hheld : (d.addr + 12, taskSize) ∈ s₁.owned := hs₁ ▸ List.mem_cons_self
  have hvars : s₁.vars = s.vars := hs₁ ▸ rfl
  have hm : s₁.mem = m := hs₁ ▸ rfl
  -- the six fields lie in the block just handed out
  have hfield {m : Mem} {i v : ℕ} (hi : i + 4 ≤ 24)
      (h : (Heap.clients k).Reaches { s₁ with mem := m } ∧ Heap.SessionOk { s₁ with mem := m } cs) :
      (Heap.clients k).Reaches { s₁ with mem := writeWord m (d.addr + 12 + i) v } ∧
        Heap.SessionOk { s₁ with mem := writeWord m (d.addr + 12 + i) v } cs :=
    Heap.reaches_writeWord h.1 h.2
      ⟨d.addr + 12, taskSize, hheld, by decide, by omega, by unfold taskSize; omega⟩
  have h0 := hfield (i := 0) (v := 0) (by decide) ⟨hreach, hok⟩
  have h1 := hfield (i := 4) (v := 0) (by decide) h0
  have h2 := hfield (i := 8) (v := 0) (by decide) h1
  have h3 := hfield (i := 12) (v := K.nextPid) (by decide) h2
  have h4 := hfield (i := 16) (v := TaskState.running.code) (by decide) h3
  have h5 := hfield (i := 20) (v := d.addr + 12) (by decide) h4
  refine ⟨_, { K with
    heap := s.vars
    mem := setNext (fillTask m (d.addr + 12) 0 0 0 K.nextPid .running) (d.addr + 12) (d.addr + 12)
    nextPid := u32 (K.nextPid + 1)
    currentTask := d.addr + 12
    taskingReady := true }, ?_, h5.1, h5.2, hvars.symm, ?_, rfl, ?_⟩
  · rw [taskingInit, hheap, hmem, Heap.heapC_kmalloc hrun]
    rfl
  · rw [← hm]
    rfl
  · intro x hx
    obtain ⟨b, hb, hbf, hbp, hbn⟩ := h5.2.backed (d.addr + 12) taskSize hheld
    have hroom := hbn (by decide)
    have hbx : d.addr + 12 ≤ x ∧ x < d.addr + 12 + 24 := hx
    refine .inr ⟨b, h5.2.liveBlocks ▸ mem_live.mpr ⟨hb, hbf⟩, ?_, ?_⟩
    · unfold headerSize
      omega
    · rw [Heap.stop_eq]
      unfold taskSize at hroom
      omega

/-- In the runs that keep the ring, `task_create` can always use the current descriptor. -/
theorem scheduler_usable (k : KernelEnd) (tramp : ℕ)
    {s : Session (HeapVars × Allocator.Ledger)} {es : List Event}
    (hs : (kernelScheduler k tramp).init s) (he : (kernelScheduler k tramp).Executes s es)
    (hc : (kernelScheduler k tramp).EachStep (CreatesClear heapC.audited Heap.FootprintClear) s es) :
    (kernelScheduler k tramp).Always (fun s => ∃ bs, HeapOk s.kernel.heap.1 s.kernel.mem bs ∧
      Usable k (live bs) s.kernel.currentTask) s es := by
  refine cleared_always k tramp ?_ hs he hc
  rintro s ⟨L, W, pending, gone, rest, h, -⟩
  obtain ⟨bs, hholds⟩ := h.linked.memory
  refine ⟨bs, hholds.heap, fun x hx => .inr ?_⟩
  obtain ⟨t, ht, hcur⟩ := h.linked.graph.current_owned
  have hheld := h.linked.backed.held t (by
    rw [List.append_nil] at ht
    exact List.mem_append_left _ ht)
  obtain ⟨b, hb, hbf, haddr, hsize⟩ := hholds.live _ hheld
  rw [← hcur] at hx
  have hbx : t.addr ≤ x ∧ x < t.addr + taskSize := hx
  have hstart : b.addr + 12 = t.addr := haddr
  have hroom : taskSize ≤ b.size := hsize
  refine ⟨b, mem_live.mpr ⟨hb, hbf⟩, ?_, ?_⟩
  · unfold headerSize
    omega
  · rw [Heap.stop_eq]
    omega

/-- Room for both blocks is a matter of two first fits. -/
theorem room_of_firstFit {h : HeapVars} {m : Mem} (hok : HeapOk h m bs)
    (hf : geometry.firstFit taskSize bs = some (d, cs))
    (hf₂ : geometry.firstFit taskStackSize cs = some (e, ds)) : ¬ NoRoom h m := by
  rcases twoRequests (K := { Kernel.boot h m with taskingReady := true }) hok with
    ⟨hnone, -⟩ | ⟨d', cs', m₁, hf', hrun, -, -, hrest⟩
  · rw [hf] at hnone
    cases hnone
  rw [hf] at hf'
  cases hf'
  rcases hrest with ⟨hnone, -⟩ | ⟨e', ds', m₂, -, hrun₂, -⟩
  · rw [hf₂] at hnone
    cases hnone
  · exact room_of_served hrun (by omega) hrun₂ (by omega)

/-- There is none if only the descriptor fits. -/
theorem noRoom_of_firstFit {h : HeapVars} {m : Mem} (hok : HeapOk h m bs)
    (hf : geometry.firstFit taskSize bs = some (d, cs))
    (hnone : geometry.firstFit taskStackSize cs = none) : NoRoom h m := by
  rcases twoRequests (K := { Kernel.boot h m with taskingReady := true }) hok with
    ⟨hnone', -⟩ | ⟨d', cs', m₁, hf', hrun, -, -, hrest⟩
  · rw [hf] at hnone'
    cases hnone'
  rw [hf] at hf'
  cases hf'
  rcases hrest with ⟨-, hnull⟩ | ⟨e', ds', m₂, hf₂, -, -⟩
  · have hd0 : d.addr + 12 ≠ 0 := by omega
    exact .inr ⟨_, _, _, Heap.kmalloc_of_heapC hrun, hd0, Heap.kmalloc_of_heapC hnull⟩
  · rw [hnone] at hf₂
    cases hf₂

/-- One allocation that leaves forty bytes. -/
theorem nearly_full : ∃ s, (Heap.clients Heap.smallImage).Reaches s ∧
    Heap.SessionOk s [⟨0x100000, 8388544, false⟩, ⟨0x8fffcc, 40, true⟩] := by
  have hfit : geometry.firstFit (Heap.alignUp 8388544 Heap.alignment) [⟨0x100000, 8388596, true⟩] =
      some (⟨0x100000, 8388596, true⟩, [⟨0x100000, 8388544, false⟩, ⟨0x8fffcc, 40, true⟩]) := by decide
  obtain ⟨s, hs, -, hok⟩ := Heap.reaches_malloc Heap.freshSession_reaches Heap.freshSession_ok
    (by decide) (by decide) hfit
  exact ⟨s, hs, hok⟩

/-- A heap with forty bytes left gives the descriptor back; and the first creation after
`tasking_init` on the fresh heap. -/
theorem task_create_atomic_boot :
    (∃ s K K' r, (Heap.clients Heap.smallImage).Reaches s ∧
      heapC.kmalloc K.heap K.mem taskSize = some (0x8fffd8, r) ∧
      taskCreate heapC 0 K 0 = some (none, K') ∧ Unchanged s K K') ∧
    ∃ s K K' b c, (Heap.clients Heap.smallImage).Reaches s ∧
      taskingInit heapC (Kernel.boot Heap.freshSession.vars Heap.freshSession.mem) = some K ∧
      taskCreate heapC 0 K 0 = some (some K.nextPid, K') ∧ Created s 0 K' b c := by
  have hboot (h : HeapVars) (m : Mem) : (Kernel.boot h m).heap = h ∧ (Kernel.boot h m).mem = m :=
    ⟨rfl, rfl⟩
  constructor
  · obtain ⟨s, hs, hok⟩ := nearly_full
    have hdescriptor : geometry.firstFit taskSize [⟨0x100000, 8388544, false⟩, ⟨0x8fffcc, 40, true⟩] =
        some (⟨0x8fffcc, 40, true⟩, [⟨0x100000, 8388544, false⟩, ⟨0x8fffcc, 40, false⟩]) := by decide
    obtain ⟨hheap, hmem⟩ := hboot s.vars s.mem
    have hno := noRoom_of_firstFit hok.heap hdescriptor (by decide)
    obtain ⟨m', hrun, -⟩ := hok.heap.kmalloc_some (n := taskSize) (by decide) hdescriptor
    rw [← hheap, ← hmem] at hno hrun
    obtain ⟨K', hcreate, hsame⟩ :=
      (task_create_atomic Heap.smallImage s hs (Kernel.boot s.vars s.mem) hheap hmem 0 0).1 hno
    exact ⟨s, _, K', _, hs, Heap.heapC_kmalloc hrun, hcreate, hsame⟩
  have hfirst : geometry.firstFit taskSize [⟨0x100000, 8388596, true⟩] =
      some (⟨0x100000, 8388596, true⟩, [⟨0x100000, 24, false⟩, ⟨0x100024, 8388560, true⟩]) := by
    decide
  have hsecond : geometry.firstFit taskSize [⟨0x100000, 24, false⟩, ⟨0x100024, 8388560, true⟩] =
      some (⟨0x100024, 8388560, true⟩,
        [⟨0x100000, 24, false⟩, ⟨0x100024, 24, false⟩, ⟨0x100048, 8388524, true⟩]) := by decide
  have hstack : geometry.firstFit taskStackSize
      [⟨0x100000, 24, false⟩, ⟨0x100024, 24, false⟩, ⟨0x100048, 8388524, true⟩] =
      some (⟨0x100048, 8388524, true⟩, [⟨0x100000, 24, false⟩, ⟨0x100024, 24, false⟩,
        ⟨0x100048, 8192, false⟩, ⟨0x102054, 8380320, true⟩]) := by decide
  obtain ⟨s, K, hinit, hs, hok, hheap, hmem, -, husable⟩ :=
    taskingInit_reaches Heap.freshSession_reaches Heap.freshSession_ok (hboot _ _).1 (hboot _ _).2 hfirst
  have hroom : ¬ NoRoom K.heap K.mem := by
    have hheap' := hok.heap
    rw [← hheap, ← hmem] at hheap'
    exact room_of_firstFit hheap' hsecond hstack
  obtain ⟨K', b, c, hrun, hcreated⟩ :=
    (task_create_atomic Heap.smallImage s hs K hheap hmem 0 0).2 hroom husable
  exact ⟨s, K, K', b, c, hs, hinit, hrun, hcreated⟩

end ShadOS.Tasking

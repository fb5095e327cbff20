import ShadOS.Heap.Source
import ShadOS.Machine.Runs

/-! # The page tables of paging.c

The directory and the tables are arrays of the kernel in physical memory. Once
paging is on, the kernel reaches them, like any other memory, through the
translation they define: an access has no result where it faults.
-/

namespace ShadOS.Paging
open Machine
open Heap (not32)

def pagePresent : ℕ := 0x1
def pageWrite : ℕ := 0x2
def pageUser : ℕ := 0x4
def numPageTables : ℕ := 4
def numExtraTables : ℕ := 4

/-- `~0xFFFu` -/
def frameMask : ℕ := not32 0xFFF

/-- One loop step per address. -/
def loopFuel : ℕ := 2 ^ 32

/-- Memory mapped by `paging_init`: 16 MiB. -/
def lowMemory : ℕ := numPageTables * 0x400000

/-- Where the linker puts the page-aligned arrays of paging.c: apart, in low memory. -/
structure Arrays where
  pageDirectory : ℕ
  pageTables : ℕ
  extraPageTables : ℕ
  directory_aligned : pageDirectory % 4096 = 0
  tables_aligned : pageTables % 4096 = 0
  extra_aligned : extraPageTables % 4096 = 0
  directory_low : pageDirectory + 4096 ≤ lowMemory
  tables_low : pageTables + numPageTables * 4096 ≤ lowMemory
  extra_low : extraPageTables + numExtraTables * 4096 ≤ lowMemory
  directory_tables : pageDirectory + 4096 ≤ pageTables ∨
    pageTables + numPageTables * 4096 ≤ pageDirectory
  directory_extra : pageDirectory + 4096 ≤ extraPageTables ∨
    extraPageTables + numExtraTables * 4096 ≤ pageDirectory
  tables_extra : pageTables + numPageTables * 4096 ≤ extraPageTables ∨
    extraPageTables + numExtraTables * 4096 ≤ pageTables

/-- Memory, the control registers of paging, and the static counter of paging.c. -/
structure State where
  mem : Mem
  cr3 : ℕ
  pagingOn : Bool
  extraTablesUsed : ℕ

namespace State

def directoryEntry (s : State) (i : ℕ) : ℕ := readWord s.mem ((s.cr3 &&& frameMask) + 4 * i)

def tableEntry (s : State) (pde i : ℕ) : ℕ := readWord s.mem ((pde &&& frameMask) + 4 * i)

/-- The walk of the processor: the physical address, and the access bits both entries
grant; no result on a page fault. -/
def translate (s : State) (va : ℕ) : Option (ℕ × ℕ) :=
  if s.pagingOn = false then some (va, pagePresent ||| pageWrite ||| pageUser)
  else
    let pde := s.directoryEntry (va >>> 22)
    if pde &&& pagePresent = 0 then none
    else
      let pte := s.tableEntry pde ((va >>> 12) &&& 0x3FF)
      if pte &&& pagePresent = 0 then none
      else some ((pte &&& frameMask) + (va &&& 0xFFF),
        pde &&& pte &&& (pagePresent ||| pageWrite ||| pageUser))

def load (s : State) (va : ℕ) : Option ℕ := (s.translate va).map (fun p => readWord s.mem p.1)

def store (s : State) (va v : ℕ) : Option State :=
  (s.translate va).map (fun p => { s with mem := writeWord s.mem p.1 v })

/-- `for (i …) base[i] = v(i)` over the indices left. -/
def storeLoop (base : ℕ) (v : ℕ → ℕ) : List ℕ → State → Option State
  | [], s => some s
  | i :: is, s => (s.store (base + 4 * i) (v i)).bind (storeLoop base v is)

end State

/-- An entry for the frame `addr` with all access bits. -/
def entry (addr : ℕ) : ℕ := addr ||| pagePresent ||| pageWrite ||| pageUser

variable (a : Arrays)

/-- `page_tables[t]` -/
def Arrays.pageTable (t : ℕ) : ℕ := a.pageTables + 4096 * t

/-- `extra_page_tables[t]` -/
def Arrays.extraTable (t : ℕ) : ℕ := a.extraPageTables + 4096 * t

/-- The directory entry of `addr`: a reserve table is taken and cleared if there is none
yet. No table is left when the second component is false. -/
def claimTable (s : State) (pdIndex : ℕ) : Option (State × Bool) :=
  (s.load (a.pageDirectory + 4 * pdIndex)).bind (fun pde =>
    if pde &&& pagePresent ≠ 0 then some (s, true)
    else if numExtraTables ≤ s.extraTablesUsed then some (s, false)
    else
      let newTable := a.extraTable s.extraTablesUsed
      (State.storeLoop newTable (fun _ => 0) (List.range 1024)
        { s with extraTablesUsed := s.extraTablesUsed + 1 }).bind (fun s =>
      (s.store (a.pageDirectory + 4 * pdIndex) (entry newTable)).map (·, true)))

/-- The loop of `paging_identity_map_region`. -/
def mapLoop (stop : ℕ) : ℕ → State → ℕ → Option State
  | 0, _, _ => none
  | fuel + 1, s, addr =>
    if addr < stop then
      let pdIndex := addr >>> 22
      let ptIndex := (addr >>> 12) &&& 0x3FF
      (claimTable a s pdIndex).bind fun
        | (s, false) => some s
        | (s, true) => (s.load (a.pageDirectory + 4 * pdIndex)).bind (fun pde =>
            (s.store ((pde &&& frameMask) + 4 * ptIndex) (entry addr)).bind (fun s =>
              mapLoop stop fuel s (u32 (addr + 0x1000))))
    else some s

def pagingIdentityMapRegion (s : State) (physAddr size : ℕ) : Option State :=
  let start := physAddr &&& frameMask
  let stop := u32 (physAddr + size + 0xFFF) &&& frameMask
  mapLoop a stop loopFuel s start

/-- The first loop of `paging_init`, over the tables left. -/
def fillTables : List ℕ → State → Option State
  | [], s => some s
  | t :: ts, s =>
    (State.storeLoop (a.pageTable t) (fun i => entry (t * 0x400000 + i * 0x1000))
      (List.range 1024) s).bind (fillTables ts)

def pagingInit (s : State) : Option State :=
  (fillTables a (List.range numPageTables) s).bind (fun s =>
    (State.storeLoop a.pageDirectory (fun _ => 0) (List.range 1024) s).bind (fun s =>
      (State.storeLoop a.pageDirectory (fun t => entry (a.pageTable t))
        (List.range numPageTables) s).map (fun s =>
          { s with cr3 := a.pageDirectory, pagingOn := true })))

inductive Event where
  | map (physAddr size : ℕ)
  /-- The kernel writes memory outside the arrays of paging.c. -/
  | store (mem : Mem)

def State.step (s : State) : Event → Option State
  | .map physAddr size => pagingIdentityMapRegion a s physAddr size
  | .store mem => some { s with mem := mem }

/-- The bytes of the arrays. -/
def Arrays.Has (x : ℕ) : Prop :=
  (a.pageDirectory ≤ x ∧ x < a.pageDirectory + 4096) ∨
    (a.pageTables ≤ x ∧ x < a.pageTables + numPageTables * 4096) ∨
    (a.extraPageTables ≤ x ∧ x < a.extraPageTables + numExtraTables * 4096)

def State.allowed (s : State) : Event → Prop
  | .map physAddr size => physAddr < 2 ^ 32 ∧ size < 2 ^ 32
  | .store mem => ∀ x, mem x ≠ s.mem x → ¬ a.Has x

/-- Calls of `paging_identity_map_region` after `paging_init`. -/
def paging : System State Event where
  init s := ∃ s₀ : State, s₀.pagingOn = false ∧ s₀.extraTablesUsed = 0 ∧ pagingInit a s₀ = some s
  allowed := State.allowed a
  step := State.step a

end ShadOS.Paging

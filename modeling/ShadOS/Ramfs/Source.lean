import ShadOS.Machine.Allocator
import ShadOS.Machine.Runs
import ShadOS.Strings.Source
import Mathlib.Data.List.FinRange

/-! # The file system of ramfs.c

A table of 32 slots, each with a name and a buffer on the kernel heap. The
allocator is a parameter. A function has no result where it reads past a name
or a call of the allocator does not return.
-/

namespace ShadOS.Ramfs
open Machine Strings

universe u

def ramfsMaxFiles : ℕ := 32
def ramfsMaxName : ℕ := 32

structure RamfsFile where
  name : Vector UInt8 ramfsMaxName
  data : ℕ
  size : ℕ
  used : Bool

abbrev Files := Fin ramfsMaxFiles → RamfsFile

/-- The static variables of ramfs.c, with the allocator and the memory. -/
structure FileSystem (H : Type u) where
  heap : H
  mem : Mem
  files : Files
  ready : Bool

variable {H : Type u} (A : Allocator H)

def ramfsInit (s : FileSystem H) : FileSystem H :=
  { s with files := fun i => { s.files i with used := false, data := 0, size := 0 }, ready := true }

/-- The loop of `ramfs_find` over the slots left. -/
def findLoop (files : Files) (name : List UInt8) :
    List (Fin ramfsMaxFiles) → Option (Option (Fin ramfsMaxFiles))
  | [] => some none
  | i :: is =>
    if (files i).used then
      (strcmp (files i).name.toList name).bind (fun r =>
        if r = 0 then some (some i) else findLoop files name is)
    else findLoop files name is

/-- The slot with the name, or none for `-1`. -/
def ramfsFind (files : Files) (name : List UInt8) : Option (Option (Fin ramfsMaxFiles)) :=
  findLoop files name (List.finRange ramfsMaxFiles)

def ramfsFindFree (files : Files) : Option (Fin ramfsMaxFiles) :=
  (List.finRange ramfsMaxFiles).find? (fun i => !(files i).used)

/-- The copy of a name into a slot, from index `i` on, and its terminator. -/
def copyName (dst : Vector UInt8 ramfsMaxName) (i : ℕ) :
    List UInt8 → Option (Vector UInt8 ramfsMaxName)
  | [] => none
  | c :: name =>
    if c ≠ 0 ∧ i < ramfsMaxName - 1 then copyName (dst.setIfInBounds i c) (i + 1) name
    else some (dst.setIfInBounds i 0)

def memcpyRamfs (m : Mem) (dst src n : ℕ) : Mem :=
  (List.range n).foldl (fun m i => Function.update m (dst + i) (m (src + i))) m

/-- The first part of `ramfs_write`: the slot of the file, created if needed, or none
when the table is full. -/
def claimSlot (s : FileSystem H) (name : List UInt8) :
    Option (Option (Fin ramfsMaxFiles) × FileSystem H) :=
  (ramfsFind s.files name).bind fun
    | some idx => some (some idx, s)
    | none =>
      match ramfsFindFree s.files with
      | none => some (none, s)
      | some idx => (copyName (s.files idx).name 0 name).map (fun n =>
          (some idx,
            { s with
              files := Function.update s.files idx { s.files idx with name := n, used := true } }))

/-- The second part: the new buffer with the content, `NULL` for an empty one, or none
when `kmalloc` fails. -/
def newBuffer (s : FileSystem H) (data size : ℕ) : Option (Option ℕ × FileSystem H) :=
  if 0 < size then
    (A.kmalloc s.heap s.mem size).map (fun r =>
      if r.1 = 0 then (none, { s with heap := r.2.1, mem := r.2.2 })
      else (some r.1, { s with heap := r.2.1, mem := memcpyRamfs r.2.2 r.1 data size }))
  else some (some 0, s)

/-- `if (files[idx].data) kfree(files[idx].data);` -/
def freeBuffer (s : FileSystem H) (idx : Fin ramfsMaxFiles) : Option (FileSystem H) :=
  if (s.files idx).data = 0 then some s
  else (A.kfree s.heap s.mem (s.files idx).data).map (fun r => { s with heap := r.1, mem := r.2 })

/-- The rest of `ramfs_write`, once the slot is known. -/
def replaceContent (s : FileSystem H) (idx : Fin ramfsMaxFiles) (data size : ℕ) :
    Option (ℤ × FileSystem H) :=
  (newBuffer A s data size).bind fun
    | (none, s) => some (-1, s)
    | (some newbuf, s) => (freeBuffer A s idx).map (fun s =>
        (0, { s with
          files := Function.update s.files idx { s.files idx with data := newbuf, size := size } }))

def ramfsWrite (s : FileSystem H) (name : List UInt8) (data size : ℕ) : Option (ℤ × FileSystem H) :=
  if s.ready = false then some (-1, s)
  else (strlen name).bind (fun n =>
    if ramfsMaxName ≤ n then some (-1, s)
    else (claimSlot s name).bind fun
      | (none, s) => some (-1, s)
      | (some idx, s) => replaceContent A s idx data size)

/-- The return code, and pointer and size of the content if it is 0. -/
def ramfsRead (s : FileSystem H) (name : List UInt8) : Option (ℤ × Option (ℕ × ℕ)) :=
  (ramfsFind s.files name).map fun
    | none => (-1, none)
    | some idx => (0, some ((s.files idx).data, (s.files idx).size))

def ramfsDelete (s : FileSystem H) (name : List UInt8) : Option (ℤ × FileSystem H) :=
  (ramfsFind s.files name).bind fun
    | none => some (-1, s)
    | some idx => (freeBuffer A s idx).map (fun s =>
        (0, { s with
          files := Function.update s.files idx
            { s.files idx with data := 0, size := 0, used := false } }))

end ShadOS.Ramfs

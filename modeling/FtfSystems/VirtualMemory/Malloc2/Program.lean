import FtfSystems.VirtualMemory.Session

/-!
# The second allocator: `malloc_2.cpp`

Blocks obtained from `sbrk` form one doubly linked list (`root`, `end`), blocks obtained
from `mmap` are meant to form a second one (`mmap_head`, `mmap_end`). Small requests
reuse, split or grow blocks of the first list; freed neighbours are combined. Every
definition follows the C++ function of the same name statement by statement; `size_t`
arithmetic wraps, and a member access through a null pointer is a fault.
-/
namespace FtfSystems.VirtualMemory.Malloc2
open Foundation

/-- The global variables of the file; 0 is `nullptr`. -/
structure Globals where
  root : ℕ
  end_ : ℕ
  mmapHead : ℕ
  mmapEnd : ℕ
  deriving DecidableEq

abbrev Heap := Process Globals
abbrev M := Alloc Globals

/-- `MAX_ALLOCATION`, the double `10e7`; the comparison with a `size_t` is exact. -/
def maxAllocation : ℕ := 100000000

/-- `MMAP_ALLOCATION_LIMIT`. -/
def mmapAllocationLimit : ℕ := 131072

def getRoot : M ℕ := return (← get).glob.root
def getEnd : M ℕ := return (← get).glob.end_
def getMmapHead : M ℕ := return (← get).glob.mmapHead
def getMmapEnd : M ℕ := return (← get).glob.mmapEnd

def setRoot (p : ℕ) : M Unit := modify fun s => { s with glob := { s.glob with root := p } }
def setEnd (p : ℕ) : M Unit := modify fun s => { s with glob := { s.glob with end_ := p } }
def setMmapHead (p : ℕ) : M Unit :=
  modify fun s => { s with glob := { s.glob with mmapHead := p } }
def setMmapEnd (p : ℕ) : M Unit :=
  modify fun s => { s with glob := { s.glob with mmapEnd := p } }

def split (place size : ℕ) : M Unit := do
  let newMetadata := wadd (wadd place size) sizeofMetadata
  setSize newMetadata (wsub (wsub (← getSize place) size) sizeofMetadata)
  setIsFree newMetadata true
  setPrev newMetadata place
  setNext newMetadata (← getNext place)
  if (← getNext place) ≠ 0 then setPrev (← getNext place) newMetadata
  setNext place newMetadata
  setSize place size
  if place = (← getEnd) then setEnd newMetadata

def combine (first second : ℕ) : M Unit := do
  setSize first (wadd (← getSize first) (wadd (← getSize second) sizeofMetadata))
  setNext first (← getNext second)
  if (← getNext second) ≠ 0 then setPrev (← getNext second) first
  if second = (← getEnd) then setEnd first
  setIsFree first true

/-- The body of the search loops: split the block found when the rest can hold a header and
128 bytes, then take it. -/
def reuse (tmp size : ℕ) : M ℕ := do
  if wadd (wadd 128 sizeofMetadata) size ≤ (← getSize tmp) then split tmp size
  setIsFree tmp false
  return payload tmp

/-- `smallocSbrk` on an empty list. -/
def firstBlock (os : OsAnswer) (size : ℕ) : M ℕ := do
  match ← sbrk os (wadd size sizeofMetadata) with
  | none => return 0
  | some pointer =>
    initMetadata pointer size 0 0
    setRoot pointer
    setEnd pointer
    return payload pointer

/-- `smallocSbrk` when no block fits and the last one is free. -/
def growEnd (os : OsAnswer) (size : ℕ) : M ℕ := do
  match ← sbrk os (wsub size (← getSize (← getEnd))) with
  | none => return 0
  | some _ =>
    setSize (← getEnd) size
    setIsFree (← getEnd) false
    return payload (← getEnd)

/-- `smallocSbrk` when no block fits and the last one is in use. -/
def appendBlock (os : OsAnswer) (size : ℕ) : M ℕ := do
  match ← sbrk os (wadd size sizeofMetadata) with
  | none => return 0
  | some tmp1 =>
    initMetadata tmp1 size 0 (← getEnd)
    setNext (← getEnd) tmp1
    setEnd tmp1
    return payload tmp1

def smallocSbrk (os : OsAnswer) (size : ℕ) : M ℕ := do
  if size = 0 ∨ maxAllocation < size then return 0
  else if (← getRoot) = 0 then firstBlock os size
  else
    let tmp ← searchFit size listFuel (← getRoot)
    if tmp ≠ 0 then reuse tmp size
    else if (← getIsFree (← getEnd)) then growEnd os size
    else appendBlock os size

/-- `smallocMmap` on an empty list. -/
def firstMapped (os : OsAnswer) (size : ℕ) : M ℕ := do
  match ← mmap os (wadd size sizeofMetadata) with
  | none => return 0
  | some pointer =>
    initMetadata pointer size 0 0
    setMmapHead pointer
    setMmapEnd pointer
    return payload pointer

/-- `smallocMmap` when no block fits and the last one is free. The length of the new region
is computed from the last block of the other list. -/
def growMapped (os : OsAnswer) (size : ℕ) : M ℕ := do
  match ← mmap os (wsub size (← getSize (← getEnd))) with
  | none => return 0
  | some _ =>
    setSize (← getMmapEnd) size
    setIsFree (← getMmapEnd) false
    return payload (← getMmapEnd)

/-- `smallocMmap` when no block fits and the last one is in use. The new block goes to the
end of the other list. -/
def appendMapped (os : OsAnswer) (size : ℕ) : M ℕ := do
  match ← mmap os (wadd size sizeofMetadata) with
  | none => return 0
  | some tmp1 =>
    initMetadata tmp1 size 0 (← getEnd)
    setNext (← getEnd) tmp1
    setEnd tmp1
    return payload tmp1

def smallocMmap (os : OsAnswer) (size : ℕ) : M ℕ := do
  if (← getMmapHead) = 0 then firstMapped os size
  else
    let tmp ← searchFit size listFuel (← getMmapHead)
    if tmp ≠ 0 then reuse tmp size
    else if (← getIsFree (← getMmapEnd)) then growMapped os size
    else appendMapped os size

def smalloc (os : OsAnswer) (size : ℕ) : M ℕ := do
  if size = 0 ∨ maxAllocation < size then return 0
  else if size < mmapAllocationLimit then smallocSbrk os size
  else smallocMmap os size

def scalloc (os : OsAnswer) (num size : ℕ) : M ℕ := do
  let ptr ← smalloc os (wmul num size)
  if ptr = 0 then return 0
  else
    modify fun s => { s with mem := s.mem.memset ptr 0 (wmul num size) }
    return ptr

/-- Merge the block behind `p` into it, if that is free. -/
def combineNext (p : ℕ) : M Unit := do
  if (← getNext p) ≠ 0 then
    if (← getIsFree (← getNext p)) then combine p (← getNext p)

/-- Merge `p` into the block before it, if that is free. -/
def combinePrev (p : ℕ) : M Unit := do
  if (← getPrev p) ≠ 0 then
    if (← getIsFree (← getPrev p)) then combine (← getPrev p) p

/-- The statements that a block with two neighbours, and a root whose neighbour is in use,
fall through to. -/
def sfreeNeighbours (p : ℕ) : M Unit := do
  combineNext p
  combinePrev p
  setIsFree p true

/-- `sfree` of a header whose block is not taken for a mapped one. -/
def sfreeSbrk (p : ℕ) : M Unit := do
  if p = (← getRoot) then
    if (← getNext p) = 0 then
      setEnd (← getRoot)
      setIsFree p true
    else if (← getIsFree (← getNext p)) then
      combine p (← getNext p)
      setRoot p
      setIsFree p true
    else sfreeNeighbours p
  else if p = (← getEnd) then
    if (← getIsFree (← getPrev p)) then
      combine (← getPrev p) p
      setEnd (← getPrev p)
    setIsFree p true
  else sfreeNeighbours p

/-- `sfree` of a header whose block is taken for a mapped one. -/
def sfreeMmap (p : ℕ) : M Unit := do
  if (← getPrev p) = 0 then
    setMmapHead (← getNext p)
    if (← getNext p) ≠ 0 then setPrev (← getMmapHead) 0
  else if (← getNext p) = 0 then
    setMmapEnd (← getPrev (← getMmapEnd))
    if (← getPrev p) ≠ 0 then setNext (← getMmapEnd) 0
  else
    let prev ← getPrev p
    let next ← getNext p
    setNext prev next
    setPrev next prev
  munmap p (wadd (← getSize p) sizeofMetadata)

def sfree (p : ℕ) : M Unit := do
  if p = 0 then return ()
  else if (← getIsFree (header p)) then return ()
  else if mmapAllocationLimit ≤ (← getSize (header p)) then sfreeMmap (header p)
  else sfreeSbrk (header p)

/-- The merges of `srealloc` that make a larger block out of `pointer` and its neighbours:
cases 1.b, 1.c and 1.d. The result is the enlarged block, or null when no merge suffices. -/
def sreallocMerge (pointer size : ℕ) : M ℕ := do
  let previous ← getPrev pointer
  let next ← getNext pointer
  let own ← getSize pointer
  let fitsPrev ← do
    if previous ≠ 0 then
      pure (decide (size ≤ wadd (wadd (← getSize previous) own) sizeofMetadata) &&
        (← getIsFree previous))
    else pure false
  if fitsPrev then
    combine previous pointer
    setIsFree previous false
    return previous
  else if next ≠ 0 then
    if size ≤ wadd (wadd (← getSize next) own) sizeofMetadata && (← getIsFree next) then
      combine pointer next
      setIsFree pointer false
      return pointer
    else if previous ≠ 0 then
      if size ≤ wadd (wadd (wadd (← getSize previous) (← getSize next)) own)
            (wmul 2 sizeofMetadata) &&
          (← getIsFree previous) && (← getIsFree next) then
        combine previous pointer
        combine previous next
        setIsFree previous false
        return previous
      else return 0
    else return 0
  else return 0

def srealloc (os : OsAnswer) (oldp size : ℕ) : M ℕ := do
  if size = 0 ∨ maxAllocation < size then return 0
  else if oldp = 0 then smalloc os size
  else
    let pointer := header oldp
    let tocopy ← getSize pointer
    if size ≤ tocopy then
      if wadd 128 sizeofMetadata ≤ wsub tocopy size then split pointer size
      if (← getIsFree pointer) then setSize pointer size
      setIsFree pointer false
      return oldp
    else
      let dest ← sreallocMerge pointer size
      if dest ≠ 0 then
        if wadd 128 sizeofMetadata ≤ wsub (← getSize dest) size then split dest size
        moveBytes (payload dest) oldp tocopy
        if pointer ≠ dest then sfree oldp
        return payload dest
      else
        -- `smalloc` reports failure by null, which the test against `(void*)-1` misses
        let dest ← smalloc os size
        if dest = minusOne then return 0
        else
          moveBytes dest oldp tocopy
          if pointer ≠ header dest then sfree oldp
          return dest

/-- `_num_free_blocks`. -/
def numFreeBlocks : M ℕ := do
  sumList (fun p => return (← getIsFree p).toNat) listFuel (← getRoot) 0

/-- `_num_free_bytes`. -/
def numFreeBytes : M ℕ := do
  sumList (fun p => do if (← getIsFree p) then getSize p else return 0) listFuel (← getRoot) 0

/-- `p != nullptr ? f(p) : 0`. -/
def ifNode (f : ℕ → M ℕ) (p : ℕ) : M ℕ := if p ≠ 0 then f p else return 0

/-- The loop over the two lists at once; the shorter one stays at null. -/
def sumLists (term : ℕ → M ℕ) : ℕ → ℕ → ℕ → ℕ → M ℕ
  | 0, _, _, _ => throw .diverges
  | fuel + 1, iterator, it2, total => do
    if iterator ≠ 0 ∨ it2 ≠ 0 then
      let total := wadd total (wadd (← ifNode term it2) (← ifNode term iterator))
      let iterator ← ifNode getNext iterator
      let it2 ← ifNode getNext it2
      sumLists term fuel iterator it2 total
    else return total

/-- `_num_allocated_blocks`. -/
def numAllocatedBlocks : M ℕ := do
  sumLists (fun _ => return 1) listFuel (← getRoot) (← getMmapHead) 0

/-- `_num_allocated_bytes`; its variable `counter` is never read. -/
def numAllocatedBytes : M ℕ := do sumLists getSize listFuel (← getRoot) (← getMmapHead) 0

/-- `_num_meta_data_bytes`. -/
def numMetaDataBytes : M ℕ := return wmul sizeofMetadata (← numAllocatedBlocks)

/-- `_size_meta_data`. -/
def sizeMetaData : ℕ := sizeofMetadata

/-- The allocator of this file; all globals start as null. -/
def allocator : Allocator Globals where
  start := ⟨0, 0, 0, 0⟩
  smalloc := smalloc
  scalloc := scalloc
  sfree := sfree
  srealloc := srealloc

end FtfSystems.VirtualMemory.Malloc2

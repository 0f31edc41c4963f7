import FtfSystems.VirtualMemory.Session

/-!
# The first allocator: `malloc_1.cpp`

All blocks come from `sbrk` and form one doubly linked list (`root`, `end`). A free block is
reused whole, nothing is split or merged.
-/
namespace FtfSystems.VirtualMemory.Malloc1
open Foundation

/-- The global variables of the file; 0 is `nullptr`. -/
structure Globals where
  root : ℕ
  end_ : ℕ
  deriving DecidableEq

abbrev Heap := Process Globals
abbrev M := Alloc Globals

def maxAllocation : ℕ := 100000000

def getRoot : M ℕ := return (← get).glob.root
def getEnd : M ℕ := return (← get).glob.end_
def setRoot (p : ℕ) : M Unit := modify fun s => { s with glob := { s.glob with root := p } }
def setEnd (p : ℕ) : M Unit := modify fun s => { s with glob := { s.glob with end_ := p } }

/-- `smalloc` on an empty list. -/
def firstBlock (os : OsAnswer) (size : ℕ) : M ℕ := do
  match ← sbrk os (wadd size sizeofMetadata) with
  | none => return 0
  | some pointer =>
    initMetadata pointer size 0 0
    setRoot pointer
    setEnd pointer
    return payload pointer

/-- `smalloc` when no block fits. -/
def appendBlock (os : OsAnswer) (size : ℕ) : M ℕ := do
  match ← sbrk os (wadd size sizeofMetadata) with
  | none => return 0
  | some ptr =>
    initMetadata ptr size 0 (← getEnd)
    setNext (← getEnd) ptr
    setEnd ptr
    return payload ptr

def smalloc (os : OsAnswer) (size : ℕ) : M ℕ := do
  if size = 0 ∨ maxAllocation < size then return 0
  else if (← getRoot) = 0 then firstBlock os size
  else
    let tmp ← searchFit size listFuel (← getRoot)
    if tmp ≠ 0 then
      setIsFree tmp false
      return payload tmp
    else appendBlock os size

def scalloc (os : OsAnswer) (num size : ℕ) : M ℕ := do
  let pointer ← smalloc os (wmul size num)
  if pointer = 0 then return 0
  else
    modify fun s => { s with mem := s.mem.memset pointer 0 (wmul size num) }
    return pointer

def sfree (p : ℕ) : M Unit := do
  if p = 0 then return ()
  else if (← getIsFree (header p)) then return ()
  else setIsFree (header p) true

def srealloc (os : OsAnswer) (oldp size : ℕ) : M ℕ := do
  if size = 0 ∨ maxAllocation < size then return 0
  else if oldp = 0 then smalloc os size
  else if size ≤ (← getSize (header oldp)) then return oldp
  else
    -- `smalloc` reports failure by null, which the test against `(void*)-1` misses
    let tmp ← smalloc os size
    if tmp = minusOne then return 0
    else
      moveBytes tmp oldp size
      sfree oldp
      return tmp

/-- `_num_free_blocks`. -/
def numFreeBlocks : M ℕ := do
  sumList (fun p => return (← getIsFree p).toNat) listFuel (← getRoot) 0

/-- `_num_free_bytes`. -/
def numFreeBytes : M ℕ := do
  sumList (fun p => do if (← getIsFree p) then getSize p else return 0) listFuel (← getRoot) 0

/-- `_num_allocated_blocks`. -/
def numAllocatedBlocks : M ℕ := do sumList (fun _ => return 1) listFuel (← getRoot) 0

/-- `_num_allocated_bytes`. -/
def numAllocatedBytes : M ℕ := do sumList getSize listFuel (← getRoot) 0

/-- `_num_meta_data_bytes`. -/
def numMetaDataBytes : M ℕ := return wmul sizeofMetadata (← numAllocatedBlocks)

/-- `_size_meta_data`. -/
def sizeMetaData : ℕ := sizeofMetadata

/-- The allocator of this file; both globals start as null. -/
def allocator : Allocator Globals where
  start := ⟨0, 0⟩
  smalloc := smalloc
  scalloc := scalloc
  sfree := sfree
  srealloc := srealloc

end FtfSystems.VirtualMemory.Malloc1

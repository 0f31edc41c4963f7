import FtfSystems.Foundation.Intervals
import FtfSystems.VirtualMemory.Metadata

/-!
# The process an allocator runs in

The state of a process is its memory, the program break, the mapped regions and the
global variables of the program. The kernel's freedom is an explicit argument
`OsAnswer`; an answer the kernel cannot give (a region that is not fresh, a break
outside the address space) is a failed call. Every system call is recorded. A call that
dereferences the null pointer, copies from or to a page that is not mapped or loops forever has no
result state.
-/
namespace FtfSystems.VirtualMemory
open Foundation

/-- Why a call does not return. -/
inductive Fault where
  | nullDereference
  | segfault
  | diverges
  deriving DecidableEq

/-- A mapped interval of addresses. -/
structure Region where
  addr : ℕ
  len : ℕ
  deriving DecidableEq

/-- A system call with its result; `none` stands for the result `(void*)-1`. -/
inductive Syscall where
  | sbrk (increment : ℕ) (result : Option ℕ)
  | mmap (length : ℕ) (result : Option ℕ)
  | munmap (addr length : ℕ)
  deriving DecidableEq

/-- What the kernel does in a call of the allocator: whether it grants `sbrk`, and the
address it chooses for `mmap`, if any. No call makes more than one of the two. -/
structure OsAnswer where
  sbrkOk : Bool
  mmapAt : Option ℕ
  deriving DecidableEq

/-- Memory, kernel state and the program's own globals. `calls` has the latest call first. -/
structure Process (G : Type) where
  glob : G
  mem : Memory
  heapStart : ℕ
  brk : ℕ
  regions : List Region
  calls : List Syscall

abbrev Alloc (G α : Type) := StateT (Process G) (Except Fault) α

def pageSize : ℕ := 4096

/-- The end of the last page that `n` bytes from a page boundary take. -/
def pageCeil (n : ℕ) : ℕ := (n + pageSize - 1) / pageSize * pageSize

theorem le_pageCeil (n : ℕ) : n ≤ pageCeil n := by
  simp only [pageCeil, pageSize]
  omega

def Region.Disjoint (r : Region) (a n : ℕ) : Prop := r.addr + r.len ≤ a ∨ a + n ≤ r.addr

instance (r : Region) (a n : ℕ) : Decidable (r.Disjoint a n) :=
  inferInstanceAs (Decidable (_ ∨ _))

/-- What is left of a region when the bytes from `a` to `b` are unmapped. -/
def Region.cut (r : Region) (a b : ℕ) : List Region :=
  if r.addr + r.len ≤ a ∨ b ≤ r.addr then [r]
  else (if r.addr < a then [⟨r.addr, a - r.addr⟩] else []) ++
    (if b < r.addr + r.len then [⟨b, r.addr + r.len - b⟩] else [])

namespace Process
variable {G : Type}

/-- The break after `sbrk(increment)`, when the kernel can grant it. The argument is a
signed `intptr_t`: from `2 ^ 63` on it stands for a negative increment. -/
def sbrkTarget (s : Process G) (os : OsAnswer) (increment : ℕ) : Option ℕ :=
  if increment < 2 ^ 63 then
    if os.sbrkOk ∧ s.brk + increment < 2 ^ 64 ∧ ∀ r ∈ s.regions, r.Disjoint s.brk increment then
      some (s.brk + increment)
    else none
  else if os.sbrkOk ∧ s.heapStart + (2 ^ 64 - increment) ≤ s.brk then
    some (s.brk - (2 ^ 64 - increment))
  else none

/-- A region the kernel may return from `mmap`: page aligned, not the null page, outside
the heap and disjoint from every mapped region. -/
def FreshRegion (s : Process G) (a n : ℕ) : Prop :=
  0 < n ∧ 0 < a ∧ a % pageSize = 0 ∧ a + n < 2 ^ 64 ∧ (a + n ≤ s.heapStart ∨ s.brk ≤ a) ∧
    ∀ r ∈ s.regions, r.Disjoint a n

instance (s : Process G) (a n : ℕ) : Decidable (s.FreshRegion a n) :=
  inferInstanceAs (Decidable (_ ∧ _))

/-- The addresses that can be accessed: the program up to the last page of its heap, and the
pages of the mapped regions. -/
def mapped (s : Process G) : List (ℕ × ℕ) :=
  (0, pageCeil s.brk) :: s.regions.map fun r => (r.addr, r.addr + pageCeil r.len)

/-- The `n` bytes at `a` can be accessed. -/
def Mapped (s : Process G) (a n : ℕ) : Prop := Covers s.mapped a (a + n)

instance (s : Process G) (a n : ℕ) : Decidable (s.Mapped a n) :=
  inferInstanceAs (Decidable (Covers _ _ _))

theorem mapped_of_le {s : Process G} {a n : ℕ} (h : a + n ≤ pageCeil s.brk) : s.Mapped a n :=
  covers_of_mem List.mem_cons_self (Nat.zero_le a) h

theorem mapped_of_le_brk {s : Process G} {a n : ℕ} (h : a + n ≤ s.brk) : s.Mapped a n :=
  mapped_of_le (h.trans (le_pageCeil s.brk))

/-- The address `mmap` returns for a request of `n` bytes. -/
def mmapTarget (s : Process G) (os : OsAnswer) (n : ℕ) : Option ℕ :=
  os.mmapAt.filter (fun a => s.FreshRegion a n)

end Process

variable {G : Type}

def sbrk (os : OsAnswer) (increment : ℕ) : Alloc G (Option ℕ) := do
  let s ← get
  match s.sbrkTarget os increment with
  | some target =>
    set { s with brk := target, calls := .sbrk increment (some s.brk) :: s.calls }
    return some s.brk
  | none =>
    set { s with calls := .sbrk increment none :: s.calls }
    return none

def mmap (os : OsAnswer) (length : ℕ) : Alloc G (Option ℕ) := do
  let s ← get
  match s.mmapTarget os length with
  | some a =>
    set { s with regions := ⟨a, length⟩ :: s.regions, calls := .mmap length (some a) :: s.calls }
    return some a
  | none =>
    set { s with calls := .mmap length none :: s.calls }
    return none

/-- An unaligned address is refused by the kernel; otherwise whole pages disappear. -/
def munmap (addr length : ℕ) : Alloc G Unit := do
  let s ← get
  let stop := addr + (length + pageSize - 1) / pageSize * pageSize
  let regions := if addr % pageSize = 0 then s.regions.flatMap (·.cut addr stop) else s.regions
  set { s with regions := regions, calls := .munmap addr length :: s.calls }

/-- Read a member through a pointer. -/
def readField (p : ℕ) (f : Field) : Alloc G ℕ := do
  if p = 0 then throw .nullDereference
  else return loadField (← get).mem p f

/-- Assign a member through a pointer. -/
def writeField (p : ℕ) (f : Field) (v : ℕ) : Alloc G Unit := do
  if p = 0 then throw .nullDereference
  else modify fun s => { s with mem := storeField s.mem p f v }

def getSize (p : ℕ) : Alloc G ℕ := readField p .size
def getIsFree (p : ℕ) : Alloc G Bool := return (← readField p .isFree) ≠ 0
def getNext (p : ℕ) : Alloc G ℕ := readField p .next
def getPrev (p : ℕ) : Alloc G ℕ := readField p .prev

def setSize (p v : ℕ) : Alloc G Unit := writeField p .size v
def setIsFree (p : ℕ) (b : Bool) : Alloc G Unit := writeField p .isFree b.toNat
def setNext (p v : ℕ) : Alloc G Unit := writeField p .next v
def setPrev (p v : ℕ) : Alloc G Unit := writeField p .prev v

/-- The header of a fresh block. -/
def initMetadata (p size next prev : ℕ) : Alloc G Unit := do
  setSize p size
  setIsFree p false
  setNext p next
  setPrev p prev

/-- The payload address of the block whose header is at `p`. -/
def payload (p : ℕ) : ℕ := wadd p sizeofMetadata

/-- The header address of a payload. -/
def header (p : ℕ) : ℕ := wsub p sizeofMetadata

/-- The pointer `(void*)-1`. -/
def minusOne : ℕ := 2 ^ 64 - 1

/-- The search loop of the allocators: the first free block from `tmp` on that holds
`size` bytes, or null when the list ends. The bound is never the reason to stop on a list
that ends: such a list meets each of the `2 ^ 64` addresses at most once. -/
def searchFit (size : ℕ) : ℕ → ℕ → Alloc G ℕ
  | 0, _ => throw .diverges
  | fuel + 1, tmp => do
    if tmp = 0 then return 0
    else if size ≤ (← getSize tmp) && (← getIsFree tmp) then return tmp
    else searchFit size fuel (← getNext tmp)

/-- The loop of the statistics: the values of `term` at the nodes from `iterator` on are
added up in a `size_t`. -/
def sumList (term : ℕ → Alloc G ℕ) : ℕ → ℕ → ℕ → Alloc G ℕ
  | 0, _, _ => throw .diverges
  | fuel + 1, iterator, total => do
    if iterator = 0 then return total
    else
      let n ← term iterator
      sumList term fuel (← getNext iterator) (wadd total n)

/-- Enough iterations for every list that ends. -/
def listFuel : ℕ := 2 ^ 64

/-- `memmove` through two payload pointers. All pages that it reads or writes must be mapped. -/
def moveBytes (dst src n : ℕ) : Alloc G Unit := do
  if dst = 0 ∧ n ≠ 0 then throw .nullDereference
  else
    let s ← get
    if s.Mapped src n ∧ s.Mapped dst n then set { s with mem := s.mem.memmove dst src n }
    else throw .segfault

end FtfSystems.VirtualMemory

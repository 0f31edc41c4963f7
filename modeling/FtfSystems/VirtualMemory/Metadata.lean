import FtfSystems.Foundation.Machine

/-!
# Block headers in memory

Both allocators put a `MallocMetadata` in front of every payload. On the 64-bit target
it takes 32 bytes: `size`, the flag `is_free` with seven bytes of padding, `next` and
`prev`. A header is not kept apart from payloads: `metadataAt` reads whatever bytes
stand at an address, so a stale or overwritten header is visible as such.
-/
namespace FtfSystems.VirtualMemory
open Foundation

/-- `sizeof(MallocMetadata)`. -/
abbrev sizeofMetadata : ℕ := 32

/-- The members of `MallocMetadata`, in declaration order. -/
inductive Field where
  | size
  | isFree
  | next
  | prev
  deriving DecidableEq

def Field.offset : Field → ℕ
  | .size => 0
  | .isFree => 8
  | .next => 16
  | .prev => 24

def Field.width : Field → ℕ
  | .isFree => 1
  | .size | .next | .prev => 8

/-- The value of a header. A null pointer is the address 0. -/
structure MallocMetadata where
  size : ℕ
  isFree : Bool
  next : ℕ
  prev : ℕ
  deriving DecidableEq

/-- The header with one member assigned; the value is truncated to the member's width. -/
def MallocMetadata.set (h : MallocMetadata) : Field → ℕ → MallocMetadata
  | .size, v => { h with size := v % 2 ^ 64 }
  | .isFree, v => { h with isFree := v % 256 ≠ 0 }
  | .next, v => { h with next := v % 2 ^ 64 }
  | .prev, v => { h with prev := v % 2 ^ 64 }

def loadField (m : Memory) (p : ℕ) (f : Field) : ℕ := m.load (p + f.offset) f.width

def storeField (m : Memory) (p : ℕ) (f : Field) (v : ℕ) : Memory :=
  m.store (p + f.offset) f.width v

/-- The header read off the 32 bytes at `p`. -/
def metadataAt (m : Memory) (p : ℕ) : MallocMetadata where
  size := loadField m p .size
  isFree := loadField m p .isFree ≠ 0
  next := loadField m p .next
  prev := loadField m p .prev

/-- A header write touches only the 32 bytes of that header. -/
theorem storeField_agree (m : Memory) (p : ℕ) (f : Field) (v : ℕ) {b k : ℕ}
    (h : b + k ≤ p ∨ p + 32 ≤ b) : m.AgreeOn (storeField m p f v) b k := by
  apply Memory.store_agree
  cases f <;> simp only [Field.offset, Field.width] <;> omega

theorem metadataAt_congr {m m' : Memory} {p : ℕ} (h : m.AgreeOn m' p 32) :
    metadataAt m' p = metadataAt m p := by
  have hf (f : Field) : loadField m' p f = loadField m p f := by
    apply Memory.load_congr
    apply h.sub
    · omega
    · cases f <;> simp only [Field.offset, Field.width] <;> omega
  simp only [metadataAt, hf]

theorem loadField_storeField_ne (m : Memory) (p : ℕ) {f g : Field} (v : ℕ) (h : g ≠ f) :
    loadField (storeField m p f v) p g = loadField m p g := by
  apply Memory.load_congr
  apply Memory.store_agree
  cases f <;> cases g <;> simp only [Field.offset, Field.width] <;> first | omega | exact absurd rfl h

theorem loadField_storeField (m : Memory) (p : ℕ) (f : Field) (v : ℕ) :
    loadField (storeField m p f v) p f = v % 256 ^ f.width :=
  Memory.load_store _ _ _ _

/-- Assigning a member of the header at `p`. -/
theorem metadataAt_storeField (m : Memory) (p : ℕ) (f : Field) (v : ℕ) :
    metadataAt (storeField m p f v) p = (metadataAt m p).set f v := by
  cases f <;> simp [metadataAt, MallocMetadata.set, loadField_storeField_ne,
    loadField_storeField, Field.width]

/-- Assigning a member of a header elsewhere. -/
theorem metadataAt_storeField_of_apart (m : Memory) {p q : ℕ} (f : Field) (v : ℕ)
    (h : p + 32 ≤ q ∨ q + 32 ≤ p) :
    metadataAt (storeField m p f v) q = metadataAt m q :=
  metadataAt_congr (storeField_agree m p f v (by omega))

/-- Taking a block that is in use into use. -/
theorem storeField_inUse (m : Memory) {p : ℕ} (h : (metadataAt m p).isFree = false) :
    storeField m p .isFree 0 = m := by
  have hload : loadField m p .isFree = 0 := by simpa [metadataAt] using h
  rw [← hload]
  exact Memory.store_load m _ _

/-- The memory after the header of a fresh block has been written at `p`. -/
def newHeader (m : Memory) (p size next prev : ℕ) : Memory :=
  storeField (storeField (storeField (storeField m p .size size) p .isFree 0) p .next next)
    p .prev prev

theorem metadataAt_newHeader (m : Memory) {p size next prev : ℕ} (hsize : size < 2 ^ 64)
    (hnext : next < 2 ^ 64) (hprev : prev < 2 ^ 64) :
    metadataAt (newHeader m p size next prev) p = ⟨size, false, next, prev⟩ := by
  simp only [newHeader, metadataAt_storeField, MallocMetadata.set, Nat.mod_eq_of_lt hsize,
    Nat.mod_eq_of_lt hnext, Nat.mod_eq_of_lt hprev, Nat.zero_mod]
  rfl

end FtfSystems.VirtualMemory

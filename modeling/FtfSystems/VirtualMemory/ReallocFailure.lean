import FtfSystems.VirtualMemory.Malloc1.Blocks
import FtfSystems.VirtualMemory.Malloc2.HeapContract

/-!
# `srealloc` when a request cannot be served

A size that is not allowed is refused before anything happens. When there is no memory left,
`smalloc` returns null and both allocators go on with it, since they compare with `(void*)-1`:
the copy to the null pointer faults, or, with nothing to copy, the old block is freed.
-/
namespace FtfSystems.VirtualMemory
open Foundation

variable {G : Type} {s s' : Process G} {p oldp size : ℕ} {os : OsAnswer}

/-- Nothing has changed but the record of the system calls. -/
structure Untouched (s s' : Process G) : Prop where
  glob : s'.glob = s.glob
  mem : s'.mem = s.mem
  brk : s'.brk = s.brk
  regions : s'.regions = s.regions

/-- The call returns null and has changed nothing. -/
def FailsCleanly (x : Alloc G ℕ) (s : Process G) : Prop :=
  ∃ s', x.run s = .ok (0, s') ∧ Untouched s s'

/-- `oldp` points to the payload of a block in use. -/
structure Live (s : Process G) (oldp : ℕ) : Prop where
  ne_null : oldp ≠ 0
  lt : oldp < 2 ^ 64
  header_ne : header oldp ≠ 0
  inUse : (metadataAt s.mem (header oldp)).isFree = false

/-- No block fits and the kernel gives no memory: null is returned, the failed call recorded. -/
def Refused (x : Alloc G ℕ) (s : Process G) : Prop :=
  ∃ call, x.run s = .ok (0, { s with calls := call :: s.calls })

theorem not_failsCleanly_of_error {x : Alloc G ℕ} {e : Fault} (h : x.run s = .error e) :
    ¬ FailsCleanly x s := by
  rintro ⟨s', hs, -⟩
  rw [h] at hs
  cases hs

theorem header_ne_header_null (h : Live s oldp) : header oldp ≠ header 0 := by
  have hne := h.ne_null
  have hlt := h.lt
  simp only [header, wsub, sizeofMetadata]
  omega

theorem null_ne_minusOne : ¬ 0 = minusOne := by decide

theorem moveBytes_null (src : ℕ) {n : ℕ} (hn : n ≠ 0) (s : Process G) :
    (moveBytes 0 src n).run s = .error .nullDereference := by
  rw [moveBytes, if_pos ⟨rfl, hn⟩]
  rfl

/-- With nothing to copy the null pointer does no harm. -/
theorem moveBytes_zero (dst src : ℕ) (s : Process G) :
    (moveBytes dst src 0).run s = .ok ((), s) := by
  have hmem : s.mem.memmove dst src 0 = s.mem := by
    funext x
    simp only [Memory.memmove]
    rw [if_neg]
    omega
  have hnone (a : ℕ) : s.Mapped a 0 := fun x hx hx' => by omega
  rw [moveBytes, if_neg (by simp)]
  simp only [StateT.run_bind, StateT.run_get, pure_bind, if_pos (And.intro (hnone src) (hnone dst)),
    hmem]
  rfl

namespace Malloc1

/-- The request is not allowed, or the block is too small and there is no other. -/
def Unservable (os : OsAnswer) (s : Heap) (oldp size : ℕ) : Prop :=
  size = 0 ∨ maxAllocation < size ∨
    (metadataAt s.mem (header oldp)).size < size ∧ Refused (smalloc os size) s

theorem srealloc_fails_iff {s : Heap} (hl : Live s oldp) (hu : Unservable os s oldp size) :
    FailsCleanly (srealloc os oldp size) s ↔ size = 0 ∨ maxAllocation < size := by
  constructor
  · intro hclean
    by_contra hlegal
    obtain h | h | ⟨hsize, call, hrun⟩ := hu
    · exact hlegal (.inl h)
    · exact hlegal (.inr h)
    · refine not_failsCleanly_of_error (e := .nullDereference) ?_ hclean
      rw [srealloc, if_neg hlegal, if_neg hl.ne_null, StateT.run_bind, getSize_run hl.header_ne,
        ok_bind, if_neg (by omega), StateT.run_bind, hrun, ok_bind, if_neg null_ne_minusOne,
        StateT.run_bind, moveBytes_null _ (by omega)]
      rfl
  · intro hlegal
    exact ⟨s, by rw [srealloc, if_pos hlegal, pure_run], rfl, rfl, rfl, rfl⟩

end Malloc1

namespace Malloc2

/-- The request is not allowed, or the block is too small, no merge helps and there is no other
block. -/
def Unservable (os : OsAnswer) (s : Heap) (oldp size : ℕ) : Prop :=
  size = 0 ∨ maxAllocation < size ∨
    (metadataAt s.mem (header oldp)).size < size ∧
      (sreallocMerge (header oldp) size).run s = .ok (0, s) ∧ Refused (smalloc os size) s

theorem srealloc_fails_iff {s : Heap} (hl : Live s oldp) (hu : Unservable os s oldp size) :
    FailsCleanly (srealloc os oldp size) s ↔ size = 0 ∨ maxAllocation < size := by
  constructor
  · intro hclean
    by_contra hlegal
    obtain h | h | ⟨hsize, hmerge, call, hrun⟩ := hu
    · exact hlegal (.inl h)
    · exact hlegal (.inr h)
    set s₁ : Heap := { s with calls := call :: s.calls } with hs₁
    have hstart : (srealloc os oldp size).run s =
        (do
          moveBytes 0 oldp (metadataAt s.mem (header oldp)).size
          if header oldp ≠ header 0 then sfree oldp
          return 0 : M ℕ).run s₁ := by
      rw [srealloc, if_neg hlegal, if_neg hl.ne_null, StateT.run_bind, getSize_run hl.header_ne,
        ok_bind, if_neg (by omega), StateT.run_bind, hmerge, ok_bind, if_neg (by simp),
        StateT.run_bind, hrun, ok_bind, if_neg null_ne_minusOne]
    by_cases hzero : (metadataAt s.mem (header oldp)).size = 0
    · -- nothing is copied and the block is freed
      obtain ⟨s', hs, hsame⟩ := hclean
      rw [hstart, hzero, StateT.run_bind, moveBytes_zero, ok_bind,
        if_pos (header_ne_header_null hl)] at hs
      obtain ⟨u, s₂, hfree, hs⟩ := bind_run_ok hs
      cases hs
      rw [sfree, if_neg hl.ne_null, StateT.run_bind, getIsFree_run hl.header_ne, ok_bind] at hfree
      have hmem : s₁.mem = s.mem := rfl
      simp only [hmem, hl.inUse, Bool.false_eq_true, if_false] at hfree
      rw [StateT.run_bind, getSize_run hl.header_ne, ok_bind, hmem, hzero,
        if_neg (by simp [mmapAllocationLimit])] at hfree
      have hfreed : (metadataAt s'.mem (header oldp)).isFree = true :=
        sfreeSbrk_ends hl.header_ne _ _ _ hfree
      rw [hsame.mem, hl.inUse] at hfreed
      cases hfreed
    · refine not_failsCleanly_of_error (e := .nullDereference) ?_ hclean
      rw [hstart, StateT.run_bind, moveBytes_null _ hzero]
      rfl
  · intro hlegal
    exact ⟨s, by rw [srealloc, if_pos hlegal, pure_run], rfl, rfl, rfl, rfl⟩

end Malloc2

/-- A request of both allocators that cannot be served returns null and leaves everything as it
was if and only if it is refused for its size. -/
theorem srealloc_failure_iff (os : OsAnswer) (oldp size : ℕ) :
    (∀ s : Malloc1.Heap, Live s oldp → Malloc1.Unservable os s oldp size →
      (FailsCleanly (Malloc1.srealloc os oldp size) s ↔
        size = 0 ∨ Malloc1.maxAllocation < size)) ∧
    ∀ s : Malloc2.Heap, Live s oldp → Malloc2.Unservable os s oldp size →
      (FailsCleanly (Malloc2.srealloc os oldp size) s ↔
        size = 0 ∨ Malloc2.maxAllocation < size) :=
  ⟨fun _ hl hu => Malloc1.srealloc_fails_iff hl hu,
    fun _ hl hu => Malloc2.srealloc_fails_iff hl hu⟩

/-- The heap with two blocks, as the first allocator has it. -/
def Malloc1.twoBlocks : Malloc1.Heap :=
  { Malloc2.twoBlocks with glob := ⟨4096, 4192⟩ }

theorem Malloc1.twoBlocks_live : Live Malloc1.twoBlocks 4128 := by
  refine ⟨by decide, by decide, by decide, ?_⟩
  decide +kernel

theorem Malloc2.twoBlocks_live : Live Malloc2.twoBlocks 4128 := by
  refine ⟨by decide, by decide, by decide, ?_⟩
  decide +kernel

theorem srealloc_failure_iff_too_large :
    FailsCleanly (Malloc1.srealloc ⟨true, none⟩ 4128 100000001) Malloc1.twoBlocks ∧
      FailsCleanly (Malloc2.srealloc ⟨true, none⟩ 4128 100000001) Malloc2.twoBlocks := by
  obtain ⟨h₁, h₂⟩ := srealloc_failure_iff ⟨true, none⟩ 4128 100000001
  constructor
  · exact (h₁ _ Malloc1.twoBlocks_live (.inr (.inl (by decide)))).mpr (.inr (by decide))
  · exact (h₂ _ Malloc2.twoBlocks_live (.inr (.inl (by decide)))).mpr (.inr (by decide))

/-- The kernel gives no memory for 100 bytes: neither allocator returns. -/
theorem srealloc_out_of_memory_faults :
    (Live Malloc1.twoBlocks 4128 ∧ Malloc1.Unservable ⟨false, none⟩ Malloc1.twoBlocks 4128 100 ∧
      ¬ FailsCleanly (Malloc1.srealloc ⟨false, none⟩ 4128 100) Malloc1.twoBlocks) ∧
    Live Malloc2.twoBlocks 4128 ∧ Malloc2.Unservable ⟨false, none⟩ Malloc2.twoBlocks 4128 100 ∧
      ¬ FailsCleanly (Malloc2.srealloc ⟨false, none⟩ 4128 100) Malloc2.twoBlocks := by
  have hsize₁ : (metadataAt Malloc1.twoBlocks.mem (header 4128)).size < 100 := by decide +kernel
  have hsize₂ : (metadataAt Malloc2.twoBlocks.mem (header 4128)).size < 100 := by decide +kernel
  have hu₁ : Malloc1.Unservable ⟨false, none⟩ Malloc1.twoBlocks 4128 100 :=
    .inr (.inr ⟨hsize₁, .sbrk 132 none, rfl⟩)
  have hu₂ : Malloc2.Unservable ⟨false, none⟩ Malloc2.twoBlocks 4128 100 :=
    .inr (.inr ⟨hsize₂, rfl, .sbrk 132 none, rfl⟩)
  refine ⟨⟨Malloc1.twoBlocks_live, hu₁, ?_⟩, Malloc2.twoBlocks_live, hu₂, ?_⟩
  · rw [Malloc1.srealloc_fails_iff Malloc1.twoBlocks_live hu₁]
    decide
  · rw [Malloc2.srealloc_fails_iff Malloc2.twoBlocks_live hu₂]
    decide

end FtfSystems.VirtualMemory

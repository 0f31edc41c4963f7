import FtfSystems.VirtualMemory.Malloc2.MergeDown

/-!
# Freeing through a stale header

When `srealloc` has merged a block with the one before it, the header of the old block is payload
of the new one, and `sfree` is still called on it. The block it names as the one before is in use,
or moved payload has made the link null. What `sfree` does then depends on the other members that
it finds there: the flag, the size and the block behind.
-/
namespace FtfSystems.VirtualMemory.Malloc2
open Foundation

/-- A header at `h` that is in no list, of a block in use behind the block in use at `prev`, if
it names one. -/
structure Stale (s : Heap) (h prev : ℕ) : Prop where
  ne_zero : h ≠ 0
  lt : h + 32 < 2 ^ 64
  ne_root : h ≠ s.glob.root
  ne_end : h ≠ s.glob.end_
  inUse : (metadataAt s.mem h).isFree = false
  prev_eq : (metadataAt s.mem h).prev = prev
  before : prev ≠ 0 → (metadataAt s.mem prev).isFree = false ∧ prev + 32 ≤ h

/-- `sfree` does nothing on a header that is free. -/
theorem sfree_skipped {s : Heap} {h : ℕ} (hpos : h ≠ 0) (hlt : h + 32 < 2 ^ 64)
    (hfree : (metadataAt s.mem h).isFree) : (sfree (h + 32)).run s = .ok ((), s) := by
  simp only [sfree, if_neg (by omega : ¬h + 32 = 0), header_of_lt hlt, StateT.run_bind,
    getIsFree_run hpos, ok_bind, hfree, if_true, pure_run]

namespace Stale
variable {s : Heap} {h prev next n : ℕ}

/-- The header is taken for that of a block from `sbrk`. -/
theorem sfree_small (hs : Stale s h prev)
    (hsmall : (metadataAt s.mem h).size < mmapAllocationLimit) :
    (sfree (h + 32)).run s = (sfreeNeighbours h).run s := by
  have hh0 := hs.ne_zero
  simp only [sfree, if_neg (by omega : ¬h + 32 = 0), header_of_lt hs.lt, StateT.run_bind,
    getIsFree_run hh0, getSize_run hh0, ok_bind, hs.inUse, Bool.false_eq_true, if_false,
    if_neg (by omega : ¬mmapAllocationLimit ≤ (metadataAt s.mem h).size), sfreeSbrk, getRoot_run,
    getEnd_run, if_neg hs.ne_root, if_neg hs.ne_end]

/-- The header is taken for that of a mapped block. -/
theorem sfree_large (hs : Stale s h prev)
    (hlarge : mmapAllocationLimit ≤ (metadataAt s.mem h).size) :
    (sfree (h + 32)).run s = (sfreeMmap h).run s := by
  have hh0 := hs.ne_zero
  simp only [sfree, if_neg (by omega : ¬h + 32 = 0), header_of_lt hs.lt, StateT.run_bind,
    getIsFree_run hh0, getSize_run hh0, ok_bind, hs.inUse, Bool.false_eq_true, if_false,
    if_pos hlarge]

/-- No free block is named as the one before, so that nothing is merged into it. -/
theorem combinePrev_run (hh : h ≠ 0) (hprev : (metadataAt s.mem h).prev = prev)
    (hused : prev ≠ 0 → (metadataAt s.mem prev).isFree = false) :
    (combinePrev h).run s = .ok ((), s) := by
  rw [combinePrev, StateT.run_bind, getPrev_run hh, ok_bind, hprev]
  by_cases hp : prev = 0
  · simp only [hp, ne_eq, not_true_eq_false, if_false, pure_run]
  · simp only [ne_eq, hp, not_false_eq_true, if_true, StateT.run_bind, getPrev_run hh, ok_bind,
      hprev, getIsFree_run hp, hused hp, Bool.false_eq_true, if_false, pure_run]

/-- The block behind is in use, or there is none: only the flag of the stale header is set. -/
theorem sfree_flagged (hs : Stale s h prev)
    (hsmall : (metadataAt s.mem h).size < mmapAllocationLimit)
    (hn : (metadataAt s.mem h).next = next)
    (hnext : next = 0 ∨ (metadataAt s.mem next).isFree = false) :
    (sfree (h + 32)).run s = .ok ((), { s with mem := storeField s.mem h .isFree 1 }) := by
  have hh0 := hs.ne_zero
  have hnone : (combineNext h).run s = .ok ((), s) := by
    rw [combineNext, StateT.run_bind, getNext_run hh0, ok_bind, hn]
    by_cases h0 : next = 0
    · simp only [h0, ne_eq, not_true_eq_false, if_false, pure_run]
    · have hused := hnext.resolve_left h0
      simp only [ne_eq, h0, not_false_eq_true, if_true, StateT.run_bind, getNext_run hh0, ok_bind,
        hn, getIsFree_run h0, hused, Bool.false_eq_true, if_false, pure_run]
  have hprev := combinePrev_run hh0 hs.prev_eq (fun hp => (hs.before hp).1)
  rw [hs.sfree_small hsmall, sfreeNeighbours, StateT.run_bind, hnone, ok_bind, StateT.run_bind,
    hprev, ok_bind, setIsFree_run hh0, Bool.toNat_true]

/-- The block behind is free: the stale header takes it over. -/
theorem sfree_absorbs (hs : Stale s h prev)
    (hsmall : (metadataAt s.mem h).size < mmapAllocationLimit)
    (hnext : (metadataAt s.mem h).next = next) (habove : h + 32 ≤ next)
    (hfree : (metadataAt s.mem next).isFree) (hn : (metadataAt s.mem next).next = n)
    (hnabove : n ≠ 0 → h + 32 ≤ n) :
    (sfree (h + 32)).run s = .ok ((), { s with
      mem := storeField (combineMemory s.mem h next n) h .isFree 1
      glob.end_ := if next = s.glob.end_ then h else s.glob.end_ }) := by
  have hh0 := hs.ne_zero
  have hn0 : next ≠ 0 := by omega
  have hcombine : (combineNext h).run s = (combine h next).run s := by
    simp only [combineNext, StateT.run_bind, getNext_run hh0, ok_bind, hnext, ne_eq, hn0,
      not_false_eq_true, if_true, getIsFree_run hn0, hfree]
  obtain ⟨s₁, hs₁⟩ : ∃ s₁, s₁ = { s with
      mem := combineMemory s.mem h next n
      glob.end_ := if next = s.glob.end_ then h else s.glob.end_ } := ⟨_, rfl⟩
  have hlink : (metadataAt s₁.mem h).prev = prev := by
    simp only [hs₁, combineMemory_first _ (fun h0 => .inr (hnabove h0)), hs.prev_eq]
  have hkept (hp : prev ≠ 0) : (metadataAt s₁.mem prev).isFree = false := by
    obtain ⟨hused, hbelow⟩ := hs.before hp
    have hagree : s.mem.AgreeOn (combineMemory s.mem h next n) prev 32 :=
      combineMemory_agree s.mem (by omega) (fun h0 => by have := hnabove h0; omega)
    simp only [hs₁, metadataAt_congr hagree, hused]
  rw [hs.sfree_small hsmall, sfreeNeighbours, StateT.run_bind, hcombine,
    combine_run hh0 habove hn, ← hs₁, ok_bind, StateT.run_bind, combinePrev_run hh0 hlink hkept,
    ok_bind, setIsFree_run hh0, Bool.toNat_true, hs₁]

/-- Too large a size: the two blocks that the stale header names are linked to each other. Its
address is not that of a page, so that nothing is unmapped. -/
theorem sfree_unlinks (hs : Stale s h prev)
    (hlarge : mmapAllocationLimit ≤ (metadataAt s.mem h).size) (hp0 : prev ≠ 0)
    (hnext : (metadataAt s.mem h).next = next) (hn0 : next ≠ 0) (hpage : h % pageSize ≠ 0) :
    ∃ record, (sfree (h + 32)).run s = .ok ((), { s with
      mem := storeField (storeField s.mem prev .next next) next .prev prev
      calls := record :: s.calls }) := by
  have hh0 := hs.ne_zero
  rw [hs.sfree_large hlarge]
  simp only [sfreeMmap, StateT.run_bind, getPrev_run hh0, getNext_run hh0, ok_bind, hs.prev_eq,
    hnext, if_neg hp0, if_neg hn0, setNext_run hp0, setPrev_run hn0, getSize_run hh0, munmap,
    StateT.run_get, pure_bind, if_neg hpage]
  exact ⟨_, rfl⟩

/-- Too large a size and no links: the list of mapped blocks is taken to end here. -/
theorem sfree_emptied (hs : Stale s h 0)
    (hlarge : mmapAllocationLimit ≤ (metadataAt s.mem h).size)
    (hnext : (metadataAt s.mem h).next = 0) (hpage : h % pageSize ≠ 0) :
    ∃ record, (sfree (h + 32)).run s = .ok ((), { s with
      glob.mmapHead := 0
      calls := record :: s.calls }) := by
  have hh0 := hs.ne_zero
  rw [hs.sfree_large hlarge]
  simp only [sfreeMmap, StateT.run_bind, getPrev_run hh0, getNext_run hh0, ok_bind, hs.prev_eq,
    hnext, if_true, setMmapHead_run, ne_eq, not_true_eq_false, if_false, getSize_run hh0, munmap,
    StateT.run_get, pure_bind, if_neg hpage]
  exact ⟨_, rfl⟩

/-- Too large a size and no block behind: `sfree` follows the pointer to the last mapped block. -/
theorem sfree_crashes (hs : Stale s h prev)
    (hlarge : mmapAllocationLimit ≤ (metadataAt s.mem h).size) (hp0 : prev ≠ 0)
    (hnext : (metadataAt s.mem h).next = 0) (hend : s.glob.mmapEnd = 0) :
    (sfree (h + 32)).run s = .error .nullDereference := by
  have hh0 := hs.ne_zero
  rw [hs.sfree_large hlarge]
  simp only [sfreeMmap, StateT.run_bind, getPrev_run hh0, getNext_run hh0, ok_bind, hs.prev_eq,
    hnext, if_neg hp0, if_true, getMmapEnd_run, hend]
  rfl

end Stale
end FtfSystems.VirtualMemory.Malloc2

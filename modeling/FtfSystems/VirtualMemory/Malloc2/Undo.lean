import FtfSystems.VirtualMemory.Malloc2.Placement

/-!
# What `sfree` takes back

A block that was taken from the list goes back to where it came from: the rest that was cut off
is merged again, and nothing else is, since the neighbours of a free block are in use. To free a
block once more changes nothing, even when its header has become the payload of another block.
-/
namespace FtfSystems.VirtualMemory.Malloc2
open Foundation

section Undo
variable {s s' : Heap} {size brk brk' : ℕ} {bs bs' : List Block} {b p : Block}

/-- The rest of a free block, merged again. -/
theorem merge_rest (hfree : b.isFree) (hsize : size + 32 ≤ b.size) :
    Block.merge ⟨b.addr, size, true⟩ (b.rest size) = b := by
  have hsum : size + 32 + (b.size - size - 32) = b.size := by omega
  rw [Block.merge, Block.rest, hsum, ← hfree]

/-- To release a block that was taken from the list gives the list back. -/
theorem AllocStep.release_eq (h : AllocStep size bs brk p bs' brk') (hrep : Represents s' bs')
    (hsep : Separated Block.isFree bs) (hfit : ∃ c ∈ bs, c.fits size) :
    release p.addr bs' = bs := by
  obtain ⟨c, hc, hcfit⟩ := hfit
  cases h with
  | @reuse pre post b _ _ hb =>
    have hfree : b.isFree = true := by
      simp only [Block.fits, Bool.and_eq_true] at hb
      exact hb.2
    have hback : Block.freed { b with isFree := false } = b := by rw [Block.freed, ← hfree]
    rw [release, map_freeAt hrep, hback, coalesce_of_separated hsep]
  | @split pre post b _ _ hb hlarge =>
    have hfree : b.isFree = true := by
      simp only [Block.fits, Bool.and_eq_true] at hb
      exact hb.2
    have hroom : size + 32 ≤ b.size := by omega
    have hmerge : (Block.freed ⟨b.addr, size, false⟩).merge (b.rest size) = b :=
      merge_rest hfree hroom
    rw [release, map_freeAt hrep, coalesce_merge Block.mergeLaws rfl rfl, hmerge,
      coalesce_of_separated hsep]
  | grow hno => exact absurd hcfit (hno c hc)
  | append hno => exact absurd hcfit (hno c hc)

/-- Two heaps that hold the same blocks have the same headers. -/
theorem Represents.same_headers (h : Represents s bs) (h' : Represents s' bs) :
    ∀ b ∈ bs, metadataAt s'.mem b.addr = metadataAt s.mem b.addr := by
  intro b hb
  obtain ⟨pre, post, rfl⟩ := List.append_of_mem hb
  rw [h.header, h'.header]

/-- The blocks determine `root` and `end`. -/
theorem SameMaps.glob_eq (hm : SameMaps s s') (h : Represents s bs) (h' : Represents s' bs) :
    s'.glob = s.glob := by
  have hroot : s'.glob.root = s.glob.root := by rw [h.root_eq, h'.root_eq]
  have hend : s'.glob.end_ = s.glob.end_ := by rw [h.last_eq, h'.last_eq]
  calc s'.glob = ⟨s'.glob.root, s'.glob.end_, s'.glob.mmapHead, s'.glob.mmapEnd⟩ := rfl
    _ = s.glob := by rw [hroot, hend, hm.mmapHead, hm.mmapEnd]

/-- `smallocSbrk` takes a block from the list and `sfree` puts it back: the blocks, their
headers and the global variables are what they were. -/
theorem sfree_undoes_smallocSbrk (h : WellFormed s bs) (os : OsAnswer) (h0 : 0 < size)
    (hsize : size < mmapAllocationLimit) (hfit : ∃ c ∈ bs, c.fits size) :
    ∃ p s', (smallocSbrk os size).run s = .ok (p, s') ∧ p ≠ 0 ∧
      ((metadataAt s'.mem (header p)).size < mmapAllocationLimit →
        ∃ s'', (sfree p).run s' = .ok ((), s'') ∧ WellFormed s'' bs ∧ s''.glob = s.glob ∧
          ∀ b ∈ bs, metadataAt s''.mem b.addr = metadataAt s.mem b.addr) := by
  have hmax : size ≤ maxAllocation := by
    simp only [mmapAllocationLimit, maxAllocation] at hsize ⊢
    omega
  obtain ⟨p, bs', s', hrun, hserved⟩ | ⟨n, hneed, -⟩ :=
    smallocSbrk_cases os h.represents (by omega) hmax
  · have hrep := hserved.represents
    have hstep := hserved.step
    have hp := hrep.bounds hstep.mem
    obtain ⟨pre, post, hbs'⟩ := List.append_of_mem hstep.mem
    refine ⟨p.addr + 32, s', hrun, by omega, fun hsmall => ?_⟩
    have hhead := BlockList.header (hbs' ▸ hrep)
    rw [header_of_lt (by omega), hhead] at hsmall
    obtain ⟨s'', hfree, hrel⟩ := sfree_released hrep (hstep.separated h.separated) hstep.mem
      hstep.inUse hsmall
    have hback := hrel.represents
    rw [hstep.release_eq hrep h.separated hfit] at hback
    have hmaps := hserved.maps.trans hrel.maps
    exact ⟨s'', hfree, ⟨hback, h.separated⟩, hmaps.glob_eq h.represents hback,
      h.represents.same_headers hback⟩
  · obtain ⟨c, hc, hcfit⟩ := hfit
    obtain ⟨pre, post, rfl⟩ := List.append_of_mem hc
    simp [neededSbrk_of_fit hcfit] at hneed

/-- A second `sfree` of the same pointer changes nothing. -/
theorem sfree_twice (h : Represents s bs) (hb : b ∈ bs) (hused : b.isFree = false)
    (hsize : b.size < mmapAllocationLimit) :
    ∃ s' bs', (sfree (b.addr + sizeofMetadata)).run s = .ok ((), s') ∧ Represents s' bs' ∧
      (sfree (b.addr + sizeofMetadata)).run s' = .ok ((), s') := by
  have hbounds := h.bounds hb
  have hb0 : b.addr ≠ 0 := by omega
  have hp0 : ¬b.addr + 32 = 0 := by omega
  have hheader : header (b.addr + 32) = b.addr := header_of_lt (by omega)
  obtain ⟨pre, post, rfl⟩ := List.append_of_mem hb
  obtain ⟨s', bs', hrun, hfreed⟩ := sfree_freed h hused hsize
  refine ⟨s', bs', hrun, hfreed.relinked.represents, ?_⟩
  -- the first call went through `sfreeSbrk`, whose last assignment is the flag
  have hflag : (metadataAt s'.mem b.addr).isFree = true := by
    refine sfreeSbrk_ends hb0 s () s' ?_
    simpa only [sfree, if_neg hp0, hheader, StateT.run_bind, getIsFree_run hb0, getSize_run hb0,
      ok_bind, h.header, hused, Bool.false_eq_true, if_false,
      if_neg (by omega : ¬mmapAllocationLimit ≤ b.size)] using hrun
  simp only [sfree, if_neg hp0, hheader, StateT.run_bind, getIsFree_run hb0, ok_bind, hflag,
    if_true, pure_run]

end Undo

/-- 100 bytes are cut off a free block of 512 and given back. -/
theorem sfree_undoes_smallocSbrk_freeInFront : ∃ p s' s'',
    (smallocSbrk ⟨false, none⟩ 100).run freeInFront = .ok (p, s') ∧
      (sfree p).run s' = .ok ((), s'') ∧ s''.glob = freeInFront.glob ∧
      WellFormed s'' [⟨4096, 512, true⟩, ⟨4640, 64, false⟩] := by
  obtain ⟨p, s', hrun, -, hback⟩ := sfree_undoes_smallocSbrk freeInFront_wellFormed
    ⟨false, none⟩ (by decide : 0 < 100) (by decide)
    ⟨⟨4096, 512, true⟩, by simp, by simp [Block.fits]⟩
  have hsmall : ((smallocSbrk ⟨false, none⟩ 100).run freeInFront).toOption.any (fun r =>
      (metadataAt r.2.mem (header r.1)).size < mmapAllocationLimit) = true := by decide +kernel
  rw [hrun] at hsmall
  simp only [Except.toOption, Option.any_some, decide_eq_true_eq] at hsmall
  obtain ⟨s'', hfree, hwf, hglob, -⟩ := hback hsmall
  exact ⟨p, s', s'', hrun, hfree, hglob, hwf⟩

/-- The last block is merged into the one before it, and freed again. -/
theorem sfree_twice_freeInFront : ∃ s' bs', (sfree 4672).run freeInFront = .ok ((), s') ∧
    Represents s' bs' ∧ (sfree 4672).run s' = .ok ((), s') :=
  sfree_twice freeInFront_wellFormed.represents (b := ⟨4640, 64, false⟩) (by simp) rfl (by decide)

end FtfSystems.VirtualMemory.Malloc2

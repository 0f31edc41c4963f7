import FtfSystems.VirtualMemory.Malloc2.Placement
import FtfSystems.VirtualMemory.Malloc2.Statistics

/-!
# How far the `sbrk` heap falls apart

Free blocks are never neighbours, so there is at most one more of them than there are blocks in
use. A program that has given everything back leaves one free block, from the start of the heap
to the break, and the next request begins there.
-/
namespace FtfSystems.VirtualMemory.Malloc2
open Foundation

/-- Between two marked elements there is one that is not. -/
theorem countP_le_of_separated {β : Type} {marked : β → Bool} {l : List β}
    (h : Separated marked l) :
    l.countP marked ≤ l.countP (fun b => !marked b) + 1 := by
  induction l using List.twoStepInduction with
  | nil => simp
  | singleton b => cases hb : marked b <;> simp [hb]
  | cons_cons b c l ih ih' =>
    obtain ⟨hne, hrest⟩ := separated_cons_cons.mp h
    have hl := ih hrest.tail
    have hcl := ih' c hrest
    simp only [List.countP_cons] at hcl ⊢
    cases hb : marked b with
    | false =>
      simp only [Bool.false_eq_true, if_false, Bool.not_false, if_true]
      omega
    | true =>
      have hc : marked c = false := by simpa [hb] using hne
      simp only [hc, Bool.false_eq_true, if_false, if_true, Bool.not_true, Bool.not_false]
      omega

section
variable {s : Heap} {t : Session Globals} {bs : List Block} {b : Block}

theorem numFreeBlocks_run (h : Represents s bs) :
    numFreeBlocks.run s = .ok (bs.countP Block.isFree, s) := by
  have hpos : ∀ b ∈ bs, b.addr ≠ 0 := h.nextChain.pos
  have hterm : ∀ b ∈ bs, (do return (← getIsFree b.addr).toNat : M ℕ).run s =
      .ok (b.isFree.toNat, s) := by
    intro b hb
    obtain ⟨pre, post, rfl⟩ := List.append_of_mem hb
    simp only [StateT.run_bind, getIsFree_run (hpos b hb), ok_bind, h.header, pure_run]
  have hcount : (bs.map fun b => b.isFree.toNat).sum = bs.countP Block.isFree := by
    clear * -
    induction bs with
    | nil => rfl
    | cons b bs ih => cases hb : b.isFree <;> simp [hb, ih, Nat.add_comm]
  have hlt := h.length_lt
  have hle := List.countP_le_length (p := Block.isFree) (l := bs)
  have hrun := sumList_run (s := s) (fun p => do return (← getIsFree p).toNat)
    (fun b => b.isFree.toNat) 0 h.linked hpos hterm (by exact hlt : bs.length < listFuel)
    (by omega)
  rw [← h.root_eq, Nat.zero_add, hcount] at hrun
  simp only [numFreeBlocks, StateT.run_bind, getRoot_run, ok_bind, hrun]

/-- A request from a heap that is one free block. -/
theorem smalloc_of_one_free (h : Represents s [b]) (hfree : b.isFree) {os : OsAnswer} {size : ℕ}
    (h0 : 0 < size) (hsize : size < mmapAllocationLimit) (hle : size ≤ b.size) :
    ∃ s', (smalloc os size).run s = .ok (b.addr + 32, s') ∧ s'.brk = s.brk ∧
      s'.calls = s.calls := by
  have hnone : neededSbrk size ([] ++ b :: []) = none :=
    neededSbrk_of_fit (by simp [Block.fits, hle, hfree])
  rw [List.nil_append] at hnone
  have hmax : size ≤ maxAllocation := by
    simp only [maxAllocation, mmapAllocationLimit] at hsize ⊢
    omega
  have hfit : b.fits size := by simp [Block.fits, hle, hfree]
  rw [smalloc, if_neg (by omega : ¬(size = 0 ∨ maxAllocation < size)), if_pos hsize]
  obtain ⟨p, bs', s', hrun, hserved⟩ | ⟨n, hneed, -, -⟩ := smallocSbrk_cases os h h0.ne' hmax
  · obtain ⟨hbrk, c, htaken⟩ := hserved.step.takenFrom h ⟨b, by simp, hfit⟩
    obtain ⟨pre, post, hbs, -⟩ := htaken.others
    have hc : c ∈ [b] := by simp [hbs]
    rw [List.mem_singleton] at hc
    rw [htaken.addr, hc] at hrun
    exact ⟨s', hrun, hbrk, by rw [hserved.calls, hnone]; rfl⟩
  · rw [hneed] at hnone
    cases hnone

/-- The heap of a program that holds nothing. -/
theorem Counted.blocks_of_nothing_held (h : Counted t bs) (hnone : t.live = []) :
    bs = [] ∨ ∃ b, bs = [b] ∧ b.isFree := by
  have hfree (b : Block) (hb : b ∈ bs) : b.isFree := by
    by_contra hu
    obtain ⟨n, hn⟩ := h.tracked.live b (by simpa using hb) (by simpa using hu)
    simp [hnone] at hn
  have hsep := h.tracked.heap.separated
  rcases bs with _ | ⟨b, _ | ⟨c, bs⟩⟩
  · exact .inl rfl
  · exact .inr ⟨b, rfl, hfree b (by simp)⟩
  · exact absurd ⟨hfree b (by simp), hfree c (by simp)⟩ (separated_cons_cons.mp hsep).1

/-- There are as many blocks in use as pointers held. -/
theorem Counted.countP_inUse (h : Counted t bs) :
    bs.countP (fun b => !b.isFree) = t.live.length := by
  have hperm := h.live_perm.length_eq
  rw [List.length_map, List.length_map] at hperm
  rw [List.countP_eq_length_filter, hperm]

end

/-- In every run of small requests and frees there is at most one free block more than there are
pointers held. When none is held, the heap is empty or one free block that fills it, and the next
request it can serve begins at the start of the heap, without a call of `sbrk`. -/
theorem freed_heap_is_one_block {t : Session Globals}
    (h : allocator.system.Reachable SmallTraffic t) :
    ∃ free, numFreeBlocks.run t.heap = .ok (free, t.heap) ∧ free ≤ t.live.length + 1 ∧
      (t.live = [] → (t.heap.brk = t.heap.heapStart ∧ free = 0) ∨
        ∃ n, free = 1 ∧ numFreeBytes.run t.heap = .ok (n, t.heap) ∧
          t.heap.heapStart + sizeofMetadata + n = t.heap.brk ∧
          ∀ os size, 0 < size → size < mmapAllocationLimit → size ≤ n →
            ∃ s', (smalloc os size).run t.heap = .ok (t.heap.heapStart + sizeofMetadata, s') ∧
              s'.brk = t.heap.brk ∧ s'.calls = t.heap.calls) := by
  obtain ⟨bs, hI⟩ := Counted.of_reachable h
  have hrep := hI.tracked.heap.represents
  refine ⟨_, numFreeBlocks_run hrep, ?_, fun hnone => ?_⟩
  · rw [← hI.countP_inUse]
    exact countP_le_of_separated hI.tracked.heap.separated
  have hstart := hI.start
  obtain rfl | ⟨b, rfl, hfree⟩ := hI.blocks_of_nothing_held hnone
  · exact .inl ⟨by simpa using hstart, rfl⟩
  · have hbytes := hrep.sum_bytes
    have hrun := Counted.numFreeBytes_run hrep
    simp only [headAddr_cons, List.map_cons, List.map_nil, List.sum_cons, List.sum_nil,
      Nat.add_zero, hfree, if_true, List.length_cons, List.length_nil] at hstart hbytes hrun
    refine .inr ⟨b.size, by simp [hfree], hrun, ?_, fun os size h0 hsize hle => ?_⟩
    · simp only [sizeofMetadata]
      omega
    · rw [← hstart]
      exact smalloc_of_one_free hrep hfree h0 hsize hle

/-- Three blocks, given back from the middle. -/
def threeGivenBack : List Call :=
  [.smalloc ⟨true, none⟩ 100, .smalloc ⟨true, none⟩ 50, .smalloc ⟨true, none⟩ 20, .sfree 4260,
    .sfree 4128, .sfree 4342]

theorem freed_heap_is_one_block_three : ∃ t : Session Globals, t.live = [] ∧
    t.heap.brk = 4362 ∧ numFreeBlocks.run t.heap = .ok (1, t.heap) ∧
      ∃ s', (smalloc ⟨false, none⟩ 200).run t.heap = .ok (4128, s') ∧ s'.brk = 4362 ∧
        s'.calls = t.heap.calls := by
  have hrun : (allocator.system.guardedRun SmallTraffic emptySession threeGivenBack).any
      (fun t => t.heap.brk = 4362 ∧ t.heap.heapStart = 4096 ∧ t.live = []) = true := by
    decide +kernel
  obtain ⟨t, hreach, ht⟩ := TransitionSystem.exists_of_guardedRun _ _ emptySession_init hrun
  rw [decide_eq_true_eq] at ht
  obtain ⟨hbrk, hstart, hlive⟩ := ht
  obtain ⟨free, hfree, -, hone⟩ := freed_heap_is_one_block hreach
  obtain ⟨hempty, -⟩ | ⟨n, rfl, -, hbytes, hnext⟩ := hone hlive
  · rw [hbrk, hstart] at hempty
    cases hempty
  rw [hbrk, hstart] at hbytes
  simp only [sizeofMetadata] at hbytes
  obtain ⟨s', hs', hbrk', hcalls⟩ := hnext ⟨false, none⟩ 200 (by decide) (by decide) (by omega)
  rw [hstart] at hs'
  exact ⟨t, hlive, hbrk, hfree, s', hs', hbrk'.trans hbrk, hcalls⟩

end FtfSystems.VirtualMemory.Malloc2

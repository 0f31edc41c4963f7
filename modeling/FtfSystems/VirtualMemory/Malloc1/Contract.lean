import FtfSystems.VirtualMemory.Malloc1.Holding

/-!
# The contract of the first allocator

Over every run of the four calls the blocks tile the heap from its start to the break, the
payloads the program holds are disjoint and long enough, and the statistics add up to the
growth of the break. A product of `scalloc` that overflows breaks the contract; a copy of
`srealloc` that leaves the pages of the heap ends the program.
-/
namespace FtfSystems.VirtualMemory.Malloc1
open Foundation

/-- What the statistics count: a header and a payload for every byte of the heap. -/
theorem accounting {s : Heap} {bs : List Block} (h : Represents s bs) :
    ∃ n k, numAllocatedBytes.run s = .ok (n, s) ∧ numMetaDataBytes.run s = .ok (k, s) ∧
      headAddr Block.addr s.brk bs + (n + k) = s.brk := by
  have hpos : ∀ b ∈ bs, b.addr ≠ 0 := fun b hb => by
    have := h.bounds hb
    omega
  have hfuel : bs.length < listFuel := h.length_lt
  have htotal := h.sum_bytes
  have hlt := h.brk_lt
  refine ⟨(bs.map Block.size).sum, 32 * bs.length, ?_, ?_, htotal⟩
  · have hrun := sumList_run (s := s) getSize Block.size 0 h.linked hpos (fun b hb => ?_) hfuel
      (by omega)
    · rw [← h.root_eq, Nat.zero_add] at hrun
      simp only [numAllocatedBytes, StateT.run_bind, getRoot_run, ok_bind, hrun]
    · obtain ⟨pre, post, rfl⟩ := List.append_of_mem hb
      rw [getSize_run (hpos b hb), h.header]
  · have hones : (bs.map (fun _ => 1)).sum = bs.length := by simp
    have hrun := sumList_run (s := s) (fun _ => pure 1) (fun _ => 1) 0 h.linked hpos
      (fun _ _ => rfl) hfuel (by omega)
    rw [← h.root_eq, Nat.zero_add, hones] at hrun
    simp only [numMetaDataBytes, numAllocatedBlocks, StateT.run_bind, getRoot_run, ok_bind, hrun,
      pure_run, sizeofMetadata, wmul_of_lt (by omega : 32 * bs.length < 2 ^ 64)]

/-- The contract of a state. The list of `root` and `end` is doubly linked and tiles the heap
from its start to the break; the payloads the program holds are disjoint and long enough;
the statistics account for the growth of the break. -/
structure Contract (t : Session Globals) (bs : List Block) : Prop where
  represents : Represents t.heap bs
  start : headAddr Block.addr t.heap.brk bs = t.heap.heapStart
  room : ∀ e ∈ t.live, ∃ b ∈ bs, b.isFree = false ∧ e.1 = b.addr + 32 ∧ e.2 ≤ b.size
  disjoint : t.live.Pairwise (fun e f => e.1 + e.2 ≤ f.1 ∨ f.1 + f.2 ≤ e.1)
  accounting : ∃ n k, numAllocatedBytes.run t.heap = .ok (n, t.heap) ∧
    numMetaDataBytes.run t.heap = .ok (k, t.heap) ∧ n + k = t.heap.brk - t.heap.heapStart

theorem Holding.contract {t : Session Globals} {bs : List Block} (h : Holding t bs) :
    Contract t bs := by
  refine ⟨h.represents, h.start, h.room, ?_, ?_⟩
  · have hpair := List.pairwise_map.mp h.nodup
    refine hpair.imp_of_mem (fun {e f} he hf hne => ?_)
    obtain ⟨b, hb, -, hpb, hnb⟩ := h.room e he
    obtain ⟨c, hc, -, hpc, hnc⟩ := h.room f hf
    have hbc : b ≠ c := by
      rintro rfl
      omega
    have := h.represents.apart hb hc hbc
    omega
  · obtain ⟨n, k, hn, hk, htotal⟩ := accounting h.represents
    rw [h.start] at htotal
    exact ⟨n, k, hn, hk, by omega⟩

/-- In every run in which the products of `scalloc` do not overflow, every state meets the
contract and every further call keeps it and leaves the other payloads alone. With its copy in the
pages of the heap, the only call that may fail to return is an `srealloc` that the kernel has
refused. -/
theorem allocator_contract {t : Session Globals} (h : allocator.system.Reachable NoOverflow t) :
    ∃ bs, Contract t bs ∧ ∀ c t', NoOverflow t c → allocator.next t c = some t' →
      ∃ bs', Contract t' bs' ∧ LeavesAlone t bs c t' bs' ∧
        (CopiesInHeap t c → t'.fault = none ∨ ∃ os oldp size, c = .srealloc os oldp size ∧
          t.heap.sbrkTarget os (size + 32) = none) := by
  obtain ⟨bs, hI⟩ := Holding.of_reachable h
  refine ⟨bs, hI.contract, fun c t' hok hs => ?_⟩
  obtain ⟨bs', hhold, halone, hf⟩ := hI.step hok hs
  exact ⟨bs', hhold.contract, halone, hf⟩

/-- A program that starts with zeroed memory and the break at 4096. -/
def emptySession : Session Globals := allocator.fresh (fun _ => 0) 4096

theorem emptySession_init : allocator.system.init emptySession :=
  ⟨fun _ => 0, 4096, by decide, by decide, rfl⟩

/-- Three blocks; the first one is freed and taken again for the contents of the last one. -/
def movedDown : List Call :=
  [.scalloc ⟨true, none⟩ 3 8, .smalloc ⟨true, none⟩ 100, .smalloc ⟨true, none⟩ 16, .sfree 4128,
    .srealloc ⟨true, none⟩ 4316 20]

theorem allocator_contract_one_block : ∃ t bs, allocator.system.Reachable NoOverflow t ∧
    t.live = [(4128, 20), (4184, 100)] ∧ Contract t bs := by
  obtain ⟨t, -, hreach, hlive⟩ := TransitionSystem.exists_of_run NoOverflow movedDown
    (fun t => t.live = [(4128, 20), (4184, 100)]) emptySession_init
    (by simp [movedDown, NoOverflow]) (by decide +kernel)
  obtain ⟨bs, hcontract, -⟩ := allocator_contract hreach
  exact ⟨t, bs, hreach, by simpa using hlive, hcontract⟩

/-- A large block is freed and taken again for the contents of a small one behind it. -/
def copiedPastBreak : List Call :=
  [.smalloc ⟨true, none⟩ 70000, .smalloc ⟨true, none⟩ 8, .sfree 4128,
    .srealloc ⟨true, none⟩ 74160 60000]

/-- The 60000 bytes to be copied end behind the last page of the heap. -/
theorem srealloc_overread_ends : ∃ t,
    allocator.system.run emptySession copiedPastBreak = some t ∧
      allocator.system.Reachable NoOverflow t ∧ t.fault = some .segfault := by
  obtain ⟨t, hrun, hreach, hfault⟩ := TransitionSystem.exists_of_run NoOverflow copiedPastBreak
    (fun t => t.fault = some .segfault) emptySession_init
    (by simp [copiedPastBreak, NoOverflow]) (by decide +kernel)
  exact ⟨t, hrun, hreach, by simpa using hfault⟩

/-- `scalloc(2 ^ 63 + 1, 2)` returns a block of two bytes. -/
theorem scalloc_overflow_short : ∃ t,
    allocator.system.run emptySession [.scalloc ⟨true, none⟩ (2 ^ 63 + 1) 2] = some t ∧
      allocator.system.Reachable TransitionSystem.always t ∧ ¬∃ bs, Contract t bs := by
  obtain ⟨t, hrun, hreach, hlive⟩ := TransitionSystem.exists_of_run TransitionSystem.always
    [.scalloc ⟨true, none⟩ (2 ^ 63 + 1) 2] (fun t => t.live = [(4128, 2 ^ 64 + 2)])
    emptySession_init (fun _ _ _ => trivial) (by decide +kernel)
  rw [decide_eq_true_eq] at hlive
  refine ⟨t, hrun, hreach, ?_⟩
  -- no block is that large
  rintro ⟨bs, hc⟩
  obtain ⟨b, hb, -, -, hn⟩ := hc.room (4128, 2 ^ 64 + 2) (by simp [hlive])
  have := hc.represents.bounds hb
  simp only at hn
  omega

end FtfSystems.VirtualMemory.Malloc1

import FtfSystems.VirtualMemory.Malloc2.BlockOrigin

/-!
# The statistics of the second allocator

One loop walks both lists at once. On any two lists that end it adds up the values at all of
their nodes; for blocks that do not overlap the sum fits a `size_t`. As long as only small blocks
are requested and freed, every byte by which the break has moved is a header or a payload, and
every payload is free or held by the program.
-/
namespace FtfSystems.VirtualMemory.Malloc2
open Foundation

/-- The nodes from `head` on, by `next`, up to null. -/
structure NextChain (m : Memory) (head : ℕ) (bs : List Block) : Prop where
  head_eq : head = headAddr Block.addr 0 bs
  linked : Linked Block.addr (Block.Forward m) 0 bs 0
  pos : ∀ b ∈ bs, b.addr ≠ 0
  lt : ∀ b ∈ bs, b.addr < 2 ^ 64

section Chains
variable {s : Heap} {m : Memory} {head prv : ℕ} {bs ms : List Block}

theorem Represents.nextChain (h : Represents s bs) : NextChain s.mem s.glob.root bs where
  head_eq := h.root_eq
  linked := h.linked.frame fun b _ p n hat => by
    rw [Block.Forward, show metadataAt s.mem b.addr = _ from hat]
  pos b hb := by
    have := h.bounds hb
    omega
  lt b hb := by
    have := h.bounds hb
    omega

theorem NextChain.length_lt (h : NextChain m head bs) : bs.length < 2 ^ 64 := by
  have hsub : (bs.map Block.addr).toFinset ⊆ Finset.Ioo 0 (2 ^ 64) := by
    intro a ha
    obtain ⟨b, hb, rfl⟩ := List.mem_map.mp (List.mem_toFinset.mp ha)
    exact Finset.mem_Ioo.mpr ⟨Nat.pos_of_ne_zero (h.pos b hb), h.lt b hb⟩
  have hcard := Finset.card_le_card hsub
  rw [List.toFinset_card_of_nodup (nodup_of_forward h.linked h.pos), List.length_map,
    Nat.card_Ioo] at hcard
  omega

/-- What the loop adds for a list: the value at its first node, if there is one. -/
def headValue (value : Block → ℕ) (bs : List Block) : ℕ := (bs.head?.map value).getD 0

theorem headValue_add_tail (value : Block → ℕ) (bs : List Block) :
    headValue value bs + (bs.tail.map value).sum = (bs.map value).sum := by
  cases bs <;> simp [headValue]

theorem ifNode_run {f : ℕ → M ℕ} {value : Block → ℕ} (hpos : ∀ b ∈ bs, b.addr ≠ 0)
    (hf : ∀ b ∈ bs, (f b.addr).run s = .ok (value b, s)) :
    (ifNode f (headAddr Block.addr 0 bs)).run s = .ok (headValue value bs, s) := by
  cases bs with
  | nil => rfl
  | cons b bs =>
    rw [headAddr_cons, ifNode, if_pos (hpos b (by simp)), hf b (by simp)]
    rfl

theorem ifNode_next_run (h : Linked Block.addr (Block.Forward s.mem) prv bs 0)
    (hpos : ∀ b ∈ bs, b.addr ≠ 0) :
    (ifNode getNext (headAddr Block.addr 0 bs)).run s =
      .ok (headAddr Block.addr 0 bs.tail, s) := by
  cases bs with
  | nil => rfl
  | cons b bs =>
    have hb : b.addr ≠ 0 := hpos b (by simp)
    have hat : metadataAt s.mem b.addr = _ := h.1
    rw [headAddr_cons, ifNode, if_pos hb, getNext_run hb, hat]
    rfl

theorem linked_tail (h : Linked Block.addr (Block.Forward m) prv bs 0) :
    ∃ prv', Linked Block.addr (Block.Forward m) prv' bs.tail 0 := by
  cases bs with
  | nil => exact ⟨prv, trivial⟩
  | cons b bs => exact ⟨b.addr, h.2⟩

/-- The loop over two lists that end, whatever their lengths. -/
theorem sumLists_run (term : ℕ → M ℕ) (value : Block → ℕ) {fuel total prv' : ℕ}
    (hl : Linked Block.addr (Block.Forward s.mem) prv bs 0)
    (hl' : Linked Block.addr (Block.Forward s.mem) prv' ms 0) (hpos : ∀ b ∈ bs ++ ms, b.addr ≠ 0)
    (hterm : ∀ b ∈ bs ++ ms, (term b.addr).run s = .ok (value b, s)) (hfuel : bs.length < fuel)
    (hfuel' : ms.length < fuel) (htotal : total < 2 ^ 64) :
    (sumLists term fuel (headAddr Block.addr 0 bs) (headAddr Block.addr 0 ms) total).run s =
      .ok ((total + ((bs.map value).sum + (ms.map value).sum)) % 2 ^ 64, s) := by
  induction fuel generalizing bs ms total prv prv' with
  | zero => omega
  | succ fuel ih =>
    have hposb : ∀ b ∈ bs, b.addr ≠ 0 := fun b hb => hpos b (by simp [hb])
    have hposm : ∀ b ∈ ms, b.addr ≠ 0 := fun b hb => hpos b (by simp [hb])
    by_cases hnil : bs = [] ∧ ms = []
    · obtain ⟨rfl, rfl⟩ := hnil
      simp only [headAddr_nil, sumLists, ne_eq, not_true_eq_false, or_self, if_false, pure_run,
        List.map_nil, List.sum_nil, Nat.add_zero, Nat.mod_eq_of_lt htotal]
    · have hcond : headAddr Block.addr 0 bs ≠ 0 ∨ headAddr Block.addr 0 ms ≠ 0 := by
        cases bs with
        | cons b bs => exact .inl (hposb b (by simp))
        | nil =>
          cases ms with
          | cons b ms => exact .inr (hposm b (by simp))
          | nil => exact absurd ⟨rfl, rfl⟩ hnil
      have hlen : bs.length ≠ 0 ∨ ms.length ≠ 0 := by
        rw [← not_and_or]
        simpa using hnil
      obtain ⟨p, hp⟩ := linked_tail hl
      obtain ⟨p', hp'⟩ := linked_tail hl'
      have htail : ∀ b ∈ bs.tail ++ ms.tail, b ∈ bs ++ ms := by
        intro b hb
        rcases List.mem_append.mp hb with hb | hb
        · simp [List.mem_of_mem_tail hb]
        · simp [List.mem_of_mem_tail hb]
      have hlt : wadd total (wadd (headValue value ms) (headValue value bs)) < 2 ^ 64 :=
        Nat.mod_lt _ (by decide)
      have hsum := headValue_add_tail value bs
      have hsum' := headValue_add_tail value ms
      simp only [sumLists, if_pos hcond, StateT.run_bind, ok_bind,
        ifNode_run hposb (fun b hb => hterm b (by simp [hb])),
        ifNode_run hposm (fun b hb => hterm b (by simp [hb])), ifNode_next_run hl hposb,
        ifNode_next_run hl' hposm]
      rw [ih hp hp' (fun b hb => hpos b (htail b hb)) (fun b hb => hterm b (htail b hb))
        (by rw [List.length_tail]; omega) (by rw [List.length_tail]; omega) hlt]
      simp only [wadd]
      congr 2
      omega

/-- What the two statistics over both lists return. -/
theorem numAllocated_run (h : NextChain s.mem s.glob.root bs)
    (h' : NextChain s.mem s.glob.mmapHead ms) :
    numAllocatedBlocks.run s = .ok ((bs.length + ms.length) % 2 ^ 64, s) ∧
      numAllocatedBytes.run s =
        .ok (((bs.map Block.size).sum + (ms.map Block.size).sum) % 2 ^ 64, s) := by
  have hpos : ∀ b ∈ bs ++ ms, b.addr ≠ 0 := by
    intro b hb
    rcases List.mem_append.mp hb with hb | hb
    · exact h.pos b hb
    · exact h'.pos b hb
  have hsize : ∀ b ∈ bs ++ ms, (getSize b.addr : M ℕ).run s = .ok (b.size, s) := by
    intro b hb
    rw [getSize_run (hpos b hb)]
    rcases List.mem_append.mp hb with hb | hb
    · obtain ⟨pre, post, rfl⟩ := List.append_of_mem hb
      have hat : metadataAt s.mem b.addr = _ := Linked_mid h.linked
      rw [hat]
    · obtain ⟨pre, post, rfl⟩ := List.append_of_mem hb
      have hat : metadataAt s.mem b.addr = _ := Linked_mid h'.linked
      rw [hat]
  constructor
  · have hrun := sumLists_run (s := s) (fun _ => return 1) (fun _ => 1) h.linked h'.linked hpos
      (fun _ _ => rfl) h.length_lt h'.length_lt (by decide : 0 < 2 ^ 64)
    rw [← h.head_eq, ← h'.head_eq] at hrun
    simp only [numAllocatedBlocks, StateT.run_bind, getRoot_run, getMmapHead_run, ok_bind]
    simpa [listFuel] using hrun
  · have hrun := sumLists_run (s := s) getSize Block.size h.linked h'.linked hpos hsize
      h.length_lt h'.length_lt (by decide : 0 < 2 ^ 64)
    rw [← h.head_eq, ← h'.head_eq, Nat.zero_add] at hrun
    simp only [numAllocatedBytes, StateT.run_bind, getRoot_run, getMmapHead_run, ok_bind]
    exact hrun

/-- Blocks in the address space that do not overlap. -/
def NoOverlap (bs : List Block) : Prop :=
  bs.Pairwise (fun b c => b.addr + b.len ≤ c.addr ∨ c.addr + c.len ≤ b.addr) ∧
    ∀ b ∈ bs, b.addr + b.len ≤ 2 ^ 64

/-- The number of such blocks and their sizes fit a `size_t`. -/
theorem NoOverlap.sums_lt (h : NoOverlap (bs ++ ms)) : bs.length + ms.length < 2 ^ 64 ∧
    (bs.map Block.size).sum + (ms.map Block.size).sum < 2 ^ 64 := by
  have hle := sum_len_le_of_apart h.1 h.2
  rw [Block.sum_len, List.map_append, List.sum_append, List.length_append] at hle
  by_cases hnil : bs.length = 0 ∧ ms.length = 0
  · rw [List.length_eq_zero_iff, List.length_eq_zero_iff] at hnil
    obtain ⟨rfl, rfl⟩ := hnil
    simp
  · omega

end Chains

/-- Programs that request less than the limit and free only blocks below it. -/
def SmallTraffic (t : Session Globals) : Call → Prop
  | .smalloc _ size => size < mmapAllocationLimit
  | .sfree p => p = 0 ∨ (metadataAt t.heap.mem (header p)).size < mmapAllocationLimit
  | .write _ _ _ => True
  | .scalloc _ _ _ => False
  | .srealloc _ _ _ => False

instance (t : Session Globals) (c : Call) : Decidable (SmallTraffic t c) :=
  match c with
  | .smalloc _ size => inferInstanceAs (Decidable (size < mmapAllocationLimit))
  | .sfree p => inferInstanceAs (Decidable (p = 0 ∨ _ < mmapAllocationLimit))
  | .write _ _ _ => inferInstanceAs (Decidable True)
  | .scalloc _ _ _ => inferInstanceAs (Decidable False)
  | .srealloc _ _ _ => inferInstanceAs (Decidable False)

/-- The sizes of the blocks that the program holds. -/
def liveBytes (t : Session Globals) : ℕ :=
  (t.live.map fun e => (metadataAt t.heap.mem (header e.1)).size).sum

/-- Every block comes from `sbrk`, the first one from the start of the heap, and the program
holds no pointer twice. -/
structure Counted (t : Session Globals) (bs : List Block) : Prop where
  tracked : Tracked t bs none
  start : headAddr Block.addr t.heap.brk bs = t.heap.heapStart
  nodup : (t.live.map Prod.fst).Nodup

namespace Counted
variable {t t' : Session Globals} {bs : List Block} {c : Call}

theorem step (h : Counted t bs) (hok : SmallTraffic t c) (hs : allocator.next t c = some t') :
    ∃ bs', Counted t' bs' := by
  cases c with
  | smalloc os size =>
    obtain ⟨hheap, -, hlive, htr⟩ | ⟨p, bs', hserved, hlive, htr⟩ := h.tracked.smalloc_small hok hs
    · exact ⟨bs, htr, by rw [hheap]; exact h.start, by rw [hlive]; exact h.nodup⟩
    · refine ⟨bs', htr, ?_, ?_⟩
      · rw [hserved.step.headAddr_eq, hserved.maps.heapStart]
        exact h.start
      · rw [hlive, List.map_cons, List.nodup_cons]
        refine ⟨fun hmem => ?_, h.nodup⟩
        obtain ⟨e, he, hep⟩ := List.mem_map.mp hmem
        obtain ⟨b, hb, hu, hpb, -⟩ := h.tracked.room e he
        have hb' : b ∈ bs := by simpa using hb
        exact hserved.step.fresh h.tracked.heap.represents hb' hu (by omega)
  | sfree p =>
    have hsub : (t.dropped p).Sublist t.live := List.filter_sublist
    have hnodup (hf : t'.fault = none) : (t'.live.map Prod.fst).Nodup := by
      rw [Allocator.next_sfree_live hs hf]
      exact h.nodup.sublist (hsub.map Prod.fst)
    obtain ⟨hp | ⟨e, he, hep⟩, -⟩ := Allocator.next_sfree hs
    · subst hp
      obtain ⟨hheap, htr⟩ := h.tracked.sfree_null hs
      exact ⟨bs, htr, by rw [hheap]; exact h.start, hnodup htr.fault⟩
    · obtain ⟨b, hb, hu, hpb, -⟩ := h.tracked.room e he
      have hb' : b ∈ bs := by simpa using hb
      have hlt := h.tracked.header_bounds hb
      have hp : p = b.addr + 32 := by rw [← hep, hpb]
      subst hp
      have hsize : b.size < mmapAllocationLimit := by
        rcases hok with h0 | hsize
        · omega
        · obtain ⟨pre, post, rfl⟩ := List.append_of_mem hb'
          rwa [header_of_lt (by omega), h.tracked.heap.represents.header] at hsize
      obtain ⟨hrel, htr⟩ := h.tracked.sfree_small hb' hu hsize hs
      refine ⟨_, htr, ?_, hnodup htr.fault⟩
      rw [headAddr_release, hrel.brk, hrel.maps.heapStart]
      exact h.start
  | write p i v =>
    obtain ⟨hheap, htr⟩ := h.tracked.write hs
    obtain ⟨-, rfl⟩ := Allocator.next_write hs
    exact ⟨bs, htr, h.start, h.nodup⟩
  | scalloc os num size => exact hok.elim
  | srealloc os oldp size => exact hok.elim

theorem of_reachable (h : allocator.system.Reachable SmallTraffic t) : ∃ bs, Counted t bs := by
  refine h.invariant (I := fun t => ∃ bs, Counted t bs) ?_ ?_
  · rintro _ ⟨mem, brk, hpos, hlt, rfl⟩
    exact ⟨[], Tracked.init mem hpos hlt, rfl, List.nodup_nil⟩
  · rintro s c s' ⟨bs, hI⟩ hok hs
    exact hI.step hok hs

/-- The pointers held are those to the blocks in use. -/
theorem live_perm (h : Counted t bs) : (t.live.map Prod.fst).Perm
    ((bs.filter fun b => !b.isFree).map fun b => b.addr + 32) := by
  have hrep := h.tracked.heap.represents
  refine (List.perm_ext_iff_of_nodup h.nodup ?_).mpr (fun p => ?_)
  · have hchain := hrep.nextChain
    have hsub : ((bs.filter fun b => !b.isFree).map Block.addr).Nodup :=
      (nodup_of_forward hchain.linked hchain.pos).sublist (List.filter_sublist.map _)
    have hinj := hsub.map (f := (· + 32)) (fun a b hab => by simpa using hab)
    rwa [List.map_map] at hinj
  · simp only [List.mem_map, List.mem_filter, Bool.not_eq_true']
    constructor
    · rintro ⟨e, he, rfl⟩
      obtain ⟨b, hb, hu, hpb, -⟩ := h.tracked.room e he
      exact ⟨b, ⟨by simpa using hb, hu⟩, hpb.symm⟩
    · rintro ⟨b, ⟨hb, hu⟩, rfl⟩
      obtain ⟨n, hn⟩ := h.tracked.live b (by simpa using hb) hu
      exact ⟨_, hn, rfl⟩

theorem liveBytes_eq (h : Counted t bs) :
    liveBytes t = ((bs.filter fun b => !b.isFree).map Block.size).sum := by
  have hsum := (h.live_perm.map fun p => (metadataAt t.heap.mem (header p)).size).sum_eq
  rw [List.map_map, List.map_map] at hsum
  rw [liveBytes, show (t.live.map fun e => (metadataAt t.heap.mem (header e.1)).size) = _ from rfl]
  refine hsum.trans (congrArg List.sum (List.map_congr_left fun b hb => ?_))
  have hb' : b ∈ bs := (List.mem_filter.mp hb).1
  have hlt := h.tracked.heap.represents.bounds hb'
  obtain ⟨pre, post, rfl⟩ := List.append_of_mem hb'
  simp only [Function.comp_apply, header_of_lt (by omega : b.addr + 32 < 2 ^ 64),
    h.tracked.heap.represents.header]

/-- A payload is counted as free or held. -/
theorem sum_free_add_used (bs : List Block) :
    (bs.map fun b => if b.isFree then b.size else 0).sum +
      ((bs.filter fun b => !b.isFree).map Block.size).sum = (bs.map Block.size).sum := by
  induction bs with
  | nil => rfl
  | cons b bs ih =>
    cases hb : b.isFree <;> simp [hb] <;> omega

theorem numFreeBytes_run {s : Heap} (h : Represents s bs) :
    numFreeBytes.run s = .ok ((bs.map fun b => if b.isFree then b.size else 0).sum, s) := by
  have hpos : ∀ b ∈ bs, b.addr ≠ 0 := h.nextChain.pos
  have hterm : ∀ b ∈ bs, (do if (← getIsFree b.addr) then getSize b.addr else return 0 : M ℕ).run s =
      .ok (if b.isFree then b.size else 0, s) := by
    intro b hb
    have hb0 := hpos b hb
    obtain ⟨pre, post, rfl⟩ := List.append_of_mem hb
    simp only [StateT.run_bind, getIsFree_run hb0, ok_bind, h.header]
    split
    · rw [getSize_run hb0, h.header]
    · rfl
  have hsum := sum_free_add_used bs
  have hbytes := h.sum_bytes
  have hlt := h.brk_lt
  have hrun := sumList_run (s := s) (fun p => do if (← getIsFree p) then getSize p else return 0)
    (fun b => if b.isFree then b.size else 0) 0 h.linked hpos hterm
    (by exact h.length_lt : bs.length < listFuel) (by omega)
  rw [← h.root_eq, Nat.zero_add] at hrun
  simp only [numFreeBytes, StateT.run_bind, getRoot_run, ok_bind, hrun]

/-- The figures of a state: payloads and headers make up what the break has moved, and what is
free and what is held make up the payloads. -/
theorem figures (h : Counted t bs) : ∃ allocated metaData free,
    numAllocatedBytes.run t.heap = .ok (allocated, t.heap) ∧
      numMetaDataBytes.run t.heap = .ok (metaData, t.heap) ∧
      numFreeBytes.run t.heap = .ok (free, t.heap) ∧
      t.heap.heapStart + (allocated + metaData) = t.heap.brk ∧ free + liveBytes t = allocated := by
  have hrep := h.tracked.heap.represents
  have hnone : NextChain t.heap.mem t.heap.glob.mmapHead [] :=
    ⟨h.tracked.maps.1, trivial, by simp, by simp⟩
  obtain ⟨hblocks, hallocated⟩ := numAllocated_run hrep.nextChain hnone
  have hbytes := hrep.sum_bytes
  have hlt := hrep.brk_lt
  rw [List.length_nil, Nat.add_zero, Nat.mod_eq_of_lt (by omega)] at hblocks
  rw [List.map_nil, List.sum_nil, Nat.add_zero, Nat.mod_eq_of_lt (by omega)] at hallocated
  refine ⟨_, 32 * bs.length, _, hallocated, ?_, numFreeBytes_run hrep, ?_, ?_⟩
  · simp only [numMetaDataBytes, StateT.run_bind, hblocks, ok_bind, pure_run, sizeofMetadata,
      wmul_of_lt (by omega : 32 * bs.length < 2 ^ 64)]
  · rw [← h.start]
    exact hbytes
  · rw [h.liveBytes_eq]
    exact sum_free_add_used bs

end Counted

/-- The statistics return the number of the blocks in both lists and the sum of their sizes, for
all lists that end; and in every run of small requests and frees they account for every byte. -/
theorem statistics_account :
    (∀ (s : Heap) (bs ms : List Block), NextChain s.mem s.glob.root bs →
      NextChain s.mem s.glob.mmapHead ms →
      numAllocatedBlocks.run s = .ok ((bs.length + ms.length) % 2 ^ 64, s) ∧
      numAllocatedBytes.run s =
        .ok (((bs.map Block.size).sum + (ms.map Block.size).sum) % 2 ^ 64, s) ∧
      (NoOverlap (bs ++ ms) →
        numAllocatedBlocks.run s = .ok (bs.length + ms.length, s) ∧
        numAllocatedBytes.run s =
          .ok ((bs.map Block.size).sum + (ms.map Block.size).sum, s))) ∧
    ∀ t, allocator.system.Reachable SmallTraffic t → ∃ allocated metaData free,
      numAllocatedBytes.run t.heap = .ok (allocated, t.heap) ∧
      numMetaDataBytes.run t.heap = .ok (metaData, t.heap) ∧
      numFreeBytes.run t.heap = .ok (free, t.heap) ∧
      allocated + metaData = t.heap.brk - t.heap.heapStart ∧ free + liveBytes t = allocated := by
  constructor
  · intro s bs ms h h'
    obtain ⟨hblocks, hbytes⟩ := numAllocated_run h h'
    refine ⟨hblocks, hbytes, fun hdisj => ?_⟩
    obtain ⟨hcount, hsum⟩ := hdisj.sums_lt
    rw [hblocks, hbytes, Nat.mod_eq_of_lt hcount, Nat.mod_eq_of_lt hsum]
    exact ⟨rfl, rfl⟩
  · intro t h
    obtain ⟨bs, hI⟩ := Counted.of_reachable h
    obtain ⟨allocated, metaData, free, ha, hm, hf, hbrk, hlive⟩ := hI.figures
    exact ⟨allocated, metaData, free, ha, hm, hf, by omega, hlive⟩

/-- Two requests, the first block given back. -/
def requestsAndFree : List Call :=
  [.smalloc ⟨true, none⟩ 100, .smalloc ⟨true, none⟩ 50, .sfree 4128]

/-- Two blocks of 64 bytes and no mapped one; and 214 bytes after a run, 64 of them headers. -/
theorem statistics_account_two_blocks :
    numAllocatedBytes.run twoBlocks = .ok (128, twoBlocks) ∧
    ∃ t, allocator.system.Reachable SmallTraffic t ∧ liveBytes t = 50 ∧
      ∃ allocated metaData free, numAllocatedBytes.run t.heap = .ok (allocated, t.heap) ∧
        numMetaDataBytes.run t.heap = .ok (metaData, t.heap) ∧
        numFreeBytes.run t.heap = .ok (free, t.heap) ∧ allocated + metaData = 214 ∧
        free + 50 = allocated := by
  obtain ⟨hlists, hruns⟩ := statistics_account
  constructor
  · have hnone : NextChain twoBlocks.mem twoBlocks.glob.mmapHead [] :=
      ⟨rfl, trivial, by simp, by simp⟩
    exact (hlists _ _ _ twoBlocks_wellFormed.represents.nextChain hnone).2.1
  · have hrun : (allocator.system.guardedRun SmallTraffic emptySession requestsAndFree).any
        (fun t => t.heap.brk = 4310 ∧ t.heap.heapStart = 4096 ∧ liveBytes t = 50) = true := by
      decide +kernel
    obtain ⟨t, hreach, ht⟩ := TransitionSystem.exists_of_guardedRun _ _ emptySession_init hrun
    rw [decide_eq_true_eq] at ht
    obtain ⟨hbrk, hstart, hlive⟩ := ht
    obtain ⟨allocated, metaData, free, ha, hm, hf, hsum, hfree⟩ := hruns t hreach
    rw [hbrk, hstart] at hsum
    rw [hlive] at hfree
    exact ⟨t, hreach, hlive, allocated, metaData, free, ha, hm, hf, hsum, hfree⟩

end FtfSystems.VirtualMemory.Malloc2

import FtfSystems.VirtualMemory.Malloc2.MixedAllocate

/-!
# Freeing while blocks are mapped

A block of the heap is freed as on a heap without mapped blocks: only free neighbours are merged
into it, and those came from `sbrk`. A mapped block is unlinked from its list and its region is
unmapped; the last one of the list of `root` cannot be, since `mmap_end` belongs to the other list.
-/
namespace FtfSystems.VirtualMemory.Malloc2
open Foundation

theorem isMapped_congr {rs : List Region} {b c : Block} (h : b.addr = c.addr) :
    IsMapped rs b ↔ IsMapped rs c := by
  rw [IsMapped, IsMapped, h]

/-- The block between `pre` and `post` is no longer in use; the others that are stay. -/
structure MixedFreed (pre post : List Block) (m : Option Block) (bs' : List Block) (s' : Heap) :
    Prop where
  mixed : MixedHeap s' bs' m
  mem : ∀ c : Block, c.isFree = false → (c ∈ bs' ↔ c ∈ pre ∨ c ∈ post)

namespace MixedHeap
variable {s s' : Heap} {bs bs' pre post : List Block} {m : Option Block} {a b c : Block}

/-- The flag written through a pointer to a header that has become payload. -/
theorem setIsFree_inside (h : MixedHeap s (pre ++ a :: post) m) {p : ℕ} (hlo : a.addr + 32 ≤ p)
    (hhi : p ≤ a.addr + a.size) : ∃ s', (setIsFree p true).run s = .ok ((), s') ∧
      MixedHeap s' (pre ++ a :: post) m := by
  have hmem : HeadersOnly [p] s.mem (storeField s.mem p .isFree 1) := .storeField _ (by simp) _ _
  refine ⟨_, VirtualMemory.setIsFree_run (by omega) s true, ?_⟩
  refine h.write_payload (b := a) (by simp) rfl fun x hx => hmem x fun t ht => ?_
  rw [List.mem_singleton.mp ht]
  omega

/-- Only the flag is set. -/
theorem flag_run (h : MixedHeap s (pre ++ b :: post) m) (hb : ¬IsMapped s.regions b) :
    ∃ s', (setIsFree b.addr true).run s = .ok ((), s') ∧
      MixedFreed pre post m (pre ++ b.freed :: post) s' := by
  obtain ⟨s', hrun, heq, hmix⟩ := h.setIsFree_run hb true
  refine ⟨s', hrun, hmix, fun c hc => ?_⟩
  have hne : c ≠ b.freed := by
    rintro rfl
    cases hc
  simp [hne]

/-- The block behind is merged when it is free; the block itself still has to be flagged. -/
theorem combineNext_run (h : MixedHeap s (pre ++ b :: post) m) (hb : ¬IsMapped s.regions b) :
    ∃ s' b' post', (combineNext b.addr).run s = .ok ((), s') ∧ s'.regions = s.regions ∧
      MixedHeap s' (pre ++ b' :: post') m ∧ b'.addr = b.addr ∧
      ∀ c : Block, c.isFree = false → (c ∈ post' ↔ c ∈ post) := by
  have hb0 : b.addr ≠ 0 := by
    have := h.chain.bounds b (by simp)
    omega
  cases post with
  | nil =>
    refine ⟨s, b, [], ?_, rfl, h, rfl, fun _ _ => Iff.rfl⟩
    simp only [combineNext, StateT.run_bind, getNext_run hb0, ok_bind, h.chain.header, headAddr_nil,
      ne_eq, not_true_eq_false, if_false, pure_run]
  | cons c cs =>
    have hc0 : c.addr ≠ 0 := by
      have := h.chain.bounds c (by simp)
      omega
    have hc : BlockChain s.mem s.glob.root s.glob.end_ ((pre ++ [b]) ++ c :: cs) := by
      simpa using h.chain
    simp only [combineNext, StateT.run_bind, getNext_run hb0, ok_bind, h.chain.header,
      headAddr_cons, ne_eq, hc0, not_false_eq_true, if_true, getIsFree_run hc0, hc.header]
    by_cases hfree : c.isFree
    · obtain ⟨s', hrun, heq, -, hmix⟩ := h.combine_run hb (h.heap_of_free (by simp) hfree)
      refine ⟨s', b.merge c, cs, ?_, by rw [heq], hmix, rfl, fun d hd => ?_⟩
      · simp only [hfree, if_true, StateT.run_bind, getNext_run hb0, ok_bind, h.chain.header,
          headAddr_cons, hrun]
      · have hne : d ≠ c := by
          rintro rfl
          rw [hfree] at hd
          cases hd
        simp [hne]
    · refine ⟨s, b, c :: cs, ?_, rfl, h, rfl, fun _ _ => Iff.rfl⟩
      simp only [hfree]
      rfl

/-- The block before is free and takes `b` in; then the flag of `b` is payload. -/
theorem combine_into_prev (h : MixedHeap s (pre ++ a :: b :: post) m) (ha : a.isFree)
    (hb : ¬IsMapped s.regions b) : ∃ s₁ s', (combine a.addr b.addr).run s = .ok ((), s₁) ∧
      metadataAt s₁.mem b.addr = metadataAt s.mem b.addr ∧
      (post = [] → s₁.glob.end_ = a.addr) ∧
      (setIsFree b.addr true).run s₁ = .ok ((), s') ∧
      MixedFreed (pre ++ [a]) post m (pre ++ a.merge b :: post) s' := by
  have hheap := h.heap_of_free (by simp) ha
  have hadj := h.adjacent hheap hb
  obtain ⟨s₁, hrun₁, heq₁, hkeep, hmix₁⟩ := h.combine_run hheap hb
  obtain ⟨s', hrun', hmix'⟩ := hmix₁.setIsFree_inside (p := b.addr)
    (by simp only [Block.merge]; omega) (by simp only [Block.merge]; omega)
  refine ⟨s₁, s', hrun₁, hkeep, ?_, hrun', hmix', fun c hc => ?_⟩
  · rintro rfl
    rw [hmix₁.chain.last_eq]
    simp [Block.merge]
  · have hne : c ≠ a.merge b := by
      rintro rfl
      cases hc
    have hne' : c ≠ a := by
      rintro rfl
      rw [ha] at hc
      cases hc
    simp [hne, hne']

/-- The rest of `sfree`, for the block before and the flag. -/
theorem combinePrev_run (h : MixedHeap s (pre ++ b :: post) m) (hb : ¬IsMapped s.regions b) :
    ∃ s' bs', (do combinePrev b.addr; setIsFree b.addr true : M Unit).run s = .ok ((), s') ∧
      MixedFreed pre post m bs' s' := by
  have hb0 : b.addr ≠ 0 := by
    have := h.chain.bounds b (by simp)
    omega
  obtain ⟨s', hrun, hset⟩ := h.flag_run hb
  rcases List.eq_nil_or_concat' pre with rfl | ⟨ps, a, rfl⟩
  · refine ⟨s', _, ?_, hset⟩
    simp only [combinePrev, StateT.run_bind, getPrev_run hb0, ok_bind, h.chain.header,
      lastAddr_nil, ne_eq, not_true_eq_false, if_false, pure_run, hrun]
  · have ha : MixedHeap s (ps ++ a :: b :: post) m := by simpa using h
    have ha0 : a.addr ≠ 0 := by
      have := h.chain.bounds a (by simp)
      omega
    have hlast : lastAddr Block.addr 0 (ps ++ [a]) = a.addr := by simp
    simp only [combinePrev, StateT.run_bind, getPrev_run hb0, ok_bind, h.chain.header, hlast,
      ne_eq, ha0, not_false_eq_true, if_true, getIsFree_run ha0, ha.chain.header]
    by_cases hfree : a.isFree
    · obtain ⟨s₁, s₂, hrun₁, -, -, hrun₂, hset₂⟩ := ha.combine_into_prev hfree hb
      refine ⟨s₂, _, ?_, hset₂⟩
      simp only [hfree, if_true, StateT.run_bind, getPrev_run hb0, ok_bind, h.chain.header, hlast,
        hrun₁, hrun₂]
    · refine ⟨s', _, ?_, hset⟩
      simp only [hfree]
      exact hrun

theorem sfreeNeighbours_run (h : MixedHeap s (pre ++ b :: post) m) (hb : ¬IsMapped s.regions b) :
    ∃ s' bs', (sfreeNeighbours b.addr).run s = .ok ((), s') ∧ MixedFreed pre post m bs' s' := by
  obtain ⟨s₁, b', post', hrun₁, hregions, hmix₁, haddr, hpost⟩ := h.combineNext_run hb
  have hb' : ¬IsMapped s₁.regions b' := by rwa [hregions, isMapped_congr haddr]
  obtain ⟨s₂, bs', hrun₂, hset⟩ := hmix₁.combinePrev_run hb'
  refine ⟨s₂, bs', ?_, hset.mixed, fun c hc => ?_⟩
  · rw [haddr] at hrun₂
    rw [sfreeNeighbours, StateT.run_bind, hrun₁, ok_bind, hrun₂]
  · rw [hset.mem c hc, hpost c hc]

/-- Every path of `sfree` through the list of `root`, for a block from `sbrk`. -/
theorem sfreeSbrk_run (h : MixedHeap s (pre ++ b :: post) m) (hb : ¬IsMapped s.regions b) :
    ∃ s' bs', (sfreeSbrk b.addr).run s = .ok ((), s') ∧ MixedFreed pre post m bs' s' := by
  have hb0 : b.addr ≠ 0 := by
    have := h.chain.bounds b (by simp)
    omega
  have hneigh := h.sfreeNeighbours_run hb
  obtain ⟨s', hrun, hset⟩ := h.flag_run hb
  simp only [sfreeSbrk, StateT.run_bind, getRoot_run, ok_bind, h.chain.root_eq_iff]
  by_cases hroot : pre = []
  · subst hroot
    have hp : b.addr = s.glob.root := h.chain.root_eq_iff.mpr rfl
    rw [if_pos rfl]
    cases post with
    | nil =>
      have hend : s.glob.end_ = s.glob.root := by rw [← hp, eq_comm, h.chain.last_eq_iff]
      refine ⟨s', _, ?_, hset⟩
      simp only [StateT.run_bind, getNext_run hb0, ok_bind, h.chain.header, headAddr_nil, if_true,
        getRoot_run, setEnd_run, setEnd_self hend, hrun]
    | cons c cs =>
      have hc0 : c.addr ≠ 0 := by
        have := h.chain.bounds c (by simp)
        omega
      have hc : BlockChain s.mem s.glob.root s.glob.end_ ([b] ++ c :: cs) := h.chain
      simp only [StateT.run_bind, getNext_run hb0, ok_bind, h.chain.header, headAddr_cons, hc0,
        if_false, getIsFree_run hc0, hc.header]
      by_cases hfree : c.isFree
      · obtain ⟨s₁, hrun₁, heq₁, -, hmix₁⟩ := h.combine_run hb (h.heap_of_free (by simp) hfree)
        have hroot₁ : s₁.glob.root = b.addr := by rw [heq₁, hp]
        have hheap₁ : ¬IsMapped s₁.regions (b.merge c) := by
          rw [heq₁]
          exact (isMapped_congr rfl).not.mpr hb
        obtain ⟨s₂, hrun₂, hset₂⟩ := hmix₁.flag_run hheap₁
        refine ⟨s₂, _, ?_, hset₂.mixed, fun d hd => ?_⟩
        · simp only [hfree, if_true, StateT.run_bind, getNext_run hb0, ok_bind, h.chain.header,
            headAddr_cons, hrun₁, setRoot_run, setRoot_self hroot₁]
          exact hrun₂
        · rw [hset₂.mem d hd]
          have hne : d ≠ c := by
            rintro rfl
            rw [hfree] at hd
            cases hd
          simp [hne]
      · simp only [hfree]
        exact hneigh
  · rw [if_neg hroot]
    simp only [StateT.run_bind, getEnd_run, ok_bind, h.chain.last_eq_iff]
    by_cases hend : post = []
    · subst hend
      rw [if_pos rfl]
      obtain ⟨ps, a, rfl⟩ : ∃ ps a, pre = ps ++ [a] :=
        (List.eq_nil_or_concat' pre).resolve_left hroot
      have ha : MixedHeap s (ps ++ a :: [b]) m := by simpa using h
      have ha0 : a.addr ≠ 0 := by
        have := h.chain.bounds a (by simp)
        omega
      have hlast : lastAddr Block.addr 0 (ps ++ [a]) = a.addr := by simp
      simp only [StateT.run_bind, getPrev_run hb0, ok_bind, h.chain.header, hlast,
        getIsFree_run ha0, ha.chain.header]
      by_cases hfree : a.isFree
      · obtain ⟨s₁, s₂, hrun₁, hkeep, hlast₁, hrun₂, hset₂⟩ := ha.combine_into_prev hfree hb
        refine ⟨s₂, _, ?_, hset₂⟩
        simp only [hfree, if_true, StateT.run_bind, getPrev_run hb0, ok_bind, h.chain.header,
          hlast, hrun₁, hkeep, setEnd_run, setEnd_self (hlast₁ rfl), hrun₂]
      · refine ⟨s', _, ?_, hset⟩
        simp only [hfree]
        exact hrun
    · rw [if_neg hend]
      exact hneigh

/-- The block of `mmap_head` is taken off its list. -/
theorem drop_head (h : MixedHeap s bs (some b)) :
    MixedHeap { s with glob.mmapHead := 0 } bs none where
  chain := h.chain
  tiles := h.tiles
  first := h.first
  pos := h.pos
  brk_lt := h.brk_lt
  placed r hr := by
    have hr' := h.placed r hr
    exact ⟨hr'.aligned, hr'.pos, hr'.len_pos, hr'.lt, hr'.outside⟩
  regions_apart := h.regions_apart
  filled c hc := h.filled c (by simpa using Or.inr hc)
  head := rfl

/-- The blocks on the two sides of a mapped one are linked to each other. -/
theorem unlink (h : MixedHeap s (pre ++ a :: b :: c :: post) m) (hb : IsMapped s.regions b) :
    MixedHeap { s with mem := storeField (storeField s.mem a.addr .next c.addr) c.addr .prev a.addr }
      (pre ++ a :: c :: post) m := by
  have hsp : MixedHeap s (pre ++ [a, b] ++ c :: post) m := by simpa using h
  have hc : MixedHeap s ((pre ++ [a, b]) ++ c :: post) m := hsp
  have hsub : (pre ++ [a] ++ c :: post).Sublist (pre ++ [a, b] ++ c :: post) := by
    simp only [List.append_assoc, List.cons_append, List.nil_append]
    exact (((List.Sublist.refl _).cons b).cons_cons a).append_left pre
  have hac := h.chain.side (c := c) (by simp)
  have hab := h.chain.bounds a (by simp)
  have hcb := h.chain.bounds c (by simp)
  simp only [Block.Apart] at hac
  have hmem : HeadersOnly [a.addr, c.addr] s.mem
      (storeField (storeField s.mem a.addr .next c.addr) c.addr .prev a.addr) :=
    (HeadersOnly.storeField _ (by simp) _ _).trans (.storeField _ (by simp) _ _)
  have hlast : s.glob.end_ = lastAddr Block.addr 0 (pre ++ [a] ++ c :: post) := by
    rw [h.chain.last_eq]
    simp
  have hchain : BlockChain (storeField (storeField s.mem a.addr .next c.addr) c.addr .prev a.addr)
      s.glob.root s.glob.end_ (pre ++ [a] ++ c :: post) := by
    rw [hlast]
    refine hsp.chain.splice [a.addr] (fun n => rfl) (fun t ht d hd => ?_) (hmem.mono (by simp))
      ⟨?_, trivial⟩ ?_ (hsp.chain.apart.sublist hsub) fun d hd => ?_
    · have hside : a.Apart d := h.chain.side (by
        rcases hd with hd | hd
        · exact .inl hd
        · exact .inr (List.mem_cons_of_mem _ hd))
      rw [List.mem_singleton.mp ht]
      simp only [Block.Apart] at hside
      omega
    · rw [Block.At, metadataAt_storeField_of_apart _ _ _ (by omega), metadataAt_storeField,
        h.chain.header, headAddr_cons, MallocMetadata.set, Nat.mod_eq_of_lt (by omega)]
      rfl
    · rintro d ds hd
      obtain ⟨rfl, rfl⟩ := List.cons.inj hd
      rw [metadataAt_storeField, metadataAt_storeField_of_apart _ _ _ (by omega),
        MallocMetadata.set, Nat.mod_eq_of_lt (by omega)]
      simp
    · rw [List.mem_singleton.mp hd]
      exact hab
  have hpart : heapPart s.regions (pre ++ [a] ++ c :: post) =
      heapPart s.regions (pre ++ [a, b] ++ c :: post) := by
    simp only [heapPart_append]
    rw [show [a, b] = [a] ++ [b] from rfl, heapPart_append, heapPart_cons_mapped hb, heapPart_nil,
      List.append_nil]
  rw [show pre ++ a :: c :: post = pre ++ [a] ++ c :: post by simp]
  refine hsp.relist ⟨rfl, rfl, rfl, rfl⟩ hchain (hpart ▸ hsp.tiles) ?_ (.inl rfl) h.brk_lt hmem
    (fun t ht => .inl ?_) fun d hd _ => hsub.subset hd
  · intro d hd
    refine h.first d ?_
    cases pre <;> exact hd
  · simp only [List.mem_cons, List.not_mem_nil, or_false] at ht
    rcases ht with rfl | rfl
    · exact ⟨a, by simp, rfl⟩
    · exact ⟨c, by simp, rfl⟩

/-- The pages of one region are unmapped. -/
theorem munmap_run (h : MixedHeap s bs m) {r : Region} (hr : r ∈ s.regions) :
    (munmap r.addr r.len).run s = .ok ((), { s with
      regions := s.regions.filter (·.addr ≠ r.addr)
      calls := .munmap r.addr r.len :: s.calls }) := by
  have hcut : s.regions.flatMap (·.cut r.addr
      (r.addr + (r.len + pageSize - 1) / pageSize * pageSize)) =
        s.regions.filter (·.addr ≠ r.addr) := by
    refine Region.flatMap_cut (h.placed r hr).aligned (h.placed r hr).len_pos fun q hq => ?_
    have halign := (h.placed q hq).aligned
    have hpos := (h.placed q hq).len_pos
    by_cases hne : r = q
    · exact .inl hne.symm
    · exact .inr ⟨h.regions_apart_of_ne hq hr (Ne.symm hne), halign, hpos⟩
  simp only [munmap, StateT.run_bind, StateT.run_get, pure_bind, if_pos (h.placed r hr).aligned,
    hcut]
  rfl

/-- A region that no block fills is unmapped. -/
theorem drop_region (h : MixedHeap s bs m) {addr : ℕ} (hout : ∀ c ∈ m.toList ++ bs, c.addr ≠ addr)
    (calls : List Syscall) : MixedHeap { s with
      regions := s.regions.filter (·.addr ≠ addr), calls := calls } bs m := by
  refine h.remap rfl (fun r hr => h.placed r (List.mem_filter.mp hr).1)
    (h.regions_apart.filter _) fun c hc r he => ?_
  have hne := hout c hc
  simp only [List.mem_filter, decide_eq_true_eq, and_iff_left_iff_imp]
  intro _
  omega

/-- `sfree` on the block of `mmap_head`. -/
theorem sfreeMmap_head (h : MixedHeap s bs (some b)) : ∃ calls,
    (sfreeMmap b.addr).run s = .ok ((), { s with
      regions := s.regions.filter (·.addr ≠ b.addr), calls := calls, glob.mmapHead := 0 }) := by
  have hd : MappedHead s bs b := h.head
  obtain ⟨hb, hlt⟩ := h.bounds (b := b) (by simp)
  have hb0 : b.addr ≠ 0 := by omega
  obtain ⟨r, hr, he⟩ := hd.isMapped
  have hlen : wadd b.size sizeofMetadata = r.len := by
    rw [(h.filled b (by simp) r hr he).len_eq]
    exact wadd_sizeofMetadata (by omega)
  have hmunmap := h.drop_head.munmap_run (r := r) hr
  rw [he] at hmunmap
  refine ⟨.munmap b.addr r.len :: s.calls, ?_⟩
  simp only [sfreeMmap, StateT.run_bind, getPrev_run hb0, getNext_run hb0, getSize_run hb0, ok_bind,
    hd.header, if_true, setMmapHead_run, ne_eq, not_true_eq_false, if_false, hlen, hmunmap]

/-- `sfree` on a mapped block between two others. -/
theorem sfreeMmap_middle (h : MixedHeap s (pre ++ a :: b :: c :: post) m)
    (hb : IsMapped s.regions b) : ∃ s', (sfreeMmap b.addr).run s = .ok ((), s') ∧
      MixedHeap s' (pre ++ a :: c :: post) m := by
  have hpre : MixedHeap s ((pre ++ [a]) ++ b :: c :: post) m := by simpa using h
  have hab := h.chain.side (c := b) (by simp)
  have hbc := hpre.chain.side (c := c) (by simp)
  have ha0 : a.addr ≠ 0 := by
    have := h.chain.bounds a (by simp)
    omega
  have hc0 : c.addr ≠ 0 := by
    have := h.chain.bounds c (by simp)
    omega
  obtain ⟨hpos, hlt⟩ := h.chain.bounds b (by simp)
  have hb0 : b.addr ≠ 0 := by omega
  obtain ⟨r, hr, he⟩ := hb
  have hlen : wadd b.size sizeofMetadata = r.len := by
    rw [(h.filled b (by simp) r hr he).len_eq]
    exact wadd_sizeofMetadata (by omega)
  have hlast : lastAddr Block.addr 0 (pre ++ [a]) = a.addr := by simp
  have hkeep : metadataAt (storeField (storeField s.mem a.addr .next c.addr) c.addr .prev a.addr)
      b.addr = metadataAt s.mem b.addr := by
    simp only [Block.Apart] at hab hbc
    rw [metadataAt_storeField_of_apart _ _ _ (by omega),
      metadataAt_storeField_of_apart _ _ _ (by omega)]
  have hunlink := h.unlink ⟨r, hr, he⟩
  have hmunmap := hunlink.munmap_run (r := r) hr
  rw [he] at hmunmap
  have hout : ∀ d ∈ m.toList ++ (pre ++ a :: c :: post), d.addr ≠ b.addr := by
    intro d hd heq
    rcases List.mem_append.mp hd with hm | hd
    · obtain rfl : m = some d := by simpa using hm
      exact h.head.alone b (by simp) heq.symm
    · have hside : b.Apart d := hpre.chain.side (by
        simpa only [List.mem_append, List.mem_cons, List.not_mem_nil, or_false, or_assoc] using hd)
      simp only [Block.Apart] at hside
      omega
  refine ⟨_, ?_, hunlink.drop_region hout (.munmap b.addr r.len :: s.calls)⟩
  simp only [sfreeMmap, StateT.run_bind, getPrev_run hb0, getNext_run hb0, ok_bind,
    hpre.chain.header, hlast, headAddr_cons, if_neg ha0, if_neg hc0, setNext_run ha0,
    setPrev_run hc0, getSize_run hb0, hkeep, hlen, hmunmap]

/-- `sfree` on a mapped block behind all others does not return: `mmap_end` is null or gets null
from the block of `mmap_head`. -/
theorem sfreeMmap_last (h : MixedHeap s (pre ++ [b]) m) (hpre : pre ≠ [])
    (hend : s.glob.mmapHead = 0 → s.glob.mmapEnd = 0) :
    (sfreeMmap b.addr).run s = .error .nullDereference := by
  obtain ⟨ps, a, rfl⟩ : ∃ ps a, pre = ps ++ [a] := (List.eq_nil_or_concat' pre).resolve_left hpre
  have hb0 : b.addr ≠ 0 := by
    have := h.chain.bounds b (by simp)
    omega
  have ha0 : a.addr ≠ 0 := by
    have := h.chain.bounds a (by simp)
    omega
  have hlast : lastAddr Block.addr 0 (ps ++ [a]) = a.addr := by simp
  cases m with
  | none =>
    have hnull : s.glob.mmapEnd = 0 := hend h.head
    simp only [sfreeMmap, StateT.run_bind, getPrev_run hb0, getNext_run hb0, ok_bind,
      h.chain.header, hlast, headAddr_nil, if_neg ha0, if_true, getMmapEnd_run, hnull]
    rfl
  | some d =>
    have hd : MappedHead s (ps ++ [a] ++ [b]) d := h.head
    have hd0 : d.addr ≠ 0 := by
      have := h.bounds (b := d) (by simp)
      omega
    simp only [sfreeMmap, StateT.run_bind, getPrev_run hb0, getNext_run hb0, ok_bind,
      h.chain.header, hlast, headAddr_nil, ha0, if_false, if_true, getMmapEnd_run, hd.end_eq,
      getPrev_run hd0, hd.header, setMmapEnd_run, ne_eq, not_false_eq_true]
    rfl

/-- The header of a block, whichever list it is on. -/
theorem header_of_mem (h : MixedHeap s bs m) (hb : b ∈ m.toList ++ bs) (hu : b.isFree = false) :
    ∃ nxt prv, metadataAt s.mem b.addr = ⟨b.size, false, nxt, prv⟩ := by
  rcases List.mem_append.mp hb with hm | hbs
  · obtain rfl : m = some b := by simpa using hm
    exact ⟨0, 0, h.head.header⟩
  · obtain ⟨pre, post, rfl⟩ := List.append_of_mem hbs
    exact ⟨_, _, hu ▸ h.chain.header⟩

end MixedHeap

/-- The block to free is not a mapped one behind all others, unless `mmap_head` is the list that
`mmap_end` belongs to. -/
def KeepsEnd (s : Heap) (h : ℕ) : Prop :=
  mmapAllocationLimit ≤ (metadataAt s.mem h).size → (metadataAt s.mem h).prev ≠ 0 →
    (metadataAt s.mem h).next = 0 → s.glob.mmapHead = 0 → s.glob.mmapEnd = 0

instance (s : Heap) (h : ℕ) : Decidable (KeepsEnd s h) :=
  inferInstanceAs (Decidable (_ → _ → _ → _ → _))

/-- The block at `a` is no longer in use; the other blocks in use stay. -/
structure Dropped (bs : List Block) (m : Option Block) (a : ℕ) (bs' : List Block)
    (m' : Option Block) (s' : Heap) : Prop where
  mixed : MixedHeap s' bs' m'
  mem : ∀ c : Block, c.isFree = false →
    (c ∈ m'.toList ++ bs' ↔ c ∈ m.toList ++ bs ∧ c.addr ≠ a)

namespace MixedHeap
variable {s s' : Heap} {bs bs' pre post : List Block} {m m' : Option Block} {b c : Block}

theorem sfree_eq (h : MixedHeap s bs m) (hb : b ∈ m.toList ++ bs) (hu : b.isFree = false) :
    (sfree (b.addr + 32)).run s = (if mmapAllocationLimit ≤ b.size then sfreeMmap b.addr
      else sfreeSbrk b.addr).run s := by
  obtain ⟨hpos, hlt⟩ := h.bounds hb
  obtain ⟨nxt, prv, hheader⟩ := h.header_of_mem hb hu
  have hb0 : b.addr ≠ 0 := by omega
  simp only [sfree, if_neg (by omega : ¬b.addr + 32 = 0), header_of_lt (by omega : b.addr + 32 < _),
    StateT.run_bind, getIsFree_run hb0, getSize_run hb0, ok_bind, hheader, Bool.false_eq_true,
    if_false]

/-- The blocks besides one of the list of `root`. -/
theorem mem_others (h : MixedHeap s (pre ++ b :: post) m) (c : Block) :
    c ∈ m.toList ∨ c ∈ pre ∨ c ∈ post ↔
      c ∈ m.toList ++ (pre ++ b :: post) ∧ c.addr ≠ b.addr := by
  simp only [List.mem_append, Option.mem_toList, List.mem_cons]
  constructor
  · rintro (hm | hc)
    · subst hm
      exact ⟨.inl rfl, (h.head.alone b (by simp)).symm⟩
    · have hside := h.chain.side hc
      simp only [Block.Apart] at hside
      exact ⟨.inr (hc.imp_right .inr), by omega⟩
  · rintro ⟨hm | hc | rfl | hc, hca⟩
    · exact .inl hm
    · exact .inr (.inl hc)
    · exact absurd rfl hca
    · exact .inr (.inr hc)

/-- One block leaves the list of `root`. -/
theorem dropped_of_mem (h : MixedHeap s (pre ++ b :: post) m) (hmixed : MixedHeap s' bs' m)
    (hmem : ∀ c : Block, c.isFree = false → (c ∈ bs' ↔ c ∈ pre ∨ c ∈ post)) :
    Dropped (pre ++ b :: post) m b.addr bs' m s' := by
  refine ⟨hmixed, fun c hc => ?_⟩
  rw [List.mem_append, hmem c hc, h.mem_others]

/-- The block of `mmap_head` is unmapped. -/
theorem dropped_head (h : MixedHeap s bs (some b)) (calls : List Syscall) :
    Dropped bs (some b) b.addr bs none { s with
      regions := s.regions.filter (·.addr ≠ b.addr), calls := calls, glob.mmapHead := 0 } := by
  have halone : ∀ c ∈ bs, c.addr ≠ b.addr := fun c hc => h.head.alone c hc
  refine ⟨h.drop_head.drop_region (by simpa using halone) calls, fun c _ => ?_⟩
  simp only [Option.toList_none, List.nil_append, Option.toList_some, List.singleton_append,
    List.mem_cons]
  constructor
  · exact fun hc => ⟨.inr hc, halone c hc⟩
  · rintro ⟨rfl | hc, hne⟩
    · exact absurd rfl hne
    · exact hc

/-- A call of `sfree` that returns takes the block out of use, when only mapped blocks have the
size of one. -/
theorem sfree_ok (h : MixedHeap s bs m) (hb : b ∈ m.toList ++ bs) (hu : b.isFree = false)
    (hsize : b.size < mmapAllocationLimit ∨ IsMapped s.regions b) (hend : KeepsEnd s b.addr)
    (hrun : (sfree (b.addr + 32)).run s = .ok ((), s')) :
    ∃ bs' m', Dropped bs m b.addr bs' m' s' := by
  have hlarge (hmap : IsMapped s.regions b) : mmapAllocationLimit ≤ b.size := by
    obtain ⟨r, hr, he⟩ := hmap
    exact (h.filled b hb r hr he).large
  rw [h.sfree_eq hb hu] at hrun
  rcases List.mem_append.mp hb with hm | hbs
  · obtain rfl : m = some b := by simpa using hm
    obtain ⟨calls, hok⟩ := h.sfreeMmap_head
    rw [if_pos (hlarge (h.mem_isMapped rfl)), hok] at hrun
    cases hrun
    exact ⟨bs, none, h.dropped_head calls⟩
  · obtain ⟨pre, post, rfl⟩ := List.append_of_mem hbs
    by_cases hmap : IsMapped s.regions b
    · rw [if_pos (hlarge hmap)] at hrun
      have hpre : pre ≠ [] := by
        rintro rfl
        exact h.first b rfl hmap
      obtain ⟨ps, a, rfl⟩ := (List.eq_nil_or_concat' pre).resolve_left hpre
      cases post with
      | nil =>
        have ha := h.chain.bounds a (by simp)
        have hlast : lastAddr Block.addr 0 (ps ++ [a]) = a.addr := by simp
        rw [KeepsEnd, h.chain.header, hlast] at hend
        rw [h.sfreeMmap_last hpre (hend (hlarge hmap) (by simp only; omega) rfl)] at hrun
        cases hrun
      | cons c cs =>
        have hmix := h
        rw [show ps ++ [a] ++ b :: c :: cs = ps ++ a :: b :: c :: cs by simp] at hmix
        obtain ⟨s₁, hok, hmixed⟩ := hmix.sfreeMmap_middle hmap
        rw [hok] at hrun
        cases hrun
        exact ⟨_, m, h.dropped_of_mem hmixed (by simp [or_assoc])⟩
    · rw [if_neg (not_le.mpr (hsize.resolve_right hmap))] at hrun
      obtain ⟨s₁, bs', hok, hf⟩ := h.sfreeSbrk_run hmap
      rw [hok] at hrun
      cases hrun
      exact ⟨bs', m, h.dropped_of_mem hf.mixed hf.mem⟩

end MixedHeap
end FtfSystems.VirtualMemory.Malloc2

import FtfSystems.VirtualMemory.Malloc2.BlockOrigin
import FtfSystems.VirtualMemory.Malloc2.MixedHeap

/-!
# Requests while blocks are mapped

Small requests are served from the list of `root`, where the search passes over the mapped blocks:
none of them is free. A large request gets a region of its own, for `mmap_head` or for a block
behind `end`, since the search on the list of `mmap_head` finds nothing either.
-/
namespace FtfSystems.VirtualMemory.Malloc2
open Foundation

/-- A small request is served by the block `p`; `bs'` is the list of `root` afterwards. -/
structure MixedServed (s : Heap) (size : ℕ) (bs : List Block) (m : Option Block) (p : Block)
    (bs' : List Block) (s' : Heap) : Prop where
  step : AllocStep size bs s.brk p bs' s'.brk
  mixed : MixedHeap s' bs' m
  maps : SameMaps s s'

namespace MixedHeap
variable {s s' : Heap} {bs bs' pre post : List Block} {m : Option Block} {a b c : Block}
  {os : OsAnswer} {size : ℕ}

/-- Taking a block that the search has found. -/
theorem reuse_run (h : MixedHeap s (pre ++ b :: post) m) (hmax : size ≤ maxAllocation)
    (hpre : ∀ c ∈ pre, ¬c.fits size) (hfit : b.fits size) :
    ∃ p bs' s', (reuse b.addr size).run s = .ok (p.addr + 32, s') ∧
      MixedServed s size (pre ++ b :: post) m p bs' s' := by
  have hb := h.chain.bounds b (by simp)
  have hb0 : b.addr ≠ 0 := by omega
  have hfit' : size ≤ b.size ∧ b.isFree := by simpa [Block.fits] using hfit
  have hheap := h.heap_of_free (by simp) hfit'.2
  have hpay : payload b.addr = b.addr + 32 := payload_of_lt (by omega)
  have hcut : wadd (wadd 128 sizeofMetadata) size = size + 160 := by
    simp only [wadd, maxAllocation, sizeofMetadata] at hmax ⊢
    omega
  simp only [reuse, StateT.run_bind, getSize_run hb0, ok_bind, h.chain.header, hcut]
  by_cases hlarge : size + 160 ≤ b.size
  · obtain ⟨s₁, hrun₁, heq₁, hmix₁⟩ := h.split_run size hheap (by omega)
    have hheap₁ : ¬IsMapped s₁.regions { b with size := size } := by rwa [heq₁]
    obtain ⟨s₂, hrun₂, heq₂, hmix₂⟩ := hmix₁.setIsFree_run hheap₁ false
    refine ⟨⟨b.addr, size, false⟩, _, s₂, ?_, ?_, hmix₂,
      (SameMaps.of_eq heq₁).trans (SameMaps.of_eq heq₂)⟩
    · simp only [if_pos hlarge, StateT.run_bind, hrun₁, hrun₂, ok_bind, pure_run, hpay]
    · rw [heq₂, heq₁]
      exact .split hpre hfit hlarge
  · obtain ⟨s₁, hrun₁, heq₁, hmix₁⟩ := h.setIsFree_run hheap false
    refine ⟨{ b with isFree := false }, _, s₁, ?_, ?_, hmix₁, SameMaps.of_eq heq₁⟩
    · simp only [if_neg hlarge, StateT.run_bind, hrun₁, ok_bind, pure_run, hpay]
    · rw [heq₁]
      exact .reuse hpre hfit (by omega)

/-- A block behind the break is none of a mapped region. -/
theorem break_not_isMapped (h : MixedHeap s bs m) {n : ℕ} (hn : 0 < n) (haddr : b.addr = s.brk)
    (hclear : ∀ r ∈ s.regions, r.Disjoint s.brk n) : ¬IsMapped s.regions b := by
  rintro ⟨r, hr, he⟩
  have hdis := hclear r hr
  have hlen := (h.placed r hr).len_pos
  simp only [Region.Disjoint] at hdis
  omega

/-- The break moves up for a block behind the last one. -/
theorem append_block (h : MixedHeap s bs m) {target : ℕ} (hsize : size ≤ maxAllocation)
    (hgrant : s.sbrkTarget os (size + 32) = some target) (hmaps : SameMaps s s')
    (hmem : s'.mem = appendedMemory s.mem s.brk size s.glob.end_)
    (hroot : s'.glob.root = headAddr Block.addr s.brk bs) (hend : s'.glob.end_ = s.brk)
    (hbrk : s'.brk = target) : MixedHeap s' (bs ++ [⟨s.brk, size, false⟩]) m := by
  simp only [maxAllocation] at hsize
  obtain ⟨htarget, hlt, hclear⟩ := sbrkTarget_eq_some (by omega) hgrant
  have hpos := h.pos
  have hle := h.tiles.le
  have hnew : ¬IsMapped s.regions ⟨s.brk, size, false⟩ :=
    h.break_not_isMapped (by omega) rfl hclear
  have hchain := h.chain.append s.brk size (by omega) (by omega) fun c hc => by
    by_cases hcm : IsMapped s.regions c
    · have hc' := List.mem_append_right m.toList hc
      obtain ⟨r, hr, hra⟩ := hcm
      have hlen := (h.filled c hc' r hr hra).len_eq
      have hdis := hclear r hr
      simp only [Region.Disjoint, Block.Apart] at hdis ⊢
      omega
    · exact .inl (h.heap_bounds hc hcm).2
  have hheaders : HeadersOnly (s.brk :: bs.map Block.addr) s.mem s'.mem := by
    rw [hmem]
    refine appendedMemory_headersOnly _ (by simp) fun h0 => ?_
    rw [h.chain.last_eq] at h0 ⊢
    obtain ⟨-, h0'⟩ | ⟨c, hc, he⟩ := lastAddr_mem_or Block.addr 0 bs
    · exact absurd h0' h0
    · rw [he]
      exact List.mem_cons_of_mem _ (List.mem_map_of_mem hc)
  refine h.relist hmaps ?_ ?_ ?_ (.inr ⟨_, hbrk.trans htarget, hclear⟩) (by omega) hheaders ?_ ?_
  · rw [hmem, hroot, hend]
    exact hchain
  · rw [heapPart_append, heapPart_cons hnew, heapPart_nil]
    refine Tiles_append.mpr ⟨s.brk, h.tiles, rfl, ?_⟩
    simp only [Block.len, Tiles_nil]
    omega
  · intro c hc
    cases bs with
    | cons d ds => exact h.first c hc
    | nil =>
      obtain rfl := Option.some.inj hc
      exact hnew
  · intro t ht
    rcases List.mem_cons.mp ht with rfl | ht
    · exact .inr ⟨hle, by omega⟩
    · obtain ⟨c, hc, rfl⟩ := List.mem_map.mp ht
      exact .inl ⟨c, hc, rfl⟩
  · intro c hc hcm
    rcases List.mem_append.mp hc with hc | hc
    · exact hc
    · rw [List.mem_singleton.mp hc] at hcm
      exact absurd hcm hnew

/-- The break moves up and the free block at the top takes the space. -/
theorem grow_last (h : MixedHeap s (pre ++ [b]) m) (hfree : b.isFree) {target : ℕ}
    (hlt : b.size < size) (hsize : size ≤ maxAllocation)
    (hgrant : s.sbrkTarget os (size - b.size) = some target) :
    MixedHeap { s with
      mem := storeField (storeField s.mem b.addr .size size) b.addr .isFree 0, brk := target
      calls := .sbrk (size - b.size) (some s.brk) :: s.calls }
      (pre ++ [⟨b.addr, size, false⟩]) m := by
  simp only [maxAllocation] at hsize
  have hheap := h.heap_of_free (by simp) hfree
  have hstop := h.last_stop hheap
  obtain ⟨htarget, htop, hclear⟩ := sbrkTarget_eq_some (by omega) hgrant
  have hmem : HeadersOnly [b.addr] s.mem
      (storeField (storeField s.mem b.addr .size size) b.addr .isFree 0) :=
    (HeadersOnly.storeField _ (by simp) _ _).trans (.storeField _ (by simp) _ _)
  have hnew : metadataAt (storeField (storeField s.mem b.addr .size size) b.addr .isFree 0) b.addr =
      { metadataAt s.mem b.addr with size := size, isFree := false } := by
    rw [metadataAt_storeField, metadataAt_storeField, MallocMetadata.set, MallocMetadata.set,
      Nat.mod_eq_of_lt (by omega : size < 2 ^ 64)]
    rfl
  have hchain := h.chain.setHeader size false hmem hnew (fun c hc => ?_) (by omega)
  · refine h.relist ⟨rfl, rfl, rfl, rfl⟩ hchain ?_ ?_ (.inr ⟨_, htarget, hclear⟩)
      (by simp only; omega) hmem ?_ fun c hc hcm => ?_
    · have ht := h.tiles
      rw [heapPart_append, heapPart_cons hheap, heapPart_nil] at ht
      rw [heapPart_append, heapPart_cons (by exact hheap), heapPart_nil]
      obtain ⟨mid, hpre, hb, -⟩ := Tiles_append.mp ht
      refine Tiles_append.mpr ⟨mid, hpre, hb, ?_⟩
      simp only [Block.len, Tiles_nil]
      omega
    · intro c hc
      cases pre with
      | cons d ds => exact h.first c hc
      | nil =>
        obtain rfl := Option.some.inj hc
        exact hheap
    · intro t ht
      exact .inl ⟨b, by simp, List.mem_singleton.mp ht⟩
    · rcases List.mem_append.mp hc with hc | hc
      · exact List.mem_append_left _ hc
      · rw [List.mem_singleton.mp hc] at hcm
        exact absurd hcm hheap
  · have hc' : c ∈ pre := by simpa using hc
    have hcb := h.chain.side (.inl hc')
    simp only [Block.Apart] at hcb ⊢
    by_cases hcm : IsMapped s.regions c
    · obtain ⟨r, hr, hra⟩ := hcm
      have hlen := (h.filled c (by simp [hc']) r hr hra).len_eq
      have hdis := hclear r hr
      simp only [Region.Disjoint] at hdis
      omega
    · have := h.heap_bounds (b := c) (by simp [hc']) hcm
      omega

/-- A request without a free block that fits, when the list is not empty. -/
theorem enlarge_run (h : MixedHeap s (pre ++ [b]) m) (hmax : size ≤ maxAllocation)
    (hno : ∀ c ∈ pre ++ [b], ¬c.fits size) :
    (∃ p bs' s', (do
        if (← getIsFree (← getEnd)) then growEnd os size else appendBlock os size : M ℕ).run s =
          .ok (p.addr + 32, s') ∧ MixedServed s size (pre ++ [b]) m p bs' s') ∨
    ∃ calls, (do
        if (← getIsFree (← getEnd)) then growEnd os size else appendBlock os size : M ℕ).run s =
          .ok (0, { s with calls := calls }) := by
  have hb := h.chain.bounds b (by simp)
  have hb0 : b.addr ≠ 0 := by omega
  have hend : s.glob.end_ = b.addr := by
    rw [h.chain.last_eq]
    simp
  have hbrk := h.brk_lt
  have hstart := h.pos
  have hle := h.tiles.le
  have hmax' := hmax
  simp only [maxAllocation] at hmax'
  simp only [StateT.run_bind, getEnd_run, ok_bind, hend, getIsFree_run hb0, h.chain.header]
  by_cases hfree : b.isFree
  · have hlt : b.size < size := by
      have hb' := hno b (by simp)
      simpa [Block.fits, hfree] using hb'
    have hincr : wsub size b.size = size - b.size := wsub_of_le (by omega) (by omega)
    simp only [hfree, if_true, growEnd, StateT.run_bind, getEnd_run, ok_bind, hend,
      getSize_run hb0, h.chain.header, hincr]
    cases hgrant : s.sbrkTarget os (size - b.size) with
    | none =>
      refine .inr ⟨.sbrk (size - b.size) none :: s.calls, ?_⟩
      simp only [sbrk_run_none hgrant, ok_bind, pure_run]
    | some target =>
      obtain ⟨htarget, -, -⟩ := sbrkTarget_eq_some (by omega) hgrant
      refine .inl ⟨⟨b.addr, size, false⟩, _, _, ?_,
        ⟨?_, h.grow_last hfree hlt hmax hgrant, rfl, rfl, rfl, rfl⟩⟩
      · simp only [sbrk_run_some hgrant, ok_bind, StateT.run_bind, getEnd_run, hend,
          setSize_run hb0, VirtualMemory.setIsFree_run hb0, pure_run,
          payload_of_lt (by omega : b.addr + 32 < 2 ^ 64), Bool.toNat_false]
      · rw [htarget]
        exact .grow hno hfree
  · rw [Bool.not_eq_true] at hfree
    have hincr : wadd size sizeofMetadata = size + 32 := wadd_sizeofMetadata (by omega)
    simp only [hfree, Bool.false_eq_true, if_false, appendBlock, StateT.run_bind, hincr]
    cases hgrant : s.sbrkTarget os (size + 32) with
    | none =>
      refine .inr ⟨.sbrk (size + 32) none :: s.calls, ?_⟩
      simp only [sbrk_run_none hgrant, ok_bind, pure_run]
    | some target =>
      obtain ⟨htarget, hlt, -⟩ := sbrkTarget_eq_some (by omega) hgrant
      obtain ⟨s', hs'⟩ : ∃ s', s' = { s with
          mem := appendedMemory s.mem s.brk size b.addr, brk := target
          calls := .sbrk (size + 32) (some s.brk) :: s.calls, glob.end_ := s.brk } := ⟨_, rfl⟩
      have hmaps : SameMaps s s' := by
        rw [hs']
        exact ⟨rfl, rfl, rfl, rfl⟩
      refine .inl ⟨⟨s.brk, size, false⟩, pre ++ [b] ++ [⟨s.brk, size, false⟩], s', ?_,
        ⟨?_, ?_, hmaps⟩⟩
      · simp only [sbrk_run_some hgrant, ok_bind, StateT.run_bind, getEnd_run, hend,
          initMetadata_run (by omega : s.brk ≠ 0), setNext_run hb0, setEnd_run, pure_run,
          payload_of_lt (by omega : s.brk + 32 < 2 ^ 64), hs', appendedMemory, if_neg hb0]
      · rw [hs', htarget]
        exact .append hno (by simp [hfree])
      · refine h.append_block hmax hgrant hmaps (by rw [hs', hend]) ?_ (by rw [hs']) (by rw [hs'])
        rw [hs', h.chain.root_eq]
        simp

/-- Everything a legal request to `smallocSbrk` can do. -/
theorem smallocSbrk_cases (os : OsAnswer) (h : MixedHeap s bs m) (h0 : size ≠ 0)
    (hmax : size ≤ maxAllocation) :
    (∃ p bs' s', (smallocSbrk os size).run s = .ok (p.addr + 32, s') ∧
      MixedServed s size bs m p bs' s') ∨
    ∃ calls, (smallocSbrk os size).run s = .ok (0, { s with calls := calls }) := by
  have hlegal : ¬(size = 0 ∨ maxAllocation < size) := by omega
  have hmax' : size ≤ 100000000 := hmax
  simp only [smallocSbrk, if_neg hlegal, StateT.run_bind, getRoot_run, ok_bind]
  cases bs with
  | nil =>
    have hincr : wadd size sizeofMetadata = size + 32 := wadd_sizeofMetadata (by omega)
    have hroot : s.glob.root = 0 := h.chain.root_eq
    have hend : s.glob.end_ = 0 := h.chain.last_eq
    have hbrk : 0 < s.brk := h.tiles ▸ h.pos
    rw [if_pos hroot]
    simp only [firstBlock, StateT.run_bind, hincr]
    cases hgrant : s.sbrkTarget os (size + 32) with
    | none =>
      refine .inr ⟨.sbrk (size + 32) none :: s.calls, ?_⟩
      simp only [sbrk_run_none hgrant, ok_bind, pure_run]
    | some target =>
      obtain ⟨htarget, hlt, -⟩ := sbrkTarget_eq_some (by omega) hgrant
      obtain ⟨s', hs'⟩ : ∃ s', s' = { s with
          mem := appendedMemory s.mem s.brk size 0, brk := target
          calls := .sbrk (size + 32) (some s.brk) :: s.calls
          glob := { s.glob with root := s.brk, end_ := s.brk } } := ⟨_, rfl⟩
      have hmaps : SameMaps s s' := by
        rw [hs']
        exact ⟨rfl, rfl, rfl, rfl⟩
      refine .inl ⟨⟨s.brk, size, false⟩, [⟨s.brk, size, false⟩], s', ?_, ⟨?_, ?_, hmaps⟩⟩
      · simp only [sbrk_run_some hgrant, ok_bind, StateT.run_bind,
          initMetadata_run (by omega : s.brk ≠ 0), setRoot_run, setEnd_run, pure_run,
          payload_of_lt (by omega : s.brk + 32 < 2 ^ 64), hs', appendedMemory, if_true]
      · rw [hs', htarget]
        exact .append (by simp) (by simp)
      · exact h.append_block hmax hgrant hmaps (by rw [hs', hend]) (by rw [hs']; rfl) (by rw [hs'])
          (by rw [hs'])
  | cons b₀ bs₀ =>
    rw [if_neg h.chain.root_ne_zero]
    simp only [StateT.run_bind, getRoot_run, h.chain.search_run, ok_bind, firstFit]
    cases hfind : (b₀ :: bs₀).find? (Block.fits size) with
    | some b =>
      obtain ⟨hfit, pre, post, hbs, hpre⟩ := List.find?_eq_some_iff_append.mp hfind
      have hb := h.chain.bounds b (by simp [hbs])
      rw [hbs] at h ⊢
      simp only [Option.map_some, Option.getD_some]
      rw [if_pos (by omega)]
      exact .inl (h.reuse_run hmax (fun c hc => by simpa using hpre c hc) hfit)
    | none =>
      have hno : ∀ c ∈ b₀ :: bs₀, ¬c.fits size := List.find?_eq_none.mp hfind
      obtain ⟨pre, b, hbs⟩ : ∃ pre b, b₀ :: bs₀ = pre ++ [b] := by
        rcases List.eq_nil_or_concat' (b₀ :: bs₀) with he | ⟨pre, b, he⟩
        · simp at he
        · exact ⟨pre, b, he⟩
      rw [hbs] at h hno ⊢
      simp only [Option.map_none, Option.getD_none, ne_eq, not_true_eq_false, if_false]
      exact h.enlarge_run hmax hno

/-- A fresh region overlaps no block. -/
theorem fresh_apart (h : MixedHeap s bs m) {addr : ℕ} (hfresh : s.FreshRegion addr (size + 32))
    (hb : b ∈ m.toList ++ bs) : b.Apart ⟨addr, size, false⟩ := by
  obtain ⟨-, -, -, -, hout, hdis⟩ := hfresh
  by_cases hmap : IsMapped s.regions b
  · obtain ⟨r, hr, he⟩ := hmap
    have hlen := (h.filled b hb r hr he).len_eq
    have hr' := hdis r hr
    simp only [Region.Disjoint, Block.Apart] at hr' ⊢
    omega
  · rcases List.mem_append.mp hb with hm | hbs
    · exact absurd (h.mem_isMapped (by simpa using hm)) hmap
    · have hin := h.heap_bounds hbs hmap
      simp only [Block.Apart]
      omega

/-- A fresh region is mapped. -/
theorem add_region (h : MixedHeap s bs m) {addr : ℕ} (hfresh : s.FreshRegion addr (size + 32))
    (heq : s' = { s with regions := ⟨addr, size + 32⟩ :: s.regions, calls := s'.calls }) :
    MixedHeap s' bs m := by
  have hapart (b : Block) (hb : b ∈ m.toList ++ bs) : b.Apart ⟨addr, size, false⟩ :=
    h.fresh_apart hfresh hb
  obtain ⟨hpos, haddr, halign, hlt, hout, hdis⟩ := hfresh
  have hregions : s'.regions = ⟨addr, size + 32⟩ :: s.regions := by rw [heq]
  refine h.remap (by rw [hregions]; exact heq) ?_ ?_ fun b hb r he => ?_
  · rw [hregions]
    refine List.forall_mem_cons.mpr ⟨⟨halign, haddr, hpos, hlt, hout⟩, h.placed⟩
  · rw [hregions]
    refine List.pairwise_cons.mpr ⟨fun r hr => ?_, h.regions_apart⟩
    have hr' := hdis r hr
    simp only [Region.Disjoint] at hr' ⊢
    omega
  · have hb' := hapart b hb
    simp only [Block.Apart] at hb'
    rw [hregions, List.mem_cons, or_iff_right]
    rintro rfl
    simp only at he
    omega

end MixedHeap

/-- A large request is served by the block `p`, which fills a region of its own. -/
structure MappedServed (s : Heap) (size : ℕ) (bs : List Block) (m : Option Block) (p : Block)
    (bs' : List Block) (m' : Option Block) (s' : Heap) : Prop where
  mixed : MixedHeap s' bs' m'
  block : p = ⟨p.addr, size, false⟩
  regions : s'.regions = ⟨p.addr, size + 32⟩ :: s.regions
  head : s'.glob.mmapHead ≠ 0
  mem : ∀ c, c ∈ m'.toList ++ bs' ↔ c = p ∨ c ∈ m.toList ++ bs

namespace MixedHeap
variable {s s' : Heap} {bs bs' pre post : List Block} {m : Option Block} {a b c : Block}
  {os : OsAnswer} {size q : ℕ}

/-- A large request while `mmap_head` is null. -/
theorem firstMapped_run (os : OsAnswer) (h : MixedHeap s bs none)
    (hlarge : mmapAllocationLimit ≤ size)
    (hmax : size ≤ maxAllocation) :
    (∃ calls, (smallocMmap os size).run s = .ok (0, { s with calls := calls })) ∨
    ∃ p m' s', (smallocMmap os size).run s = .ok (p.addr + 32, s') ∧
      MappedServed s size bs none p bs m' s' := by
  have hhead : s.glob.mmapHead = 0 := h.head
  cases ha : s.mmapTarget os (size + 32) with
  | none => exact .inl ⟨_, smallocMmap_refused hhead hmax ha⟩
  | some addr =>
    have hfresh := mmapTarget_eq_some ha
    obtain ⟨mem, hrun, hnew, hmem⟩ := smallocMmap_first hhead hmax ha
    have hregion : MixedHeap { s with
        regions := ⟨addr, size + 32⟩ :: s.regions
        calls := .mmap (size + 32) (some addr) :: s.calls } bs none := h.add_region hfresh rfl
    refine .inr ⟨⟨addr, size, false⟩, some ⟨addr, size, false⟩, _, hrun, ?_, rfl, rfl,
      hfresh.2.1.ne', by simp⟩
    have hout (c : Block) (hc : c ∈ bs) : c.Apart ⟨addr, size, false⟩ :=
      h.fresh_apart hfresh (by simpa using hc)
    refine ⟨h.chain.frame fun c hc => hmem.agree fun t ht => ?_, hregion.tiles, hregion.first, h.pos,
      h.brk_lt, fun r hr => ?_, hregion.regions_apart, fun c hc r hr he => ?_, ?_⟩
    · have hc' := hout c hc
      rw [List.mem_singleton.mp ht]
      simp only [Block.Apart] at hc'
      omega
    · have hr' := hregion.placed r hr
      exact ⟨hr'.aligned, hr'.pos, hr'.len_pos, hr'.lt, hr'.outside⟩
    · rcases List.mem_cons.mp hc with rfl | hc
      · rcases List.mem_cons.mp hr with rfl | hr
        · exact ⟨rfl, rfl, hlarge⟩
        · have hdis := hfresh.2.2.2.2.2 r hr
          have hlen := (h.placed r hr).len_pos
          simp only [Region.Disjoint] at hdis he
          omega
      · exact hregion.filled c hc r hr he
    · refine ⟨rfl, rfl, hnew, ⟨_, List.mem_cons_self, rfl⟩, fun c hc he => ?_⟩
      have hc' := hout c hc
      simp only [Block.Apart] at hc'
      simp only at he
      omega

/-- The block of a fresh region goes behind `end`. -/
theorem append_mapped (h : MixedHeap s bs m) (hhead : s.glob.mmapHead ≠ 0) (hne : bs ≠ [])
    {addr : ℕ} (hlarge : mmapAllocationLimit ≤ size) (hfresh : s.FreshRegion addr (size + 32))
    (calls : List Syscall)
    (heq : s' = { s with
      mem := appendedMemory s.mem addr size s.glob.end_
      regions := ⟨addr, size + 32⟩ :: s.regions
      calls := calls
      glob.end_ := addr }) :
    MappedServed s size bs m ⟨addr, size, false⟩ (bs ++ [⟨addr, size, false⟩]) m s' := by
  obtain ⟨b, cs, hbs⟩ := List.exists_cons_of_ne_nil hne
  have hregion : MixedHeap { s with regions := ⟨addr, size + 32⟩ :: s.regions } bs m :=
    h.add_region hfresh rfl
  have hout (c : Block) (hc : c ∈ m.toList ++ bs) : c.Apart ⟨addr, size, false⟩ :=
    h.fresh_apart hfresh hc
  obtain ⟨-, hpos, -, hlt, -, hdis⟩ := hfresh
  have hmem : HeadersOnly (addr :: bs.map Block.addr) s.mem
      (appendedMemory s.mem addr size s.glob.end_) := by
    refine appendedMemory_headersOnly _ (by simp) fun h0 => ?_
    rw [h.chain.last_eq] at h0 ⊢
    obtain ⟨hnil, -⟩ | ⟨c, hc, he⟩ := lastAddr_mem_or Block.addr 0 bs
    · exact absurd hnil hne
    · rw [he]
      exact List.mem_cons_of_mem _ (List.mem_map_of_mem hc)
  have hmapped : IsMapped (⟨addr, size + 32⟩ :: s.regions) ⟨addr, size, false⟩ :=
    ⟨_, List.mem_cons_self, rfl⟩
  refine ⟨?_, rfl, by rw [heq], by rwa [heq], fun c => by
    rw [← List.append_assoc, List.mem_append, List.mem_singleton, or_comm]⟩
  rw [heq]
  refine ⟨?_, ?_, ?_, h.pos, h.brk_lt, fun r hr => ?_, hregion.regions_apart,
    fun c hc r hr he => ?_, ?_⟩
  · have hchain := h.chain.append addr size hpos (by omega) fun c hc => hout c (by simp [hc])
    have hroot : headAddr Block.addr addr bs = s.glob.root := by
      rw [h.chain.root_eq, hbs]
      rfl
    rwa [hroot] at hchain
  · rw [heapPart_append, heapPart_cons_mapped hmapped, heapPart_nil, List.append_nil]
    exact hregion.tiles
  · intro c hc
    refine hregion.first c ?_
    rw [hbs] at hc ⊢
    exact hc
  · have hr' := hregion.placed r hr
    exact ⟨hr'.aligned, hr'.pos, hr'.len_pos, hr'.lt, hr'.outside⟩
  · rw [← List.append_assoc, List.mem_append, List.mem_singleton] at hc
    rcases hc with hc | rfl
    · exact hregion.filled c hc r hr he
    · rcases List.mem_cons.mp hr with rfl | hr
      · exact ⟨rfl, rfl, hlarge⟩
      · have hr' := hdis r hr
        have hlen := (h.placed r hr).len_pos
        simp only [Region.Disjoint] at hr' he
        omega
  · cases m with
    | none => exact h.head
    | some d =>
      have hd : MappedHead s bs d := h.head
      have hda := hout d (by simp)
      simp only [Block.Apart] at hda
      refine ⟨hd.head_eq, hd.end_eq, ?_, (hregion.mem_isMapped rfl), fun c hc => ?_⟩
      · refine (metadataAt_congr (hmem.agree fun t ht => ?_)).trans hd.header
        rcases List.mem_cons.mp ht with rfl | ht
        · omega
        · obtain ⟨c, hc, rfl⟩ := List.mem_map.mp ht
          have hdc := h.apart (b := d) (c := c) (by simp) (by simp [hc])
            (fun he => hd.alone c hc (by rw [he]))
          simp only [Block.Apart] at hdc
          omega
      · rcases List.mem_append.mp hc with hc | hc
        · exact hd.alone c hc
        · rw [List.mem_singleton.mp hc]
          simp only
          omega

/-- The last branch of `smallocMmap`, which returns only if `end` is not null. -/
theorem appendMapped_ok (h : MixedHeap s bs m) (hhead : s.glob.mmapHead ≠ 0)
    (hlarge : mmapAllocationLimit ≤ size) (hmax : size ≤ maxAllocation)
    (hrun : (appendMapped os size).run s = .ok (q, s')) :
    (q = 0 ∧ s' = { s with calls := s'.calls }) ∨
    ∃ p bs', q = p.addr + 32 ∧ MappedServed s size bs m p bs' m s' := by
  simp only [maxAllocation] at hmax
  have hlen : wadd size sizeofMetadata = size + 32 := wadd_sizeofMetadata (by omega)
  rw [appendMapped, hlen] at hrun
  obtain ⟨r, s₁, hmmap, hrun⟩ := bind_run_ok hrun
  cases ha : s.mmapTarget os (size + 32) with
  | none =>
    rw [mmap_run_none ha] at hmmap
    cases hmmap
    cases hrun
    exact .inl ⟨rfl, rfl⟩
  | some addr =>
    have hfresh := mmapTarget_eq_some ha
    obtain ⟨-, hpos, -, hlt, -⟩ := mmapTarget_eq_some ha
    rw [mmap_run_some ha] at hmmap
    cases hmmap
    obtain ⟨_, s₂, hend₂, hrun⟩ := bind_run_ok hrun
    cases hend₂
    obtain ⟨_, s₃, hinit, hrun⟩ := bind_run_ok hrun
    have hs₃ := initMetadata_run_ok hinit
    obtain ⟨_, s₄, hend₄, hrun⟩ := bind_run_ok hrun
    cases hend₄
    obtain ⟨_, s₅, hnext, hrun⟩ := bind_run_ok hrun
    obtain ⟨hend, hs₅⟩ := writeField_run_ok hnext
    obtain ⟨_, s₆, hset, hrun⟩ := bind_run_ok hrun
    cases hset
    cases hrun
    subst hs₃ hs₅
    have hend' : s.glob.end_ ≠ 0 := hend
    have hne : bs ≠ [] := by
      rintro rfl
      exact hend' h.chain.last_eq
    refine .inr ⟨_, _, payload_of_lt (by omega), h.append_mapped hhead hne hlarge hfresh
      (.mmap (size + 32) (some addr) :: s.calls) ?_⟩
    rw [appendedMemory, if_neg hend']

/-- Everything a large request that returns can do. -/
theorem smallocMmap_ok (h : MixedHeap s bs m) (hlarge : mmapAllocationLimit ≤ size)
    (hmax : size ≤ maxAllocation) (hrun : (smallocMmap os size).run s = .ok (q, s')) :
    (q = 0 ∧ s' = { s with calls := s'.calls }) ∨
    ∃ p bs' m', q = p.addr + 32 ∧ MappedServed s size bs m p bs' m' s' := by
  cases m with
  | none =>
    obtain ⟨calls, hok⟩ | ⟨p, m', s₁, hok, hserved⟩ := h.firstMapped_run os hlarge hmax
    · rw [hok] at hrun
      cases hrun
      exact .inl ⟨rfl, rfl⟩
    · rw [hok] at hrun
      cases hrun
      exact .inr ⟨p, bs, m', rfl, hserved⟩
  | some d =>
    have hd : MappedHead s bs d := h.head
    obtain ⟨r, hr, he⟩ := hd.isMapped
    have hused := (h.filled d (by simp) r hr he).inUse
    have hd0 : d.addr ≠ 0 := by
      have := h.bounds (b := d) (by simp)
      omega
    -- the only block on the list is in use
    have hsearch : (searchFit size listFuel d.addr).run s = .ok (0, s) := by
      have hlinked : Linked Block.addr (Block.At s.mem) 0 [d] 0 := by
        refine ⟨?_, trivial⟩
        rw [Block.At, hd.header, hused]
        rfl
      have hfound : (searchFit size listFuel (headAddr Block.addr 0 [d])).run s = _ :=
        searchFit_run size hlinked (by simpa using hd0) (by simp [listFuel])
      have hno : firstFit size [d] = 0 := by simp [firstFit, Block.fits, hused]
      rwa [hno, headAddr_cons] at hfound
    have hlast : (smallocMmap os size).run s = (appendMapped os size).run s := by
      simp only [smallocMmap, StateT.run_bind, getMmapHead_run, ok_bind, hd.head_eq, if_neg hd0,
        hsearch, ne_eq, not_true_eq_false, if_false, getMmapEnd_run, hd.end_eq,
        getIsFree_run hd0, hd.header, Bool.false_eq_true]
    rw [hlast] at hrun
    obtain hnull | ⟨p, bs', hp, hserved⟩ := h.appendMapped_ok (by rwa [hd.head_eq]) hlarge hmax
      hrun
    · exact .inl hnull
    · exact .inr ⟨p, bs', _, hp, hserved⟩

end MixedHeap

/-- A request is served by the block `p`; the other blocks in use stay. -/
structure Handed (size : ℕ) (bs : List Block) (m : Option Block) (p : Block) (bs' : List Block)
    (m' : Option Block) (s s' : Heap) : Prop where
  mixed : MixedHeap s' bs' m'
  inUse : p.isFree = false
  size_le : size ≤ p.size
  large : mmapAllocationLimit ≤ size →
    s'.glob.mmapHead ≠ 0 ∧ s'.regions = ⟨p.addr, size + 32⟩ :: s.regions
  regions : ∀ r ∈ s.regions, r ∈ s'.regions
  mem : ∀ c : Block, c.isFree = false → (c ∈ m'.toList ++ bs' ↔ c = p ∨ c ∈ m.toList ++ bs)

section Served
variable {s s' : Heap} {bs bs' : List Block} {m m' : Option Block} {p : Block} {size : ℕ}

theorem MixedServed.handed (h : MixedServed s size bs m p bs' s')
    (hsize : size < mmapAllocationLimit) : Handed size bs m p bs' m s s' := by
  refine ⟨h.mixed, h.step.inUse, h.step.size_le, fun hlarge => absurd hsize (not_lt.mpr hlarge),
    fun r hr => h.maps.regions ▸ hr, fun c hc => ?_⟩
  have hmem : c ∈ bs' ↔ c = p ∨ c ∈ bs := by
    refine ⟨fun hc' => h.step.inUse_of_mem hc' hc, ?_⟩
    rintro (rfl | hc')
    · exact h.step.mem
    · exact h.step.keeps hc' hc
  rw [List.mem_append, List.mem_append, hmem, or_left_comm]

theorem MappedServed.handed (h : MappedServed s size bs m p bs' m' s') :
    Handed size bs m p bs' m' s s' := by
  have hp := h.block
  refine ⟨h.mixed, by rw [hp], by rw [hp], fun _ => ⟨h.head, h.regions⟩, fun r hr => ?_,
    fun c _ => h.mem c⟩
  rw [h.regions]
  exact List.mem_cons_of_mem _ hr

end Served

/-- A request that returns gives null without effect, or a block. -/
theorem MixedHeap.smalloc_ok {s s' : Heap} {bs : List Block} {m : Option Block} {os : OsAnswer}
    {size q : ℕ} (h : MixedHeap s bs m) (hrun : (smalloc os size).run s = .ok (q, s')) :
    (q = 0 ∧ s' = { s with calls := s'.calls }) ∨
    0 < size ∧ ∃ p bs' m', q = p.addr + 32 ∧ Handed size bs m p bs' m' s s' := by
  by_cases hlegal : size = 0 ∨ maxAllocation < size
  · simp only [smalloc, if_pos hlegal, pure_run] at hrun
    cases hrun
    exact .inl ⟨rfl, rfl⟩
  simp only [smalloc, if_neg hlegal] at hrun
  rw [not_or, not_lt] at hlegal
  obtain ⟨h0, hmax⟩ := hlegal
  by_cases hsize : size < mmapAllocationLimit
  · rw [if_pos hsize] at hrun
    obtain ⟨p, bs', s₁, hok, hserved⟩ | ⟨calls, hok⟩ := h.smallocSbrk_cases os h0 hmax
    · rw [hok] at hrun
      cases hrun
      exact .inr ⟨by omega, p, bs', m, rfl, hserved.handed hsize⟩
    · rw [hok] at hrun
      cases hrun
      exact .inl ⟨rfl, rfl⟩
  · rw [if_neg hsize] at hrun
    obtain hnull | ⟨p, bs', m', hp, hserved⟩ := h.smallocMmap_ok (not_lt.mp hsize) hmax hrun
    · exact .inl hnull
    · exact .inr ⟨by omega, p, bs', m', hp, hserved.handed⟩

end FtfSystems.VirtualMemory.Malloc2

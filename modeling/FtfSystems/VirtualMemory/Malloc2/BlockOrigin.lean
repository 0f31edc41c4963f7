import FtfSystems.VirtualMemory.Malloc2.Tracked

/-!
# Where a block comes from

`sfree` takes a block for a mapped one when its size has reached `MMAP_ALLOCATION_LIMIT`,
and the list of the mapped blocks is kept up with the globals of the other list once it has
a node. This module says for which sessions both are right: when no block of the `sbrk`
heap is handed out with a size from the limit on, `sfree` never leaves that heap; and when
large blocks are requested one at a time, the two lists hold what they should.
-/
namespace FtfSystems.VirtualMemory.Malloc2
open Foundation

section Large
variable {t t' : Session Globals} {bs : List Block} {b : Block}

/-- `smallocMmap` on an empty list, when the kernel finds a region. -/
theorem smallocMmap_first {s : Heap} {os : OsAnswer} {size a : ℕ} (hhead : s.glob.mmapHead = 0)
    (hmax : size ≤ maxAllocation) (ha : s.mmapTarget os (size + 32) = some a) :
    ∃ mem, (smallocMmap os size).run s = .ok (a + 32, { s with
        mem := mem, regions := ⟨a, size + 32⟩ :: s.regions
        calls := .mmap (size + 32) (some a) :: s.calls
        glob := { s.glob with mmapHead := a, mmapEnd := a } }) ∧
      metadataAt mem a = ⟨size, false, 0, 0⟩ ∧ HeadersOnly [a] s.mem mem := by
  simp only [maxAllocation] at hmax
  obtain ⟨-, hpos, -, hlt, -⟩ := mmapTarget_eq_some ha
  have hlen : wadd size sizeofMetadata = size + 32 := wadd_sizeofMetadata (by omega)
  refine ⟨newHeader s.mem a size 0 0, ?_,
    metadataAt_newHeader s.mem (by omega) (by omega) (by omega), .newHeader s.mem (by simp) _ _ _⟩
  simp only [smallocMmap, firstMapped, StateT.run_bind, getMmapHead_run, ok_bind, hhead, if_true,
    hlen, mmap_run_some ha, initMetadata_run (by omega : a ≠ 0), setMmapHead_run, setMmapEnd_run,
    pure_run, payload_of_lt (by omega : a + 32 < 2 ^ 64)]

theorem smallocMmap_refused {s : Heap} {os : OsAnswer} {size : ℕ} (hhead : s.glob.mmapHead = 0)
    (hmax : size ≤ maxAllocation) (ha : s.mmapTarget os (size + 32) = none) :
    (smallocMmap os size).run s =
      .ok (0, { s with calls := .mmap (size + 32) none :: s.calls }) := by
  simp only [maxAllocation] at hmax
  have hlen : wadd size sizeofMetadata = size + 32 := wadd_sizeofMetadata (by omega)
  simp only [smallocMmap, firstMapped, StateT.run_bind, getMmapHead_run, ok_bind, hhead, if_true,
    hlen, mmap_run_none ha, pure_run]

/-- A large request while nothing is mapped returns null without effect, or a block that
fills a fresh region. -/
theorem Tracked.smalloc_large (h : Tracked t bs none) {os : OsAnswer} {size : ℕ}
    (hlarge : mmapAllocationLimit ≤ size) (hmax : size ≤ maxAllocation)
    (hs : allocator.next t (.smalloc os size) = some t') :
    Tracked t' bs none ∨ ∃ b, Tracked t' bs (some b) := by
  obtain ⟨-, ht⟩ := Allocator.next_smalloc hs
  have hmax' := hmax
  simp only [mmapAllocationLimit, maxAllocation] at hlarge hmax'
  have hrun : (allocator.smalloc os size).run t.heap = (smallocMmap os size).run t.heap := by
    have hnot : ¬size < mmapAllocationLimit := by
      simp only [mmapAllocationLimit]
      omega
    simp only [allocator, smalloc, if_neg (by omega : ¬(size = 0 ∨ maxAllocation < size)),
      if_neg hnot]
  cases ha : t.heap.mmapTarget os (size + 32) with
  | none =>
    rw [hrun, smallocMmap_refused h.maps.1 hmax ha, Session.record_null] at ht
    subst ht
    exact .inl (h.unchanged rfl rfl rfl)
  | some a =>
    obtain ⟨-, hpos, halign, hlt, hout, -⟩ := mmapTarget_eq_some ha
    obtain ⟨mem, hok, hnew, hmem⟩ := smallocMmap_first h.maps.1 hmax ha
    rw [hrun, hok, Session.record_pointer _ _ _ _ _ (by omega : a + 32 ≠ 0)] at ht
    subst ht
    obtain ⟨hroom, hlive⟩ := h.added_spec (p := ⟨a, size, false⟩) rfl le_rfl
      (l := (some ⟨a, size, false⟩ : Option Block).toList ++ bs) (fun c _ => by simp)
    have hstart := h.start_le
    refine .inr ⟨⟨a, size, false⟩, ⟨?_, h.heap.separated⟩, hstart, ?_, hroom, hlive, rfl⟩
    · refine h.heap.represents.frame (fun c hc => hmem.agree (fun d hd => ?_))
      have hc' := h.heap.represents.bounds hc
      rw [List.mem_singleton] at hd
      omega
    · exact {
        head := rfl
        last := rfl
        region := by simp only [h.maps.2]
        header := hnew
        inUse := rfl
        large := hlarge
        aligned := halign
        pos := hpos
        lt := by simp only; omega
        apart := by simp only; omega }

/-- Freeing the mapped block gives its region back. -/
theorem Tracked.sfree_mapped (h : Tracked t bs (some b))
    (hs : allocator.next t (.sfree (b.addr + 32)) = some t') : Tracked t' bs none := by
  obtain ⟨-, ht⟩ := Allocator.next_sfree hs
  have hpos := h.maps.pos
  have hlt := h.maps.lt
  have hb0 : b.addr ≠ 0 := by omega
  have hlen : wadd b.size sizeofMetadata = b.size + 32 := wadd_sizeofMetadata (by omega)
  have hcut : t.heap.regions.flatMap (·.cut b.addr
      (b.addr + (b.size + 32 + pageSize - 1) / pageSize * pageSize)) = [] := by
    rw [h.maps.region, List.flatMap_singleton]
    refine Region.cut_all (by simp only; omega) ?_
    simp only [pageSize]
    omega
  have hrun : (allocator.sfree (b.addr + 32)).run t.heap = .ok ((), { t.heap with
      regions := [], calls := .munmap b.addr (b.size + 32) :: t.heap.calls
      glob.mmapHead := 0 }) := by
    simp only [allocator, sfree, if_neg (by omega : ¬b.addr + 32 = 0),
      header_of_lt (by omega : b.addr + 32 < 2 ^ 64), StateT.run_bind, getIsFree_run hb0,
      getSize_run hb0, ok_bind, h.maps.header, Bool.false_eq_true, if_false, if_pos h.maps.large,
      sfreeMmap, getPrev_run hb0, if_true, getNext_run hb0, setMmapHead_run, ne_eq,
      not_true_eq_false, hlen]
    simp only [munmap, StateT.run_bind, StateT.run_get, pure_bind, StateT.run_set,
      if_pos h.maps.aligned, hcut]
    rfl
  rw [hrun, Session.recordFree_ok] at ht
  subst ht
  obtain ⟨hroom, hlive⟩ := h.dropped_spec (b := b) (l := (none : Option Block).toList ++ bs)
    (fun c _ => by
      have hne (hc : c ∈ bs) : c.addr ≠ b.addr := fun he => by
        have hbc : b = c := h.eq_of_addr (by simp) (by simp [hc]) he.symm
        subst hbc
        have hout := h.maps.apart
        have hin := h.heap.represents.bounds hc
        have hstart := h.start_le
        omega
      simp only [Option.toList_none, List.nil_append, Option.toList_some, List.singleton_append,
        List.mem_cons]
      constructor
      · exact fun hc => ⟨.inr hc, hne hc⟩
      · rintro ⟨rfl | hc, hne'⟩
        · exact absurd rfl hne'
        · exact hc)
  exact ⟨⟨h.heap.represents, h.heap.separated⟩, h.start_le, ⟨rfl, rfl⟩, hroom, hlive, rfl⟩

end Large

/-- Calls of programs whose requests are all below the limit. The first free block that can
hold the request either has a size below the limit itself or is cut to the request. -/
def StaysSmall (t : Session Globals) : Call → Prop
  | .smalloc _ size => size < mmapAllocationLimit ∧ ∀ bs, Represents t.heap bs →
      ∀ b ∈ bs.find? (Block.fits size), b.size < mmapAllocationLimit ∨ size + 160 ≤ b.size
  | .sfree _ => True
  | .write _ _ _ => True
  | .scalloc _ _ _ => False
  | .srealloc _ _ _ => False

/-- No block came from `mmap`, and none in use looks as if it did. -/
structure AllSmall (t : Session Globals) (bs : List Block) : Prop where
  tracked : Tracked t bs none
  small : ∀ b ∈ bs, b.isFree = false → b.size < mmapAllocationLimit
  mmapEnd : t.heap.glob.mmapEnd = 0
  calls : ∀ a n, Syscall.munmap a n ∉ t.heap.calls

/-- The size of the block an allocation hands out, when large blocks are cut. -/
theorem AllocStep.size_lt {size brk brk' limit : ℕ} {bs bs' : List Block} {p : Block}
    (h : AllocStep size bs brk p bs' brk') (hsize : size < limit)
    (hfirst : ∀ b ∈ bs.find? (Block.fits size), b.size < limit ∨ size + 160 ≤ b.size) :
    p.size < limit := by
  cases h with
  | @reuse pre post b _ hpre hfit hsmall =>
    have hfind : b ∈ (pre ++ b :: post).find? (Block.fits size) :=
      List.find?_eq_some_iff_append.mpr ⟨hfit, pre, post, rfl, fun c hc => by simpa using hpre c hc⟩
    have := hfirst b hfind
    simp only
    omega
  | split => exact hsize
  | grow => exact hsize
  | append => exact hsize

theorem AllSmall.step {t t' : Session Globals} {bs : List Block} {c : Call} (h : AllSmall t bs)
    (hok : StaysSmall t c) (hs : allocator.next t c = some t') : ∃ bs', AllSmall t' bs' := by
  cases c with
  | smalloc os size =>
    obtain ⟨hsize, hfirst⟩ := hok
    obtain ⟨hheap, hcalls, -, htr⟩ | ⟨p, bs', hserved, -, htr⟩ := h.tracked.smalloc_small hsize hs
    · refine ⟨bs, htr, h.small, by rw [hheap]; exact h.mmapEnd, fun a n hmem => ?_⟩
      rcases hcalls _ hmem with hold | ⟨n', r, he⟩
      · exact h.calls a n hold
      · exact Syscall.noConfusion he
    · refine ⟨bs', htr, fun c hc hu => ?_, by rw [hserved.maps.mmapEnd]; exact h.mmapEnd,
        fun a n hmem => ?_⟩
      · rcases hserved.step.inUse_of_mem hc hu with rfl | hold
        · exact hserved.step.size_lt hsize (hfirst bs h.tracked.heap.represents)
        · exact h.small c hold hu
      · rcases hserved.mem_calls hmem with hold | ⟨n', r, he⟩
        · exact h.calls a n hold
        · exact Syscall.noConfusion he
  | sfree p =>
    obtain ⟨hp | ⟨e, he, hep⟩, -⟩ := Allocator.next_sfree hs
    · subst hp
      obtain ⟨hheap, htr⟩ := h.tracked.sfree_null hs
      exact ⟨bs, htr, h.small, by rw [hheap]; exact h.mmapEnd, by rw [hheap]; exact h.calls⟩
    · obtain ⟨b, hb, hu, hpb, -⟩ := h.tracked.room e he
      have hb' : b ∈ bs := by simpa using hb
      subst hep
      rw [hpb] at hs
      obtain ⟨hrel, htr⟩ := h.tracked.sfree_small hb' hu (h.small b hb' hu) hs
      refine ⟨_, htr, fun c hc hu' => ?_, by rw [hrel.maps.mmapEnd]; exact h.mmapEnd,
        by rw [hrel.calls]; exact h.calls⟩
      exact h.small c ((mem_release_inUse hu').mp hc).1 hu'
  | write p i v =>
    obtain ⟨hheap, htr⟩ := h.tracked.write hs
    exact ⟨bs, htr, h.small, by rw [hheap]; exact h.mmapEnd, by rw [hheap]; exact h.calls⟩
  | scalloc os num size => exact hok.elim
  | srealloc os oldp size => exact hok.elim

/-- In every run of small requests that meet `StaysSmall` no call of `sfree` has unmapped
anything or touched the list of mapped blocks, and none of the pointers held would make it
do so. -/
theorem sfree_keeps_to_sbrk_heap {t : Session Globals}
    (h : allocator.system.Reachable StaysSmall t) :
    t.fault = none ∧ (∀ a n, Syscall.munmap a n ∉ t.heap.calls) ∧
      t.heap.glob.mmapHead = 0 ∧ t.heap.glob.mmapEnd = 0 ∧
      ∀ e ∈ t.live, (metadataAt t.heap.mem (header e.1)).size < mmapAllocationLimit := by
  have hinv : ∃ bs, AllSmall t bs := by
    refine h.invariant (I := fun t => ∃ bs, AllSmall t bs) ?_ ?_
    · rintro _ ⟨mem, brk, hpos, hlt, rfl⟩
      exact ⟨[], Tracked.init mem hpos hlt, by simp, rfl, by simp [Allocator.fresh]⟩
    · rintro s c s' ⟨bs, hI⟩ hok hs
      exact hI.step hok hs
  obtain ⟨bs, hI⟩ := hinv
  refine ⟨hI.tracked.fault, hI.calls, hI.tracked.maps.1, hI.mmapEnd, fun e he => ?_⟩
  obtain ⟨b, hb, hu, hp, -⟩ := hI.tracked.room e he
  have hb' : b ∈ bs := by simpa using hb
  have hlt := (hI.tracked.header_bounds hb).2
  obtain ⟨pre, post, rfl⟩ := List.append_of_mem hb'
  rw [hp, header_of_lt (by omega), hI.tracked.heap.represents.header]
  exact hI.small b hb' hu

/-- A request below the limit, or a pointer given back. -/
def SmallRequest : Call → Prop
  | .smalloc _ size => size < mmapAllocationLimit
  | .sfree _ => True
  | _ => False

/-- A program that starts with zeroed memory and the break at 4096. -/
def emptySession : Session Globals := allocator.fresh (fun _ => 0) 4096

theorem emptySession_init : allocator.system.init emptySession :=
  ⟨fun _ => 0, 4096, by decide, by decide, rfl⟩

/-- Two neighbours are freed and coalesce to a block that is not cut for the next request. -/
def coalescedReuse : List Call :=
  [.smalloc ⟨true, none⟩ 65536, .smalloc ⟨true, none⟩ 65536, .sfree 4128, .sfree 69696,
    .smalloc ⟨true, none⟩ 131071, .sfree 4128]

/-- The block handed out for a request of 131071 bytes has 131104, and `sfree` unmaps it. -/
theorem sfree_unmaps_coalesced_block : ∃ t,
    allocator.system.run emptySession coalescedReuse = some t ∧
      allocator.system.Reachable (fun _ c => SmallRequest c) t ∧
      Syscall.munmap 4096 131136 ∈ t.heap.calls := by
  obtain ⟨t, hrun, hreach, hcall⟩ := TransitionSystem.exists_of_run (fun _ c => SmallRequest c)
    coalescedReuse (fun t => Syscall.munmap 4096 131136 ∈ t.heap.calls) emptySession_init
    (by simp [coalescedReuse, SmallRequest, mmapAllocationLimit]) (by decide +kernel)
  exact ⟨t, hrun, hreach, by simpa using hcall⟩

/-- Small requests while the break is below the limit. -/
def LowBreak (t : Session Globals) : Call → Prop
  | .smalloc _ size => size < mmapAllocationLimit ∧ t.heap.brk ≤ mmapAllocationLimit
  | .sfree _ => True
  | _ => False

instance (t : Session Globals) : (c : Call) → Decidable (LowBreak t c)
  | .smalloc _ _ => inferInstanceAs (Decidable (_ ∧ _))
  | .sfree _ => inferInstanceAs (Decidable True)
  | .srealloc _ _ _ => inferInstanceAs (Decidable False)
  | .write _ _ _ => inferInstanceAs (Decidable False)
  | .scalloc _ _ _ => inferInstanceAs (Decidable False)

/-- No block below the limit has its size. -/
theorem LowBreak.staysSmall {t : Session Globals} {c : Call} (h : LowBreak t c) :
    StaysSmall t c := by
  cases c with
  | smalloc os size =>
    refine ⟨h.1, fun bs hbs b hb => .inl ?_⟩
    have hb' := hbs.bounds (List.mem_of_find?_eq_some hb)
    have hbrk := h.2
    omega
  | sfree p => trivial
  | _ => exact h.elim

/-- Two neighbours are freed and merged, and the block is cut for later requests. -/
def reusedHeap : List Call :=
  [.smalloc ⟨true, none⟩ 1000, .smalloc ⟨true, none⟩ 2000, .smalloc ⟨true, none⟩ 500, .sfree 4128,
    .sfree 5160, .smalloc ⟨true, none⟩ 1500, .smalloc ⟨true, none⟩ 1400, .sfree 7192,
    .smalloc ⟨true, none⟩ 700]

theorem sfree_keeps_to_sbrk_heap_reused : ∃ t, allocator.system.Reachable StaysSmall t ∧
    t.live = [(7192, 700), (5660, 1400), (4128, 1500)] ∧
      ∀ a n, Syscall.munmap a n ∉ t.heap.calls := by
  have hrun : (allocator.system.guardedRun LowBreak emptySession reusedHeap).any
      (fun t => t.live = [(7192, 700), (5660, 1400), (4128, 1500)]) = true := by decide +kernel
  obtain ⟨t, hreach, hlive⟩ := TransitionSystem.exists_of_guardedRun _ _ emptySession_init hrun
  have hreach' := hreach.mono fun _ _ => LowBreak.staysSmall
  exact ⟨t, hreach', of_decide_eq_true hlive, (sfree_keeps_to_sbrk_heap hreach').2.1⟩

/-- Calls of programs that request a large block only while `mmap_head` is null, and free a
block of the size of a mapped one only if it is one. -/
def OneMapped (t : Session Globals) : Call → Prop
  | .smalloc _ size =>
      mmapAllocationLimit ≤ size → size ≤ maxAllocation → t.heap.glob.mmapHead = 0
  | .sfree p => p = 0 ∨ (metadataAt t.heap.mem (header p)).size < mmapAllocationLimit ∨
      ∃ r ∈ t.heap.regions, r.addr = header p
  | .write _ _ _ => True
  | .scalloc _ _ _ => False
  | .srealloc _ _ _ => False

theorem Tracked.step {t t' : Session Globals} {bs : List Block} {m : Option Block} {c : Call}
    (h : Tracked t bs m) (hok : OneMapped t c) (hs : allocator.next t c = some t') :
    ∃ bs' m', Tracked t' bs' m' := by
  cases c with
  | smalloc os size =>
    by_cases hsmall : size < mmapAllocationLimit
    · obtain ⟨-, -, -, htr⟩ | ⟨p, bs', -, -, htr⟩ := h.smalloc_small hsmall hs
      · exact ⟨bs, m, htr⟩
      · exact ⟨bs', m, htr⟩
    rw [not_lt] at hsmall
    by_cases hmax : size ≤ maxAllocation
    · have hhead := hok hsmall hmax
      cases m with
      | some b =>
        have hpos := h.maps.pos
        rw [h.maps.head] at hhead
        omega
      | none =>
        obtain htr | ⟨b, htr⟩ := h.smalloc_large hsmall hmax hs
        · exact ⟨bs, none, htr⟩
        · exact ⟨bs, some b, htr⟩
    · exact ⟨bs, m, (h.smalloc_illegal (.inr (by omega)) hs).2.2⟩
  | sfree p =>
    obtain ⟨hp | ⟨e, he, hep⟩, -⟩ := Allocator.next_sfree hs
    · subst hp
      exact ⟨bs, m, (h.sfree_null hs).2⟩
    · obtain ⟨b, hb, hu, hpb, -⟩ := h.room e he
      have hlt := h.header_bounds hb
      have hhead : header p = b.addr := by rw [← hep, hpb, header_of_lt (by omega)]
      rw [← hep, hpb] at hs
      rcases List.mem_append.mp hb with hm | hbs
      · obtain rfl : m = some b := by simpa using hm
        exact ⟨bs, none, h.sfree_mapped hs⟩
      · rcases hok with h0 | hsize | ⟨r, hr, haddr⟩
        · omega
        · obtain ⟨pre, post, rfl⟩ := List.append_of_mem hbs
          rw [hhead, h.heap.represents.header] at hsize
          exact ⟨_, m, (h.sfree_small hbs hu hsize hs).2⟩
        · cases m with
          | none => simp [h.maps.2] at hr
          | some d =>
            rw [h.maps.region, List.mem_singleton] at hr
            subst hr
            obtain rfl : d = b := h.eq_of_addr (by simp) hb (by rw [← hhead, ← haddr])
            exact ⟨bs, none, h.sfree_mapped hs⟩
  | write p i v => exact ⟨bs, m, (h.write hs).2⟩
  | scalloc os num size => exact hok.elim
  | srealloc os oldp size => exact hok.elim

/-- In every run that meets `OneMapped` no call fails to return, the list of `mmap_head`
holds exactly the blocks from `mmap` that the program has, and the list of `root` lies
between the start of the heap and the break. -/
theorem mmap_list_holds_live_blocks {t : Session Globals}
    (h : allocator.system.Reachable OneMapped t) :
    t.fault = none ∧ ∃ bs ms, Represents t.heap bs ∧
      (∀ b ∈ bs, t.heap.heapStart ≤ b.addr ∧ b.addr + 32 + b.size ≤ t.heap.brk) ∧
      Linked Block.addr (Block.At t.heap.mem) 0 ms 0 ∧
      t.heap.glob.mmapHead = headAddr Block.addr 0 ms ∧
      (ms ≠ [] → t.heap.glob.mmapEnd = lastAddr Block.addr 0 ms) ∧
      (ms.map Block.addr).Nodup ∧
      ∀ a, (∃ b ∈ ms, b.addr = a) ↔
        (∃ e ∈ t.live, e.1 = a + 32) ∧ ∃ r ∈ t.heap.regions, r.addr = a := by
  have hinv : ∃ bs m, Tracked t bs m := by
    refine h.invariant (I := fun t => ∃ bs m, Tracked t bs m) ?_ ?_
    · rintro _ ⟨mem, brk, hpos, hlt, rfl⟩
      exact ⟨[], none, Tracked.init mem hpos hlt⟩
    · rintro s c s' ⟨bs, m, hI⟩ hok hs
      exact hI.step hok hs
  obtain ⟨bs, m, hI⟩ := hinv
  refine ⟨hI.fault, bs, m.toList, hI.heap.represents, fun b hb => ?_, ?_⟩
  · have hb' := hI.heap.represents.bounds hb
    have hstart := hI.start_le
    omega
  · cases m with
    | none =>
      refine ⟨trivial, hI.maps.1, fun hne => absurd rfl hne, List.nodup_nil, fun a => ?_⟩
      simp [hI.maps.2]
    | some b =>
      refine ⟨⟨?_, trivial⟩, hI.maps.head, fun _ => hI.maps.last, by simp, fun a => ?_⟩
      · rw [Block.At, hI.maps.header, hI.maps.inUse]
        rfl
      · obtain ⟨n, hn⟩ := hI.live b (by simp) hI.maps.inUse
        simp only [Option.toList_some, List.mem_singleton, exists_eq_left, hI.maps.region]
        constructor
        · rintro rfl
          exact ⟨⟨_, hn, rfl⟩, rfl⟩
        · exact fun ha => ha.2

instance (t : Session Globals) : (c : Call) → Decidable (OneMapped t c)
  | .smalloc _ _ => inferInstanceAs (Decidable (_ → _ → _))
  | .sfree _ => inferInstanceAs (Decidable (_ ∨ _ ∨ _))
  | .srealloc _ _ _ => inferInstanceAs (Decidable False)
  | .write _ _ _ => inferInstanceAs (Decidable True)
  | .scalloc _ _ _ => inferInstanceAs (Decidable False)

/-- A large block is written to, freed and followed by another one, while small neighbours are
freed, merged and requested again. -/
def mappedTwice : List Call :=
  [.smalloc ⟨true, none⟩ 1000, .smalloc ⟨true, some 1048576⟩ 131072, .smalloc ⟨true, none⟩ 2000,
    .write 1048608 131071 7, .sfree 4128, .sfree 1048608, .sfree 5160,
    .smalloc ⟨true, some 2097152⟩ 200000, .smalloc ⟨true, none⟩ 2500, .smalloc ⟨true, none⟩ 400]

theorem mmap_list_holds_live_blocks_mapped_twice : ∃ t, allocator.system.Reachable OneMapped t ∧
    t.live = [(6660, 400), (4128, 2500), (2097184, 200000)] ∧
      ∃ ms, t.heap.glob.mmapHead = headAddr Block.addr 0 ms ∧ (∃ b ∈ ms, b.addr = 2097152) ∧
        ∀ a, (∃ b ∈ ms, b.addr = a) ↔
          (∃ e ∈ t.live, e.1 = a + 32) ∧ ∃ r ∈ t.heap.regions, r.addr = a := by
  have hrun : (allocator.system.guardedRun OneMapped emptySession mappedTwice).any (fun t =>
      t.live = [(6660, 400), (4128, 2500), (2097184, 200000)] ∧
        ∃ r ∈ t.heap.regions, r.addr = 2097152) = true := by decide +kernel
  obtain ⟨t, hreach, ht⟩ := TransitionSystem.exists_of_guardedRun _ _ emptySession_init hrun
  obtain ⟨hlive, hregion⟩ := of_decide_eq_true ht
  obtain ⟨-, bs, ms, -, -, -, hhead, -, -, hiff⟩ := mmap_list_holds_live_blocks hreach
  refine ⟨t, hreach, hlive, ms, hhead, (hiff 2097152).mpr ⟨?_, hregion⟩, hiff⟩
  exact ⟨(2097184, 200000), by simp [hlive], rfl⟩

/-- A request or a pointer given back, of any size. -/
def RequestOrFree : Call → Prop
  | .smalloc _ _ => True
  | .sfree _ => True
  | _ => False

/-- Two requests of 128 KiB, both granted by the kernel. -/
def twoLargeBlocks : List Call :=
  [.smalloc ⟨true, some 1048576⟩ 131072, .smalloc ⟨true, some 2097152⟩ 131072]

/-- The second large block is appended behind `end`, which is null. -/
theorem second_large_request_faults : ∃ t,
    allocator.system.run emptySession twoLargeBlocks = some t ∧
      allocator.system.Reachable (fun _ c => RequestOrFree c) t ∧
      t.fault = some .nullDereference := by
  obtain ⟨t, hrun, hreach, hfault⟩ := TransitionSystem.exists_of_run (fun _ c => RequestOrFree c)
    twoLargeBlocks (fun t => t.fault = some .nullDereference) emptySession_init
    (by simp [twoLargeBlocks, RequestOrFree]) (by decide +kernel)
  exact ⟨t, hrun, hreach, by simpa using hfault⟩

end FtfSystems.VirtualMemory.Malloc2

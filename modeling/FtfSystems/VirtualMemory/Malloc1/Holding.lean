import FtfSystems.VirtualMemory.Malloc1.Blocks

/-!
# The pointers a program holds

`Holding` ties a session to the blocks of its heap: every pointer leads to a block in use
of its own, with room for what was asked for. Every call keeps this and writes to no payload
but the one it returns or gets, as long as the product of the arguments of `scalloc` does
not overflow.
-/
namespace FtfSystems.VirtualMemory.Malloc1
open Foundation

/-- The product of `scalloc` fits a `size_t`. -/
def NoOverflow (_ : Session Globals) : Call → Prop
  | .scalloc _ num size => num * size < 2 ^ 64
  | _ => True

/-- Where `srealloc` copies into a block that it reuses, the `size` bytes at `oldp` end before the
last page of the heap does. -/
def CopiesInHeap (t : Session Globals) : Call → Prop
  | .srealloc _ oldp size => oldp ≠ 0 → (metadataAt t.heap.mem (header oldp)).size < size →
      size ≤ maxAllocation → (∃ b, FirstFit t.heap.mem size t.heap.glob.root b) →
        oldp + size ≤ pageCeil t.heap.brk
  | _ => True

/-- The blocks of a session and the pointers to them. -/
structure Holding (t : Session Globals) (bs : List Block) : Prop where
  represents : Represents t.heap bs
  start : headAddr Block.addr t.heap.brk bs = t.heap.heapStart
  room : ∀ e ∈ t.live, ∃ b ∈ bs, b.isFree = false ∧ e.1 = b.addr + 32 ∧ e.2 ≤ b.size
  nodup : (t.live.map Prod.fst).Nodup

/-- What a call leaves alone: the sizes of all blocks, and every payload the program holds
except the one the call returns and the one it is given. -/
structure LeavesAlone (t : Session Globals) (bs : List Block) (c : Call) (t' : Session Globals)
    (bs' : List Block) : Prop where
  sizes : ∀ b ∈ bs, ∃ b' ∈ bs', b'.addr = b.addr ∧ b'.size = b.size
  payload : ∀ e ∈ t.live, t'.last ≠ some (c, e.1) → e.1 ≠ c.pointer →
    t.heap.mem.AgreeOn t'.heap.mem e.1 e.2

section Steps
variable {t t' : Session Globals} {bs bs' : List Block} {c : Call}

theorem Holding.init (mem : Memory) {brk : ℕ} (hpos : 0 < brk) (hlt : brk < 2 ^ 64) :
    Holding (allocator.fresh mem brk) [] where
  represents := .empty hpos hlt
  start := rfl
  room := by simp [Allocator.fresh]
  nodup := by simp [Allocator.fresh]

/-- A call that changes nothing but the record of system calls. -/
theorem Holding.unchanged (h : Holding t bs) (c : Call) {s' : Heap} {l : Option (Call × ℕ)}
    {f : Option Fault} (hsame : s' = { t.heap with calls := s'.calls })
    (ht' : t' = ⟨s', t.live, l, f⟩) : Holding t' bs ∧ LeavesAlone t bs c t' bs := by
  subst ht'
  refine ⟨⟨?_, ?_, h.room, h.nodup⟩, fun b hb => ⟨b, hb, rfl, rfl⟩, fun e _ _ _ => ?_⟩
  · rw [hsame]
    exact h.represents
  · rw [hsame]
    exact h.start
  · rw [hsame]
    exact Memory.AgreeOn.refl _ _ _

/-- The payload behind a pointer the program holds. -/
theorem Holding.payload_agree (h : Holding t bs) {s' : Heap} (hg : Grows t.heap bs s' bs')
    {e : ℕ × ℕ} (he : e ∈ t.live) : t.heap.mem.AgreeOn s'.mem e.1 e.2 := by
  obtain ⟨b, hb, hu, hp, hn⟩ := h.room e he
  exact (hg.payload b hb hu).sub (by omega) (by omega)

/-- The session after a request has been served; `live` are the pointers still held. -/
theorem Holding.served (h : Holding t bs) {s' : Heap} {size n : ℕ} {p : Block}
    (hs : Served t.heap size bs p s' bs') (hn : n ≤ p.size) {live : List (ℕ × ℕ)}
    (hlive : live.Sublist t.live)
    (ht' : t' = ⟨s', (p.addr + 32, n) :: live, some (c, p.addr + 32), none⟩) :
    Holding t' bs' ∧ LeavesAlone t bs c t' bs' := by
  subst ht'
  refine ⟨⟨hs.represents, ?_, ?_, ?_⟩, hs.sizes, fun e he _ _ => h.payload_agree hs.toGrows he⟩
  · rw [hs.heapStart, hs.start, h.start]
  · intro e he
    rcases List.mem_cons.mp he with rfl | he
    · exact ⟨p, hs.mem, hs.inUse, rfl, hn⟩
    · obtain ⟨b, hb, hu, hp, hle⟩ := h.room e (hlive.subset he)
      exact ⟨b, hs.keeps b hb hu, hu, hp, hle⟩
  · rw [List.map_cons, List.nodup_cons]
    refine ⟨fun hmem => ?_, h.nodup.sublist (hlive.map Prod.fst)⟩
    obtain ⟨e, he, hep⟩ := List.mem_map.mp hmem
    obtain ⟨b, hb, hu, hp, -⟩ := h.room e (hlive.subset he)
    exact hs.fresh b hb hu (by omega)

/-- A request of any size, from any well-formed heap. -/
theorem smalloc_total (os : OsAnswer) (size : ℕ) {s : Heap} (h : Represents s bs) :
    (∃ p s' bs', (smalloc os size).run s = .ok (p.addr + 32, s') ∧ Served s size bs p s' bs') ∨
    ∃ s', (smalloc os size).run s = .ok (0, s') ∧ s' = { s with calls := s'.calls } ∧
      (size = 0 ∨ maxAllocation < size ∨ s.sbrkTarget os (size + 32) = none) := by
  by_cases hlegal : size = 0 ∨ maxAllocation < size
  · refine .inr ⟨s, ?_, rfl, hlegal.imp_right .inl⟩
    simp only [smalloc, if_pos hlegal, pure_run]
  · rw [not_or, not_lt] at hlegal
    obtain hserved | ⟨hfail, hrun⟩ := smalloc_cases os h hlegal.1 hlegal.2
    · exact .inl hserved
    · exact .inr ⟨_, hrun, rfl, .inr (.inr hfail)⟩

theorem Holding.smalloc_step (h : Holding t bs) {os : OsAnswer} {size : ℕ}
    (hs : allocator.next t (.smalloc os size) = some t') : ∃ bs', Holding t' bs' ∧
      LeavesAlone t bs (.smalloc os size) t' bs' ∧ t'.fault = none := by
  obtain ⟨-, ht⟩ := Allocator.next_smalloc hs
  obtain ⟨p, s', bs', hrun, hserved⟩ | ⟨s', hrun, hsame, -⟩ := smalloc_total os size h.represents
  · rw [show (allocator.smalloc os size).run t.heap = _ from hrun,
      Session.record_pointer _ _ _ _ _ (by omega : p.addr + 32 ≠ 0)] at ht
    obtain ⟨hhold, halone⟩ := h.served hserved hserved.size_le (List.Sublist.refl _) ht
    exact ⟨bs', hhold, halone, by rw [ht]⟩
  · rw [show (allocator.smalloc os size).run t.heap = _ from hrun, Session.record_null] at ht
    obtain ⟨hhold, halone⟩ := h.unchanged _ hsame ht
    exact ⟨bs, hhold, halone, by rw [ht]⟩

theorem Holding.scalloc_step (h : Holding t bs) {os : OsAnswer} {num size : ℕ}
    (hprod : num * size < 2 ^ 64)
    (hs : allocator.next t (.scalloc os num size) = some t') : ∃ bs', Holding t' bs' ∧
      LeavesAlone t bs (.scalloc os num size) t' bs' ∧ t'.fault = none := by
  obtain ⟨-, ht⟩ := Allocator.next_scalloc hs
  have hmul : wmul size num = num * size := by
    rw [wmul_of_lt (by rwa [Nat.mul_comm]), Nat.mul_comm]
  obtain ⟨p, s', bs', hrun, hserved⟩ | ⟨s', hrun, hsame, -⟩ :=
    smalloc_total os (num * size) h.represents
  · have hcall : (allocator.scalloc os num size).run t.heap = .ok (p.addr + 32,
        { s' with mem := s'.mem.memset (p.addr + 32) 0 (num * size) }) := by
      simp only [allocator, scalloc, hmul, StateT.run_bind, hrun, ok_bind,
        if_neg (by omega : ¬p.addr + 32 = 0), StateT.run_modify, pure_bind]
      rfl
    have hserved' := hserved.write (m := s'.mem.memset (p.addr + 32) 0 (num * size))
      (fun x hx => Memory.memset_agree s'.mem (b := x) (k := 1)
        (by have := hserved.size_le; omega) x le_rfl (by omega))
    rw [hcall, Session.record_pointer _ _ _ _ _ (by omega : p.addr + 32 ≠ 0)] at ht
    obtain ⟨hhold, halone⟩ := h.served hserved' hserved.size_le (List.Sublist.refl _) ht
    exact ⟨bs', hhold, halone, by rw [ht]⟩
  · have hcall : (allocator.scalloc os num size).run t.heap = .ok (0, s') := by
      simp only [allocator, scalloc, hmul, StateT.run_bind, hrun, ok_bind, if_true, pure_run]
    rw [hcall, Session.record_null] at ht
    obtain ⟨hhold, halone⟩ := h.unchanged _ hsame ht
    exact ⟨bs, hhold, halone, by rw [ht]⟩

/-- Setting the flag of a block the program no longer holds a pointer to. -/
theorem Holding.freed {pre post : List Block} {b : Block} (h : Holding t (pre ++ b :: post))
    (hno : ∀ e ∈ t.live, e.1 ≠ b.addr + 32) {s' : Heap}
    (hg : Grows t.heap (pre ++ b :: post) s' (pre ++ b.freed :: post))
    (ht' : t'.heap = s') (hlive : t'.live = t.live) : Holding t' (pre ++ b.freed :: post) := by
  subst ht'
  refine ⟨hg.represents, by rw [hg.heapStart, hg.start, h.start], fun e he => ?_, ?_⟩
  · rw [hlive] at he
    obtain ⟨c, hc, hu, hp, hn⟩ := h.room e he
    have hne := hno e he
    refine ⟨c, ?_, hu, hp, hn⟩
    simp only [List.mem_append, List.mem_cons] at hc ⊢
    rcases hc with hc | rfl | hc
    · exact .inl hc
    · exact absurd hp hne
    · exact .inr (.inr hc)
  · rw [hlive]
    exact h.nodup

/-- Fewer pointers. -/
theorem Holding.forget (h : Holding t bs) {live : List (ℕ × ℕ)} (hlive : live.Sublist t.live) :
    Holding { t with live := live } bs :=
  ⟨h.represents, h.start, fun e he => h.room e (hlive.subset he),
    h.nodup.sublist (hlive.map Prod.fst)⟩

theorem Holding.sfree_step (h : Holding t bs) {p : ℕ}
    (hs : allocator.next t (.sfree p) = some t') : ∃ bs', Holding t' bs' ∧
      LeavesAlone t bs (.sfree p) t' bs' ∧ t'.fault = none := by
  obtain ⟨hp | ⟨e, he, hep⟩, ht⟩ := Allocator.next_sfree hs
  · subst hp
    have hrun : (allocator.sfree 0).run t.heap = .ok ((), t.heap) := by
      simp only [allocator, sfree, if_pos, pure_run]
    have hlive : t.dropped 0 = t.live := Session.dropped_null fun e he => by
      obtain ⟨b, -, -, hp, -⟩ := h.room e he
      omega
    rw [hrun, Session.recordFree_ok, hlive] at ht
    obtain ⟨hhold, halone⟩ := h.unchanged (.sfree 0) rfl ht
    exact ⟨bs, hhold, halone, by rw [ht]⟩
  · obtain ⟨b, hb, hu, hpb, -⟩ := h.room e he
    obtain ⟨pre, post, rfl⟩ := List.append_of_mem hb
    obtain ⟨s', hrun, hg⟩ := sfree_run h.represents hu
    rw [hpb] at hep
    rw [← hep, show (allocator.sfree (b.addr + 32)).run t.heap = _ from hrun,
      Session.recordFree_ok] at ht
    subst ht
    refine ⟨pre ++ b.freed :: post, ?_, ⟨hg.sizes, fun e he _ _ => h.payload_agree hg he⟩, rfl⟩
    refine (h.forget (List.filter_sublist : (t.dropped (b.addr + 32)).Sublist t.live)).freed ?_ hg
      rfl rfl
    intro e he
    exact (Session.mem_dropped.mp he).2

theorem Holding.write_step (h : Holding t bs) {p i : ℕ} {v : UInt8}
    (hs : allocator.next t (.write p i v) = some t') : ∃ bs', Holding t' bs' ∧
      LeavesAlone t bs (.write p i v) t' bs' ∧ t'.fault = none := by
  have hfault := Allocator.next_fault hs
  obtain ⟨⟨e, he, rfl, hi⟩, rfl⟩ := Allocator.next_write hs
  obtain ⟨b, hb, hu, hp, hn⟩ := h.room e he
  obtain ⟨hrep, hother⟩ := h.represents.write_payload hb
    (fun x hx => (Function.update_of_ne (by omega) v t.heap.mem :
      Function.update t.heap.mem (e.1 + i) v x = t.heap.mem x))
  refine ⟨bs, ⟨hrep, h.start, h.room, h.nodup⟩, ⟨fun c hc => ⟨c, hc, rfl, rfl⟩, ?_⟩, hfault⟩
  intro d hd _ hne
  obtain ⟨c, hc, -, hpc, hnc⟩ := h.room d hd
  have hne' : d.1 ≠ e.1 := hne
  exact (hother c hc (by omega)).sub (by omega) (by omega)

/-- `srealloc` of a block that is too small, when a larger one is found: allocate, copy and
free. -/
theorem srealloc_move {pre post : List Block} {b p : Block} {os : OsAnswer} {size : ℕ} {s s₁ : Heap}
    {bs₁ : List Block} (h : Represents s (pre ++ b :: post)) (hu : b.isFree = false)
    (hsize : b.size < size) (hmax : size ≤ maxAllocation)
    (hrun : (smalloc os size).run s = .ok (p.addr + 32, s₁))
    (hserved : Served s size (pre ++ b :: post) p s₁ bs₁)
    (hsrc : s₁.Mapped (b.addr + 32) size) :
    ∃ s₂ s₃ pre' post', (srealloc os (b.addr + 32) size).run s = .ok (p.addr + 32, s₃) ∧
      Served s size (pre ++ b :: post) p s₂ (pre' ++ b :: post') ∧
      Grows s₂ (pre' ++ b :: post') s₃ (pre' ++ b.freed :: post') := by
  have hb := h.bounds (b := b) (by simp)
  have hp := hserved.represents.bounds hserved.mem
  have hle := hserved.size_le
  have hlegal : ¬(size = 0 ∨ maxAllocation < size) := by omega
  have hserved₂ := hserved.write (m := s₁.mem.memmove (p.addr + 32) (b.addr + 32) size)
    (fun x hx => Memory.memmove_agree s₁.mem (b := x) (k := 1) (by omega) x le_rfl (by omega))
  obtain ⟨pre', post', rfl⟩ := List.append_of_mem (hserved.keeps b (by simp) hu)
  obtain ⟨s₃, hfree, hg⟩ := sfree_run hserved₂.represents hu
  refine ⟨_, s₃, pre', post', ?_, hserved₂, hg⟩
  have hmove : (moveBytes (p.addr + 32) (b.addr + 32) size).run s₁ =
      .ok ((), { s₁ with mem := s₁.mem.memmove (p.addr + 32) (b.addr + 32) size }) :=
    moveBytes_run (by omega) hsrc (Process.mapped_of_le_brk (by omega))
  have hvalid : ¬p.addr + 32 = minusOne := by
    simp only [minusOne]
    omega
  rw [srealloc, if_neg hlegal, if_neg (by omega : ¬b.addr + 32 = 0),
    header_of_lt (by omega : b.addr + 32 < 2 ^ 64), StateT.run_bind,
    getSize_run (by omega : b.addr ≠ 0), ok_bind, h.header, if_neg (by omega : ¬size ≤ b.size),
    StateT.run_bind, hrun, ok_bind, if_neg hvalid, StateT.run_bind, hmove, ok_bind,
    StateT.run_bind, hfree, ok_bind, pure_run]

/-- The copy is as long as the new block, and may leave the pages of the heap. -/
theorem srealloc_overread {pre post : List Block} {b p : Block} {os : OsAnswer} {size : ℕ}
    {s s₁ : Heap} {bs₁ : List Block} (h : Represents s (pre ++ b :: post)) (hsize : b.size < size)
    (hmax : size ≤ maxAllocation) (hrun : (smalloc os size).run s = .ok (p.addr + 32, s₁))
    (hserved : Served s size (pre ++ b :: post) p s₁ bs₁)
    (hsrc : ¬s₁.Mapped (b.addr + 32) size) :
    (srealloc os (b.addr + 32) size).run s = .error .segfault := by
  have hb := h.bounds (b := b) (by simp)
  have hp := hserved.represents.bounds hserved.mem
  have hle := hserved.size_le
  have hlegal : ¬(size = 0 ∨ maxAllocation < size) := by omega
  have hvalid : ¬p.addr + 32 = minusOne := by
    simp only [minusOne]
    omega
  rw [srealloc, if_neg hlegal, if_neg (by omega : ¬b.addr + 32 = 0),
    header_of_lt (by omega : b.addr + 32 < 2 ^ 64), StateT.run_bind,
    getSize_run (by omega : b.addr ≠ 0), ok_bind, h.header, if_neg (by omega : ¬size ≤ b.size),
    StateT.run_bind, hrun, ok_bind, if_neg hvalid, StateT.run_bind,
    moveBytes_unmapped (by omega) hsrc]
  rfl

/-- `srealloc` of a block that is too small, when there is no other: the null pointer is
taken for a valid one. -/
theorem srealloc_refused {pre post : List Block} {b : Block} {os : OsAnswer} {size : ℕ}
    {s s₁ : Heap} (h : Represents s (pre ++ b :: post)) (hsize : b.size < size)
    (hmax : size ≤ maxAllocation) (hrun : (smalloc os size).run s = .ok (0, s₁)) :
    (srealloc os (b.addr + 32) size).run s = .error .nullDereference := by
  have hb := h.bounds (b := b) (by simp)
  have hlegal : ¬(size = 0 ∨ maxAllocation < size) := by omega
  have hvalid : ¬0 = minusOne := by decide
  have hmove : (moveBytes 0 (b.addr + 32) size).run s₁ = .error .nullDereference := by
    rw [moveBytes, if_pos ⟨rfl, by omega⟩]
    rfl
  rw [srealloc, if_neg hlegal, if_neg (by omega : ¬b.addr + 32 = 0),
    header_of_lt (by omega : b.addr + 32 < 2 ^ 64), StateT.run_bind,
    getSize_run (by omega : b.addr ≠ 0), ok_bind, h.header, if_neg (by omega : ¬size ≤ b.size),
    StateT.run_bind, hrun, ok_bind, if_neg hvalid, StateT.run_bind, hmove]
  rfl

section
variable {pre post : List Block} {b : Block} {os : OsAnswer} {size : ℕ}

/-- The block is large enough and stays. -/
theorem Holding.srealloc_stays (h : Holding t (pre ++ b :: post)) (hu : b.isFree = false)
    (hfits : size ≤ b.size)
    (ht : t' = ⟨t.heap, (b.addr + 32, size) :: t.dropped (b.addr + 32),
      some (.srealloc os (b.addr + 32) size, b.addr + 32), none⟩) :
    Holding t' (pre ++ b :: post) ∧
      LeavesAlone t (pre ++ b :: post) (.srealloc os (b.addr + 32) size) t' (pre ++ b :: post) := by
  subst ht
  have hsub : (t.dropped (b.addr + 32)).Sublist t.live := List.filter_sublist
  have hforget := h.forget hsub
  refine ⟨⟨h.represents, h.start, ?_, ?_⟩, ⟨fun c hc => ⟨c, hc, rfl, rfl⟩,
    fun d _ _ _ => Memory.AgreeOn.refl _ _ _⟩⟩
  · intro d hd
    rcases List.mem_cons.mp hd with rfl | hd
    · exact ⟨b, by simp, hu, rfl, hfits⟩
    · exact hforget.room d hd
  · rw [List.map_cons, List.nodup_cons]
    refine ⟨fun hmem => ?_, hforget.nodup⟩
    obtain ⟨d, hd, hdp⟩ := List.mem_map.mp hmem
    exact (Session.mem_dropped.mp hd).2 hdp

/-- The contents move to another block and the old one is freed. -/
theorem Holding.srealloc_moves (h : Holding t (pre ++ b :: post)) (hu : b.isFree = false)
    {pre' post' : List Block} {p : Block} {s₂ s₃ : Heap}
    (hserved : Served t.heap size (pre ++ b :: post) p s₂ (pre' ++ b :: post'))
    (hg : Grows s₂ (pre' ++ b :: post') s₃ (pre' ++ b.freed :: post'))
    (ht : t' = ⟨s₃, (p.addr + 32, size) :: t.dropped (b.addr + 32),
      some (.srealloc os (b.addr + 32) size, p.addr + 32), none⟩) :
    Holding t' (pre' ++ b.freed :: post') ∧
      LeavesAlone t (pre ++ b :: post) (.srealloc os (b.addr + 32) size) t'
        (pre' ++ b.freed :: post') := by
  subst ht
  have hsub : (t.dropped (b.addr + 32)).Sublist t.live := List.filter_sublist
  obtain ⟨hhold, halone⟩ := h.served (c := .srealloc os (b.addr + 32) size) hserved
    hserved.size_le hsub rfl
  refine ⟨hhold.freed ?_ hg rfl rfl, ⟨fun c hc => ?_, ?_⟩⟩
  · intro d hd
    rcases List.mem_cons.mp hd with rfl | hd
    · have := hserved.fresh b (by simp) hu
      simp only
      omega
    · exact (Session.mem_dropped.mp hd).2
  · obtain ⟨c', hc', haddr, hsize⟩ := halone.sizes c hc
    obtain ⟨c'', hc'', haddr', hsize'⟩ := hg.sizes c' hc'
    exact ⟨c'', hc'', haddr'.trans haddr, hsize'.trans hsize⟩
  · intro d hd hlast hne
    have hkept : d ∈ t.dropped (b.addr + 32) :=
      Session.mem_dropped.mpr ⟨hd, by simpa [Call.pointer] using hne⟩
    exact (halone.payload d hd hlast hne).trans
      (hhold.payload_agree hg (List.mem_cons_of_mem _ hkept))

end

/-- A block that can be reused is found by the search. -/
theorem exists_firstFit {s : Heap} {size : ℕ} {b : Block} (h : Represents s bs) (hb : b ∈ bs)
    (hfit : b.fits size) : ∃ a, FirstFit s.mem size s.glob.root a := by
  obtain ⟨-, hfound, -⟩ := searchFit_firstFit (h.search_run size)
  obtain ⟨c, hc⟩ : ∃ c, bs.find? (Block.fits size) = some c :=
    Option.isSome_iff_exists.mp (List.find?_isSome.mpr ⟨b, hb, hfit⟩)
  have hbound := h.bounds (List.mem_of_find?_eq_some hc)
  rw [firstFit, hc, Option.map_some, Option.getD_some] at hfound
  exact ⟨c.addr, hfound (by omega)⟩

/-- What `srealloc` copies lies in the pages of the heap. -/
theorem CopiesInHeap.mapped {os : OsAnswer} {size : ℕ} {s₁ : Heap} {b p : Block}
    (hok : CopiesInHeap t (.srealloc os (b.addr + 32) size)) (h : Represents t.heap bs)
    (hb : b ∈ bs) (hsize : b.size < size) (hmax : size ≤ maxAllocation)
    (hserved : Served t.heap size bs p s₁ bs') : s₁.Mapped (b.addr + 32) size := by
  have hbound := h.bounds hb
  obtain ⟨hbrk, c, hc, hfit⟩ | hbrk := hserved.brk
  · have hheader : (metadataAt t.heap.mem (header (b.addr + 32))).size = b.size := by
      obtain ⟨pre, post, rfl⟩ := List.append_of_mem hb
      rw [header_of_lt (by omega), h.header]
    apply Process.mapped_of_le
    rw [hbrk]
    exact hok (by omega) (by omega) hmax (exists_firstFit h hc hfit)
  · exact Process.mapped_of_le_brk (by omega)

theorem Holding.srealloc_step (h : Holding t bs) {os : OsAnswer} {oldp size : ℕ}
    (hs : allocator.next t (.srealloc os oldp size) = some t') : ∃ bs', Holding t' bs' ∧
      LeavesAlone t bs (.srealloc os oldp size) t' bs' ∧
      (CopiesInHeap t (.srealloc os oldp size) →
        t'.fault = none ∨ t.heap.sbrkTarget os (size + 32) = none) := by
  obtain ⟨⟨hheld, -⟩, ht⟩ := Allocator.next_srealloc hs
  have hsub : (t.dropped oldp).Sublist t.live := List.filter_sublist
  by_cases hlegal : size = 0 ∨ maxAllocation < size
  · have hrun : (allocator.srealloc os oldp size).run t.heap = .ok (0, t.heap) := by
      simp only [allocator, srealloc, if_pos hlegal, pure_run]
    rw [hrun, Session.record_null] at ht
    obtain ⟨hhold, halone⟩ := h.unchanged (.srealloc os oldp size) rfl ht
    exact ⟨bs, hhold, halone, fun _ => .inl (by rw [ht])⟩
  obtain hp | ⟨e, he, hep⟩ := hheld
  · -- `srealloc` of null is `smalloc`
    have hcall : (allocator.srealloc os oldp size).run t.heap = (smalloc os size).run t.heap := by
      simp only [allocator, srealloc, if_neg hlegal, if_pos hp]
    obtain ⟨p, s', bs', hrun, hserved⟩ | ⟨s', hrun, hsame, -⟩ := smalloc_total os size h.represents
    · rw [hcall, hrun, Session.record_pointer _ _ _ _ _ (by omega : p.addr + 32 ≠ 0)] at ht
      obtain ⟨hhold, halone⟩ := h.served hserved hserved.size_le hsub ht
      exact ⟨bs', hhold, halone, fun _ => .inl (by rw [ht])⟩
    · rw [hcall, hrun, Session.record_null] at ht
      obtain ⟨hhold, halone⟩ := h.unchanged (.srealloc os oldp size) hsame ht
      exact ⟨bs, hhold, halone, fun _ => .inl (by rw [ht])⟩
  obtain ⟨b, hb, hu, hpb, -⟩ := h.room e he
  have hbounds := h.represents.bounds hb
  obtain ⟨pre, post, rfl⟩ := List.append_of_mem hb
  obtain rfl : b.addr + 32 = oldp := by rw [← hpb, hep]
  by_cases hfits : size ≤ b.size
  · have hrun : (allocator.srealloc os (b.addr + 32) size).run t.heap =
        .ok (b.addr + 32, t.heap) := by
      simp only [allocator, srealloc, if_neg hlegal, if_neg (by omega : ¬b.addr + 32 = 0),
        header_of_lt (by omega : b.addr + 32 < 2 ^ 64), StateT.run_bind,
        getSize_run (by omega : b.addr ≠ 0), ok_bind, h.represents.header, if_pos hfits, pure_run]
    rw [hrun, Session.record_pointer _ _ _ _ _ (by omega : b.addr + 32 ≠ 0)] at ht
    obtain ⟨hhold, halone⟩ := h.srealloc_stays hu hfits ht
    exact ⟨_, hhold, halone, fun _ => .inl (by rw [ht])⟩
  · rw [not_or, not_lt] at hlegal
    obtain ⟨p, s₁, bs₁, hrun, hserved⟩ | ⟨s₁, hrun, -, hwhy⟩ :=
      smalloc_total os size h.represents
    · by_cases hsrc : s₁.Mapped (b.addr + 32) size
      · obtain ⟨s₂, s₃, pre', post', hcall, hserved₂, hg⟩ :=
          srealloc_move h.represents hu (by omega) hlegal.2 hrun hserved hsrc
        rw [show (allocator.srealloc os (b.addr + 32) size).run t.heap = _ from hcall,
          Session.record_pointer _ _ _ _ _ (by omega : p.addr + 32 ≠ 0)] at ht
        obtain ⟨hhold, halone⟩ := h.srealloc_moves hu hserved₂ hg ht
        exact ⟨_, hhold, halone, fun _ => .inl (by rw [ht])⟩
      · have hcall := srealloc_overread h.represents (by omega) hlegal.2 hrun hserved hsrc
        rw [show (allocator.srealloc os (b.addr + 32) size).run t.heap = _ from hcall] at ht
        obtain ⟨hhold, halone⟩ := h.unchanged (.srealloc os (b.addr + 32) size) rfl ht
        exact ⟨_, hhold, halone, fun hok =>
          absurd (hok.mapped h.represents (by simp) (by omega) hlegal.2 hserved) hsrc⟩
    · have hcall := srealloc_refused h.represents (by omega : b.size < size) hlegal.2 hrun
      rw [show (allocator.srealloc os (b.addr + 32) size).run t.heap = _ from hcall] at ht
      obtain ⟨hhold, halone⟩ := h.unchanged (.srealloc os (b.addr + 32) size) rfl ht
      refine ⟨_, hhold, halone, fun _ => .inr ?_⟩
      rcases hwhy with h0 | hbig | hfail
      · exact absurd h0 hlegal.1
      · omega
      · exact hfail

/-- One call of any kind. -/
theorem Holding.step (h : Holding t bs) (hok : NoOverflow t c)
    (hs : allocator.next t c = some t') : ∃ bs', Holding t' bs' ∧ LeavesAlone t bs c t' bs' ∧
      (CopiesInHeap t c → t'.fault = none ∨ ∃ os oldp size, c = .srealloc os oldp size ∧
        t.heap.sbrkTarget os (size + 32) = none) := by
  cases c with
  | smalloc os size =>
    obtain ⟨bs', hhold, halone, hf⟩ := h.smalloc_step hs
    exact ⟨bs', hhold, halone, fun _ => .inl hf⟩
  | scalloc os num size =>
    obtain ⟨bs', hhold, halone, hf⟩ := h.scalloc_step hok hs
    exact ⟨bs', hhold, halone, fun _ => .inl hf⟩
  | sfree p =>
    obtain ⟨bs', hhold, halone, hf⟩ := h.sfree_step hs
    exact ⟨bs', hhold, halone, fun _ => .inl hf⟩
  | srealloc os oldp size =>
    obtain ⟨bs', hhold, halone, hf⟩ := h.srealloc_step hs
    exact ⟨bs', hhold, halone, fun hin =>
      (hf hin).imp_right fun hf => ⟨os, oldp, size, rfl, hf⟩⟩
  | write p i v =>
    obtain ⟨bs', hhold, halone, hf⟩ := h.write_step hs
    exact ⟨bs', hhold, halone, fun _ => .inl hf⟩

theorem Holding.of_reachable (h : allocator.system.Reachable NoOverflow t) :
    ∃ bs, Holding t bs := by
  refine h.invariant (I := fun t => ∃ bs, Holding t bs) ?_ ?_
  · rintro _ ⟨mem, brk, hpos, hlt, rfl⟩
    exact ⟨[], Holding.init mem hpos hlt⟩
  · rintro s c s' ⟨bs, hI⟩ hok hs
    obtain ⟨bs', hhold, -⟩ := hI.step hok hs
    exact ⟨bs', hhold⟩

end Steps

end FtfSystems.VirtualMemory.Malloc1

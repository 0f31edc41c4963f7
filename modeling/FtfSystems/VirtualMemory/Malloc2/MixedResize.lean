import FtfSystems.VirtualMemory.Malloc2.MixedFree
import FtfSystems.VirtualMemory.Malloc2.Reallocate

/-!
# Resizing while blocks are mapped

`srealloc` looks at the blocks before and behind in the list, from wherever they came. `Resizes`
says which of its calls keep the blocks of the two kinds apart: those that split no mapped block,
merge none with the block behind it, and merge nothing into the block before.
-/
namespace FtfSystems.VirtualMemory.Malloc2
open Foundation

/-- The free block at `n`, if there is one, has room for `size` bytes together with `own`. -/
def Joins (m : Memory) (n own size : ℕ) : Prop :=
  n ≠ 0 ∧ size ≤ wadd (wadd (metadataAt m n).size own) sizeofMetadata ∧ (metadataAt m n).isFree

/-- The free blocks at `p` and `n`, if there are both, have room together with `own`. -/
def JoinsBoth (m : Memory) (p n own size : ℕ) : Prop :=
  p ≠ 0 ∧ n ≠ 0 ∧ size ≤ wadd (wadd (wadd (metadataAt m p).size (metadataAt m n).size) own)
    (wmul 2 sizeofMetadata) ∧ (metadataAt m p).isFree ∧ (metadataAt m n).isFree

instance (m : Memory) (n own size : ℕ) : Decidable (Joins m n own size) :=
  inferInstanceAs (Decidable (_ ∧ _))

instance (m : Memory) (p n own size : ℕ) : Decidable (JoinsBoth m p n own size) :=
  inferInstanceAs (Decidable (_ ∧ _))

/-- The merges of `srealloc` that do not go into the block before. -/
theorem sreallocMerge_behind {s : Heap} {h size : ℕ} (h0 : h ≠ 0)
    (hlower : ¬Joins s.mem (metadataAt s.mem h).prev (metadataAt s.mem h).size size)
    (hboth : ¬Joins s.mem (metadataAt s.mem h).next (metadataAt s.mem h).size size →
      ¬JoinsBoth s.mem (metadataAt s.mem h).prev (metadataAt s.mem h).next
        (metadataAt s.mem h).size size) :
    (sreallocMerge h size).run s =
      if Joins s.mem (metadataAt s.mem h).next (metadataAt s.mem h).size size then (do
        combine h (metadataAt s.mem h).next
        setIsFree h false
        return h : M ℕ).run s
      else .ok (0, s) := by
  simp only [sreallocMerge, StateT.run_bind, getPrev_run h0, getNext_run h0, getSize_run h0, ok_bind]
  generalize metadataAt s.mem h = own at *
  by_cases hp : own.prev = 0 <;> by_cases hn : own.next = 0
  · simp [hp, hn, Joins]
    rfl
  · have hsize := getSize_run hn s
    have hfree := getIsFree_run hn s
    simp only [hp, hn, Joins, ne_eq, not_true_eq_false, not_false_eq_true, if_false, if_true,
      StateT.run_bind, pure_run, ok_bind, hsize, hfree, Bool.false_eq_true, true_and,
      Bool.and_eq_true, decide_eq_true_eq]
    split_ifs <;> simp only [StateT.run_bind, pure_run]
  · have hsize := getSize_run hp s
    have hfree := getIsFree_run hp s
    have hno : ¬(size ≤ wadd (wadd (metadataAt s.mem own.prev).size own.size) sizeofMetadata ∧
        (metadataAt s.mem own.prev).isFree = true) := fun hjoin => hlower ⟨hp, hjoin⟩
    simp only [hp, hn, Joins, ne_eq, not_true_eq_false, not_false_eq_true, if_false, if_true,
      StateT.run_bind, pure_run, ok_bind, hsize, hfree, Bool.and_eq_true, decide_eq_true_eq,
      if_neg hno, false_and]
  · have hsize := getSize_run hn s
    have hfree := getIsFree_run hn s
    have hsize' := getSize_run hp s
    have hfree' := getIsFree_run hp s
    have hno : ¬(size ≤ wadd (wadd (metadataAt s.mem own.prev).size own.size) sizeofMetadata ∧
        (metadataAt s.mem own.prev).isFree = true) := fun hjoin => hlower ⟨hp, hjoin⟩
    simp only [hp, hn, Joins, JoinsBoth, ne_eq, not_false_eq_true, if_true, StateT.run_bind,
      pure_run, ok_bind, hsize', hfree', Bool.and_eq_true, decide_eq_true_eq, hno, if_false, hsize,
      hfree, true_and] at hboth ⊢
    split_ifs with h₁
    · simp only [StateT.run_bind, pure_run]
    · have hboth' := hboth h₁
      rw [← and_assoc] at hboth'
      simp only [StateT.run_bind, hsize, hsize', hfree, hfree', ok_bind, hboth', if_false, pure_run]

/-- The calls of `srealloc` that keep the mapped blocks and those from `sbrk` apart: no mapped block
is split or merged, no block is merged into the one before it, and a block that is given up for
another one has the size of a mapped one only if it is mapped. -/
structure Resizes (s : Heap) (h size : ℕ) : Prop where
  uncut : size ≤ (metadataAt s.mem h).size → (∃ r ∈ s.regions, r.addr = h) →
    (metadataAt s.mem h).size < size + 160
  lower : (metadataAt s.mem h).size < size →
    ¬Joins s.mem (metadataAt s.mem h).prev (metadataAt s.mem h).size size
  upper : (metadataAt s.mem h).size < size →
    Joins s.mem (metadataAt s.mem h).next (metadataAt s.mem h).size size →
      ¬∃ r ∈ s.regions, r.addr = h
  both : (metadataAt s.mem h).size < size →
    ¬Joins s.mem (metadataAt s.mem h).next (metadataAt s.mem h).size size →
      ¬JoinsBoth s.mem (metadataAt s.mem h).prev (metadataAt s.mem h).next
        (metadataAt s.mem h).size size
  copied : (metadataAt s.mem h).size < size →
    ¬Joins s.mem (metadataAt s.mem h).next (metadataAt s.mem h).size size →
      (metadataAt s.mem h).size < mmapAllocationLimit ∨ ∃ r ∈ s.regions, r.addr = h

instance (s : Heap) (h size : ℕ) : Decidable (Resizes s h size) :=
  decidable_of_iff (_ ∧ _ ∧ _ ∧ _ ∧ _)
    ⟨fun ⟨h₁, h₂, h₃, h₄, h₅⟩ => ⟨h₁, h₂, h₃, h₄, h₅⟩, fun h => ⟨h.1, h.2, h.3, h.4, h.5⟩⟩

/-- The block `p` takes the place of the one at `a`; the other blocks in use stay. -/
structure Resized (size : ℕ) (bs : List Block) (m : Option Block) (a : ℕ) (p : Block)
    (bs' : List Block) (m' : Option Block) (s' : Heap) : Prop where
  mixed : MixedHeap s' bs' m'
  inUse : p.isFree = false
  size_le : size ≤ p.size
  mem : ∀ c : Block, c.isFree = false →
    (c ∈ m'.toList ++ bs' ↔ c = p ∨ c ∈ m.toList ++ bs ∧ c.addr ≠ a)

namespace MixedHeap
variable {s s' : Heap} {bs bs' pre post : List Block} {m m' : Option Block} {b c d e : Block}
  {os : OsAnswer} {size q : ℕ}

theorem sized (h : MixedHeap s bs m) (hb : b ∈ m.toList ++ bs) (hu : b.isFree = false) :
    Sized s b := by
  obtain ⟨hpos, hlt⟩ := h.bounds hb
  obtain ⟨nxt, prv, hheader⟩ := h.header_of_mem hb hu
  exact ⟨hpos, by omega, by rw [hheader]⟩

/-- A block takes the place of another one in the list of `root`. -/
theorem resized_of_mem (h : MixedHeap s (pre ++ b :: post) m) (hmixed : MixedHeap s' bs' m)
    (he : e.isFree = false) (hsize : size ≤ e.size)
    (hmem : ∀ c : Block, c.isFree = false → (c ∈ bs' ↔ c = e ∨ c ∈ pre ∨ c ∈ post)) :
    Resized size (pre ++ b :: post) m b.addr e bs' m s' := by
  refine ⟨hmixed, he, hsize, fun c hc => ?_⟩
  rw [List.mem_append, hmem c hc, or_left_comm, h.mem_others]

/-- The statements behind the cut of case 1.a change nothing. -/
theorem takeInUse_run {h : ℕ} (h0 : h ≠ 0) (hu : (metadataAt s.mem h).isFree = false) : (do
    if (← getIsFree h) then setSize h size
    setIsFree h false
    return q : M ℕ).run s = .ok (q, s) := by
  simp only [StateT.run_bind, getIsFree_run h0, ok_bind, hu, Bool.false_eq_true, if_false,
    VirtualMemory.setIsFree_run h0, Bool.toNat_false, storeField_inUse s.mem hu, pure_run]

/-- The block that is cut off is free, so that a split adds no block in use. -/
theorem split_resized (h : MixedHeap s (pre ++ b :: post) m) (hu : d.isFree = false)
    (hmixed : MixedHeap s' (pre ++ { d with size := size } :: d.rest size :: bs') m)
    (hmem : ∀ c : Block, c.isFree = false → (c ∈ bs' ↔ c ∈ post)) :
    Resized size (pre ++ b :: post) m b.addr { d with size := size }
      (pre ++ { d with size := size } :: d.rest size :: bs') m s' := by
  refine h.resized_of_mem hmixed hu le_rfl fun c hc => ?_
  have hne : c ≠ d.rest size := by
    rintro rfl
    cases hc
  simp only [List.mem_append, List.mem_cons, hne, false_or, hmem c hc]
  rw [or_left_comm]

/-- The whole list stays. -/
theorem resized_self (h : MixedHeap s bs m) (hb : b ∈ m.toList ++ bs) (hu : b.isFree = false)
    (hle : size ≤ b.size) : Resized size bs m b.addr b bs m s := by
  refine ⟨h, hu, hle, fun c _ => ⟨fun hc => ?_, ?_⟩⟩
  · by_cases he : c.addr = b.addr
    · exact .inl (h.eq_of_addr hc hb he)
    · exact .inr ⟨hc, he⟩
  · rintro (rfl | hc)
    · exact hb
    · exact hc.1

theorem cut_iff (hb : b.size < 2 ^ 64) (hle : size ≤ b.size) :
    wadd 128 sizeofMetadata ≤ wsub b.size size ↔ size + 160 ≤ b.size := by
  rw [wsub_of_le hb hle]
  simp only [wadd, sizeofMetadata]
  omega

/-- Case 1.a. -/
theorem srealloc_inPlace (os : OsAnswer) (h : MixedHeap s bs m) (hb : b ∈ m.toList ++ bs)
    (hu : b.isFree = false) (h0 : 0 < size) (hmax : size ≤ maxAllocation) (hle : size ≤ b.size)
    (huncut : IsMapped s.regions b → b.size < size + 160) :
    ∃ p bs' s', (srealloc os (b.addr + 32) size).run s = .ok (p.addr + 32, s') ∧
      Resized size bs m b.addr p bs' m s' := by
  obtain ⟨hpos, hlt⟩ := h.bounds hb
  have hb0 : b.addr ≠ 0 := by omega
  have hiff := cut_iff (by omega : b.size < 2 ^ 64) hle
  rw [srealloc_run os (h.sized hb hu) h0 hmax, if_pos hle]
  by_cases hcut : size + 160 ≤ b.size
  · have hheap : ¬IsMapped s.regions b := fun hmap => by
      have := huncut hmap
      omega
    have hbs : b ∈ bs := by
      refine (List.mem_append.mp hb).resolve_left fun hm => hheap (h.mem_isMapped ?_)
      simpa using hm
    obtain ⟨pre, post, rfl⟩ := List.append_of_mem hbs
    obtain ⟨s₁, hrun₁, -, hmix₁⟩ := h.split_run size hheap (by omega)
    have hsplit : (if wadd 128 sizeofMetadata ≤ wsub b.size size then split b.addr size
        else pure () : M Unit).run s = .ok ((), s₁) := by rw [if_pos (hiff.mpr hcut), hrun₁]
    have hused : (metadataAt s₁.mem b.addr).isFree = false := by
      have hheader := hmix₁.chain.header
      simp only [hu] at hheader
      rw [hheader]
    refine ⟨{ b with size := size }, _, s₁, ?_, h.split_resized hu hmix₁ fun _ _ => Iff.rfl⟩
    rw [if_then_run _ hsplit, takeInUse_run hb0 hused]
  · obtain ⟨nxt, prv, hheader⟩ := h.header_of_mem hb hu
    have hnone : (if wadd 128 sizeofMetadata ≤ wsub b.size size then split b.addr size
        else pure () : M Unit).run s = .ok ((), s) := by
      rw [if_neg (mt hiff.mp hcut), pure_run]
    refine ⟨b, bs, s, ?_, h.resized_self hb hu hle⟩
    rw [if_then_run _ hnone, takeInUse_run hb0 (by rw [hheader])]

/-- Case 1.c, for a block from `sbrk`. -/
theorem srealloc_upper (h : MixedHeap s (pre ++ b :: c :: post) m) (hheap : ¬IsMapped s.regions b)
    (hu : b.isFree = false) (hfree : c.isFree) (h0 : 0 < size) (hmax : size ≤ maxAllocation)
    (hgt : b.size < size) (hle : size ≤ c.size + b.size + 32)
    (hmerge : (sreallocMerge b.addr size).run s = (do
      combine b.addr c.addr
      setIsFree b.addr false
      return b.addr : M ℕ).run s)
    (hrun : (srealloc os (b.addr + 32) size).run s = .ok (q, s')) :
    ∃ p bs', q = p.addr + 32 ∧ Resized size (pre ++ b :: c :: post) m b.addr p bs' m s' := by
  obtain ⟨hpos, hlt⟩ := h.bounds (b := b) (by simp)
  have hb0 : b.addr ≠ 0 := by omega
  obtain ⟨s₁, hrun₁, heq₁, -, hmix₁⟩ := h.combine_run hheap (h.heap_of_free (by simp) hfree)
  have hheap₁ : ¬IsMapped s₁.regions (b.merge c) := by
    rw [heq₁]
    exact (isMapped_congr rfl).not.mpr hheap
  obtain ⟨s₂, hrun₂, heq₂, hmix₂⟩ := hmix₁.setIsFree_run hheap₁ false
  obtain ⟨d, hd⟩ : ∃ d : Block, d = { b.merge c with isFree := false } := ⟨_, rfl⟩
  have haddr : d.addr = b.addr := by rw [hd]; rfl
  have hsize : d.size = b.size + 32 + c.size := by rw [hd]; rfl
  have hused : d.isFree = false := by rw [hd]
  rw [← hd] at hmix₂
  have hheap₂ : ¬IsMapped s₂.regions d := by
    rw [heq₂]
    exact (isMapped_congr (by rw [haddr]; rfl)).not.mpr hheap₁
  have hcount (e : Block) (he : e.isFree = false) : e ∈ post ↔ e ∈ c :: post := by
    have hne : e ≠ c := by
      rintro rfl
      rw [hfree] at he
      cases he
    simp [hne]
  obtain ⟨hdpos, hdlt⟩ := hmix₂.chain.bounds d (by simp)
  have hd0 : d.addr ≠ 0 := by omega
  have hiff := cut_iff (by omega : d.size < 2 ^ 64) (by omega : size ≤ d.size)
  have hdest : (sreallocMerge b.addr size).run s = .ok (d.addr, s₂) := by
    rw [show (b.merge c).addr = b.addr from rfl] at hrun₂
    rw [hmerge, StateT.run_bind, hrun₁, ok_bind, StateT.run_bind, hrun₂, ok_bind, pure_run, haddr]
  -- the old bytes are where they were, and no other block is given up
  have hdone {s₃ : Heap} (hcut : (if wadd 128 sizeofMetadata ≤ wsub d.size size then
      split d.addr size else pure () : M Unit).run s₂ = .ok ((), s₃)) :
      q = d.addr + 32 ∧ s' = s₃ := by
    rw [srealloc_run os (h.sized (by simp) hu) h0 hmax, if_neg (by omega), StateT.run_bind, hdest,
      ok_bind, if_pos hd0, StateT.run_bind, getSize_run hd0, ok_bind, hmix₂.chain.header,
      if_then_run _ hcut] at hrun
    obtain ⟨_, s₄, hmove, hrun⟩ := bind_run_ok hrun
    have hs₄ := moveBytes_run_ok hmove
    rw [payload_of_lt (by omega), haddr, Memory.memmove_self] at hs₄
    rw [haddr, if_neg (not_not.mpr rfl)] at hrun
    cases hrun
    exact ⟨by rw [payload_of_lt (by omega), haddr], hs₄⟩
  by_cases hlarge : size + 160 ≤ d.size
  · obtain ⟨s₃, hrun₃, -, hmix₃⟩ := hmix₂.split_run size hheap₂ (by omega)
    obtain ⟨rfl, rfl⟩ := hdone (by rw [if_pos (hiff.mpr hlarge), hrun₃])
    exact ⟨{ d with size := size }, _, rfl, h.split_resized hused hmix₃ hcount⟩
  · obtain ⟨rfl, rfl⟩ := hdone (by rw [if_neg (mt hiff.mp hlarge), pure_run])
    refine ⟨d, _, rfl, h.resized_of_mem hmix₂ hused (by omega) fun e he => ?_⟩
    rw [← hcount e he, List.mem_append, List.mem_cons, or_left_comm]

/-- The bytes are copied to another block and the old one is given up. -/
theorem srealloc_copy (h : MixedHeap s bs m) (hb : b ∈ m.toList ++ bs) (hu : b.isFree = false)
    (hpos : 0 < b.size) (h0 : 0 < size) (hmax : size ≤ maxAllocation) (hgt : b.size < size)
    (hsize : b.size < mmapAllocationLimit ∨ IsMapped s.regions b)
    (hmerge : (sreallocMerge b.addr size).run s = .ok (0, s))
    (hrun : (srealloc os (b.addr + 32) size).run s = .ok (q, s')) :
    ∃ p bs' m', q = p.addr + 32 ∧ Resized size bs m b.addr p bs' m' s' := by
  rw [srealloc_run os (h.sized hb hu) h0 hmax, if_neg (by omega), StateT.run_bind, hmerge,
    ok_bind] at hrun
  simp only [ne_eq, not_true_eq_false, if_false] at hrun
  obtain ⟨dest, s₁, hrun₁, hrun⟩ := bind_run_ok hrun
  obtain ⟨rfl, -⟩ | ⟨-, p, bs₁, m₁, rfl, hhanded⟩ := h.smalloc_ok hrun₁
  · -- the copy to null faults
    rw [if_neg (by decide : ¬0 = minusOne)] at hrun
    obtain ⟨_, s₂, hmove, -⟩ := bind_run_ok hrun
    rw [moveBytes, if_pos ⟨rfl, by omega⟩] at hmove
    cases hmove
  · have hp : p ∈ m₁.toList ++ bs₁ := (hhanded.mem p hhanded.inUse).mpr (.inl rfl)
    have hb₁ : b ∈ m₁.toList ++ bs₁ := (hhanded.mem b hu).mpr (.inr hb)
    obtain ⟨hp0, hplt⟩ := hhanded.mixed.bounds hp
    have hple := hhanded.size_le
    have hpb : p.addr ≠ b.addr := fun he => by
      have := hhanded.mixed.eq_of_addr hp hb₁ he
      subst this
      omega
    have hdest : ¬p.addr + 32 = minusOne := by
      simp only [minusOne]
      omega
    rw [if_neg hdest] at hrun
    obtain ⟨_, s₂, hmove, hrun⟩ := bind_run_ok hrun
    have hs₂ := moveBytes_run_ok hmove
    have hmix₂ : MixedHeap s₂ bs₁ m₁ := by
      refine hhanded.mixed.write_payload hp (by rw [hs₂]) fun x hx => ?_
      rw [hs₂]
      exact Memory.memmove_agree _ (k := 1) (by omega) x le_rfl (by omega)
    rw [header_of_lt (by omega), if_pos hpb.symm] at hrun
    obtain ⟨_, s₃, hfree, hrun⟩ := bind_run_ok hrun
    cases hrun
    have hmapped : b.size < mmapAllocationLimit ∨ IsMapped s₂.regions b := by
      refine hsize.imp_right ?_
      rintro ⟨r, hr, he⟩
      exact ⟨r, by rw [hs₂]; exact hhanded.regions r hr, he⟩
    have hkeep : KeepsEnd s₂ b.addr := by
      obtain ⟨nxt, prv, hheader⟩ := hmix₂.header_of_mem hb₁ hu
      rw [KeepsEnd, hheader]
      intro hlarge _ _ hhead
      rw [hs₂] at hhead
      exact absurd hhead (hhanded.large (le_trans hlarge hgt.le)).1
    obtain ⟨bs₃, m₃, hdropped⟩ := hmix₂.sfree_ok hb₁ hu hmapped hkeep hfree
    refine ⟨p, bs₃, m₃, rfl, hdropped.mixed, hhanded.inUse, hple, fun c hc => ?_⟩
    rw [hdropped.mem c hc, hhanded.mem c hc]
    constructor
    · rintro ⟨rfl | hc', hne⟩
      · exact .inl rfl
      · exact .inr ⟨hc', hne⟩
    · rintro (rfl | ⟨hc', hne⟩)
      · exact ⟨.inl rfl, hpb⟩
      · exact ⟨.inr hc', hne⟩

/-- A call of `srealloc` that meets `Resizes` and returns gives null without effect, or a block in
the place of the old one. -/
theorem srealloc_ok (h : MixedHeap s bs m) (hb : b ∈ m.toList ++ bs) (hu : b.isFree = false)
    (hpos : 0 < b.size) (hok : 0 < size → size ≤ maxAllocation → Resizes s b.addr size)
    (hrun : (srealloc os (b.addr + 32) size).run s = .ok (q, s')) :
    (q = 0 ∧ s' = s) ∨
    0 < size ∧ ∃ p bs' m', q = p.addr + 32 ∧ Resized size bs m b.addr p bs' m' s' := by
  by_cases hlegal : size = 0 ∨ maxAllocation < size
  · simp only [srealloc, if_pos hlegal, pure_run] at hrun
    cases hrun
    exact .inl ⟨rfl, rfl⟩
  rw [not_or, not_lt] at hlegal
  obtain ⟨h0, hmax⟩ : 0 < size ∧ size ≤ maxAllocation := ⟨by omega, hlegal.2⟩
  have hr := hok h0 hmax
  have hsize := (h.sized hb hu).size_eq
  have hb0 : b.addr ≠ 0 := (h.sized hb hu).pos.ne'
  by_cases hle : size ≤ b.size
  · have huncut (hmap : IsMapped s.regions b) : b.size < size + 160 := by
      rw [← hsize]
      exact hr.uncut (by omega) hmap
    obtain ⟨p, bs', s₁, hok, hres⟩ := h.srealloc_inPlace os hb hu h0 hmax hle huncut
    rw [hok] at hrun
    cases hrun
    exact .inr ⟨h0, p, bs', m, rfl, hres⟩
  · have hgt : (metadataAt s.mem b.addr).size < size := by omega
    have hmerge := sreallocMerge_behind hb0 (hr.lower hgt) (hr.both hgt)
    by_cases hjoin : Joins s.mem (metadataAt s.mem b.addr).next (metadataAt s.mem b.addr).size size
    · have hheap : ¬IsMapped s.regions b := hr.upper hgt hjoin
      have hbs : b ∈ bs := by
        refine (List.mem_append.mp hb).resolve_left fun hm => hheap (h.mem_isMapped ?_)
        simpa using hm
      obtain ⟨pre, post, rfl⟩ := List.append_of_mem hbs
      rw [if_pos hjoin] at hmerge
      rw [h.chain.header] at hmerge hjoin
      obtain ⟨hn, hroom, hfree⟩ := hjoin
      cases post with
      | nil => exact absurd rfl hn
      | cons c cs =>
        have hc : MixedHeap s ((pre ++ [b]) ++ c :: cs) m := by simpa using h
        rw [headAddr_cons, hc.chain.header] at hroom hfree
        have hadj := h.adjacent hheap (h.heap_of_free (by simp) hfree)
        have hcb := (h.chain.bounds c (by simp)).2
        dsimp only at hroom hfree
        rw [wadd_sizes (by omega)] at hroom
        obtain ⟨p, bs', hq, hres⟩ :=
          h.srealloc_upper hheap hu hfree h0 hmax (by omega) hroom hmerge hrun
        exact .inr ⟨h0, p, bs', m, hq, hres⟩
    · rw [if_neg hjoin] at hmerge
      have hgive := hr.copied hgt hjoin
      rw [hsize] at hgive
      exact .inr ⟨h0, h.srealloc_copy hb hu hpos h0 hmax (by omega) hgive hmerge hrun⟩

end MixedHeap
end FtfSystems.VirtualMemory.Malloc2

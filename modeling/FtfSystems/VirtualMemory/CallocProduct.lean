import FtfSystems.VirtualMemory.Malloc1.Contract
import FtfSystems.VirtualMemory.Malloc2.Backing

/-!
# What `scalloc` promises about its product

Both allocators multiply before they check: the request, the check of the size and the `memset`
all use the product modulo `2 ^ 64`. With the true product a block that is returned has room for
it, is zero that far, and nothing else has been written to but headers. This holds on any list of
blocks that lies in the memory of the process.
-/
namespace FtfSystems.VirtualMemory
open Foundation

/-- The blocks from an address on, by `next`. -/
inductive OnChain (m : Memory) : ℕ → ℕ → Prop
  | here {a : ℕ} (h : a ≠ 0) : OnChain m a a
  | later {a b : ℕ} (h : a ≠ 0) (ht : OnChain m (metadataAt m a).next b) : OnChain m a b

theorem OnChain.next {m : Memory} {a b : ℕ} (h : OnChain m a b) (h0 : (metadataAt m b).next ≠ 0) :
    OnChain m a (metadataAt m b).next := by
  induction h with
  | here ha => exact .later ha (.here h0)
  | later ha _ ih => exact .later ha (ih h0)

theorem FirstFit.onChain {m : Memory} {size a b : ℕ} (h : FirstFit m size a b) : OnChain m a b := by
  induction h with
  | here ha _ _ => exact .here ha
  | later ha _ _ ih => exact .later ha ih

/-- A header of a block that was there before, of the block returned, or of the rest behind it. -/
def IsHeader (old : ℕ → Prop) (m : Memory) (p a : ℕ) : Prop :=
  old a ∨ a = header p ∨ a = (metadataAt m (header p)).next

/-- The call has returned `p`: the product is a legal size, the block has that many bytes, they
are zero, and outside of the payload only headers have changed. -/
structure HonoursProduct (num size p : ℕ) (old : ℕ → Prop) (m m' : Memory) : Prop where
  legal : 1 ≤ num * size ∧ num * size ≤ 10 ^ 8
  room : num * size ≤ (metadataAt m' (header p)).size
  zero : ∀ i, i < num * size → m' (p + i) = 0
  others : ∀ x, m' x ≠ m x → (p ≤ x ∧ x < p + (metadataAt m' (header p)).size) ∨
    ∃ a, IsHeader old m' p a ∧ a ≤ x ∧ x < a + sizeofMetadata

/-- A request of `w` bytes has returned `p` and written headers only. -/
structure Given (w p : ℕ) (old : ℕ → Prop) (m m' : Memory) : Prop where
  start : header p + 32 = p
  room : w ≤ (metadataAt m' (header p)).size
  others : ∀ x, m' x ≠ m x → ∃ a, IsHeader old m' p a ∧ a ≤ x ∧ x < a + 32

/-- The check of the size decides about the product as it decides about its remainder: there is
no overflow, or the remainder is refused too. -/
def CheckSeesProduct (num size : ℕ) : Prop :=
  num * size < 2 ^ 64 ∨ num * size % 2 ^ 64 = 0 ∨ 10 ^ 8 < num * size % 2 ^ 64

theorem not_checkSeesProduct {num size : ℕ} (h : ¬CheckSeesProduct num size) :
    2 ^ 64 ≤ num * size ∧ num * size % 2 ^ 64 ≠ 0 ∧ num * size % 2 ^ 64 ≤ 100000000 := by
  simp only [CheckSeesProduct] at h
  omega

/-- A product whose remainder passes the check has not wrapped around. -/
theorem CheckSeesProduct.eq_of_legal {num size : ℕ} (h : CheckSeesProduct num size)
    (hlegal : 0 < num * size % 2 ^ 64 ∧ num * size % 2 ^ 64 ≤ 100000000) :
    num * size % 2 ^ 64 = num * size := by
  obtain h | h | h := h
  · exact Nat.mod_eq_of_lt h
  · omega
  · omega

theorem not_onChain_null {m : Memory} {a : ℕ} (h : OnChain m 0 a) : False := by
  cases h with
  | here h0 => exact h0 rfl
  | later h0 _ => exact h0 rfl

/-- On a list of blocks the headers are those of the list. -/
theorem OnChain.mem {m : Memory} {prv a : ℕ} {bs : List Block}
    (h : OnChain m (headAddr Block.addr 0 bs) a) (hl : Linked Block.addr (Block.At m) prv bs 0) :
    ∃ b ∈ bs, a = b.addr := by
  induction bs generalizing prv with
  | nil => exact (not_onChain_null h).elim
  | cons b bs ih =>
    have hat : metadataAt m b.addr = ⟨b.size, b.isFree, headAddr Block.addr 0 bs, prv⟩ := hl.1
    rw [headAddr_cons] at h
    cases h with
    | here _ => exact ⟨b, by simp, rfl⟩
    | later _ ht =>
      rw [hat] at ht
      obtain ⟨c, hc, rfl⟩ := ih ht hl.2
      exact ⟨c, by simp [hc], rfl⟩

section Chain
variable {m : Memory} {root last brk : ℕ} {bs : List Block}

theorem BlockList.onChain (h : BlockList m root last brk bs) {a : ℕ} (ha : OnChain m root a) :
    a + 32 + (metadataAt m a).size < 2 ^ 64 := by
  rw [h.root_eq] at ha
  obtain ⟨b, hb, rfl⟩ := ha.mem h.linked
  have hbounds := h.bounds hb
  obtain ⟨pre, post, rfl⟩ := List.append_of_mem hb
  rw [h.header]
  exact hbounds.2.2.2

theorem BlockList.last_bounds (h : BlockList m root last brk bs) (hlast : last ≠ 0) :
    headAddr Block.addr brk bs ≤ last ∧ last + 32 ≤ brk := by
  rw [h.last_eq] at hlast ⊢
  obtain ⟨-, hno⟩ | ⟨b, hb, heq⟩ := lastAddr_mem_or Block.addr 0 bs
  · exact absurd hno hlast
  · have hbounds := h.bounds hb
    rw [heq]
    omega

end Chain

section Given
variable {G : Type} {s s' : Process G} {os : OsAnswer} {old : ℕ → Prop} {m m' : Memory}
  {w p a last nxt prv : ℕ}

theorem Given.of_headersOnly {as : List ℕ} (ha : a + 32 < 2 ^ 64)
    (hroom : w ≤ (metadataAt m' a).size) (hmem : HeadersOnly as m m')
    (has : ∀ b ∈ as, IsHeader old m' (a + 32) b) : Given w (a + 32) old m m' where
  start := by rw [header_of_lt ha]
  room := by rwa [header_of_lt ha]
  others x hx := by
    obtain ⟨b, hb, hin⟩ := hmem.exists_of_ne hx
    exact ⟨b, has b hb, hin⟩

/-- The `memset` of `scalloc`, when the product has not wrapped around. -/
theorem Given.honours {num size : ℕ} (h : Given (num * size) p old m m')
    (hlegal : 1 ≤ num * size ∧ num * size ≤ 10 ^ 8) :
    HonoursProduct num size p old m (m'.memset p 0 (num * size)) := by
  have hkeep : metadataAt (m'.memset p 0 (num * size)) (header p) = metadataAt m' (header p) :=
    metadataAt_congr (Memory.memset_agree m' (.inl h.start.le))
  have hroom := h.room
  refine ⟨hlegal, by rwa [hkeep], fun i hi => ?_, fun x hx => ?_⟩
  · have hin : p ≤ p + i ∧ p + i < p + num * size := by omega
    simp only [Memory.memset, if_pos hin]
  · rw [hkeep]
    by_cases hin : p ≤ x ∧ x < p + num * size
    · exact .inl (by omega)
    · rw [Memory.memset, if_neg hin] at hx
      obtain ⟨a, ha, hax⟩ := h.others x hx
      refine .inr ⟨a, ?_, hax⟩
      rwa [IsHeader, hkeep]

theorem isHeader_self (ha : a + 32 < 2 ^ 64) : IsHeader old m' (a + 32) a :=
  .inr (.inl (header_of_lt ha).symm)

theorem newHeader_size (m : Memory) (hw : w < 2 ^ 64) :
    (metadataAt (newHeader m a w nxt prv) a).size = w := by
  simp only [newHeader, metadataAt_storeField, MallocMetadata.set]
  exact Nat.mod_eq_of_lt hw

/-- A new block. -/
theorem given_new (m : Memory) (hw : w < 2 ^ 64) (ha : a + 32 < 2 ^ 64) :
    Given w (a + 32) old m (newHeader m a w nxt prv) := by
  refine .of_headersOnly ha (newHeader_size m hw).ge
    (.newHeader m (List.mem_singleton.mpr rfl) _ _ _) ?_
  simpa using isHeader_self ha

/-- A new block that the last one is linked to. -/
theorem given_linked (m : Memory) (hw : w < 2 ^ 64) (ha : a + 32 < 2 ^ 64) (hold : old last)
    (hapart : last + 32 ≤ a ∨ a + 32 ≤ last) :
    Given w (a + 32) old m (storeField (newHeader m a w nxt prv) last .next a) := by
  have hmem : HeadersOnly [a, last] m (storeField (newHeader m a w nxt prv) last .next a) :=
    (HeadersOnly.newHeader m (by simp) _ _ _).trans (.storeField _ (by simp) _ _)
  refine .of_headersOnly ha ?_ hmem ?_
  · rw [metadataAt_storeField_of_apart _ _ _ hapart, newHeader_size m hw]
  · simp only [List.mem_cons, List.not_mem_nil, or_false, forall_eq_or_imp, forall_eq]
    exact ⟨isHeader_self ha, .inl hold⟩

/-- A block that is given another size. -/
theorem given_resized (m : Memory) (hw : w < 2 ^ 64) (ha : a + 32 < 2 ^ 64) :
    Given w (a + 32) old m (storeField (storeField m a .size w) a .isFree 0) := by
  have hmem : HeadersOnly [a] m (storeField (storeField m a .size w) a .isFree 0) :=
    (HeadersOnly.storeField m (by simp) _ _).trans (.storeField _ (by simp) _ _)
  refine .of_headersOnly ha ?_ hmem ?_
  · simp only [metadataAt_storeField, MallocMetadata.set]
    exact (Nat.mod_eq_of_lt hw).ge
  · simpa using isHeader_self ha

/-- A block that is taken as it is. -/
theorem given_taken (m : Memory) (hfit : w ≤ (metadataAt m a).size) (ha : a + 32 < 2 ^ 64) :
    Given w (a + 32) old m (storeField m a .isFree 0) := by
  refine .of_headersOnly ha ?_ (.storeField m (List.mem_singleton.mpr rfl) _ _) ?_
  · rw [metadataAt_storeField]
    exact hfit
  · simpa using isHeader_self ha

end Given

/-- Clear the first bytes at the pointer that is returned. -/
def zeroed {G : Type} (x : Alloc G ℕ) (n : ℕ) : Alloc G ℕ := do
  let p ← x
  if p = 0 then return 0
  else
    modify fun s => { s with mem := s.mem.memset p 0 n }
    return p

section Zeroed
variable {G : Type} {s s' : Process G} {x : Alloc G ℕ} {n p : ℕ}

theorem zeroed_run_ok (h : (zeroed x n).run s = .ok (p, s')) (hp : p ≠ 0) :
    ∃ s₁, x.run s = .ok (p, s₁) ∧ s'.mem = s₁.mem.memset p 0 n := by
  obtain ⟨q, s₁, hx, h⟩ := bind_run_ok h
  by_cases hq : q = 0
  · rw [if_pos hq] at h
    cases h
    exact absurd rfl hp
  · rw [if_neg hq] at h
    cases h
    exact ⟨s₁, hx, rfl⟩

theorem zeroed_of_run (h : x.run s = .ok (p, s')) (hp : p ≠ 0) :
    ∃ s'', (zeroed x n).run s = .ok (p, s'') := by
  rw [zeroed, StateT.run_bind, h, ok_bind, if_neg hp]
  exact ⟨_, rfl⟩

/-- A `scalloc` over a `smalloc` that gives the blocks asked for, and gives one at least once. -/
theorem honours_iff (smalloc : OsAnswer → ℕ → Alloc G ℕ) {inMemory : Process G → Prop}
    {old : Process G → ℕ → Prop}
    (hgiven : ∀ s os w p s', inMemory s → (smalloc os w).run s = .ok (p, s') → p ≠ 0 →
      (0 < w ∧ w ≤ 100000000) ∧ Given w p (old s) s.mem s'.mem)
    (hfirst : ∀ w, w ≠ 0 → w ≤ 100000000 →
      ∃ s os p s', inMemory s ∧ (smalloc os w).run s = .ok (p, s') ∧ p ≠ 0) (num size : ℕ) :
    (∀ s os p s', inMemory s →
      (zeroed (smalloc os (wmul num size)) (wmul num size)).run s = .ok (p, s') → p ≠ 0 →
      HonoursProduct num size p (old s) s.mem s'.mem) ↔ CheckSeesProduct num size := by
  constructor
  · intro h
    by_contra hno
    obtain ⟨hover, h0, hmax⟩ := not_checkSeesProduct hno
    obtain ⟨s, os, p, s₁, hs, hmalloc, hp⟩ := hfirst _ h0 hmax
    obtain ⟨s', hrun⟩ := zeroed_of_run hmalloc hp
    have hlegal := (h s os p s' hs hrun hp).legal
    omega
  · intro hseen s os p s' hs hrun hp
    obtain ⟨s₁, hmalloc, hmem⟩ := zeroed_run_ok hrun hp
    obtain ⟨hw, hblock⟩ := hgiven s os _ p s₁ hs hmalloc hp
    have hprod : wmul num size = num * size := hseen.eq_of_legal hw
    rw [hprod] at hblock hmem hw
    rw [hmem]
    exact hblock.honours hw

end Zeroed

namespace Malloc1
variable {s s' : Heap} {os : OsAnswer} {old : ℕ → Prop} {w p : ℕ}

/-- The blocks that the globals lead to lie in the memory of the process. -/
structure InMemory (s : Heap) : Prop where
  blocks : ∀ a, OnChain s.mem s.glob.root a → a + 32 + (metadataAt s.mem a).size < 2 ^ 64
  last : s.glob.end_ ≠ 0 → s.glob.end_ + 32 ≤ s.brk

/-- The headers of these blocks. -/
def OldHeader (s : Heap) (a : ℕ) : Prop := OnChain s.mem s.glob.root a ∨ a = s.glob.end_

theorem inMemory_of_represents {bs : List Block} (h : Represents s bs) : InMemory s :=
  ⟨fun _ ha => h.onChain ha, fun hend => (h.last_bounds hend).2⟩

/-- So it is in every state that a program can reach without an overflow. -/
theorem inMemory_of_reachable {t : Session Globals}
    (h : allocator.system.Reachable NoOverflow t) : InMemory t.heap := by
  obtain ⟨bs, hI⟩ := Holding.of_reachable h
  exact inMemory_of_represents hI.represents

theorem firstBlock_given (hw : w ≤ maxAllocation)
    (h : (firstBlock os w).run s = .ok (p, s')) (hp : p ≠ 0) : Given w p old s.mem s'.mem := by
  simp only [maxAllocation] at hw
  rw [firstBlock, wadd_sizeofMetadata (by omega : w + 32 < 2 ^ 64)] at h
  obtain ⟨target, htarget, h⟩ := orNull_sbrk_ok h hp
  obtain ⟨-, hlt, -⟩ := sbrkTarget_eq_some (by omega) htarget
  obtain ⟨_, _, hinit, h⟩ := bind_run_ok h
  obtain rfl := initMetadata_run_ok hinit
  cases h
  rw [payload_of_lt (by omega : s.brk + 32 < 2 ^ 64)]
  exact given_new s.mem (by omega) (by omega)

theorem appendBlock_given (hs : InMemory s) (hw : w ≤ maxAllocation)
    (h : (appendBlock os w).run s = .ok (p, s')) (hp : p ≠ 0) :
    Given w p (OldHeader s) s.mem s'.mem := by
  simp only [maxAllocation] at hw
  rw [appendBlock, wadd_sizeofMetadata (by omega : w + 32 < 2 ^ 64)] at h
  obtain ⟨target, htarget, h⟩ := orNull_sbrk_ok h hp
  obtain ⟨-, hlt, -⟩ := sbrkTarget_eq_some (by omega) htarget
  rw [StateT.run_bind, getEnd_run, ok_bind] at h
  obtain ⟨_, _, hinit, h⟩ := bind_run_ok h
  obtain rfl := initMetadata_run_ok hinit
  rw [StateT.run_bind, getEnd_run, ok_bind] at h
  obtain ⟨_, _, hnext, h⟩ := bind_run_ok h
  obtain ⟨hend, rfl⟩ := writeField_run_ok hnext
  cases h
  rw [payload_of_lt (by omega : s.brk + 32 < 2 ^ 64)]
  exact given_linked s.mem (by omega) (by omega) (.inr rfl) (.inl (hs.last hend))

/-- Whatever the list looks like: a pointer that `smalloc` returns is that of a block with room
for the request, and only headers have been written to. -/
theorem smalloc_given (hs : InMemory s) (h : (smalloc os w).run s = .ok (p, s')) (hp : p ≠ 0) :
    (0 < w ∧ w ≤ maxAllocation) ∧ Given w p (OldHeader s) s.mem s'.mem := by
  by_cases hlegal : w = 0 ∨ maxAllocation < w
  · simp only [smalloc, if_pos hlegal, pure_run] at h
    cases h
    exact absurd rfl hp
  have hw : w ≤ maxAllocation := by omega
  refine ⟨by omega, ?_⟩
  rw [smalloc, if_neg hlegal, StateT.run_bind, getRoot_run, ok_bind] at h
  by_cases hroot : s.glob.root = 0
  · rw [if_pos hroot] at h
    exact firstBlock_given hw h hp
  · rw [if_neg hroot, StateT.run_bind, getRoot_run, ok_bind] at h
    obtain ⟨tmp, s₁, hsearch, hrest⟩ := bind_run_ok h
    obtain ⟨rfl, hfound, -⟩ := searchFit_firstFit hsearch
    by_cases htmp : tmp = 0
    · rw [if_neg (fun hne => hne htmp)] at hrest
      exact appendBlock_given hs hw hrest hp
    · have hfit := hfound htmp
      have hblock := hs.blocks tmp hfit.onChain
      rw [if_pos htmp] at hrest
      simp only [StateT.run_bind, setIsFree_run htmp, ok_bind, pure_run] at hrest
      cases hrest
      rw [payload_of_lt (by omega : tmp + 32 < 2 ^ 64)]
      exact given_taken _ hfit.size_le (by omega)

/-- Every call with these arguments that returns a pointer honours the product. -/
def HonoursCalls (num size : ℕ) : Prop :=
  ∀ s os p s', InMemory s → (scalloc os num size).run s = .ok (p, s') → p ≠ 0 →
    HonoursProduct num size p (OldHeader s) s.mem s'.mem

/-- The first request is served when the kernel grants it. -/
theorem smalloc_first (h0 : w ≠ 0) (hw : w ≤ maxAllocation) :
    ∃ p s', (smalloc ⟨true, none⟩ w).run emptySession.heap = .ok (p, s') ∧ p ≠ 0 := by
  have hempty : Represents emptySession.heap [] := .empty (by decide) (by decide)
  obtain ⟨b, s', bs', hrun, -⟩ | ⟨hno, -⟩ := smalloc_cases ⟨true, none⟩ hempty h0 hw
  · exact ⟨_, s', hrun, by omega⟩
  · simp only [maxAllocation] at hw
    have hlt : emptySession.heap.brk + (w + 32) < 2 ^ 63 := by
      simp only [emptySession, Allocator.fresh]
      omega
    rw [sbrkTarget_of_noRegions ⟨true, none⟩ rfl rfl hlt] at hno
    cases hno

theorem emptySession_inMemory : InMemory emptySession.heap :=
  inMemory_of_reachable (.init emptySession_init)

theorem honoursCalls_iff (num size : ℕ) : HonoursCalls num size ↔ CheckSeesProduct num size := by
  have hcomm : wmul size num = wmul num size := by rw [wmul, wmul, Nat.mul_comm]
  have hiff := honours_iff smalloc (fun s os w p s' hs h hp => smalloc_given hs h hp) (fun w h0 hw => by
    obtain ⟨p, s', hrun, hp⟩ := smalloc_first h0 hw
    exact ⟨_, _, p, s', emptySession_inMemory, hrun, hp⟩) num size
  rw [← hcomm] at hiff
  exact hiff

end Malloc1

namespace Malloc2
variable {s s' : Heap} {os : OsAnswer} {old : ℕ → Prop} {m : Memory} {w p a n tmp : ℕ}

/-- The headers that the globals lead to. -/
def OldHeader (s : Heap) (a : ℕ) : Prop :=
  OnChain s.mem s.glob.root a ∨ OnChain s.mem s.glob.mmapHead a ∨ a = s.glob.end_ ∨
    a = s.glob.mmapEnd

/-- The bytes of a header lie in the heap or in a mapped region. -/
def Owned (s : Heap) (a : ℕ) : Prop :=
  s.heapStart ≤ a ∧ a + 32 ≤ s.brk ∨ ∃ r ∈ s.regions, r.addr ≤ a ∧ a + 32 ≤ r.addr + r.len

/-- The blocks that the globals lead to lie in the memory of the process. -/
structure InMemory (s : Heap) : Prop where
  blocks : ∀ a, OnChain s.mem s.glob.root a ∨ OnChain s.mem s.glob.mmapHead a →
    a + 32 + (metadataAt s.mem a).size < 2 ^ 64
  last : s.glob.end_ ≠ 0 → Owned s s.glob.end_ ∧ s.glob.end_ + 32 < 2 ^ 64
  lastMapped : s.glob.mmapEnd + 32 < 2 ^ 64

/-- So it is in every session whose blocks are known. -/
theorem Tracked.inMemory {t : Session Globals} {bs : List Block} {b : Option Block}
    (h : Tracked t bs b) (hend : b = none → t.heap.glob.mmapEnd = 0) : InMemory t.heap := by
  have hlist := h.heap.represents
  have hlast (h0 : t.heap.glob.end_ ≠ 0) :
      Owned t.heap t.heap.glob.end_ ∧ t.heap.glob.end_ + 32 < 2 ^ 64 := by
    have hbounds := hlist.last_bounds h0
    have hstart := h.start_le
    have hlt := hlist.brk_lt
    exact ⟨.inl ⟨by omega, by omega⟩, by omega⟩
  cases b with
  | none =>
    refine ⟨fun a ha => ha.elim hlist.onChain (fun ha => ?_), hlast, by simp [hend rfl]⟩
    rw [h.maps.1] at ha
    exact (not_onChain_null ha).elim
  | some b =>
    have hmap : Mapping t.heap b := h.maps
    have hlt := hmap.lt
    refine ⟨fun a ha => ha.elim hlist.onChain (fun ha => ?_), hlast, by rw [hmap.last]; omega⟩
    rw [hmap.head] at ha
    cases ha with
    | here _ =>
      rw [hmap.header]
      exact hlt
    | later _ ht =>
      rw [hmap.header] at ht
      exact (not_onChain_null ht).elim

/-- A block that is cut, with the rest behind it. -/
theorem given_split (m : Memory) (hw : w < 2 ^ 64) (ha : a + w + 32 < 2 ^ 64)
    (hn : n ≠ 0 → old n) :
    Given w (a + 32) old m (storeField (splitMemory m a w (a + w + 32) n) a .isFree 0) := by
  have hat : metadataAt (storeField (splitMemory m a w (a + w + 32) n) a .isFree 0) a =
      ((((metadataAt (linkBack (storeField (storeField (storeField (storeField m (a + w + 32) .size
        (wsub (wsub (metadataAt m a).size w) 32)) (a + w + 32) .isFree 1) (a + w + 32) .prev a)
        (a + w + 32) .next n) n (a + w + 32)) a).set .next (a + w + 32)).set .size w).set
        .isFree 0) := by
    simp only [splitMemory, metadataAt_storeField]
  have hmem : HeadersOnly (a :: (a + w + 32) :: if n = 0 then [] else [n]) m
      (storeField (splitMemory m a w (a + w + 32) n) a .isFree 0) := by
    refine (splitMemory_headersOnly _ m w (by simp) (by simp) (fun h0 => ?_)).trans
      (.storeField _ (by simp) _ _)
    simp [h0]
  refine .of_headersOnly (by omega) ?_ hmem (fun b hb => ?_)
  · rw [hat]
    simp only [MallocMetadata.set]
    exact (Nat.mod_eq_of_lt hw).ge
  · have hb' : b = a ∨ b = a + w + 32 ∨ (n ≠ 0 ∧ b = n) := by
      by_cases h0 : n = 0 <;> simpa [h0] using hb
    obtain rfl | rfl | ⟨h0, rfl⟩ := hb'
    · exact isHeader_self (by omega)
    · refine .inr (.inr ?_)
      rw [header_of_lt (by omega), hat]
      simp only [MallocMetadata.set]
      exact (Nat.mod_eq_of_lt (by omega)).symm
    · exact .inl (hn h0)

theorem reuse_given (hs : InMemory s) (hw : w ≤ maxAllocation) (h0 : tmp ≠ 0)
    (hchain : OnChain s.mem s.glob.root tmp ∨ OnChain s.mem s.glob.mmapHead tmp)
    (hfit : w ≤ (metadataAt s.mem tmp).size) (h : (reuse tmp w).run s = .ok (p, s')) :
    Given w p (OldHeader s) s.mem s'.mem := by
  simp only [maxAllocation] at hw
  have hblock := hs.blocks tmp hchain
  have hcut : wadd (wadd 128 sizeofMetadata) w = 160 + w := by
    rw [wadd_sizeofMetadata (by omega : 128 + 32 < 2 ^ 64), wadd_of_lt (by omega)]
  simp only [reuse, StateT.run_bind, getSize_run h0, ok_bind, hcut] at h
  by_cases hlarge : 160 + w ≤ (metadataAt s.mem tmp).size
  · have hq : wadd (wadd tmp w) 32 = tmp + w + 32 := by
      rw [wadd_of_lt (by omega : tmp + w < 2 ^ 64), wadd_of_lt (by omega)]
    simp only [if_pos hlarge, StateT.run_bind, split_run h0 hq (by omega) rfl, ok_bind,
      setIsFree_run h0, pure_run] at h
    cases h
    rw [payload_of_lt (by omega : tmp + 32 < 2 ^ 64)]
    refine given_split s.mem (by omega) (by omega) (fun hn => ?_)
    exact hchain.elim (fun h => .inl (h.next hn)) (fun h => .inr (.inl (h.next hn)))
  · simp only [if_neg hlarge, StateT.run_bind, setIsFree_run h0, ok_bind, pure_run] at h
    cases h
    rw [payload_of_lt (by omega : tmp + 32 < 2 ^ 64)]
    exact given_taken s.mem hfit (by omega)

theorem firstBlock_given (hw : w ≤ maxAllocation)
    (h : (firstBlock os w).run s = .ok (p, s')) (hp : p ≠ 0) : Given w p old s.mem s'.mem := by
  simp only [maxAllocation] at hw
  rw [firstBlock, wadd_sizeofMetadata (by omega : w + 32 < 2 ^ 64)] at h
  obtain ⟨target, htarget, h⟩ := orNull_sbrk_ok h hp
  obtain ⟨-, hlt, -⟩ := sbrkTarget_eq_some (by omega) htarget
  obtain ⟨_, _, hinit, h⟩ := bind_run_ok h
  obtain rfl := initMetadata_run_ok hinit
  cases h
  rw [payload_of_lt (by omega : s.brk + 32 < 2 ^ 64)]
  exact given_new s.mem (by omega) (by omega)

theorem firstMapped_given (hw : w ≤ maxAllocation)
    (h : (firstMapped os w).run s = .ok (p, s')) (hp : p ≠ 0) : Given w p old s.mem s'.mem := by
  simp only [maxAllocation] at hw
  rw [firstMapped, wadd_sizeofMetadata (by omega : w + 32 < 2 ^ 64)] at h
  obtain ⟨q, htarget, h⟩ := orNull_mmap_ok h hp
  obtain ⟨-, -, -, hlt, -⟩ := mmapTarget_eq_some htarget
  obtain ⟨_, _, hinit, h⟩ := bind_run_ok h
  obtain rfl := initMetadata_run_ok hinit
  cases h
  rw [payload_of_lt (by omega : q + 32 < 2 ^ 64)]
  exact given_new s.mem (by omega) (by omega)

theorem growEnd_given (hs : InMemory s) (hw : w ≤ maxAllocation) (hend : s.glob.end_ ≠ 0)
    (h : (growEnd os w).run s = .ok (p, s')) (hp : p ≠ 0) :
    Given w p (OldHeader s) s.mem s'.mem := by
  simp only [maxAllocation] at hw
  have hlt := (hs.last hend).2
  rw [growEnd, StateT.run_bind, getEnd_run, ok_bind, StateT.run_bind, getSize_run hend,
    ok_bind] at h
  obtain ⟨target, -, h⟩ := orNull_sbrk_ok h hp
  simp only [StateT.run_bind, getEnd_run, ok_bind, setSize_run hend, setIsFree_run hend,
    pure_run] at h
  cases h
  rw [payload_of_lt hlt]
  exact given_resized s.mem (by omega) hlt

theorem growMapped_given (hs : InMemory s) (hw : w ≤ maxAllocation) (hend : s.glob.mmapEnd ≠ 0)
    (h : (growMapped os w).run s = .ok (p, s')) (hp : p ≠ 0) :
    Given w p (OldHeader s) s.mem s'.mem := by
  simp only [maxAllocation] at hw
  have hlt := hs.lastMapped
  rw [growMapped, StateT.run_bind, getEnd_run, ok_bind] at h
  obtain ⟨n, s₀, hsize, hrest⟩ := bind_run_ok h
  obtain ⟨-, -, rfl⟩ := readField_run_ok hsize
  obtain ⟨q, -, hrest⟩ := orNull_mmap_ok hrest hp
  simp only [StateT.run_bind, getMmapEnd_run, ok_bind, setSize_run hend, setIsFree_run hend,
    pure_run] at hrest
  cases hrest
  rw [payload_of_lt hlt]
  exact given_resized s₀.mem (by omega) hlt

/-- The statements by which a new block is put behind `end`. -/
theorem linkEnd_given {s₁ : Heap} {q : ℕ}
    (h : (do initMetadata q w 0 (← getEnd); setNext (← getEnd) q; setEnd q
             return payload q : M ℕ).run s₁ = .ok (p, s'))
    (hmem : s₁.mem = s.mem) (hglob : s₁.glob = s.glob) (hw : w < 2 ^ 64) (hq : q + 32 < 2 ^ 64)
    (hapart : s.glob.end_ ≠ 0 → s.glob.end_ + 32 ≤ q ∨ q + 32 ≤ s.glob.end_) :
    Given w p (OldHeader s) s.mem s'.mem := by
  rw [StateT.run_bind, getEnd_run, ok_bind] at h
  obtain ⟨_, _, hinit, h⟩ := bind_run_ok h
  obtain rfl := initMetadata_run_ok hinit
  rw [StateT.run_bind, getEnd_run, ok_bind] at h
  obtain ⟨_, _, hnext, h⟩ := bind_run_ok h
  obtain ⟨hend, rfl⟩ := writeField_run_ok hnext
  cases h
  rw [hglob] at hend
  rw [payload_of_lt hq, ← hmem, hglob]
  exact given_linked s₁.mem hw hq (.inr (.inr (.inl rfl))) (hapart hend)

theorem appendBlock_given (hs : InMemory s) (hw : w ≤ maxAllocation)
    (h : (appendBlock os w).run s = .ok (p, s')) (hp : p ≠ 0) :
    Given w p (OldHeader s) s.mem s'.mem := by
  simp only [maxAllocation] at hw
  rw [appendBlock, wadd_sizeofMetadata (by omega : w + 32 < 2 ^ 64)] at h
  obtain ⟨target, htarget, h⟩ := orNull_sbrk_ok h hp
  obtain ⟨-, hlt, hregions⟩ := sbrkTarget_eq_some (by omega) htarget
  refine linkEnd_given h rfl rfl (by omega) (by omega) (fun hend => ?_)
  obtain ⟨-, hin⟩ | ⟨r, hr, hin⟩ := (hs.last hend).1
  · exact .inl hin
  · have := hregions r hr
    simp only [Region.Disjoint] at this
    omega

theorem appendMapped_given (hs : InMemory s) (hw : w ≤ maxAllocation)
    (h : (appendMapped os w).run s = .ok (p, s')) (hp : p ≠ 0) :
    Given w p (OldHeader s) s.mem s'.mem := by
  simp only [maxAllocation] at hw
  rw [appendMapped, wadd_sizeofMetadata (by omega : w + 32 < 2 ^ 64)] at h
  obtain ⟨q, htarget, h⟩ := orNull_mmap_ok h hp
  obtain ⟨-, -, -, hlt, hheap, hregions⟩ := mmapTarget_eq_some htarget
  refine linkEnd_given h rfl rfl (by omega) (by omega) (fun hend => ?_)
  obtain hin | ⟨r, hr, hin⟩ := (hs.last hend).1
  · omega
  · have := hregions r hr
    simp only [Region.Disjoint] at this
    omega

theorem smallocSbrk_given (hs : InMemory s) (hlegal : 0 < w ∧ w ≤ maxAllocation)
    (h : (smallocSbrk os w).run s = .ok (p, s')) (hp : p ≠ 0) :
    Given w p (OldHeader s) s.mem s'.mem := by
  rw [smallocSbrk, if_neg (by omega : ¬(w = 0 ∨ maxAllocation < w)), StateT.run_bind, getRoot_run,
    ok_bind] at h
  by_cases hroot : s.glob.root = 0
  · rw [if_pos hroot] at h
    exact firstBlock_given hlegal.2 h hp
  rw [if_neg hroot, StateT.run_bind, getRoot_run, ok_bind] at h
  obtain ⟨tmp, s₁, hsearch, hrest⟩ := bind_run_ok h
  obtain ⟨rfl, hfound, -⟩ := searchFit_firstFit hsearch
  by_cases htmp : tmp = 0
  · rw [if_neg (fun hne => hne htmp), StateT.run_bind, getEnd_run, ok_bind] at hrest
    obtain ⟨free, s₂, hfree, hrest⟩ := bind_run_ok hrest
    obtain ⟨hend, -, rfl⟩ := getIsFree_run_ok hfree
    cases free with
    | true => exact growEnd_given hs hlegal.2 hend hrest hp
    | false => exact appendBlock_given hs hlegal.2 hrest hp
  · have hfit := hfound htmp
    rw [if_pos htmp] at hrest
    exact reuse_given hs hlegal.2 htmp (.inl hfit.onChain) hfit.size_le hrest

theorem smallocMmap_given (hs : InMemory s) (hlegal : 0 < w ∧ w ≤ maxAllocation)
    (h : (smallocMmap os w).run s = .ok (p, s')) (hp : p ≠ 0) :
    Given w p (OldHeader s) s.mem s'.mem := by
  rw [smallocMmap, StateT.run_bind, getMmapHead_run, ok_bind] at h
  by_cases hhead : s.glob.mmapHead = 0
  · rw [if_pos hhead] at h
    exact firstMapped_given hlegal.2 h hp
  rw [if_neg hhead, StateT.run_bind, getMmapHead_run, ok_bind] at h
  obtain ⟨tmp, s₁, hsearch, hrest⟩ := bind_run_ok h
  obtain ⟨rfl, hfound, -⟩ := searchFit_firstFit hsearch
  by_cases htmp : tmp = 0
  · rw [if_neg (fun hne => hne htmp), StateT.run_bind, getMmapEnd_run, ok_bind] at hrest
    obtain ⟨free, s₂, hfree, hrest⟩ := bind_run_ok hrest
    obtain ⟨hend, -, rfl⟩ := getIsFree_run_ok hfree
    cases free with
    | true => exact growMapped_given hs hlegal.2 hend hrest hp
    | false => exact appendMapped_given hs hlegal.2 hrest hp
  · have hfit := hfound htmp
    rw [if_pos htmp] at hrest
    exact reuse_given hs hlegal.2 htmp (.inr hfit.onChain) hfit.size_le hrest

/-- The same of the second allocator. -/
theorem smalloc_given (hs : InMemory s) (h : (smalloc os w).run s = .ok (p, s')) (hp : p ≠ 0) :
    (0 < w ∧ w ≤ maxAllocation) ∧ Given w p (OldHeader s) s.mem s'.mem := by
  by_cases hlegal : w = 0 ∨ maxAllocation < w
  · simp only [smalloc, if_pos hlegal, pure_run] at h
    cases h
    exact absurd rfl hp
  have hw : 0 < w ∧ w ≤ maxAllocation := by omega
  refine ⟨hw, ?_⟩
  rw [smalloc, if_neg hlegal] at h
  by_cases hsmall : w < mmapAllocationLimit
  · rw [if_pos hsmall] at h
    exact smallocSbrk_given hs hw h hp
  · rw [if_neg hsmall] at h
    exact smallocMmap_given hs hw h hp

/-- Every call with these arguments that returns a pointer honours the product. -/
def HonoursCalls (num size : ℕ) : Prop :=
  ∀ s os p s', InMemory s → (scalloc os num size).run s = .ok (p, s') → p ≠ 0 →
    HonoursProduct num size p (OldHeader s) s.mem s'.mem

/-- The first request is served when the kernel grants it, by `sbrk` or by `mmap`. -/
theorem smalloc_first (h0 : w ≠ 0) (hw : w ≤ maxAllocation) : ∃ p s',
    (smalloc ⟨true, some 1048576⟩ w).run emptySession.heap = .ok (p, s') ∧ p ≠ 0 := by
  have hw' : w ≤ 100000000 := hw
  rw [smalloc, if_neg (by omega : ¬(w = 0 ∨ maxAllocation < w))]
  by_cases hsmall : w < mmapAllocationLimit
  · rw [if_pos hsmall]
    have hempty : Represents emptySession.heap [] := .empty (by decide) (by decide)
    obtain ⟨b, bs', s', hrun, -⟩ | ⟨n, hn, hno, -⟩ :=
      smallocSbrk_cases ⟨true, some 1048576⟩ hempty h0 hw
    · exact ⟨_, s', hrun, by omega⟩
    · cases hn
      have hlt : emptySession.heap.brk + (w + 32) < 2 ^ 63 := by
        simp only [emptySession, Allocator.fresh]
        omega
      rw [sbrkTarget_of_noRegions _ rfl rfl hlt] at hno
      cases hno
  · rw [if_neg hsmall]
    have hfresh : emptySession.heap.FreshRegion 1048576 (w + 32) := by
      simp only [Process.FreshRegion, emptySession, Allocator.fresh, pageSize]
      refine ⟨by omega, by omega, by decide, by omega, .inr (by omega), by simp⟩
    have htarget : emptySession.heap.mmapTarget ⟨true, some 1048576⟩ (w + 32) = some 1048576 := by
      simp [Process.mmapTarget, Option.filter, hfresh]
    obtain ⟨mem, hrun, -⟩ := smallocMmap_first rfl hw htarget
    exact ⟨_, _, hrun, by omega⟩

theorem emptySession_inMemory : InMemory emptySession.heap :=
  (Tracked.init (fun _ => 0) (by decide) (by decide)).inMemory fun _ => rfl

theorem honoursCalls_iff (num size : ℕ) : HonoursCalls num size ↔ CheckSeesProduct num size :=
  honours_iff smalloc (fun s os w p s' hs h hp => smalloc_given hs h hp) (fun w h0 hw => by
    obtain ⟨p, s', hrun, hp⟩ := smalloc_first h0 hw
    exact ⟨_, _, p, s', emptySession_inMemory, hrun, hp⟩) num size

end Malloc2

/-- The arguments for which `scalloc` honours the product, whatever the state of the allocator:
those whose product fits a `size_t`, and those whose remainder is no legal size either. -/
theorem scalloc_honours_iff (num size : ℕ) :
    (Malloc1.HonoursCalls num size ↔ CheckSeesProduct num size) ∧
      (Malloc2.HonoursCalls num size ↔ CheckSeesProduct num size) :=
  ⟨Malloc1.honoursCalls_iff num size, Malloc2.honoursCalls_iff num size⟩

/-- `scalloc(2 ^ 63 + 1, 2)` returns a block of two bytes. -/
theorem scalloc_returns_two_bytes :
    (∃ s', (Malloc1.scalloc ⟨true, none⟩ (2 ^ 63 + 1) 2).run Malloc1.emptySession.heap =
      .ok (4128, s') ∧ (metadataAt s'.mem 4096).size = 2) ∧ ¬Malloc1.HonoursCalls (2 ^ 63 + 1) 2 ∧
    (∃ s', (Malloc2.scalloc ⟨true, none⟩ (2 ^ 63 + 1) 2).run Malloc2.emptySession.heap =
      .ok (4128, s') ∧ (metadataAt s'.mem 4096).size = 2) ∧ ¬Malloc2.HonoursCalls (2 ^ 63 + 1) 2 := by
  have hno : ¬CheckSeesProduct (2 ^ 63 + 1) 2 := by simp [CheckSeesProduct]
  refine ⟨⟨_, rfl, by decide +kernel⟩, fun h => hno ((Malloc1.honoursCalls_iff _ _).mp h),
    ⟨_, rfl, by decide +kernel⟩, fun h => hno ((Malloc2.honoursCalls_iff _ _).mp h)⟩

end FtfSystems.VirtualMemory

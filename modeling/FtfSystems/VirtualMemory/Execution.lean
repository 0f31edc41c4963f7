import FtfSystems.VirtualMemory.BlockList
import FtfSystems.VirtualMemory.Process

/-!
# Running the allocator's statements

A member access through a non-null pointer is a read or a write of the header there; a
system call either has no effect but its record, or moves the break or adds a region.
Together with the search loop on a linked list these are all the steps from which the
functions of the two allocators are put together.
-/
namespace FtfSystems.VirtualMemory
open Foundation

variable {G : Type}

@[simp] theorem ok_bind {α β : Type} (a : α) (f : α → Except Fault β) :
    ((Except.ok a : Except Fault α) >>= f) = f a := rfl

@[simp] theorem pure_run {α : Type} (a : α) (s : Process G) :
    (pure a : Alloc G α).run s = .ok (a, s) := rfl

section Members
variable {p : ℕ} (hp : p ≠ 0) (s : Process G)
include hp

theorem readField_run (f : Field) : (readField p f).run s = .ok (loadField s.mem p f, s) := by
  simp only [readField, if_neg hp]
  rfl

theorem writeField_run (f : Field) (v : ℕ) :
    (writeField p f v).run s = .ok ((), { s with mem := storeField s.mem p f v }) := by
  simp only [writeField, if_neg hp]
  rfl

theorem getSize_run : (getSize p).run s = .ok ((metadataAt s.mem p).size, s) :=
  readField_run hp s _

theorem getIsFree_run : (getIsFree p).run s = .ok ((metadataAt s.mem p).isFree, s) := by
  rw [getIsFree, StateT.run_bind, readField_run hp]
  rfl

theorem getNext_run : (getNext p).run s = .ok ((metadataAt s.mem p).next, s) :=
  readField_run hp s _

theorem getPrev_run : (getPrev p).run s = .ok ((metadataAt s.mem p).prev, s) :=
  readField_run hp s _

theorem setSize_run (v : ℕ) :
    (setSize p v).run s = .ok ((), { s with mem := storeField s.mem p .size v }) :=
  writeField_run hp s _ _

theorem setIsFree_run (b : Bool) :
    (setIsFree p b).run s = .ok ((), { s with mem := storeField s.mem p .isFree b.toNat }) :=
  writeField_run hp s _ _

theorem setNext_run (v : ℕ) :
    (setNext p v).run s = .ok ((), { s with mem := storeField s.mem p .next v }) :=
  writeField_run hp s _ _

theorem setPrev_run (v : ℕ) :
    (setPrev p v).run s = .ok ((), { s with mem := storeField s.mem p .prev v }) :=
  writeField_run hp s _ _

theorem initMetadata_run (size next prev : ℕ) : (initMetadata p size next prev).run s =
    .ok ((), { s with mem := newHeader s.mem p size next prev }) := by
  simp only [initMetadata, StateT.run_bind, setSize_run hp, setIsFree_run hp, setNext_run hp,
    setPrev_run hp, ok_bind, Bool.toNat_false, newHeader]

end Members

theorem moveBytes_run {dst src n : ℕ} {s : Process G} (h : dst ≠ 0) (hsrc : s.Mapped src n)
    (hdst : s.Mapped dst n) :
    (moveBytes dst src n).run s = .ok ((), { s with mem := s.mem.memmove dst src n }) := by
  rw [moveBytes, if_neg (by omega : ¬(dst = 0 ∧ n ≠ 0))]
  simp only [StateT.run_bind, StateT.run_get, pure_bind, if_pos (And.intro hsrc hdst)]
  rfl

theorem moveBytes_unmapped {dst src n : ℕ} {s : Process G} (h : dst ≠ 0)
    (hsrc : ¬s.Mapped src n) : (moveBytes dst src n).run s = .error .segfault := by
  rw [moveBytes, if_neg (by omega : ¬(dst = 0 ∧ n ≠ 0))]
  simp only [StateT.run_bind, StateT.run_get, pure_bind,
    if_neg (fun hboth : s.Mapped src n ∧ s.Mapped dst n => hsrc hboth.1)]
  rfl

/-- A sequence that returns does so in two parts. -/
theorem bind_run_ok {α β : Type} {x : Alloc G α} {f : α → Alloc G β} {s s'' : Process G} {b : β}
    (h : (x >>= f).run s = .ok (b, s'')) :
    ∃ a s', x.run s = .ok (a, s') ∧ (f a).run s' = .ok (b, s'') := by
  rw [StateT.run_bind] at h
  cases hx : x.run s with
  | error e =>
    rw [hx] at h
    cases h
  | ok r => exact ⟨r.1, r.2, rfl, by rwa [hx] at h⟩

section Inversion
variable {s s' : Process G} {p : ℕ}

theorem writeField_run_ok {f : Field} {v : ℕ} {u : Unit}
    (h : (writeField p f v).run s = .ok (u, s')) :
    p ≠ 0 ∧ s' = { s with mem := storeField s.mem p f v } := by
  by_cases hp : p = 0
  · simp only [writeField, if_pos hp] at h
    cases h
  · rw [writeField_run hp] at h
    cases h
    exact ⟨hp, rfl⟩

theorem readField_run_ok {f : Field} {v : ℕ} (h : (readField p f).run s = .ok (v, s')) :
    p ≠ 0 ∧ v = loadField s.mem p f ∧ s' = s := by
  by_cases hp : p = 0
  · simp only [readField, if_pos hp] at h
    cases h
  · rw [readField_run hp] at h
    cases h
    exact ⟨hp, rfl, rfl⟩

theorem moveBytes_run_ok {dst src n : ℕ} {u : Unit}
    (h : (moveBytes dst src n).run s = .ok (u, s')) :
    s' = { s with mem := s.mem.memmove dst src n } := by
  unfold moveBytes at h
  split at h
  · cases h
  · simp only [StateT.run_bind, StateT.run_get, pure_bind] at h
    split at h
    · cases h
      rfl
    · cases h

theorem getIsFree_run_ok {b : Bool} (h : (getIsFree p).run s = .ok (b, s')) :
    p ≠ 0 ∧ b = (metadataAt s.mem p).isFree ∧ s' = s := by
  obtain ⟨v, s₁, hread, hrest⟩ := bind_run_ok h
  obtain ⟨hp, rfl, rfl⟩ := readField_run_ok hread
  cases hrest
  exact ⟨hp, rfl, rfl⟩

theorem initMetadata_run_ok {size nxt prv : ℕ} {u : Unit}
    (h : (initMetadata p size nxt prv).run s = .ok (u, s')) :
    s' = { s with mem := newHeader s.mem p size nxt prv } := by
  have hp : p ≠ 0 := by
    obtain ⟨_, s₁, h₁, -⟩ := bind_run_ok h
    exact (writeField_run_ok h₁).1
  rw [initMetadata_run hp] at h
  cases h
  rfl

end Inversion

/-- A computation that maps and unmaps nothing. -/
def KeepsRegions {α : Type} (x : Alloc G α) : Prop :=
  ∀ s a s', x.run s = .ok (a, s') → s'.regions = s.regions

namespace KeepsRegions
variable {α β : Type}

theorem bind {x : Alloc G α} {f : α → Alloc G β} (hx : KeepsRegions x)
    (hf : ∀ a, KeepsRegions (f a)) : KeepsRegions (x >>= f) := by
  intro s b s'' h
  obtain ⟨a, s', h₁, h₂⟩ := bind_run_ok h
  exact (hf a s' b s'' h₂).trans (hx s a s' h₁)

theorem pure (a : α) : KeepsRegions (Pure.pure a : Alloc G α) := by
  intro s b s' h
  cases h
  rfl

theorem ite {c : Prop} [Decidable c] {x y : Alloc G α} (hx : KeepsRegions x)
    (hy : KeepsRegions y) : KeepsRegions (if c then x else y) := by
  split
  · exact hx
  · exact hy

theorem readField (p : ℕ) (f : Field) : KeepsRegions (readField p f : Alloc G ℕ) := by
  intro s a s' h
  rw [(readField_run_ok h).2.2]

theorem writeField (p : ℕ) (f : Field) (v : ℕ) :
    KeepsRegions (writeField p f v : Alloc G Unit) := by
  intro s a s' h
  rw [(writeField_run_ok h).2]

theorem getSize (p : ℕ) : KeepsRegions (getSize p : Alloc G ℕ) := readField p .size

theorem getNext (p : ℕ) : KeepsRegions (getNext p : Alloc G ℕ) := readField p .next

theorem setSize (p v : ℕ) : KeepsRegions (setSize p v : Alloc G Unit) := writeField p .size v

theorem setIsFree (p : ℕ) (b : Bool) : KeepsRegions (setIsFree p b : Alloc G Unit) :=
  writeField p .isFree b.toNat

theorem setNext (p v : ℕ) : KeepsRegions (setNext p v : Alloc G Unit) := writeField p .next v

theorem setPrev (p v : ℕ) : KeepsRegions (setPrev p v : Alloc G Unit) := writeField p .prev v

end KeepsRegions

/-- What holds in every state in which `x` ends. -/
def Ends (P : Process G → Prop) {α : Type} (x : Alloc G α) : Prop :=
  ∀ s a s', x.run s = .ok (a, s') → P s'

namespace Ends
variable {P : Process G → Prop} {α β : Type}

theorem bind {x : Alloc G α} {f : α → Alloc G β} (h : ∀ a, Ends P (f a)) : Ends P (x >>= f) := by
  intro s b s'' hs
  obtain ⟨a, s', -, hs'⟩ := bind_run_ok hs
  exact h a s' b s'' hs'

theorem ite {c : Prop} [Decidable c] {x y : Alloc G α} (hx : Ends P x) (hy : Ends P y) :
    Ends P (if c then x else y) := by
  split
  · exact hx
  · exact hy

/-- A block that has been freed last is free. -/
theorem setIsFree {p : ℕ} (hp : p ≠ 0) :
    Ends (fun s => (metadataAt s.mem p).isFree = true)
      (VirtualMemory.setIsFree p true : Alloc G Unit) := by
  intro s a s' hs
  rw [setIsFree_run hp] at hs
  cases hs
  simp [metadataAt_storeField, MallocMetadata.set]

end Ends

theorem wadd_sizeofMetadata {n : ℕ} (h : n + 32 < 2 ^ 64) : wadd n sizeofMetadata = n + 32 :=
  wadd_of_lt h

theorem payload_of_lt {p : ℕ} (h : p + 32 < 2 ^ 64) : payload p = p + 32 := wadd_of_lt h

theorem header_of_lt {p : ℕ} (h : p + 32 < 2 ^ 64) : header (p + 32) = p := by
  rw [header, wsub_of_le h (by simp)]
  simp

section Kernel
variable {s : Process G} {os : OsAnswer}

theorem sbrk_run_some {n target : ℕ} (h : s.sbrkTarget os n = some target) :
    (sbrk os n).run s = .ok (some s.brk,
      { s with brk := target, calls := .sbrk n (some s.brk) :: s.calls }) := by
  simp only [sbrk, StateT.run_bind, StateT.run_get, pure_bind, h]
  rfl

theorem sbrk_run_none {n : ℕ} (h : s.sbrkTarget os n = none) :
    (sbrk os n).run s = .ok (none, { s with calls := .sbrk n none :: s.calls }) := by
  simp only [sbrk, StateT.run_bind, StateT.run_get, pure_bind, h]
  rfl

theorem mmap_run_some {n a : ℕ} (h : s.mmapTarget os n = some a) :
    (mmap os n).run s = .ok (some a,
      { s with regions := ⟨a, n⟩ :: s.regions, calls := .mmap n (some a) :: s.calls }) := by
  simp only [mmap, StateT.run_bind, StateT.run_get, pure_bind, h]
  rfl

theorem mmap_run_none {n : ℕ} (h : s.mmapTarget os n = none) :
    (mmap os n).run s = .ok (none, { s with calls := .mmap n none :: s.calls }) := by
  simp only [mmap, StateT.run_bind, StateT.run_get, pure_bind, h]
  rfl

/-- A granted positive increment extends the break contiguously. -/
theorem sbrkTarget_eq_some {n target : ℕ} (hn : n < 2 ^ 63)
    (h : s.sbrkTarget os n = some target) : target = s.brk + n ∧ s.brk + n < 2 ^ 64 ∧
      ∀ r ∈ s.regions, r.Disjoint s.brk n := by
  simp only [Process.sbrkTarget, if_pos hn, Option.ite_none_right_eq_some,
    Option.some.injEq] at h
  exact ⟨h.2.symm, h.1.2⟩

theorem mmapTarget_eq_some {n a : ℕ} (h : s.mmapTarget os n = some a) : s.FreshRegion a n := by
  simp only [Process.mmapTarget, Option.filter_eq_some_iff, decide_eq_true_eq] at h
  exact h.2

theorem sbrkTarget_of_noRegions {n : ℕ} (os : OsAnswer) (hok : os.sbrkOk = true)
    (hr : s.regions = []) (hlt : s.brk + n < 2 ^ 63) : s.sbrkTarget os n = some (s.brk + n) := by
  have hgrant : os.sbrkOk ∧ s.brk + n < 2 ^ 64 ∧ ∀ r ∈ s.regions, r.Disjoint s.brk n :=
    ⟨hok, by omega, by simp [hr]⟩
  simp only [Process.sbrkTarget, if_pos (by omega : n < 2 ^ 63), if_pos hgrant]

/-- Go on with the pointer that the kernel has returned, or return null. -/
def orNull (x : Alloc G (Option ℕ)) (f : ℕ → Alloc G ℕ) : Alloc G ℕ := do
  match ← x with
  | none => return 0
  | some q => f q

section OrNull
variable {s' : Process G} {f : ℕ → Alloc G ℕ} {n p : ℕ}

theorem orNull_sbrk_ok (h : (orNull (sbrk os n) f).run s = .ok (p, s')) (hp : p ≠ 0) :
    ∃ target, s.sbrkTarget os n = some target ∧ (f s.brk).run
      { s with brk := target, calls := .sbrk n (some s.brk) :: s.calls } = .ok (p, s') := by
  obtain ⟨r, s₁, hsbrk, h⟩ := bind_run_ok h
  cases ht : s.sbrkTarget os n with
  | none =>
    rw [sbrk_run_none ht] at hsbrk
    cases hsbrk
    cases h
    exact absurd rfl hp
  | some target =>
    rw [sbrk_run_some ht] at hsbrk
    cases hsbrk
    exact ⟨target, rfl, h⟩

theorem orNull_mmap_ok (h : (orNull (mmap os n) f).run s = .ok (p, s')) (hp : p ≠ 0) :
    ∃ q, s.mmapTarget os n = some q ∧ (f q).run
      { s with regions := ⟨q, n⟩ :: s.regions, calls := .mmap n (some q) :: s.calls } =
        .ok (p, s') := by
  obtain ⟨r, s₁, hmmap, h⟩ := bind_run_ok h
  cases ht : s.mmapTarget os n with
  | none =>
    rw [mmap_run_none ht] at hmmap
    cases hmmap
    cases h
    exact absurd rfl hp
  | some q =>
    rw [mmap_run_some ht] at hmmap
    cases hmmap
    exact ⟨q, rfl, h⟩

end OrNull

/-- Unmapping the whole of a region, rounded up to pages, leaves nothing of it. -/
theorem Region.cut_all {r : Region} {stop : ℕ} (hlen : 0 < r.len) (hstop : r.addr + r.len ≤ stop) :
    r.cut r.addr stop = [] := by
  simp only [Region.cut, if_neg (by omega : ¬(r.addr + r.len ≤ r.addr ∨ stop ≤ r.addr)),
    if_neg (by omega : ¬r.addr < r.addr), if_neg (by omega : ¬stop < r.addr + r.len),
    List.append_nil]

/-- Unmapping one region, rounded up to pages, keeps the regions that do not overlap it. -/
theorem Region.flatMap_cut {rs : List Region} {r : Region} (halign : r.addr % pageSize = 0)
    (hlen : 0 < r.len) (hrs : ∀ q ∈ rs, q = r ∨
      q.Disjoint r.addr r.len ∧ q.addr % pageSize = 0 ∧ 0 < q.len) :
    rs.flatMap (·.cut r.addr (r.addr + (r.len + pageSize - 1) / pageSize * pageSize)) =
      rs.filter (·.addr ≠ r.addr) := by
  induction rs with
  | nil => rfl
  | cons q qs ih =>
    have ih := ih fun q hq => hrs q (List.mem_cons_of_mem _ hq)
    rw [List.flatMap_cons, ih]
    simp only [pageSize] at *
    rcases hrs q List.mem_cons_self with rfl | ⟨hdis, hq, hqlen⟩
    · rw [Region.cut_all hlen (by omega)]
      simp
    · simp only [Region.Disjoint] at hdis
      have hne : q.addr ≠ r.addr := by omega
      rw [Region.cut, if_pos (by omega)]
      simp [hne]

end Kernel

/-- The block can serve a request of `size` bytes. -/
def Block.fits (size : ℕ) (b : Block) : Bool := decide (size ≤ b.size) && b.isFree

/-- The address of the first block that can serve the request, or null. -/
def firstFit (size : ℕ) (bs : List Block) :
    ℕ := ((bs.find? (Block.fits size)).map Block.addr).getD 0

/-- The search loop on a list that ends finds the first fit and changes nothing. -/
theorem searchFit_run {s : Process G} {prv : ℕ} {bs : List Block} (size : ℕ) {fuel : ℕ}
    (hl : Linked Block.addr (Block.At s.mem) prv bs 0) (hpos : ∀ b ∈ bs, b.addr ≠ 0)
    (hfuel : bs.length < fuel) : (searchFit size fuel (headAddr Block.addr 0 bs)).run s =
      .ok (firstFit size bs, s) := by
  induction bs generalizing prv fuel with
  | nil =>
    obtain ⟨n, rfl⟩ : ∃ n, fuel = n + 1 := ⟨fuel - 1, by simp at hfuel; omega⟩
    simp only [headAddr_nil, searchFit, if_pos, pure_run, firstFit, List.find?_nil,
      Option.map_none, Option.getD_none]
  | cons b bs ih =>
    obtain ⟨n, rfl⟩ : ∃ n, fuel = n + 1 := ⟨fuel - 1, by simp at hfuel; omega⟩
    have hb : b.addr ≠ 0 := hpos b (by simp)
    have hat : metadataAt s.mem b.addr = ⟨b.size, b.isFree, headAddr Block.addr 0 bs, prv⟩ := hl.1
    rw [headAddr_cons]
    simp only [searchFit, if_neg hb, StateT.run_bind, getSize_run hb, getIsFree_run hb, ok_bind,
      hat]
    by_cases hfit : Block.fits size b
    · have hcond : (decide (size ≤ b.size) && b.isFree) = true := hfit
      simp only [hcond, if_true, pure_run, firstFit, List.find?_cons_of_pos hfit,
        Option.map_some, Option.getD_some]
    · have hcond : ¬(decide (size ≤ b.size) && b.isFree) = true := hfit
      simp only [if_neg hcond, StateT.run_bind, getNext_run hb, ok_bind, hat, firstFit,
        List.find?_cons_of_neg hfit]
      exact ih hl.2 (fun c hc => hpos c (List.mem_cons_of_mem _ hc)) (by simpa using hfuel)

/-- The search in a chain. -/
theorem BlockChain.search_run {s : Process G} {root last : ℕ} {bs : List Block}
    (h : BlockChain s.mem root last bs) (size : ℕ) :
    (searchFit size listFuel root).run s = .ok (firstFit size bs, s) := by
  rw [h.root_eq]
  exact searchFit_run size h.linked (fun b hb => by have := h.bounds b hb; omega) h.length_lt

/-- The search in a heap. -/
theorem BlockList.search_run {s : Process G} {root last brk : ℕ} {bs : List Block}
    (h : BlockList s.mem root last brk bs) (size : ℕ) :
    (searchFit size listFuel root).run s = .ok (firstFit size bs, s) := h.chain.search_run size

/-- Following `next` from `a`, the first free block that holds `size` bytes is `b`. -/
inductive FirstFit (m : Memory) (size : ℕ) : ℕ → ℕ → Prop
  | here {a : ℕ} (ha : a ≠ 0) (hsize : size ≤ (metadataAt m a).size)
      (hfree : (metadataAt m a).isFree) : FirstFit m size a a
  | later {a b : ℕ} (ha : a ≠ 0) (hno : ¬(size ≤ (metadataAt m a).size ∧ (metadataAt m a).isFree))
      (h : FirstFit m size (metadataAt m a).next b) : FirstFit m size a b

theorem FirstFit.size_le {m : Memory} {size a b : ℕ} (h : FirstFit m size a b) :
    size ≤ (metadataAt m b).size := by
  induction h with
  | here _ hsize _ => exact hsize
  | later _ _ _ ih => exact ih

/-- What the search loop finds on any chain of headers, should it end. -/
theorem searchFit_firstFit {s s' : Process G} {size fuel a tmp : ℕ}
    (h : (searchFit size fuel a).run s = .ok (tmp, s')) :
    s' = s ∧ (tmp ≠ 0 → FirstFit s.mem size a tmp) ∧
      (tmp = 0 → ∀ b, ¬FirstFit s.mem size a b) := by
  induction fuel generalizing a with
  | zero => cases h
  | succ fuel ih =>
    by_cases ha : a = 0
    · simp only [searchFit, if_pos ha, pure_run] at h
      cases h
      refine ⟨rfl, fun h0 => absurd rfl h0, fun _ b hb => ?_⟩
      cases hb with
      | here ha' => exact ha' ha
      | later ha' => exact ha' ha
    · simp only [searchFit, if_neg ha, StateT.run_bind, getSize_run ha, getIsFree_run ha,
        ok_bind] at h
      by_cases hfit : size ≤ (metadataAt s.mem a).size ∧ (metadataAt s.mem a).isFree
      · have hcond : (decide (size ≤ (metadataAt s.mem a).size) && (metadataAt s.mem a).isFree) =
            true := by simpa using hfit
        simp only [hcond, if_true, pure_run] at h
        cases h
        exact ⟨rfl, fun _ => .here ha hfit.1 hfit.2, fun h0 => absurd h0 ha⟩
      · have hcond : ¬(decide (size ≤ (metadataAt s.mem a).size) && (metadataAt s.mem a).isFree) =
            true := by simpa using hfit
        simp only [if_neg hcond, StateT.run_bind, getNext_run ha, ok_bind] at h
        obtain ⟨hs, hsome, hnone⟩ := ih h
        refine ⟨hs, fun h0 => .later ha hfit (hsome h0), fun h0 b hb => ?_⟩
        cases hb with
        | here _ hsize hfree => exact hfit ⟨hsize, hfree⟩
        | later _ _ hb => exact hnone h0 b hb

/-- The statistics loop on a list that ends adds up the values at its blocks. -/
theorem sumList_run {s : Process G} {prv : ℕ} {bs : List Block} (term : ℕ → Alloc G ℕ)
    (value : Block → ℕ) {fuel : ℕ} (total : ℕ) (hl : Linked Block.addr (Block.At s.mem) prv bs 0)
    (hpos : ∀ b ∈ bs, b.addr ≠ 0) (hterm : ∀ b ∈ bs, (term b.addr).run s = .ok (value b, s))
    (hfuel : bs.length < fuel) (hlt : total + (bs.map value).sum < 2 ^ 64) :
    (sumList term fuel (headAddr Block.addr 0 bs) total).run s =
      .ok (total + (bs.map value).sum, s) := by
  induction bs generalizing prv fuel total with
  | nil =>
    obtain ⟨n, rfl⟩ : ∃ n, fuel = n + 1 := ⟨fuel - 1, by simp at hfuel; omega⟩
    simp only [headAddr_nil, sumList, if_pos, pure_run, List.map_nil, List.sum_nil, Nat.add_zero]
  | cons b bs ih =>
    obtain ⟨n, rfl⟩ : ∃ n, fuel = n + 1 := ⟨fuel - 1, by simp at hfuel; omega⟩
    have hb : b.addr ≠ 0 := hpos b (by simp)
    have hat : metadataAt s.mem b.addr = ⟨b.size, b.isFree, headAddr Block.addr 0 bs, prv⟩ := hl.1
    rw [List.map_cons, List.sum_cons, ← Nat.add_assoc] at hlt ⊢
    rw [headAddr_cons]
    simp only [sumList, if_neg hb, StateT.run_bind, hterm b (by simp), ok_bind, getNext_run hb, hat,
      wadd_of_lt (by omega : total + value b < 2 ^ 64)]
    exact ih _ hl.2 (fun c hc => hpos c (by simp [hc])) (fun c hc => hterm c (by simp [hc]))
      (by simpa using hfuel) hlt

end FtfSystems.VirtualMemory

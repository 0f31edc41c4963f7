import FtfSystems.VirtualMemory.Malloc2.Free

/-!
# The contract of the `sbrk` heap

A well-formed heap is a list of blocks in memory without two free neighbours. Allocation
and freeing keep it, whatever the kernel answers, and leave every other block in use
alone. Freeing a set of blocks has one outcome for all orders, the list in which each
maximal run of blocks that are free or in the set is one free block.
-/
namespace FtfSystems.VirtualMemory.Malloc2
open Foundation

/-- `root` and `end` hold the doubly linked list of the blocks `bs`, which tile the heap up
to the break, and no two neighbours are free. -/
structure WellFormed (s : Heap) (bs : List Block) : Prop where
  represents : Represents s bs
  separated : Separated Block.isFree bs

/-- The block is in the list afterwards and its payload has not changed. -/
def Kept (s s' : Heap) (bs' : List Block) (c : Block) : Prop :=
  c ∈ bs' ∧ s.mem.AgreeOn s'.mem (c.addr + 32) c.size

section Contract
variable {s : Heap} {bs : List Block}

theorem smallocSbrk_illegal (os : OsAnswer) {size : ℕ} (h : size = 0 ∨ maxAllocation < size) :
    (smallocSbrk os size).run s = .ok (0, s) := by
  simp only [smallocSbrk, if_pos h, pure_run]

theorem smallocSbrk_contract (h : WellFormed s bs) (os : OsAnswer) (size : ℕ) :
    ∃ ret s' bs', (smallocSbrk os size).run s = .ok (ret, s') ∧ WellFormed s' bs' ∧
      (ret = 0 ↔ size = 0 ∨ maxAllocation < size ∨
        ∃ n, neededSbrk size bs = some n ∧ s.sbrkTarget os n = none) ∧
      (ret = 0 → s' = { s with calls := s'.calls }) ∧
      ∀ c ∈ bs, c.isFree = false → Kept s s' bs' c := by
  have hkept (s' : Heap) (hm : s'.mem = s.mem) : ∀ c ∈ bs, c.isFree = false → Kept s s' bs c :=
    fun c hc _ => ⟨hc, fun x _ _ => by rw [hm]⟩
  by_cases hlegal : size = 0 ∨ maxAllocation < size
  · refine ⟨0, s, bs, smallocSbrk_illegal os hlegal, h, ?_, fun _ => rfl, hkept s rfl⟩
    tauto
  rw [not_or, not_lt] at hlegal
  obtain ⟨p, bs', s', hrun, hserved⟩ | ⟨n, hneed, hfail, hrun⟩ :=
    smallocSbrk_cases os h.represents hlegal.1 hlegal.2
  · have hne : p.addr + 32 ≠ 0 := by omega
    refine ⟨_, s', bs', hrun, ⟨hserved.represents, hserved.step.separated h.separated⟩, ?_,
      fun h0 => absurd h0 hne,
      fun c hc hu => ⟨hserved.step.keeps hc hu, hserved.frame.payload c hc hu⟩⟩
    refine ⟨fun h0 => absurd h0 hne, ?_⟩
    rintro (h0 | hbig | ⟨n, hneed, hfail⟩)
    · exact absurd h0 hlegal.1
    · omega
    · simp [hserved.granted n hneed] at hfail
  · refine ⟨0, _, bs, hrun, ⟨h.represents, h.separated⟩, ?_, fun _ => rfl, hkept _ rfl⟩
    exact ⟨fun _ => .inr (.inr ⟨n, hneed, hfail⟩), fun _ => rfl⟩

theorem sfree_contract (h : WellFormed s bs) {b : Block} (hb : b ∈ bs) (hused : b.isFree = false)
    (hsize : b.size < mmapAllocationLimit) :
    ∃ s', (sfree (b.addr + 32)).run s = .ok ((), s') ∧ WellFormed s' (release b.addr bs) ∧
      ∀ c ∈ bs, c ≠ b → c.isFree = false → Kept s s' (release b.addr bs) c := by
  obtain ⟨s', hrun, hrel⟩ := sfree_released h.represents h.separated hb hused hsize
  refine ⟨s', hrun, ⟨hrel.represents, release_separated _ _⟩, fun c hc hne hu => ?_⟩
  have haddr : c.addr ≠ b.addr := fun he => hne (h.represents.eq_of_addr hc hb he)
  exact ⟨(mem_release_inUse hu).mpr ⟨hc, haddr⟩, hrel.frame.payload c hc hu⟩

/-- A well-formed heap stays well formed under `smallocSbrk`, for every request and answer
of the kernel, and under `sfree` of a block in use below the limit. Null is returned for an
illegal size or a refused `sbrk` only, and then nothing has changed. -/
theorem sbrk_heap_invariant (h : WellFormed s bs) :
    (∀ (os : OsAnswer) (size : ℕ), ∃ ret s' bs',
      (smallocSbrk os size).run s = .ok (ret, s') ∧ WellFormed s' bs' ∧
      (ret = 0 ↔ size = 0 ∨ maxAllocation < size ∨
        ∃ n, neededSbrk size bs = some n ∧ s.sbrkTarget os n = none) ∧
      (ret = 0 → s' = { s with calls := s'.calls }) ∧
      ∀ c ∈ bs, c.isFree = false → Kept s s' bs' c) ∧
    (∀ b ∈ bs, b.isFree = false → b.size < mmapAllocationLimit → ∃ s' bs',
      (sfree (b.addr + 32)).run s = .ok ((), s') ∧ WellFormed s' bs' ∧
      ∀ c ∈ bs, c ≠ b → c.isFree = false → Kept s s' bs' c) := by
  refine ⟨smallocSbrk_contract h, fun b hb hused hsize => ?_⟩
  obtain ⟨s', hrun, hwf, hkept⟩ := sfree_contract h hb hused hsize
  exact ⟨s', _, hrun, hwf, hkept⟩

end Contract

/-- A heap with two blocks of 64 bytes, both in use. -/
def twoBlocks : Heap where
  glob := ⟨4096, 4192, 0, 0⟩
  mem := storeField (storeField (storeField (storeField (fun _ => 0) 4096 .size 64)
    4096 .next 4192) 4192 .size 64) 4192 .prev 4096
  heapStart := 4096
  brk := 4288
  regions := []
  calls := []

theorem twoBlocks_wellFormed :
    WellFormed twoBlocks [⟨4096, 64, false⟩, ⟨4192, 64, false⟩] where
  represents :=
    { root_eq := rfl
      last_eq := rfl
      linked := ⟨by rw [Block.At]; decide +kernel, by rw [Block.At]; decide +kernel, trivial⟩
      tiles := ⟨rfl, rfl, rfl⟩
      pos := by decide
      brk_lt := by decide }
  separated := separated_cons (List.IsChain.singleton _) rfl

theorem sbrk_heap_invariant_twoBlocks :
    (∃ ret s' bs', (smallocSbrk ⟨true, none⟩ 16).run twoBlocks = .ok (ret, s') ∧ ret ≠ 0 ∧
      WellFormed s' bs' ∧ Kept twoBlocks s' bs' ⟨4096, 64, false⟩) ∧
    ∃ s' bs', (sfree 4128).run twoBlocks = .ok ((), s') ∧ WellFormed s' bs' ∧
      Kept twoBlocks s' bs' ⟨4192, 64, false⟩ := by
  obtain ⟨hmalloc, hfree⟩ := sbrk_heap_invariant twoBlocks_wellFormed
  constructor
  · obtain ⟨ret, s', bs', hrun, hwf, hnull, -, hkept⟩ := hmalloc ⟨true, none⟩ 16
    refine ⟨ret, s', bs', hrun, fun h0 => ?_, hwf, hkept _ (by simp) rfl⟩
    rcases hnull.mp h0 with h | h | ⟨n, hn, hno⟩
    · simp at h
    · simp [maxAllocation] at h
    · obtain rfl : 48 = n := by simpa [neededSbrk, Block.fits] using hn
      revert hno
      decide
  · obtain ⟨s', bs', hrun, hwf, hkept⟩ := hfree ⟨4096, 64, false⟩ (by simp) rfl (by decide)
    exact ⟨s', bs', hrun, hwf, hkept _ (by simp) (by decide) rfl⟩

/-- `sfree` on the payloads of these blocks, one after the other. -/
def sfreeEach : List Block → M Unit
  | [] => pure ()
  | b :: bs => do
    sfree (b.addr + 32)
    sfreeEach bs

section Order
variable {bs : List Block}

/-- The blocks at these addresses are free, the others are as they were. -/
def freeAll (as : List ℕ) (b : Block) : Block := if b.addr ∈ as then b.freed else b

theorem freeAt_free (a : ℕ) {b : Block} (h : b.isFree) : freeAt a b = b := by
  unfold freeAt Block.freed
  split
  · rw [← h]
  · rfl

theorem freeAt_freeAll (a : ℕ) (as : List ℕ) (b : Block) :
    freeAt a (freeAll as b) = freeAll (a :: as) b := by
  have haddr : (freeAll as b).addr = b.addr := by
    unfold freeAll
    split <;> rfl
  rw [freeAt, haddr]
  unfold freeAll
  by_cases ha : b.addr ∈ as <;> by_cases he : b.addr = a <;> simp_all [Block.freed]

/-- Freeing one more block of a set that has been coalesced. -/
theorem release_coalesce (a : ℕ) (as : List ℕ) :
    release a (coalesce Block.isFree Block.merge (bs.map (freeAll as))) =
      coalesce Block.isFree Block.merge (bs.map (freeAll (a :: as))) := by
  rw [release, coalesce_map_coalesce Block.mergeLaws (fun b hb => freeAt_free a hb), List.map_map]
  congr 1
  exact List.map_congr_left (fun b _ => freeAt_freeAll a as b)

theorem mem_freeAll {as : List ℕ} {b : Block} (hb : b ∈ bs) (hused : b.isFree = false)
    (hn : b.addr ∉ as) : b ∈ coalesce Block.isFree Block.merge (bs.map (freeAll as)) := by
  rw [mem_coalesce_of_not_marked Block.mergeLaws hused, List.mem_map]
  exact ⟨b, hb, if_neg hn⟩

/-- A run of frees after those at the addresses `done`. -/
theorem sfreeEach_run {order : List Block} (done : List ℕ) {s : Heap}
    (h : WellFormed s (coalesce Block.isFree Block.merge (bs.map (freeAll done))))
    (hmem : ∀ b ∈ order, b ∈ bs ∧ b.isFree = false ∧ b.size < mmapAllocationLimit)
    (hnodup : (order.map Block.addr).Nodup) (hdone : ∀ b ∈ order, b.addr ∉ done) :
    ∃ s', (sfreeEach order).run s = .ok ((), s') ∧
      WellFormed s' (coalesce Block.isFree Block.merge
        (bs.map (freeAll ((order.map Block.addr).reverse ++ done)))) := by
  induction order generalizing done s with
  | nil => exact ⟨s, rfl, h⟩
  | cons b order ih =>
    obtain ⟨hb, hused, hsize⟩ := hmem b (by simp)
    rw [List.map_cons, List.nodup_cons] at hnodup
    obtain ⟨s₁, hrun₁, hwf₁, -⟩ :=
      sfree_contract h (mem_freeAll hb hused (hdone b (by simp))) hused hsize
    rw [release_coalesce] at hwf₁
    obtain ⟨s', hrun', hwf'⟩ := ih _ hwf₁ (fun c hc => hmem c (by simp [hc])) hnodup.2 (fun c hc => by
      rw [List.mem_cons, not_or]
      exact ⟨fun he => hnodup.1 (he ▸ List.mem_map_of_mem hc), hdone c (by simp [hc])⟩)
    refine ⟨s', ?_, by simpa using hwf'⟩
    rw [sfreeEach, StateT.run_bind, hrun₁, ok_bind, hrun']

/-- Whatever the order in which the blocks of a set are freed, the outcome is the list in
which every maximal run of blocks that are free or in the set is one free block. -/
theorem sfree_order_irrelevant {s : Heap} (h : WellFormed s bs) (S : Finset Block)
    (hS : ∀ b ∈ S, b ∈ bs ∧ b.isFree = false ∧ b.size < mmapAllocationLimit)
    (order : List Block) (hnodup : order.Nodup) (horder : ∀ b, b ∈ order ↔ b ∈ S) :
    ∃ s' bs', (sfreeEach order).run s = .ok ((), s') ∧
      bs' = mergeRuns Block.isFree Block.merge (bs.map fun b => if b ∈ S then b.freed else b) ∧
      WellFormed s' bs' ∧ s'.glob.root = headAddr Block.addr 0 bs' ∧
      s'.glob.end_ = lastAddr Block.addr 0 bs' := by
  have hmem : ∀ b ∈ order, b ∈ bs ∧ b.isFree = false ∧ b.size < mmapAllocationLimit :=
    fun b hb => hS b ((horder b).mp hb)
  have hinit : coalesce Block.isFree Block.merge (bs.map (freeAll [])) = bs := by
    have hid : bs.map (freeAll []) = bs :=
      (List.map_congr_left (fun b _ => by simp [freeAll])).trans (List.map_id bs)
    rw [hid, coalesce_of_separated h.separated]
  have hinj : (order.map Block.addr).Nodup := hnodup.map_on (fun b hb c hc he =>
    h.represents.eq_of_addr (hmem b hb).1 (hmem c hc).1 he)
  obtain ⟨s', hrun, hwf⟩ := sfreeEach_run (s := s) [] (by rwa [hinit]) hmem hinj (by simp)
  -- an address stands for the one block of the list that has it
  have hfreed : bs.map (freeAll ((order.map Block.addr).reverse ++ [])) =
      bs.map (fun b => if b ∈ S then b.freed else b) := by
    refine List.map_congr_left (fun b hb => ?_)
    have hiff : b.addr ∈ (order.map Block.addr).reverse ++ [] ↔ b ∈ S := by
      rw [List.append_nil, List.mem_reverse, List.mem_map, ← horder]
      constructor
      · rintro ⟨c, hc, he⟩
        exact h.represents.eq_of_addr (hmem c hc).1 hb he ▸ hc
      · exact fun hb => ⟨b, hb, rfl⟩
    simp only [freeAll, hiff]
  rw [hfreed, coalesce_eq_mergeRuns Block.mergeLaws] at hwf
  exact ⟨s', _, hrun, rfl, hwf, hwf.represents.root_eq, hwf.represents.last_eq⟩

theorem sfree_order_irrelevant_twoBlocks :
    ∃ s', (sfreeEach [⟨4192, 64, false⟩, ⟨4096, 64, false⟩]).run twoBlocks = .ok ((), s') ∧
      WellFormed s' [⟨4096, 160, true⟩] := by
  obtain ⟨s', bs', hrun, rfl, hwf, -⟩ := sfree_order_irrelevant twoBlocks_wellFormed
    {⟨4096, 64, false⟩, ⟨4192, 64, false⟩} (by simp [mmapAllocationLimit])
    [⟨4192, 64, false⟩, ⟨4096, 64, false⟩] (by simp) (by simp [or_comm])
  refine ⟨s', hrun, ?_⟩
  have hlist : mergeRuns Block.isFree Block.merge
      (([⟨4096, 64, false⟩, ⟨4192, 64, false⟩] : List Block).map fun b =>
        if b ∈ ({⟨4096, 64, false⟩, ⟨4192, 64, false⟩} : Finset Block) then b.freed else b) =
      [⟨4096, 160, true⟩] := by decide +kernel
  rwa [hlist] at hwf

end Order
end FtfSystems.VirtualMemory.Malloc2

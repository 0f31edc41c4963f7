import FtfSystems.VirtualMemory.Malloc2.HeapContract

/-!
# Where a request is placed

`smallocSbrk` takes the lowest free block that is large enough and wastes less than a header and
128 bytes of it. It moves the break only when no block is large enough, and then by no more than
what is missing.
-/
namespace FtfSystems.VirtualMemory.Malloc2
open Foundation

/-- The block `p` of the new list `bs'` is made of `b`, the lowest block that fits. What is cut
off is one free block right behind `p`. -/
structure TakenFrom (size : ℕ) (bs : List Block) (b p : Block) (bs' : List Block) : Prop where
  fits : b.fits size
  lowest : ∀ c ∈ bs, c.fits size → b.addr ≤ c.addr
  addr : p.addr = b.addr
  size_le : size ≤ p.size
  size_lt : p.size < size + 128 + sizeofMetadata
  others : ∃ pre post, bs = pre ++ b :: post ∧
    (bs' = pre ++ p :: post ∧ p.size = b.size ∨
      ∃ r, bs' = pre ++ p :: r :: post ∧ r.isFree ∧ 128 ≤ r.size ∧
        r.addr = p.addr + sizeofMetadata + p.size ∧ p.size + sizeofMetadata + r.size = b.size)

section Placement
variable {s : Heap} {size brk brk' : ℕ} {bs bs' pre post : List Block} {b p : Block}

/-- The first block that fits is the lowest one. -/
theorem lowest_of_first (h : Represents s (pre ++ b :: post)) (hpre : ∀ c ∈ pre, ¬c.fits size) :
    ∀ c ∈ pre ++ b :: post, c.fits size → b.addr ≤ c.addr := by
  intro c hc hfit
  rcases List.mem_append.mp hc with hc | hc
  · exact absurd hfit (hpre c hc)
  · rcases List.mem_cons.mp hc with rfl | hc
    · exact le_rfl
    · have hafter := h.after hc
      omega

theorem AllocStep.takenFrom (h : AllocStep size bs brk p bs' brk') (hrep : Represents s bs)
    (hfit : ∃ c ∈ bs, c.fits size) : brk' = brk ∧ ∃ b, TakenFrom size bs b p bs' := by
  obtain ⟨c, hc, hcfit⟩ := hfit
  have hle := h.size_le
  cases h with
  | @reuse pre post b _ hpre hb hsmall =>
    exact ⟨rfl, b, hb, lowest_of_first hrep hpre, rfl, hle, hsmall, pre, post, rfl,
      .inl ⟨rfl, rfl⟩⟩
  | @split pre post b _ hpre hb hlarge =>
    refine ⟨rfl, b, hb, lowest_of_first hrep hpre, rfl, hle, by simp only; omega, pre, post, rfl,
      .inr ⟨b.rest size, rfl, rfl, ?_, rfl, ?_⟩⟩
    · simp only [Block.rest]
      omega
    · simp only [Block.rest, sizeofMetadata]
      omega
  | grow hno => exact absurd hcfit (hno c hc)
  | append hno => exact absurd hcfit (hno c hc)

/-- Nothing fits and the last block is free. -/
theorem AllocStep.grown (h : AllocStep size bs brk p bs' brk') (hno : ∀ c ∈ bs, ¬c.fits size)
    (hlast : bs.getLast? = some b) (hfree : b.isFree) :
    b.size < size ∧ brk' = brk + (size - b.size) ∧ bs'.length = bs.length := by
  cases h with
  | @reuse _ _ c _ _ hfit | @split _ _ c _ _ hfit => exact absurd hfit (hno c (by simp))
  | @grow pre c _ hno hc =>
    obtain rfl : c = b := by simpa using hlast
    have hc' := hno c (by simp)
    simp only [Block.fits, hc, Bool.and_true, decide_eq_true_eq, not_le] at hc'
    exact ⟨hc', rfl, by simp⟩
  | append _ hused =>
    have hb := hused b (by simp [hlast])
    simp [hfree] at hb

/-- Nothing fits and the last block, if there is one, is in use. -/
theorem AllocStep.appended (h : AllocStep size bs brk p bs' brk') (hno : ∀ c ∈ bs, ¬c.fits size)
    (hlast : ∀ b ∈ bs.getLast?, b.isFree = false) :
    brk' = brk + size + sizeofMetadata ∧ bs' = bs ++ [p] ∧ p = ⟨brk, size, false⟩ := by
  cases h with
  | @reuse _ _ c _ _ hfit | @split _ _ c _ _ hfit => exact absurd hfit (hno c (by simp))
  | @grow pre c _ _ hc =>
    have hused := hlast c (by simp)
    simp [hc] at hused
  | append => exact ⟨rfl, rfl, rfl⟩

/-- Every legal request on a heap, when `sbrk` is granted if it is needed: where the block lies,
how large it is and how far the break moves. -/
theorem smallocSbrk_placement (h : Represents s bs) (os : OsAnswer) (h0 : 0 < size)
    (hmax : size ≤ maxAllocation)
    (hos : ∀ n, neededSbrk size bs = some n → s.sbrkTarget os n ≠ none) :
    ∃ p s' bs', (smallocSbrk os size).run s = .ok (p.addr + sizeofMetadata, s') ∧
      Represents s' bs' ∧ p ∈ bs' ∧ p.isFree = false ∧
      ((∃ c ∈ bs, c.fits size) → s'.brk = s.brk ∧ ∃ b, TakenFrom size bs b p bs') ∧
      ((∀ c ∈ bs, ¬c.fits size) → ∀ b, bs.getLast? = some b → b.isFree →
        b.size < size ∧ s'.brk = s.brk + (size - b.size) ∧ bs'.length = bs.length) ∧
      ((∀ c ∈ bs, ¬c.fits size) → (∀ b ∈ bs.getLast?, b.isFree = false) →
        s'.brk = s.brk + size + sizeofMetadata ∧ bs' = bs ++ [p]) := by
  obtain ⟨p, bs', s', hrun, hserved⟩ | ⟨n, hneed, hfail, -⟩ :=
    smallocSbrk_cases os h (by omega) hmax
  · have hstep := hserved.step
    refine ⟨p, s', bs', hrun, hserved.represents, hstep.mem, hstep.inUse,
      hstep.takenFrom h, fun hno b hlast hfree => hstep.grown hno hlast hfree,
      fun hno hlast => ?_⟩
    obtain ⟨hbrk, hlist, -⟩ := hstep.appended hno hlast
    exact ⟨hbrk, hlist⟩
  · exact absurd hfail (hos n hneed)

end Placement

/-- A block of 512 bytes, free, in front of one of 64 bytes in use. -/
def freeInFront : Heap where
  glob := ⟨4096, 4640, 0, 0⟩
  mem := storeField (storeField (storeField (storeField (storeField (fun _ => 0) 4096 .size 512)
    4096 .isFree 1) 4096 .next 4640) 4640 .size 64) 4640 .prev 4096
  heapStart := 4096
  brk := 4736
  regions := []
  calls := []

theorem freeInFront_wellFormed :
    WellFormed freeInFront [⟨4096, 512, true⟩, ⟨4640, 64, false⟩] where
  represents :=
    { root_eq := rfl
      last_eq := rfl
      linked := ⟨by rw [Block.At]; decide +kernel, by rw [Block.At]; decide +kernel, trivial⟩
      tiles := ⟨rfl, rfl, rfl⟩
      pos := by decide
      brk_lt := by decide }
  separated := separated_cons_cons.mpr ⟨by simp, List.IsChain.singleton _⟩

/-- 100 bytes are cut off the free block. -/
theorem smallocSbrk_placement_freeInFront : ∃ p s' bs',
    (smallocSbrk ⟨true, none⟩ 100).run freeInFront = .ok (p.addr + sizeofMetadata, s') ∧
      s'.brk = 4736 ∧
      ∃ b, TakenFrom 100 [⟨4096, 512, true⟩, ⟨4640, 64, false⟩] b p bs' := by
  obtain ⟨p, s', bs', hrun, -, -, -, hfit, -⟩ := smallocSbrk_placement
    freeInFront_wellFormed.represents ⟨true, none⟩ (by decide : 0 < 100) (by decide)
    (fun n hn => by simp [neededSbrk, Block.fits] at hn)
  obtain ⟨hbrk, b, htaken⟩ := hfit ⟨⟨4096, 512, true⟩, by simp, by simp [Block.fits]⟩
  exact ⟨p, s', bs', hrun, hbrk, b, htaken⟩

end FtfSystems.VirtualMemory.Malloc2

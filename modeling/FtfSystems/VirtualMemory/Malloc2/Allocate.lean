import FtfSystems.VirtualMemory.Malloc2.Blocks

/-!
# Allocation on the `sbrk` heap

`AllocStep` is the abstract account of an allocation: which block of the list serves the
request and what the list and the break are afterwards. `smallocSbrk_cases` shows that
`smallocSbrk` takes such a step, or reports that the kernel refused to move the break and
leaves the heap alone. What allocation preserves is then read off `AllocStep`.
-/
namespace FtfSystems.VirtualMemory.Malloc2
open Foundation

/-- A request of `size` bytes is served by the block `p` of the new list. -/
inductive AllocStep (size : ℕ) : List Block → ℕ → Block → List Block → ℕ → Prop
  /-- The first fit is taken whole: what would be left cannot hold a header and 128 bytes. -/
  | reuse {pre post : List Block} {b : Block} {brk : ℕ} (hpre : ∀ c ∈ pre, ¬c.fits size)
      (hfit : b.fits size) (hsmall : b.size < size + 160) :
      AllocStep size (pre ++ b :: post) brk { b with isFree := false }
        (pre ++ { b with isFree := false } :: post) brk
  /-- The first fit is cut to the requested size. -/
  | split {pre post : List Block} {b : Block} {brk : ℕ} (hpre : ∀ c ∈ pre, ¬c.fits size)
      (hfit : b.fits size) (hlarge : size + 160 ≤ b.size) :
      AllocStep size (pre ++ b :: post) brk ⟨b.addr, size, false⟩
        (pre ++ ⟨b.addr, size, false⟩ :: b.rest size :: post) brk
  /-- Nothing fits, but the topmost block is free: it is enlarged. -/
  | grow {pre : List Block} {b : Block} {brk : ℕ} (hno : ∀ c ∈ pre ++ [b], ¬c.fits size)
      (hfree : b.isFree) :
      AllocStep size (pre ++ [b]) brk ⟨b.addr, size, false⟩ (pre ++ [⟨b.addr, size, false⟩])
        (brk + (size - b.size))
  /-- Nothing fits and the topmost block is in use: a block is added at the break. -/
  | append {bs : List Block} {brk : ℕ} (hno : ∀ c ∈ bs, ¬c.fits size)
      (hlast : ∀ b ∈ bs.getLast?, b.isFree = false) :
      AllocStep size bs brk ⟨brk, size, false⟩ (bs ++ [⟨brk, size, false⟩]) (brk + (size + 32))

/-- The increment an allocation asks `sbrk` for, if it has to. -/
def neededSbrk (size : ℕ) (bs : List Block) : Option ℕ :=
  if bs.any (Block.fits size) then none
  else match bs.getLast? with
    | some b => if b.isFree then some (size - b.size) else some (size + 32)
    | none => some (size + 32)

/-- The state outside of the `sbrk` list is the same. -/
structure SameMaps (s s' : Heap) : Prop where
  heapStart : s'.heapStart = s.heapStart
  regions : s'.regions = s.regions
  mmapHead : s'.glob.mmapHead = s.glob.mmapHead
  mmapEnd : s'.glob.mmapEnd = s.glob.mmapEnd

theorem SameMaps.trans {s s' s'' : Heap} (h : SameMaps s s') (h' : SameMaps s' s'') :
    SameMaps s s'' :=
  ⟨h'.heapStart.trans h.heapStart, h'.regions.trans h.regions, h'.mmapHead.trans h.mmapHead,
    h'.mmapEnd.trans h.mmapEnd⟩

theorem SameMaps.of_eq {s s' : Heap}
    (h : s' = { s with mem := s'.mem, glob.end_ := s'.glob.end_ }) : SameMaps s s' := by
  rw [h]
  exact ⟨rfl, rfl, rfl, rfl⟩

namespace AllocStep
variable {size brk brk' : ℕ} {bs bs' : List Block} {p : Block}

theorem mem (h : AllocStep size bs brk p bs' brk') : p ∈ bs' := by
  cases h <;> simp

theorem inUse (h : AllocStep size bs brk p bs' brk') : p.isFree = false := by
  cases h <;> rfl

theorem size_le (h : AllocStep size bs brk p bs' brk') : size ≤ p.size := by
  cases h with
  | reuse _ hfit _ =>
    simp only [Block.fits, Bool.and_eq_true, decide_eq_true_eq] at hfit
    exact hfit.1
  | split => exact le_rfl
  | grow => exact le_rfl
  | append => exact le_rfl

/-- The first address of the heap stays; an empty heap starts at its break. -/
theorem headAddr_eq (h : AllocStep size bs brk p bs' brk') :
    headAddr Block.addr brk' bs' = headAddr Block.addr brk bs := by
  cases h <;> simp

/-- Every block in use stays in the list. -/
theorem keeps (h : AllocStep size bs brk p bs' brk') {c : Block} (hc : c ∈ bs)
    (hu : c.isFree = false) : c ∈ bs' := by
  cases h with
  | reuse _ hfit _ | split _ hfit _ =>
    simp only [Block.fits, Bool.and_eq_true] at hfit
    simp only [List.mem_append, List.mem_cons] at hc ⊢
    rcases hc with hc | rfl | hc
    · exact .inl hc
    · exact absurd hfit.2 (by simp [hu])
    · simp [hc]
  | grow _ hfree =>
    simp only [List.mem_append, List.mem_singleton] at hc ⊢
    rcases hc with hc | rfl
    · exact .inl hc
    · exact absurd hfree (by simp [hu])
  | append => exact List.mem_append_left _ hc

/-- The only block in use that an allocation adds is the one it hands out. -/
theorem inUse_of_mem (h : AllocStep size bs brk p bs' brk') {c : Block} (hc : c ∈ bs')
    (hu : c.isFree = false) : c = p ∨ c ∈ bs := by
  cases h with
  | reuse =>
    simp only [List.mem_append, List.mem_cons] at hc ⊢
    tauto
  | split =>
    simp only [List.mem_append, List.mem_cons] at hc ⊢
    rcases hc with hc | hc | rfl | hc
    · tauto
    · tauto
    · simp [Block.rest] at hu
    · tauto
  | grow =>
    simp only [List.mem_append, List.mem_singleton] at hc ⊢
    tauto
  | append =>
    simp only [List.mem_append, List.mem_singleton] at hc ⊢
    tauto

/-- The block handed out is none that was in use. -/
theorem fresh {s : Heap} (h : AllocStep size bs s.brk p bs' brk') (hrep : Represents s bs)
    {c : Block} (hc : c ∈ bs) (hu : c.isFree = false) : c.addr ≠ p.addr := by
  intro he
  cases h with
  | @reuse _ _ b _ _ hfit _ | @split _ _ b _ _ hfit _ =>
    simp only [Block.fits, Bool.and_eq_true] at hfit
    rw [hrep.eq_of_addr hc (by simp : b ∈ _ ++ b :: _) he] at hu
    simp [hfit.2] at hu
  | @grow _ b _ _ hfree =>
    rw [hrep.eq_of_addr hc (by simp : b ∈ _ ++ [b]) he] at hu
    simp [hfree] at hu
  | append =>
    have hb := hrep.bounds hc
    simp only at he
    omega

/-- Allocation never leaves two neighbouring free blocks. -/
theorem separated (h : AllocStep size bs brk p bs' brk') (hs : Separated Block.isFree bs) :
    Separated Block.isFree bs' := by
  cases h with
  | reuse =>
    obtain ⟨hl, hr⟩ := separated_append_cons.mp hs
    exact separated_append_cons.mpr
      ⟨separated_concat (List.IsChain.left_of_append hl) rfl, separated_cons hr.tail rfl⟩
  | @split pre post b _ _ hfit _ =>
    obtain ⟨hl, hr⟩ := separated_append_cons.mp hs
    refine separated_append_cons.mpr
      ⟨separated_concat (List.IsChain.left_of_append hl) rfl, separated_cons ?_ rfl⟩
    -- the rest takes the place of a free block, so its neighbour is in use
    cases post with
    | nil => exact List.IsChain.singleton _
    | cons c cs =>
      simp only [Block.fits, Bool.and_eq_true] at hfit
      rw [separated_cons_cons] at hr ⊢
      exact ⟨fun hc => hr.1 ⟨hfit.2, hc.2⟩, hr.2⟩
  | grow => exact separated_concat (List.IsChain.left_of_append hs) rfl
  | append => exact separated_concat hs rfl

end AllocStep

/-- Bytes outside of the heap and the payloads of the blocks in use are the same. -/
structure HeapFrame (s : Heap) (bs : List Block) (s' : Heap) : Prop where
  payload : ∀ c ∈ bs, c.isFree = false → s.mem.AgreeOn s'.mem (c.addr + 32) c.size
  outside : ∀ x, x < headAddr Block.addr s.brk bs ∨ s'.brk ≤ x → s'.mem x = s.mem x

/-- Header writes at blocks of the list, inside free blocks and behind the old break. -/
theorem HeapFrame.of_headersOnly {s s' : Heap} {bs : List Block} {as : List ℕ}
    (h : Represents s bs) (hm : HeadersOnly as s.mem s'.mem) (hbrk : s.brk ≤ s'.brk)
    (has : ∀ a ∈ as, (∃ b ∈ bs, a = b.addr) ∨
      (∃ b ∈ bs, b.isFree ∧ b.addr ≤ a ∧ a + 32 ≤ b.addr + 32 + b.size) ∨
      (s.brk ≤ a ∧ a + 32 ≤ s'.brk)) : HeapFrame s bs s' := by
  constructor
  · intro c hc hu
    have hcb := h.bounds hc
    refine hm.agree (fun a ha => ?_)
    rcases has a ha with ⟨b, hb, rfl⟩ | ⟨b, hb, hf, hlo, hhi⟩ | hnew
    · by_cases hbc : b = c
      · subst hbc
        omega
      · have := h.apart hb hc hbc
        omega
    · have hbc : b ≠ c := by
        rintro rfl
        simp [hu] at hf
      have := h.apart hb hc hbc
      omega
    · omega
  · intro x hx
    refine hm x (fun a ha => ?_)
    rcases has a ha with ⟨b, hb, rfl⟩ | ⟨b, hb, hf, hlo, hhi⟩ | hnew
    · have := h.bounds hb
      omega
    · have := h.bounds hb
      omega
    · have hle := h.tiles.le
      omega

/-- One more `sbrk` in the record. -/
theorem sbrk_calls (calls : List Syscall) (n : ℕ) (r : Option ℕ) :
    ∀ c ∈ Syscall.sbrk n r :: calls, c ∈ calls ∨ ∃ n r, c = .sbrk n r := by
  intro c hc
  rcases List.mem_cons.mp hc with rfl | hc
  · exact .inr ⟨n, r, rfl⟩
  · exact .inl hc

/-- The request is served by the block `p`; `bs'` are the blocks afterwards. -/
structure Served (s : Heap) (os : OsAnswer) (size : ℕ) (bs : List Block) (p : Block)
    (bs' : List Block) (s' : Heap) : Prop where
  step : AllocStep size bs s.brk p bs' s'.brk
  represents : Represents s' bs'
  maps : SameMaps s s'
  frame : HeapFrame s bs s'
  granted : ∀ n, neededSbrk size bs = some n → s.sbrkTarget os n = some s'.brk
  calls : s'.calls = (neededSbrk size bs).elim s.calls fun n => .sbrk n (some s.brk) :: s.calls
  brk_clear : s'.brk = s.brk ∨ ∃ n, s'.brk = s.brk + n ∧ ∀ r ∈ s.regions, r.Disjoint s.brk n

/-- The only call is one of `sbrk`. -/
theorem Served.mem_calls {s s' : Heap} {os : OsAnswer} {size : ℕ} {bs bs' : List Block} {p : Block}
    (h : Served s os size bs p bs' s') {c : Syscall} (hc : c ∈ s'.calls) :
    c ∈ s.calls ∨ ∃ n r, c = .sbrk n r := by
  rw [h.calls] at hc
  cases hneed : neededSbrk size bs with
  | none =>
    rw [hneed] at hc
    exact .inl hc
  | some n =>
    rw [hneed] at hc
    exact sbrk_calls _ _ _ c hc

section Execution
variable {s : Heap} {os : OsAnswer} {size : ℕ} {pre post bs : List Block} {b : Block}

theorem neededSbrk_of_fit (hfit : b.fits size) : neededSbrk size (pre ++ b :: post) = none := by
  simp [neededSbrk, hfit]

theorem neededSbrk_of_no_fit (hno : ∀ c ∈ bs, ¬c.fits size) : neededSbrk size bs =
    match bs.getLast? with
    | some b => if b.isFree then some (size - b.size) else some (size + 32)
    | none => some (size + 32) := by
  have hany : ¬(bs.any (Block.fits size)) = true := by simpa using hno
  rw [neededSbrk, if_neg hany]

theorem reuse_served (h : Represents s (pre ++ b :: post)) (hmax : size ≤ maxAllocation)
    (hpre : ∀ c ∈ pre, ¬c.fits size) (hfit : b.fits size) :
    ∃ p bs' s', (reuse b.addr size).run s = .ok (p.addr + 32, s') ∧
      Served s os size (pre ++ b :: post) p bs' s' := by
  have hb := h.bounds (b := b) (by simp)
  have hb0 : b.addr ≠ 0 := by omega
  have hfit' : size ≤ b.size ∧ b.isFree := by simpa [Block.fits] using hfit
  have hpay : payload b.addr = b.addr + 32 := payload_of_lt (by omega)
  have hcut : wadd (wadd 128 sizeofMetadata) size = size + 160 := by
    simp only [wadd, maxAllocation, sizeofMetadata] at hmax ⊢
    omega
  have hgrant : ∀ n, neededSbrk size (pre ++ b :: post) = some n → s.sbrkTarget os n = some s.brk :=
    fun n hn => by simp [neededSbrk_of_fit hfit] at hn
  simp only [reuse, StateT.run_bind, getSize_run hb0, ok_bind, h.header, hcut]
  by_cases hlarge : size + 160 ≤ b.size
  · obtain ⟨s₁, hrun₁, heq₁, hrep₁, hmem₁⟩ := split_represents size h (by omega)
    obtain ⟨s₂, hrun₂, heq₂, hrep₂, hmem₂⟩ := setIsFree_represents false hrep₁
    have hbrk : s₂.brk = s.brk := by rw [heq₂, heq₁]
    refine ⟨⟨b.addr, size, false⟩, _, s₂, ?_, ⟨?_, hrep₂, ?_, ?_, ?_, ?_, .inl hbrk⟩⟩
    · simp only [if_pos hlarge, StateT.run_bind, hrun₁, hrun₂, ok_bind, pure_run, hpay]
    · rw [hbrk]
      exact .split hpre hfit hlarge
    · exact (SameMaps.of_eq heq₁).trans (SameMaps.of_eq (by rw [heq₂]))
    · refine HeapFrame.of_headersOnly h (hmem₁.trans (hmem₂.mono (by simp))) hbrk.ge ?_
      intro a ha
      simp only [List.mem_append, List.mem_cons, List.not_mem_nil, or_false, List.mem_map] at ha
      rcases ha with (rfl | rfl) | ⟨c, hc, rfl⟩
      · exact .inl ⟨b, by simp, rfl⟩
      · exact .inr (.inl ⟨b, by simp, hfit'.2, by simp only [Block.rest]; omega⟩)
      · exact .inl ⟨c, by simp [List.mem_of_mem_take hc], rfl⟩
    · rw [hbrk]
      exact hgrant
    · rw [heq₂, heq₁, neededSbrk_of_fit hfit]
      rfl
  · obtain ⟨s₁, hrun₁, heq₁, hrep₁, hmem₁⟩ := setIsFree_represents false h
    have hbrk : s₁.brk = s.brk := by rw [heq₁]
    refine ⟨{ b with isFree := false }, _, s₁, ?_, ⟨?_, hrep₁, ?_, ?_, ?_, ?_, .inl hbrk⟩⟩
    · simp only [if_neg hlarge, StateT.run_bind, hrun₁, ok_bind, pure_run, hpay]
    · rw [hbrk]
      exact .reuse hpre hfit (by omega)
    · exact SameMaps.of_eq (by rw [heq₁])
    · refine HeapFrame.of_headersOnly h hmem₁ hbrk.ge ?_
      intro a ha
      exact .inl ⟨b, by simp, List.mem_singleton.mp ha⟩
    · rw [hbrk]
      exact hgrant
    · rw [heq₁, neededSbrk_of_fit hfit]
      rfl

theorem firstBlock_served (h : Represents s []) (hmax : size ≤ maxAllocation) {target : ℕ}
    (hgrant : s.sbrkTarget os (size + 32) = some target) :
    ∃ p bs' s', (firstBlock os size).run s = .ok (p.addr + 32, s') ∧
      Served s os size [] p bs' s' := by
  have hpos := h.pos
  simp only [headAddr_nil, maxAllocation] at hpos hmax
  have hincr : wadd size sizeofMetadata = size + 32 := wadd_sizeofMetadata (by omega)
  obtain ⟨htarget, hlt, hclear⟩ := sbrkTarget_eq_some (by omega) hgrant
  have happ := h.append size (by omega)
  rw [h.last_eq] at happ
  have hmem : HeadersOnly [s.brk] s.mem (appendedMemory s.mem s.brk size 0) :=
    appendedMemory_headersOnly _ (by simp) (by simp)
  have hrun : (firstBlock os size).run s = .ok (s.brk + 32, { s with
      mem := appendedMemory s.mem s.brk size 0, brk := target
      calls := .sbrk (size + 32) (some s.brk) :: s.calls
      glob := { s.glob with root := s.brk, end_ := s.brk } }) := by
    simp only [firstBlock, StateT.run_bind, hincr, sbrk_run_some hgrant, ok_bind,
      initMetadata_run (by omega : s.brk ≠ 0), setRoot_run, setEnd_run, pure_run,
      payload_of_lt (by omega : s.brk + 32 < 2 ^ 64), appendedMemory, if_true]
  have hneed : neededSbrk size [] = some (size + 32) := neededSbrk_of_no_fit (by simp)
  refine ⟨⟨s.brk, size, false⟩, [⟨s.brk, size, false⟩], _, hrun,
    ⟨?_, ?_, ?_, ?_, ?_, by rw [hneed]; rfl, .inr ⟨_, htarget, hclear⟩⟩⟩
  · exact htarget ▸ .append (by simp) (by simp)
  · rw [show s.brk + 32 + size = target by omega] at happ
    exact happ
  · exact ⟨rfl, rfl, rfl, rfl⟩
  · refine HeapFrame.of_headersOnly h hmem (by simp only; omega) (fun a ha => ?_)
    rw [List.mem_singleton] at ha
    exact .inr (.inr (by simp only; omega))
  · intro n hn
    rw [hneed, Option.some.injEq] at hn
    exact hn ▸ hgrant

theorem growEnd_served (h : Represents s (pre ++ [b])) (hmax : size ≤ maxAllocation)
    (hno : ∀ c ∈ pre ++ [b], ¬c.fits size) (hfree : b.isFree) {target : ℕ}
    (hgrant : s.sbrkTarget os (size - b.size) = some target) :
    ∃ p bs' s', (growEnd os size).run s = .ok (p.addr + 32, s') ∧
      Served s os size (pre ++ [b]) p bs' s' := by
  have hb := h.bounds (b := b) (by simp)
  have hb0 : b.addr ≠ 0 := by omega
  have hstop : b.addr + 32 + b.size = s.brk := by
    have ht := h.tiles.split.2
    simpa only [Block.len, Tiles_nil, ← Nat.add_assoc] using ht
  have hend : s.glob.end_ = b.addr := by
    rw [h.last_eq]
    simp
  have hlt : b.size < size := by
    have hb' := hno b (by simp)
    simpa [Block.fits, hfree] using hb'
  simp only [maxAllocation] at hmax
  have hincr : wsub size b.size = size - b.size := wsub_of_le (by omega) (by omega)
  obtain ⟨htarget, hlt', hclear⟩ := sbrkTarget_eq_some (by omega) hgrant
  set m₁ := storeField (storeField s.mem b.addr .size size) b.addr .isFree 0 with hm₁
  have hmem : HeadersOnly [b.addr] s.mem m₁ :=
    (HeadersOnly.storeField _ (by simp) _ _).trans (.storeField _ (by simp) _ _)
  have hnew : metadataAt m₁ b.addr =
      { metadataAt s.mem b.addr with size := size, isFree := false } := by
    rw [hm₁, metadataAt_storeField, metadataAt_storeField, MallocMetadata.set, MallocMetadata.set,
      Nat.mod_eq_of_lt (by omega : size < 2 ^ 64)]
    rfl
  have hrun : (growEnd os size).run s = .ok (b.addr + 32, { s with
      mem := m₁, brk := target
      calls := .sbrk (size - b.size) (some s.brk) :: s.calls }) := by
    simp only [growEnd, StateT.run_bind, getEnd_run, ok_bind, hend, getSize_run hb0, h.header,
      hincr, sbrk_run_some hgrant, setSize_run hb0, setIsFree_run hb0, pure_run,
      payload_of_lt (by omega : b.addr + 32 < 2 ^ 64), Bool.toNat_false, m₁]
  have hneed : neededSbrk size (pre ++ [b]) = some (size - b.size) := by
    simp [neededSbrk_of_no_fit hno, hfree]
  refine ⟨⟨b.addr, size, false⟩, pre ++ [⟨b.addr, size, false⟩], _, hrun,
    ⟨?_, ?_, ?_, ?_, ?_, by rw [hneed]; rfl, .inr ⟨_, htarget, hclear⟩⟩⟩
  · exact htarget ▸ .grow hno hfree
  · have hgrow := h.grow size false (by omega) hmem hnew
    rw [show b.addr + 32 + size = target by omega] at hgrow
    exact hgrow
  · exact ⟨rfl, rfl, rfl, rfl⟩
  · refine HeapFrame.of_headersOnly h hmem (by simp only; omega) (fun a ha => ?_)
    exact .inl ⟨b, by simp, List.mem_singleton.mp ha⟩
  · intro n hn
    rw [hneed, Option.some.injEq] at hn
    exact hn ▸ hgrant

theorem appendBlock_served (h : Represents s (pre ++ [b])) (hmax : size ≤ maxAllocation)
    (hno : ∀ c ∈ pre ++ [b], ¬c.fits size) (hused : b.isFree = false) {target : ℕ}
    (hgrant : s.sbrkTarget os (size + 32) = some target) :
    ∃ p bs' s', (appendBlock os size).run s = .ok (p.addr + 32, s') ∧
      Served s os size (pre ++ [b]) p bs' s' := by
  have hb := h.bounds (b := b) (by simp)
  have hb0 : b.addr ≠ 0 := by omega
  have hend : s.glob.end_ = b.addr := by
    rw [h.last_eq]
    simp
  simp only [maxAllocation] at hmax
  have hincr : wadd size sizeofMetadata = size + 32 := wadd_sizeofMetadata (by omega)
  obtain ⟨htarget, hlt', hclear⟩ := sbrkTarget_eq_some (by omega) hgrant
  have happ := h.append size (by omega)
  have hroot : s.glob.root = headAddr Block.addr s.brk (pre ++ [b]) := by
    rw [h.root_eq]
    simp
  rw [hend, ← hroot] at happ
  have hmem : HeadersOnly [s.brk, b.addr] s.mem (appendedMemory s.mem s.brk size b.addr) :=
    appendedMemory_headersOnly _ (by simp) (by simp)
  have hrun : (appendBlock os size).run s = .ok (s.brk + 32, { s with
      mem := appendedMemory s.mem s.brk size b.addr, brk := target
      calls := .sbrk (size + 32) (some s.brk) :: s.calls, glob.end_ := s.brk }) := by
    simp only [appendBlock, StateT.run_bind, hincr, sbrk_run_some hgrant, ok_bind, getEnd_run, hend,
      initMetadata_run (by omega : s.brk ≠ 0), setNext_run hb0, setEnd_run, pure_run,
      payload_of_lt (by omega : s.brk + 32 < 2 ^ 64), appendedMemory, if_neg hb0]
  have hneed : neededSbrk size (pre ++ [b]) = some (size + 32) := by
    simp [neededSbrk_of_no_fit hno, hused]
  refine ⟨⟨s.brk, size, false⟩, pre ++ [b] ++ [⟨s.brk, size, false⟩], _, hrun,
    ⟨?_, ?_, ?_, ?_, ?_, by rw [hneed]; rfl, .inr ⟨_, htarget, hclear⟩⟩⟩
  · exact htarget ▸ .append hno (by simp [hused])
  · rw [show s.brk + 32 + size = target by omega] at happ
    exact happ
  · exact ⟨rfl, rfl, rfl, rfl⟩
  · refine HeapFrame.of_headersOnly h hmem (by simp only; omega) (fun a ha => ?_)
    simp only [List.mem_cons, List.not_mem_nil, or_false] at ha
    rcases ha with rfl | rfl
    · exact .inr (.inr (by simp only; omega))
    · exact .inl ⟨b, by simp, rfl⟩
  · intro n hn
    rw [hneed, Option.some.injEq] at hn
    exact hn ▸ hgrant

/-- A refused `sbrk` is recorded and nothing else happens. -/
theorem refused_run {n : ℕ} (hn : s.sbrkTarget os n = none) (f : ℕ → M ℕ) :
    (do
      match ← sbrk os n with
      | none => return 0
      | some p => f p : M ℕ).run s = .ok (0, { s with calls := .sbrk n none :: s.calls }) := by
  simp only [StateT.run_bind, sbrk_run_none hn, ok_bind, pure_run]

/-- Everything a legal request to `smallocSbrk` can do. -/
theorem smallocSbrk_cases (os : OsAnswer) (h : Represents s bs) (h0 : size ≠ 0)
    (hmax : size ≤ maxAllocation) :
    (∃ p bs' s', (smallocSbrk os size).run s = .ok (p.addr + 32, s') ∧
      Served s os size bs p bs' s') ∨
    (∃ n, neededSbrk size bs = some n ∧ s.sbrkTarget os n = none ∧
      (smallocSbrk os size).run s = .ok (0, { s with calls := .sbrk n none :: s.calls })) := by
  have hlegal : ¬(size = 0 ∨ maxAllocation < size) := by omega
  have hmax' : size ≤ 100000000 := hmax
  have hincr : wadd size sizeofMetadata = size + 32 := wadd_sizeofMetadata (by omega)
  simp only [smallocSbrk, if_neg hlegal, StateT.run_bind, getRoot_run, ok_bind]
  cases bs with
  | nil =>
    have hroot : s.glob.root = 0 := h.root_eq
    rw [if_pos hroot]
    cases hgrant : s.sbrkTarget os (size + 32) with
    | some target => exact .inl (firstBlock_served h hmax hgrant)
    | none =>
      refine .inr ⟨size + 32, rfl, hgrant, ?_⟩
      rw [firstBlock, hincr]
      exact refused_run hgrant _
  | cons b₀ bs₀ =>
    rw [if_neg h.root_ne_zero]
    simp only [StateT.run_bind, getRoot_run, h.search_run, ok_bind, firstFit]
    cases hfind : (b₀ :: bs₀).find? (Block.fits size) with
    | some b =>
      obtain ⟨hfit, pre, post, hbs, hpre⟩ := List.find?_eq_some_iff_append.mp hfind
      have hb := h.bounds (b := b) (by simp [hbs])
      rw [hbs] at h ⊢
      simp only [Option.map_some, Option.getD_some]
      rw [if_pos (by omega)]
      exact .inl (reuse_served h hmax (fun c hc => by simpa using hpre c hc) hfit)
    | none =>
      have hno : ∀ c ∈ b₀ :: bs₀, ¬c.fits size := List.find?_eq_none.mp hfind
      obtain ⟨pre, b, hbs⟩ : ∃ pre b, b₀ :: bs₀ = pre ++ [b] := by
        rcases List.eq_nil_or_concat (b₀ :: bs₀) with he | ⟨pre, b, he⟩
        · simp at he
        · exact ⟨pre, b, by simpa using he⟩
      rw [hbs] at h hno ⊢
      have hb := h.bounds (b := b) (by simp)
      have hb0 : b.addr ≠ 0 := by omega
      have hend : s.glob.end_ = b.addr := by
        rw [h.last_eq]
        simp
      have hneed := neededSbrk_of_no_fit hno
      simp only [List.getLast?_append, List.getLast?_singleton, Option.some_or] at hneed
      simp only [Option.map_none, Option.getD_none, ne_eq, not_true_eq_false, if_false,
        StateT.run_bind, getEnd_run, ok_bind, hend, getIsFree_run hb0, h.header]
      by_cases hfree : b.isFree
      · rw [if_pos hfree] at hneed ⊢
        cases hgrant : s.sbrkTarget os (size - b.size) with
        | some target => exact .inl (growEnd_served h hmax hno hfree hgrant)
        | none =>
          have hincr' : wsub size b.size = size - b.size := by
            have hb' := hno b (by simp)
            simp only [Block.fits, hfree, Bool.and_true, decide_eq_true_eq] at hb'
            exact wsub_of_le (by omega) (by omega)
          refine .inr ⟨_, hneed, hgrant, ?_⟩
          simp only [growEnd, StateT.run_bind, getEnd_run, ok_bind, hend, getSize_run hb0, h.header,
            hincr', sbrk_run_none hgrant, pure_run]
      · rw [if_neg hfree] at hneed ⊢
        cases hgrant : s.sbrkTarget os (size + 32) with
        | some target =>
          exact .inl (appendBlock_served h hmax hno (by simpa using hfree) hgrant)
        | none =>
          refine .inr ⟨_, hneed, hgrant, ?_⟩
          rw [appendBlock, hincr]
          exact refused_run hgrant _

end Execution
end FtfSystems.VirtualMemory.Malloc2

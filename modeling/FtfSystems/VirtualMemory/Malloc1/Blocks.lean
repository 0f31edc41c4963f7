import FtfSystems.VirtualMemory.Execution
import FtfSystems.VirtualMemory.Malloc1.Program

/-!
# What the calls of the first allocator do to the block list

A request takes the first free block that is large enough, or puts a new block at the break;
freeing sets a flag. Blocks are never removed and never change their size.
-/
namespace FtfSystems.VirtualMemory.Malloc1
open Foundation

@[simp] theorem getRoot_run (s : Heap) : getRoot.run s = .ok (s.glob.root, s) := rfl

@[simp] theorem getEnd_run (s : Heap) : getEnd.run s = .ok (s.glob.end_, s) := rfl

@[simp] theorem setRoot_run (p : ℕ) (s : Heap) :
    (setRoot p).run s = .ok ((), { s with glob.root := p }) := rfl

@[simp] theorem setEnd_run (p : ℕ) (s : Heap) :
    (setEnd p).run s = .ok ((), { s with glob.end_ := p }) := rfl

/-- The heap holds the blocks `bs`. -/
abbrev Represents (s : Heap) (bs : List Block) : Prop :=
  BlockList s.mem s.glob.root s.glob.end_ s.brk bs

/-- From `bs` to `bs'` no block disappears or changes its size, and no payload of a block in
use is written to. -/
structure Grows (s : Heap) (bs : List Block) (s' : Heap) (bs' : List Block) : Prop where
  represents : Represents s' bs'
  sizes : ∀ c ∈ bs, ∃ c' ∈ bs', c'.addr = c.addr ∧ c'.size = c.size
  heapStart : s'.heapStart = s.heapStart
  start : headAddr Block.addr s'.brk bs' = headAddr Block.addr s.brk bs
  payload : ∀ c ∈ bs, c.isFree = false → s.mem.AgreeOn s'.mem (c.addr + 32) c.size

/-- A request of `size` bytes is served by the block `p`. -/
structure Served (s : Heap) (size : ℕ) (bs : List Block) (p : Block) (s' : Heap)
    (bs' : List Block) : Prop extends Grows s bs s' bs' where
  mem : p ∈ bs'
  inUse : p.isFree = false
  size_le : size ≤ p.size
  fresh : ∀ c ∈ bs, c.isFree = false → c.addr ≠ p.addr
  keeps : ∀ c ∈ bs, c.isFree = false → c ∈ bs'
  brk : s'.brk = s.brk ∧ (∃ b ∈ bs, b.fits size) ∨ s.brk + size ≤ s'.brk

/-- The program may then fill the block it was given. -/
theorem Served.write {s s' : Heap} {size : ℕ} {bs bs' : List Block} {p : Block}
    (h : Served s size bs p s' bs') {m : Memory}
    (hm : ∀ x, x < p.addr + 32 ∨ p.addr + 32 + p.size ≤ x → m x = s'.mem x) :
    Served s size bs p { s' with mem := m } bs' := by
  obtain ⟨hrep, hother⟩ := h.represents.write_payload h.mem hm
  exact { h with
    represents := hrep
    payload := fun c hc hu => (h.payload c hc hu).trans
      (hother c (h.keeps c hc hu) (h.fresh c hc hu)) }

section Execution
variable {s : Heap} {os : OsAnswer} {size : ℕ} {pre post bs : List Block} {b : Block}

/-- Assigning a flag. -/
theorem setFlag_grows (h : Represents s (pre ++ b :: post)) (f : Bool) :
    Grows s (pre ++ b :: post) { s with mem := storeField s.mem b.addr .isFree f.toNat }
      (pre ++ { b with isFree := f } :: post) := by
  refine ⟨h.setFlag f, fun c hc => ?_, rfl, by simp, fun c hc _ => ?_⟩
  · simp only [List.mem_append, List.mem_cons] at hc
    rcases hc with hc | rfl | hc
    · exact ⟨c, by simp [hc], rfl, rfl⟩
    · exact ⟨{ c with isFree := f }, by simp, rfl, rfl⟩
    · exact ⟨c, by simp [hc], rfl, rfl⟩
  · have hmem : HeadersOnly [b.addr] s.mem (storeField s.mem b.addr .isFree f.toNat) :=
      .storeField _ (by simp) _ _
    exact h.payload_agree hmem (fun a ha => .inl ⟨b, by simp, List.mem_singleton.mp ha⟩) hc

theorem reuse_served (h : Represents s (pre ++ b :: post)) (hfit : b.fits size) :
    ∃ s', (do setIsFree b.addr false; return payload b.addr : M ℕ).run s =
        .ok (b.addr + 32, s') ∧
      Served s size (pre ++ b :: post) { b with isFree := false } s'
        (pre ++ { b with isFree := false } :: post) := by
  have hb := h.bounds (b := b) (by simp)
  have hfit' : size ≤ b.size ∧ b.isFree := by simpa [Block.fits] using hfit
  have hother (c : Block) (hc : c ∈ pre ++ b :: post) (hu : c.isFree = false) :
      c.addr ≠ b.addr := by
    intro he
    rw [h.eq_of_addr hc (by simp) he] at hu
    simp [hfit'.2] at hu
  refine ⟨_, ?_, setFlag_grows h false, by simp, rfl, hfit'.1, hother, ?_,
    .inl ⟨rfl, b, by simp, hfit⟩⟩
  · simp only [StateT.run_bind, setIsFree_run (by omega : b.addr ≠ 0), ok_bind, pure_run,
      payload_of_lt (by omega : b.addr + 32 < 2 ^ 64)]
  · intro c hc hu
    have hne := hother c hc hu
    simp only [List.mem_append, List.mem_cons] at hc ⊢
    rcases hc with hc | rfl | hc
    · exact .inl hc
    · exact absurd rfl hne
    · exact .inr (.inr hc)

/-- The state after a block has been put at the break. -/
def appended (s : Heap) (bs : List Block) (size target : ℕ) : Heap :=
  { s with
    mem := appendedMemory s.mem s.brk size s.glob.end_
    brk := target
    calls := .sbrk (size + 32) (some s.brk) :: s.calls
    glob := ⟨headAddr Block.addr s.brk bs, s.brk⟩ }

theorem appended_served (h : Represents s bs) (hmax : size ≤ maxAllocation) {target : ℕ}
    (hgrant : s.sbrkTarget os (size + 32) = some target) :
    Served s size bs ⟨s.brk, size, false⟩ (appended s bs size target)
      (bs ++ [⟨s.brk, size, false⟩]) := by
  simp only [maxAllocation] at hmax
  obtain ⟨htarget, hlt, -⟩ := sbrkTarget_eq_some (by omega) hgrant
  have happ := h.append size (by omega)
  rw [show s.brk + 32 + size = target by omega] at happ
  refine ⟨⟨happ, fun c hc => ⟨c, by simp [hc], rfl, rfl⟩, rfl, ?_, ?_⟩, by simp, rfl, le_rfl, ?_, ?_,
    .inr (by simp only [appended]; omega)⟩
  · simp [appended]
  · intro c hc _
    have hmem : HeadersOnly [s.brk, s.glob.end_] s.mem
        (appendedMemory s.mem s.brk size s.glob.end_) :=
      appendedMemory_headersOnly _ (by simp) (by simp)
    refine h.payload_agree hmem (fun a ha => ?_) hc
    simp only [List.mem_cons, List.not_mem_nil, or_false] at ha
    rcases ha with rfl | rfl
    · exact .inr le_rfl
    · rcases lastAddr_mem_or Block.addr 0 bs with ⟨rfl, -⟩ | ⟨d, hd, he⟩
      · simp at hc
      · exact .inl ⟨d, hd, by rw [h.last_eq, he]⟩
  · intro c hc _
    have := h.bounds hc
    simp only
    omega
  · exact fun c hc _ => List.mem_append_left _ hc

theorem firstBlock_run (h : Represents s []) (hmax : size ≤ maxAllocation) {target : ℕ}
    (hgrant : s.sbrkTarget os (size + 32) = some target) :
    (firstBlock os size).run s = .ok (s.brk + 32, appended s [] size target) := by
  have hpos := h.pos
  simp only [headAddr_nil, maxAllocation] at hpos hmax
  have hincr : wadd size sizeofMetadata = size + 32 := wadd_sizeofMetadata (by omega)
  obtain ⟨-, hlt, -⟩ := sbrkTarget_eq_some (by omega) hgrant
  have hend : s.glob.end_ = 0 := h.last_eq
  simp only [firstBlock, StateT.run_bind, hincr, sbrk_run_some hgrant, ok_bind,
    initMetadata_run (by omega : s.brk ≠ 0), setRoot_run, setEnd_run, pure_run,
    payload_of_lt (by omega : s.brk + 32 < 2 ^ 64), appended, appendedMemory, hend, if_true,
    headAddr_nil]

theorem appendBlock_run (h : Represents s (pre ++ [b])) (hmax : size ≤ maxAllocation) {target : ℕ}
    (hgrant : s.sbrkTarget os (size + 32) = some target) :
    (appendBlock os size).run s = .ok (s.brk + 32, appended s (pre ++ [b]) size target) := by
  have hb := h.bounds (b := b) (by simp)
  have hb0 : b.addr ≠ 0 := by omega
  simp only [maxAllocation] at hmax
  have hincr : wadd size sizeofMetadata = size + 32 := wadd_sizeofMetadata (by omega)
  obtain ⟨-, hlt, -⟩ := sbrkTarget_eq_some (by omega) hgrant
  have hend : s.glob.end_ = b.addr := by
    rw [h.last_eq]
    simp
  have hroot : s.glob.root = headAddr Block.addr s.brk (pre ++ [b]) := by
    rw [h.root_eq]
    simp
  simp only [appendBlock, StateT.run_bind, hincr, sbrk_run_some hgrant, ok_bind, getEnd_run, hend,
    initMetadata_run (by omega : s.brk ≠ 0), setNext_run hb0, setEnd_run, pure_run,
    payload_of_lt (by omega : s.brk + 32 < 2 ^ 64), appended, appendedMemory, if_neg hb0, hroot]

/-- Everything a legal request can do. -/
theorem smalloc_cases (os : OsAnswer) (h : Represents s bs) (h0 : size ≠ 0)
    (hmax : size ≤ maxAllocation) :
    (∃ p s' bs', (smalloc os size).run s = .ok (p.addr + 32, s') ∧ Served s size bs p s' bs') ∨
    (s.sbrkTarget os (size + 32) = none ∧ (smalloc os size).run s =
      .ok (0, { s with calls := .sbrk (size + 32) none :: s.calls })) := by
  have hlegal : ¬(size = 0 ∨ maxAllocation < size) := by omega
  have hmax' : size ≤ 100000000 := hmax
  have hincr : wadd size sizeofMetadata = size + 32 := wadd_sizeofMetadata (by omega)
  simp only [smalloc, if_neg hlegal, StateT.run_bind, getRoot_run, ok_bind]
  cases bs with
  | nil =>
    have hroot : s.glob.root = 0 := h.root_eq
    rw [if_pos hroot]
    cases hgrant : s.sbrkTarget os (size + 32) with
    | some target =>
      exact .inl ⟨_, _, _, firstBlock_run h hmax hgrant, appended_served h hmax hgrant⟩
    | none =>
      refine .inr ⟨rfl, ?_⟩
      simp only [firstBlock, hincr, StateT.run_bind, sbrk_run_none hgrant, ok_bind, pure_run]
  | cons b₀ bs₀ =>
    rw [if_neg h.root_ne_zero]
    simp only [StateT.run_bind, getRoot_run, h.search_run, ok_bind, firstFit]
    cases hfind : (b₀ :: bs₀).find? (Block.fits size) with
    | some b =>
      obtain ⟨hfit, pre, post, hbs, -⟩ := List.find?_eq_some_iff_append.mp hfind
      rw [hbs] at h ⊢
      have hb := h.bounds (b := b) (by simp)
      simp only [Option.map_some, Option.getD_some]
      rw [if_pos (by omega)]
      obtain ⟨s', hrun, hserved⟩ := reuse_served h hfit
      exact .inl ⟨{ b with isFree := false }, s', _, hrun, hserved⟩
    | none =>
      obtain ⟨pre, b, hbs⟩ : ∃ pre b, b₀ :: bs₀ = pre ++ [b] := by
        rcases List.eq_nil_or_concat (b₀ :: bs₀) with he | ⟨pre, b, he⟩
        · simp at he
        · exact ⟨pre, b, by simpa using he⟩
      rw [hbs] at h ⊢
      simp only [Option.map_none, Option.getD_none, ne_eq, not_true_eq_false, if_false]
      cases hgrant : s.sbrkTarget os (size + 32) with
      | some target =>
        exact .inl ⟨_, _, _, appendBlock_run h hmax hgrant, appended_served h hmax hgrant⟩
      | none =>
        refine .inr ⟨rfl, ?_⟩
        simp only [appendBlock, hincr, StateT.run_bind, sbrk_run_none hgrant, ok_bind, pure_run]

/-- Freeing a block in use sets its flag. -/
theorem sfree_run (h : Represents s (pre ++ b :: post)) (hu : b.isFree = false) :
    ∃ s', (sfree (b.addr + 32)).run s = .ok ((), s') ∧
      Grows s (pre ++ b :: post) s' (pre ++ b.freed :: post) := by
  have hb := h.bounds (b := b) (by simp)
  have hb0 : b.addr ≠ 0 := by omega
  refine ⟨_, ?_, setFlag_grows h true⟩
  simp only [sfree, if_neg (by omega : ¬b.addr + 32 = 0),
    header_of_lt (by omega : b.addr + 32 < 2 ^ 64), StateT.run_bind, getIsFree_run hb0, ok_bind,
    h.header, hu, Bool.false_eq_true, if_false, setIsFree_run hb0]

end Execution
end FtfSystems.VirtualMemory.Malloc1

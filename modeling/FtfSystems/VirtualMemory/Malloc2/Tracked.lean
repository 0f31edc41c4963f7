import FtfSystems.VirtualMemory.Malloc2.HeapContract

/-!
# Sessions whose blocks are known

`Tracked` ties a session to the blocks of the `sbrk` heap and to at most one block obtained
from `mmap`: the program holds a pointer to every block in use and to no other, and every
block has room for the bytes asked for. One lemma for each kind of call says what the call
does to such a session.
-/
namespace FtfSystems.VirtualMemory.Malloc2
open Foundation

/-- The block `b` is the only one on the list of `mmap_head`. It fills a mapped region
outside of the heap. -/
structure Mapping (s : Heap) (b : Block) : Prop where
  head : s.glob.mmapHead = b.addr
  last : s.glob.mmapEnd = b.addr
  region : s.regions = [⟨b.addr, b.size + 32⟩]
  header : metadataAt s.mem b.addr = ⟨b.size, false, 0, 0⟩
  inUse : b.isFree = false
  large : mmapAllocationLimit ≤ b.size
  aligned : b.addr % pageSize = 0
  pos : 0 < b.addr
  lt : b.addr + 32 + b.size < 2 ^ 64
  apart : b.addr + 32 + b.size ≤ s.heapStart ∨ s.brk ≤ b.addr

/-- What is mapped: nothing, or one block. -/
def Maps (s : Heap) : Option Block → Prop
  | none => s.glob.mmapHead = 0 ∧ s.regions = []
  | some b => Mapping s b

/-- The blocks a session works with: `bs` from `sbrk`, `m` from `mmap`. -/
structure Tracked (t : Session Globals) (bs : List Block) (m : Option Block) : Prop where
  heap : WellFormed t.heap bs
  start_le : t.heap.heapStart ≤ headAddr Block.addr t.heap.brk bs
  maps : Maps t.heap m
  room : ∀ e ∈ t.live, ∃ b ∈ m.toList ++ bs, b.isFree = false ∧ e.1 = b.addr + 32 ∧ e.2 ≤ b.size
  live : ∀ b ∈ m.toList ++ bs, b.isFree = false → ∃ n, (b.addr + 32, n) ∈ t.live
  fault : t.fault = none

section Maps
variable {s s' : Heap} {bs : List Block} {m : Option Block}

/-- Memory outside of the heap decides what is mapped. -/
theorem Maps.transfer (h : Maps s m) (hs : SameMaps s s')
    (hmem : ∀ b, m = some b → s.mem.AgreeOn s'.mem b.addr 32)
    (hbrk : ∀ b, m = some b → b.addr + 32 + b.size ≤ s.heapStart ∨ s'.brk ≤ b.addr) :
    Maps s' m := by
  cases m with
  | none => exact ⟨hs.mmapHead.trans h.1, hs.regions.trans h.2⟩
  | some b =>
    exact {
      head := hs.mmapHead.trans h.head
      last := hs.mmapEnd.trans h.last
      region := hs.regions.trans h.region
      header := (metadataAt_congr (hmem b rfl)).trans h.header
      inUse := h.inUse
      large := h.large
      aligned := h.aligned
      pos := h.pos
      lt := h.lt
      apart := by rw [hs.heapStart]; exact hbrk b rfl }

/-- The break does not run into the mapped block. -/
theorem Maps.brk_le (h : Maps s m) {brk' : ℕ}
    (hclear : brk' = s.brk ∨ ∃ n, brk' = s.brk + n ∧ ∀ r ∈ s.regions, r.Disjoint s.brk n)
    (b : Block) (hb : m = some b) : b.addr + 32 + b.size ≤ s.heapStart ∨ brk' ≤ b.addr := by
  subst hb
  rcases hclear with rfl | ⟨n, rfl, hdis⟩
  · exact h.apart
  · have hr := hdis ⟨b.addr, b.size + 32⟩ (by simp [h.region])
    have hap := h.apart
    simp only [Region.Disjoint] at hr
    omega

/-- Changes of the heap alone keep the mapped block. -/
theorem Maps.heapFrame (h : Maps s m) (hs : SameMaps s s') (hf : HeapFrame s bs s')
    (hstart : s.heapStart ≤ headAddr Block.addr s.brk bs)
    (hclear : s'.brk = s.brk ∨ ∃ n, s'.brk = s.brk + n ∧ ∀ r ∈ s.regions, r.Disjoint s.brk n) :
    Maps s' m := by
  have hbrk := h.brk_le hclear
  refine h.transfer hs (fun b hb x hx hx' => ?_) hbrk
  have hout := hbrk b hb
  exact hf.outside x (by omega)

end Maps

namespace Tracked
variable {t t' : Session Globals} {bs bs' : List Block} {m m' : Option Block} {b c : Block}

theorem header_bounds (h : Tracked t bs m) (hb : b ∈ m.toList ++ bs) :
    0 < b.addr ∧ b.addr + 32 + b.size < 2 ^ 64 := by
  rcases List.mem_append.mp hb with hb | hb
  · obtain rfl : m = some b := by simpa using hb
    exact ⟨h.maps.pos, h.maps.lt⟩
  · have := h.heap.represents.bounds hb
    omega

/-- Different blocks of a session do not overlap, wherever they come from. -/
theorem apart (h : Tracked t bs m) (hb : b ∈ m.toList ++ bs) (hc : c ∈ m.toList ++ bs)
    (hne : b ≠ c) :
    b.addr + 32 + b.size ≤ c.addr ∨ c.addr + 32 + c.size ≤ b.addr := by
  have hmap {d e : Block} (hd : m = some d) (he : e ∈ bs) :
      d.addr + 32 + d.size ≤ e.addr ∨ e.addr + 32 + e.size ≤ d.addr := by
    subst hd
    have hout := h.maps.apart
    have hin := h.heap.represents.bounds he
    have hstart := h.start_le
    omega
  rcases List.mem_append.mp hb with hb | hb <;> rcases List.mem_append.mp hc with hc | hc
  · have hb' : m = some b := by simpa using hb
    have hc' : m = some c := by simpa using hc
    exact absurd (Option.some.inj (hb'.symm.trans hc')) hne
  · exact hmap (by simpa using hb) hc
  · exact (hmap (by simpa using hc) hb).symm
  · exact h.heap.represents.apart hb hc hne

theorem eq_of_addr (h : Tracked t bs m) (hb : b ∈ m.toList ++ bs) (hc : c ∈ m.toList ++ bs)
    (he : b.addr = c.addr) : b = c := by
  by_contra hne
  have := h.apart hb hc hne
  omega

theorem init (mem : Memory) {brk : ℕ} (hpos : 0 < brk) (hlt : brk < 2 ^ 64) :
    Tracked (allocator.fresh mem brk) [] none where
  heap := ⟨.empty hpos hlt, separated_nil⟩
  start_le := le_rfl
  maps := ⟨rfl, rfl⟩
  room := by simp [Allocator.fresh]
  live := by simp
  fault := rfl

/-- The pointers held after one is given back. -/
theorem dropped_spec (h : Tracked t bs m) {l : List Block}
    (hl : ∀ c : Block, c.isFree = false → (c ∈ l ↔ c ∈ m.toList ++ bs ∧ c.addr ≠ b.addr)) :
    (∀ e ∈ t.dropped (b.addr + 32),
      ∃ c ∈ l, c.isFree = false ∧ e.1 = c.addr + 32 ∧ e.2 ≤ c.size) ∧
    ∀ c ∈ l, c.isFree = false → ∃ n, (c.addr + 32, n) ∈ t.dropped (b.addr + 32) := by
  constructor
  · intro e he
    rw [Session.mem_dropped] at he
    obtain ⟨c, hc, hu, hp, hn⟩ := h.room e he.1
    exact ⟨c, (hl c hu).mpr ⟨hc, by omega⟩, hu, hp, hn⟩
  · intro c hc hu
    obtain ⟨hmem, hne⟩ := (hl c hu).mp hc
    obtain ⟨n, hn⟩ := h.live c hmem hu
    refine ⟨n, ?_⟩
    simp only [Session.mem_dropped]
    exact ⟨hn, by omega⟩

/-- The pointers held after one is added. -/
theorem added_spec (h : Tracked t bs m) {size : ℕ} {p : Block} {l : List Block}
    (hp : p.isFree = false) (hsize : size ≤ p.size)
    (hl : ∀ c : Block, c.isFree = false → (c ∈ l ↔ c = p ∨ c ∈ m.toList ++ bs)) :
    (∀ e ∈ (p.addr + 32, size) :: t.live,
      ∃ c ∈ l, c.isFree = false ∧ e.1 = c.addr + 32 ∧ e.2 ≤ c.size) ∧
    ∀ c ∈ l, c.isFree = false → ∃ n, (c.addr + 32, n) ∈ (p.addr + 32, size) :: t.live := by
  constructor
  · intro e he
    rcases List.mem_cons.mp he with rfl | he
    · exact ⟨p, (hl p hp).mpr (.inl rfl), hp, rfl, hsize⟩
    · obtain ⟨c, hc, hu, hc', hn⟩ := h.room e he
      exact ⟨c, (hl c hu).mpr (.inr hc), hu, hc', hn⟩
  · intro c hc hu
    rcases (hl c hu).mp hc with rfl | hc
    · exact ⟨size, by simp⟩
    · obtain ⟨n, hn⟩ := h.live c hc hu
      exact ⟨n, by simp [hn]⟩

/-- A call that changes nothing but the record of system calls. -/
theorem unchanged (h : Tracked t bs m) (hheap : t'.heap = { t.heap with calls := t'.heap.calls })
    (hlive : t'.live = t.live) (hfault : t'.fault = none) : Tracked t' bs m where
  heap := by
    rw [hheap]
    exact ⟨h.heap.represents, h.heap.separated⟩
  start_le := by
    rw [hheap]
    exact h.start_le
  maps := by
    rw [hheap]
    exact h.maps.transfer ⟨rfl, rfl, rfl, rfl⟩ (fun b _ => Memory.AgreeOn.refl _ _ _)
      (h.maps.brk_le (.inl rfl))
  room := by
    rw [hlive]
    exact h.room
  live := by
    rw [hlive]
    exact h.live
  fault := hfault

/-- A request of an illegal size returns null. -/
theorem smalloc_illegal (h : Tracked t bs m) {os : OsAnswer} {size : ℕ}
    (hsize : size = 0 ∨ maxAllocation < size)
    (hs : allocator.next t (.smalloc os size) = some t') :
    t'.heap = t.heap ∧ t'.live = t.live ∧ Tracked t' bs m := by
  obtain ⟨-, ht⟩ := Allocator.next_smalloc hs
  have hrun : (allocator.smalloc os size).run t.heap = .ok (0, t.heap) := by
    simp only [allocator, smalloc, if_pos hsize, pure_run]
  rw [hrun, Session.record_null] at ht
  subst ht
  exact ⟨rfl, rfl, h.unchanged rfl rfl rfl⟩

/-- A small request returns null without effect, or is served from the `sbrk` heap. -/
theorem smalloc_small (h : Tracked t bs m) {os : OsAnswer} {size : ℕ}
    (hsize : size < mmapAllocationLimit)
    (hs : allocator.next t (.smalloc os size) = some t') :
    (t'.heap = { t.heap with calls := t'.heap.calls } ∧
      (∀ c ∈ t'.heap.calls, c ∈ t.heap.calls ∨ ∃ n r, c = .sbrk n r) ∧ t'.live = t.live ∧
      Tracked t' bs m) ∨
    ∃ p bs', Served t.heap os size bs p bs' t'.heap ∧
      t'.live = (p.addr + 32, size) :: t.live ∧ Tracked t' bs' m := by
  obtain ⟨-, ht⟩ := Allocator.next_smalloc hs
  by_cases hlegal : size = 0 ∨ maxAllocation < size
  · obtain ⟨hheap, hlive, htr⟩ := h.smalloc_illegal hlegal hs
    exact .inl ⟨by rw [hheap], fun c hc => .inl (by rwa [hheap] at hc), hlive, htr⟩
  have hrun : (allocator.smalloc os size).run t.heap = (smallocSbrk os size).run t.heap := by
    simp only [allocator, smalloc, if_neg hlegal, if_pos hsize]
  rw [not_or, not_lt] at hlegal
  obtain ⟨p, bs', s', hok, hserved⟩ | ⟨n, hneed, hfail, hok⟩ :=
    smallocSbrk_cases os h.heap.represents hlegal.1 hlegal.2
  · rw [hrun, hok, Session.record_pointer _ _ _ _ _ (by omega : p.addr + 32 ≠ 0)] at ht
    subst ht
    obtain ⟨hroom, hlive⟩ := h.added_spec hserved.step.inUse hserved.step.size_le
      (l := m.toList ++ bs') (fun c hu => by
        have hmem : c ∈ bs' ↔ c = p ∨ c ∈ bs := by
          refine ⟨fun hc => hserved.step.inUse_of_mem hc hu, ?_⟩
          rintro (rfl | hc)
          · exact hserved.step.mem
          · exact hserved.step.keeps hc hu
        rw [List.mem_append, List.mem_append, hmem]
        tauto)
    refine .inr ⟨p, bs', hserved, rfl, ⟨hserved.represents, hserved.step.separated h.heap.separated⟩,
      ?_, ?_, hroom, hlive, rfl⟩
    · rw [hserved.maps.heapStart, hserved.step.headAddr_eq]
      exact h.start_le
    · exact h.maps.heapFrame hserved.maps hserved.frame h.start_le hserved.brk_clear
  · rw [hrun, hok, Session.record_null] at ht
    subst ht
    exact .inl ⟨rfl, sbrk_calls _ _ _, rfl, h.unchanged rfl rfl rfl⟩

/-- Freeing null does nothing. -/
theorem sfree_null (h : Tracked t bs m) (hs : allocator.next t (.sfree 0) = some t') :
    t'.heap = t.heap ∧ Tracked t' bs m := by
  obtain ⟨-, ht⟩ := Allocator.next_sfree hs
  have hrun : (allocator.sfree 0).run t.heap = .ok ((), t.heap) := by
    simp only [allocator, sfree, if_pos, pure_run]
  have hlive : t.dropped 0 = t.live := Session.dropped_null fun e he => by
    obtain ⟨b, -, -, hp, -⟩ := h.room e he
    omega
  rw [hrun] at ht
  subst ht
  exact ⟨rfl, h.unchanged rfl hlive rfl⟩

/-- Freeing a block of the `sbrk` heap below the limit. -/
theorem sfree_small (h : Tracked t bs m) (hb : b ∈ bs) (hu : b.isFree = false)
    (hsize : b.size < mmapAllocationLimit)
    (hs : allocator.next t (.sfree (b.addr + 32)) = some t') :
    Released t.heap bs b.addr t'.heap ∧ Tracked t' (release b.addr bs) m := by
  obtain ⟨-, ht⟩ := Allocator.next_sfree hs
  obtain ⟨s', hrun, hrel⟩ := sfree_released h.heap.represents h.heap.separated hb hu hsize
  rw [show (allocator.sfree (b.addr + 32)).run t.heap = _ from hrun, Session.recordFree_ok] at ht
  subst ht
  obtain ⟨hroom, hlive⟩ := h.dropped_spec (b := b) (l := m.toList ++ release b.addr bs)
    (fun c hc => by
      rw [List.mem_append, List.mem_append, mem_release_inUse hc]
      have hmap : c ∈ m.toList → c.addr ≠ b.addr := fun hm he => by
        have hcb := h.eq_of_addr (List.mem_append_left _ hm) (List.mem_append_right _ hb) he
        subst hcb
        obtain rfl : m = some c := by simpa using hm
        have := h.maps.large
        omega
      have hkeep : c ∈ m.toList ↔ c ∈ m.toList ∧ c.addr ≠ b.addr :=
        ⟨fun hm => ⟨hm, hmap hm⟩, And.left⟩
      rw [or_and_right, ← hkeep])
  refine ⟨hrel, ⟨hrel.represents, release_separated _ _⟩, ?_, ?_, hroom, hlive, rfl⟩
  · rw [hrel.maps.heapStart, headAddr_release, hrel.brk]
    exact h.start_le
  · exact h.maps.heapFrame hrel.maps hrel.frame h.start_le (.inl hrel.brk)

/-- The program stores a byte in a payload it holds. -/
theorem write (h : Tracked t bs m) {p i : ℕ} {v : UInt8}
    (hs : allocator.next t (.write p i v) = some t') :
    t'.heap = { t.heap with mem := t'.heap.mem } ∧ Tracked t' bs m := by
  obtain ⟨⟨e, he, rfl, hi⟩, rfl⟩ := Allocator.next_write hs
  obtain ⟨b, hb, hu, hp, hn⟩ := h.room e he
  -- the byte lies in the payload of `b`, so it is part of no header
  have hagree (c : Block) (hc : c ∈ m.toList ++ bs) :
      t.heap.mem.AgreeOn (Function.update t.heap.mem (e.1 + i) v) c.addr 32 := by
    intro x hx hx'
    refine Function.update_of_ne ?_ _ _
    rintro rfl
    by_cases hbc : b = c
    · subst hbc
      omega
    · have := h.apart hb hc hbc
      omega
  refine ⟨rfl, ⟨h.heap.represents.frame (fun c hc => hagree c (List.mem_append_right _ hc)),
    h.heap.separated⟩, h.start_le, ?_, h.room, h.live, h.fault⟩
  refine h.maps.transfer ⟨rfl, rfl, rfl, rfl⟩ (fun c hc => hagree c ?_) (h.maps.brk_le (.inl rfl))
  rw [hc]
  simp

end Tracked
end FtfSystems.VirtualMemory.Malloc2

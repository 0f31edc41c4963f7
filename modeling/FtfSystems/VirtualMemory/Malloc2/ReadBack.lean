import FtfSystems.VirtualMemory.CallocProduct
import FtfSystems.VirtualMemory.Contents
import FtfSystems.VirtualMemory.Malloc2.BlockOrigin
import FtfSystems.VirtualMemory.Malloc2.Reallocate
import FtfSystems.VirtualMemory.ReallocFailure

/-!
# The second allocator keeps the bytes of the program

For blocks of the `sbrk` heap all four operations may be mixed in any order, also where
`srealloc` leaves two free neighbours behind. Only the merges of `srealloc` with the block
before are left out.
-/
namespace FtfSystems.VirtualMemory.Malloc2
open Foundation

/-- Calls that stay in the `sbrk` heap and do not merge a block into the one before. -/
def StaysInHeap (t : Session Globals) : Call → Prop
  | .smalloc _ size => size < mmapAllocationLimit
  | .scalloc _ num size => num * size < mmapAllocationLimit
  | .sfree p => p = 0 ∨ (metadataAt t.heap.mem (header p)).size < mmapAllocationLimit
  | .srealloc _ oldp size => size < mmapAllocationLimit ∧
      (oldp = 0 ∨ (metadataAt t.heap.mem (header oldp)).size < mmapAllocationLimit ∧
        ∀ pre b post, Represents t.heap (pre ++ b :: post) → oldp = b.addr + 32 →
          reallocCase size pre b post ≠ .lower ∧ reallocCase size pre b post ≠ .both)
  | .write _ _ _ => True

/-- Every pointer leads to a block in use with room for what was asked for. -/
structure Held (t : Session Globals) (bs : List Block) : Prop where
  represents : Represents t.heap bs
  room : ∀ e ∈ t.live, ∃ b ∈ bs, b.isFree = false ∧ e.1 = b.addr + 32 ∧ e.2 ≤ b.size
  pos : ∀ e ∈ t.live, 0 < e.2

section Heap
variable {s s' : Heap} {bs bs' : List Block} {os : OsAnswer} {size : ℕ} {b d : Block}

/-- A small request, from any list of blocks. -/
theorem smalloc_small_cases (os : OsAnswer) (h : Represents s bs)
    (hsize : size < mmapAllocationLimit) :
    (∃ d s' bs', (smalloc os size).run s = .ok (d.addr + 32, s') ∧ 0 < size ∧
      HeapKept s bs size d bs' s' ∧ ∀ c ∈ bs, c.isFree = false → c.addr ≠ d.addr) ∨
    ∃ s', (smalloc os size).run s = .ok (0, s') ∧ s' = { s with calls := s'.calls } := by
  by_cases h0 : size = 0
  · refine .inr ⟨s, ?_, rfl⟩
    rw [smalloc, if_pos (.inl h0), pure_run]
  have hmax : size ≤ maxAllocation := by
    simp only [maxAllocation, mmapAllocationLimit] at hsize ⊢
    omega
  have hrun : (smalloc os size).run s = (smallocSbrk os size).run s := by
    rw [smalloc, if_neg (by omega : ¬(size = 0 ∨ maxAllocation < size)), if_pos hsize]
  rw [hrun]
  obtain ⟨p, bs', s', hok, hserved⟩ | ⟨n, -, -, hok⟩ := smallocSbrk_cases os h h0 hmax
  · refine .inl ⟨p, s', bs', hok, by omega, ⟨hserved.represents, hserved.step.mem,
      hserved.step.inUse, hserved.step.size_le, fun c hc hu => ?_⟩,
      fun c hc hu => hserved.addr_ne h hc hu⟩
    exact ⟨hserved.step.keeps hc hu, hserved.frame.payload c hc hu⟩
  · exact .inr ⟨_, hok, rfl⟩

/-- The block may be filled. -/
theorem HeapKept.write {others : List Block} (h : HeapKept s others size d bs' s') {m : Memory}
    (hne : ∀ c ∈ others, c.isFree = false → c.addr ≠ d.addr)
    (hm : ∀ x, x < d.addr + 32 ∨ d.addr + 32 + d.size ≤ x → m x = s'.mem x) :
    HeapKept s others size d bs' { s' with mem := m } := by
  obtain ⟨hrep, hother⟩ := h.represents.write_payload h.mem hm
  refine ⟨hrep, h.mem, h.inUse, h.size_le, fun c hc hu => ⟨(h.kept c hc hu).1, ?_⟩⟩
  exact (h.kept c hc hu).2.trans (hother c (h.kept c hc hu).1 (hne c hc hu))

/-- Freeing a block keeps the others that are in use. -/
theorem sfree_kept (h : Represents s bs) (hb : b ∈ bs) (hu : b.isFree = false)
    (hsize : b.size < mmapAllocationLimit) :
    ∃ s' bs', (sfree (b.addr + 32)).run s = .ok ((), s') ∧ Represents s' bs' ∧
      ∀ c ∈ bs, c.isFree = false → c.addr ≠ b.addr → Kept s s' bs' c := by
  obtain ⟨pre, post, rfl⟩ := List.append_of_mem hb
  obtain ⟨s', bs', hrun, hfreed⟩ := sfree_freed h hu hsize
  refine ⟨s', bs', hrun, hfreed.relinked.represents, fun c hc hcu hne => ⟨?_, ?_⟩⟩
  · rw [← mem_coalesce_of_not_marked Block.mergeLaws hcu, hfreed.same, ← map_freeAt h]
    exact (mem_release_inUse hcu).mpr ⟨hc, hne⟩
  · exact (hfreed.frame h).payload c hc hcu

/-- A copy that the kernel gives no memory for does not return. -/
theorem srealloc_copy_refused {pre post : List Block} (h : Represents s (pre ++ b :: post))
    (hpos : 0 < b.size) (h0 : 0 < size) (hsize : size < mmapAllocationLimit)
    (hcase : reallocCase size pre b post = .copy)
    (hrefused : ∃ s₁, (smalloc os size).run s = .ok (0, s₁)) :
    (srealloc os (b.addr + 32) size).run s = .error .nullDereference := by
  obtain ⟨s₁, hmalloc⟩ := hrefused
  have hgt : b.size < size := by
    by_contra hle
    rw [reallocCase, if_pos (by omega)] at hcase
    cases hcase
  have hmax : size ≤ maxAllocation := by
    simp only [maxAllocation, mmapAllocationLimit] at hsize ⊢
    omega
  have hmerge := sreallocMerge_run h hgt
  simp only [hcase] at hmerge
  rw [srealloc_run os (sized_of_mem h) h0 hmax, if_neg (by omega), StateT.run_bind, hmerge, ok_bind,
    if_neg (by simp), StateT.run_bind, hmalloc, ok_bind, if_neg null_ne_minusOne, StateT.run_bind,
    moveBytes_null _ (by omega)]
  rfl

/-- A small `srealloc` of a block in use, when it does not merge with the block before. -/
theorem srealloc_small_cases (os : OsAnswer) {pre post : List Block}
    (h : Represents s (pre ++ b :: post)) (hu : b.isFree = false) (hpos : 0 < b.size)
    (hb : b.size < mmapAllocationLimit) (hsize : size < mmapAllocationLimit)
    (hcase : reallocCase size pre b post ≠ .lower ∧ reallocCase size pre b post ≠ .both) :
    (∃ d s' bs', (srealloc os (b.addr + 32) size).run s = .ok (d.addr + 32, s') ∧ 0 < size ∧
      HeapKept s (pre ++ post) size d bs' s' ∧
      BytesKept s (b.addr + 32) (min b.size size) (d.addr + 32) s') ∨
    (srealloc os (b.addr + 32) size).run s = .ok (0, s) ∨
    (srealloc os (b.addr + 32) size).run s = .error .nullDereference := by
  rcases Nat.eq_zero_or_pos size with rfl | h0
  · exact .inr (.inl (by rw [srealloc, if_pos (.inl rfl), pure_run]))
  have hmax : size ≤ maxAllocation := by
    simp only [maxAllocation, mmapAllocationLimit] at hsize ⊢
    omega
  cases hc : reallocCase size pre b post with
  | inPlace =>
    have hle : size ≤ b.size := by
      by_contra hle
      rw [reallocCase, if_neg hle] at hc
      split_ifs at hc
    obtain ⟨d, s', bs', hrun, hk⟩ := srealloc_inPlace os h hu h0 hmax hle
    exact .inl ⟨d, s', bs', hrun, h0, hk⟩
  | lower => exact absurd hc hcase.1
  | upper =>
    obtain ⟨d, s', bs', hrun, hk⟩ := srealloc_upper os h h0 hmax hc
    exact .inl ⟨d, s', bs', hrun, h0, hk⟩
  | both => exact absurd hc hcase.2
  | copy =>
    by_cases hgrant : ∀ n, neededSbrk size (pre ++ b :: post) = some n → s.sbrkTarget os n ≠ none
    · obtain ⟨d, s', bs', hrun, hk⟩ := srealloc_copy h hu hb h0 hsize hc hgrant
      exact .inl ⟨d, s', bs', hrun, h0, hk⟩
    · push Not at hgrant
      obtain ⟨n, hneed, hfail⟩ := hgrant
      refine .inr (.inr (srealloc_copy_refused h hpos h0 hsize hc ?_))
      rw [smalloc, if_neg (by omega : ¬(size = 0 ∨ maxAllocation < size)), if_pos hsize]
      obtain ⟨p, bs', s', -, hserved⟩ | ⟨n', -, -, hok⟩ := smallocSbrk_cases os h h0.ne' hmax
      · rw [hserved.granted n hneed] at hfail
        cases hfail
      · exact ⟨_, hok⟩

end Heap

section Session
variable {t t' : Session Globals} {bs bs' : List Block} {os : OsAnswer} {p size : ℕ} {d : Block}

theorem Held.ne_null (h : Held t bs) : ∀ e ∈ t.live, e.1 ≠ 0 := fun e he => by
  obtain ⟨b, -, -, hb, -⟩ := h.room e he
  omega

/-- A call that changes nothing but the record of system calls. -/
theorem Held.unchanged (h : Held t bs) (t' : Session Globals)
    (hheap : t'.heap = { t.heap with calls := t'.heap.calls })
    (hlive : t'.live = t.live) : Held t' bs ∧ Keeps t t' 0 := by
  refine ⟨⟨?_, ?_, ?_⟩, fun e he _ => ⟨?_, ?_⟩⟩
  · rw [hheap]
    exact h.represents
  · rw [hlive]
    exact h.room
  · rw [hlive]
    exact h.pos
  · rwa [hlive]
  · rw [hheap]
    exact Memory.AgreeOn.refl _ _ _

/-- The block `d` for a new pointer, besides the pointers `live` to blocks among `others`. -/
theorem Held.given (h : Held t bs) (t' : Session Globals) {others : List Block}
    {live : List (ℕ × ℕ)}
    (hk : HeapKept t.heap others size d bs' t'.heap) (h0 : 0 < size)
    (hsub : ∀ e ∈ live, e ∈ t.live) (hothers : ∀ e ∈ live,
      ∃ b ∈ others, b.isFree = false ∧ e.1 = b.addr + 32 ∧ e.2 ≤ b.size)
    (hlive : t'.live = (d.addr + 32, size) :: live) :
    Held t' bs' ∧ ∀ e ∈ live, e ∈ t'.live ∧ t.heap.mem.AgreeOn t'.heap.mem e.1 e.2 := by
  refine ⟨⟨hk.represents, fun e he => ?_, fun e he => ?_⟩, fun e he => ⟨?_, ?_⟩⟩
  · rw [hlive] at he
    rcases List.mem_cons.mp he with rfl | he
    · exact ⟨d, hk.mem, hk.inUse, rfl, hk.size_le⟩
    · obtain ⟨b, hb, hu, hp, hn⟩ := hothers e he
      exact ⟨b, (hk.kept b hb hu).1, hu, hp, hn⟩
  · rw [hlive] at he
    rcases List.mem_cons.mp he with rfl | he
    · exact h0
    · exact h.pos e (hsub e he)
  · rw [hlive]
    exact List.mem_cons_of_mem _ he
  · obtain ⟨b, hb, hu, hp, hn⟩ := hothers e he
    exact (hk.kept b hb hu).2.sub (by omega) (by omega)

theorem Held.smalloc_step (h : Held t bs) (hsize : size < mmapAllocationLimit)
    (hs : allocator.next t (.smalloc os size) = some t') : (∃ bs', Held t' bs') ∧
      ∃ q, t'.last = some (.smalloc os size, q) ∧ Honours t t' q (.smalloc os size) := by
  obtain ⟨-, ht⟩ := Allocator.next_smalloc hs
  obtain ⟨d, s', bs', hrun, h0, hk, -⟩ | ⟨s', hrun, hsame⟩ :=
    smalloc_small_cases os h.represents hsize
  · rw [show (allocator.smalloc os size).run t.heap = _ from hrun,
      Session.record_pointer _ _ _ _ _ (by omega : d.addr + 32 ≠ 0)] at ht
    subst ht
    obtain ⟨hheld, hkeep⟩ := h.given ⟨s', _, _, none⟩ hk h0 (fun e he => he) h.room rfl
    exact ⟨⟨bs', hheld⟩, _, rfl, fun e he _ => hkeep e he⟩
  · rw [show (allocator.smalloc os size).run t.heap = _ from hrun, Session.record_null] at ht
    subst ht
    obtain ⟨hheld, hkeep⟩ := h.unchanged ⟨s', t.live, _, none⟩ hsame rfl
    exact ⟨⟨bs, hheld⟩, 0, rfl, hkeep⟩

theorem Held.scalloc_step (h : Held t bs) {num : ℕ} (hprod : num * size < mmapAllocationLimit)
    (hs : allocator.next t (.scalloc os num size) = some t') : (∃ bs', Held t' bs') ∧
      ∃ q, t'.last = some (.scalloc os num size, q) ∧
        Honours t t' q (.scalloc os num size) := by
  obtain ⟨-, ht⟩ := Allocator.next_scalloc hs
  have hmul : wmul num size = num * size := by
    refine wmul_of_lt ?_
    simp only [mmapAllocationLimit] at hprod
    omega
  obtain ⟨d, s', bs', hrun, h0, hk, hne⟩ | ⟨s', hrun, hsame⟩ :=
    smalloc_small_cases os h.represents hprod
  · have hd := hk.represents.bounds hk.mem
    have hroom := hk.size_le
    have hcall : (allocator.scalloc os num size).run t.heap = .ok (d.addr + 32,
        { s' with mem := s'.mem.memset (d.addr + 32) 0 (num * size) }) := by
      simp only [allocator, scalloc, hmul, StateT.run_bind, hrun, ok_bind,
        if_neg (by omega : ¬d.addr + 32 = 0), StateT.run_modify, pure_bind]
      rfl
    have hk' := hk.write hne (m := s'.mem.memset (d.addr + 32) 0 (num * size)) (fun x hx =>
      Memory.memset_agree s'.mem (b := x) (k := 1) (by omega) x le_rfl (by omega))
    rw [hcall, Session.record_pointer _ _ _ _ _ (by omega : d.addr + 32 ≠ 0)] at ht
    subst ht
    obtain ⟨hheld, hkeep⟩ := h.given ⟨_, _, _, none⟩ hk' h0 (fun e he => he) h.room rfl
    refine ⟨⟨bs', hheld⟩, _, rfl, fun e he _ => hkeep e he, fun _ => ⟨by simp, fun i hi => ?_⟩⟩
    simp only [Memory.memset]
    rw [if_pos (by omega)]
  · have hcall : (allocator.scalloc os num size).run t.heap = .ok (0, s') := by
      simp only [allocator, scalloc, hmul, StateT.run_bind, hrun, ok_bind, if_true, pure_run]
    rw [hcall, Session.record_null] at ht
    subst ht
    obtain ⟨hheld, hkeep⟩ := h.unchanged ⟨s', t.live, _, none⟩ hsame rfl
    exact ⟨⟨bs, hheld⟩, 0, rfl, hkeep, fun h0 => absurd rfl h0⟩

theorem Held.sfree_step (h : Held t bs)
    (hsize : p = 0 ∨ (metadataAt t.heap.mem (header p)).size < mmapAllocationLimit)
    (hs : allocator.next t (.sfree p) = some t') : (∃ bs', Held t' bs') ∧
      ∃ q, t'.last = some (.sfree p, q) ∧ Honours t t' q (.sfree p) := by
  obtain ⟨hp | ⟨e, he, hep⟩, ht⟩ := Allocator.next_sfree hs
  · subst hp
    have hrun : (allocator.sfree 0).run t.heap = .ok ((), t.heap) := by
      simp only [allocator, sfree, if_pos, pure_run]
    rw [hrun, Session.recordFree_ok, Session.dropped_null h.ne_null] at ht
    subst ht
    obtain ⟨hheld, hkeep⟩ := h.unchanged ⟨t.heap, t.live, _, none⟩ rfl rfl
    exact ⟨⟨bs, hheld⟩, 0, rfl, hkeep⟩
  · obtain ⟨b, hb, hu, hpb, hn⟩ := h.room e he
    obtain rfl : p = b.addr + 32 := hep ▸ hpb
    have hbound := h.represents.bounds hb
    have hlt : b.size < mmapAllocationLimit := by
      rcases hsize with h0 | hsize
      · omega
      · obtain ⟨pre, post, rfl⟩ := List.append_of_mem hb
        rwa [header_of_lt (by omega), h.represents.header] at hsize
    obtain ⟨s', bs', hrun, hrep, hkept⟩ := sfree_kept h.represents hb hu hlt
    rw [show (allocator.sfree (b.addr + 32)).run t.heap = _ from hrun,
      Session.recordFree_ok] at ht
    subst ht
    have hother {d : ℕ × ℕ} (hd : d ∈ t.live) (hne : d.1 ≠ b.addr + 32) : ∃ c,
        c.isFree = false ∧ d.1 = c.addr + 32 ∧ d.2 ≤ c.size ∧ Kept t.heap s' bs' c := by
      obtain ⟨c, hc, hcu, hpc, hnc⟩ := h.room d hd
      exact ⟨c, hcu, hpc, hnc, hkept c hc hcu (by omega)⟩
    refine ⟨⟨bs', hrep, fun d hd => ?_, fun d hd => ?_⟩, 0, rfl, fun d hd hne => ⟨?_, ?_⟩⟩
    · obtain ⟨hd, hne⟩ := Session.mem_dropped.mp hd
      obtain ⟨c, hcu, hpc, hnc, hk⟩ := hother hd hne
      exact ⟨c, hk.1, hcu, hpc, hnc⟩
    · exact h.pos d (Session.mem_dropped.mp hd).1
    · exact Session.mem_dropped.mpr ⟨hd, hne⟩
    · obtain ⟨c, -, hpc, hnc, hk⟩ := hother hd hne
      exact hk.2.sub (by omega) (by omega)

/-- `srealloc` of a pointer the program holds. -/
theorem Held.srealloc_step (h : Held t bs) (hok : StaysInHeap t (.srealloc os p size))
    (hs : allocator.next t (.srealloc os p size) = some t') : (∃ bs', Held t' bs') ∧
      (t'.fault = none → ∃ q, t'.last = some (.srealloc os p size, q) ∧
        Honours t t' q (.srealloc os p size)) := by
  obtain ⟨hsize, hok⟩ := hok
  obtain ⟨⟨hp | ⟨e, he, hep⟩, -⟩, ht⟩ := Allocator.next_srealloc hs
  · -- `srealloc` of null is `smalloc`
    subst hp
    have hcall : (allocator.srealloc os 0 size).run t.heap = (smalloc os size).run t.heap := by
      by_cases hlegal : size = 0 ∨ maxAllocation < size
      · simp only [allocator, srealloc, smalloc, if_pos hlegal]
      · simp only [allocator, srealloc, if_neg hlegal, if_true]
    rw [hcall, Session.dropped_null h.ne_null] at ht
    obtain ⟨d, s', bs', hrun, h0, hk, -⟩ | ⟨s', hrun, hsame⟩ :=
      smalloc_small_cases os h.represents hsize
    · rw [hrun, Session.record_pointer _ _ _ _ _ (by omega : d.addr + 32 ≠ 0)] at ht
      subst ht
      obtain ⟨hheld, hkeep⟩ := h.given ⟨s', _, _, none⟩ hk h0 (fun e he => he) h.room rfl
      refine ⟨⟨bs', hheld⟩, fun _ => ⟨_, rfl, fun h0 => by simp at h0, fun _ =>
        ⟨fun e he _ => hkeep e he, by simp, fun n hn => absurd rfl (h.ne_null _ hn)⟩⟩⟩
    · rw [hrun, Session.record_null] at ht
      subst ht
      obtain ⟨hheld, hkeep⟩ := h.unchanged ⟨s', t.live, _, none⟩ hsame rfl
      exact ⟨⟨bs, hheld⟩, fun _ => ⟨0, rfl, fun _ => hkeep, fun h0 => absurd rfl h0⟩⟩
  obtain ⟨b, hb, hu, hpb, hn⟩ := h.room e he
  obtain rfl : p = b.addr + 32 := hep ▸ hpb
  have hbound := h.represents.bounds hb
  have hpos := h.pos e he
  obtain ⟨pre, post, rfl⟩ := List.append_of_mem hb
  obtain h0 | ⟨hlt, hcase⟩ := hok
  · omega
  rw [header_of_lt (by omega), h.represents.header] at hlt
  obtain ⟨d, s', bs', hrun, h0, hk, hbytes⟩ | hrun | hrun := srealloc_small_cases os h.represents hu
    (by omega) hlt hsize (hcase pre b post h.represents rfl)
  · rw [show (allocator.srealloc os (b.addr + 32) size).run t.heap = _ from hrun,
      Session.record_pointer _ _ _ _ _ (by omega : d.addr + 32 ≠ 0)] at ht
    subst ht
    have hothers (f : ℕ × ℕ) (hf : f ∈ t.dropped (b.addr + 32)) : ∃ c ∈ pre ++ post,
        c.isFree = false ∧ f.1 = c.addr + 32 ∧ f.2 ≤ c.size := by
      obtain ⟨hf, hne⟩ := Session.mem_dropped.mp hf
      obtain ⟨c, hc, hcu, hpc, hnc⟩ := h.room f hf
      refine ⟨c, ?_, hcu, hpc, hnc⟩
      simp only [List.mem_append, List.mem_cons] at hc ⊢
      rcases hc with hc | rfl | hc
      · exact .inl hc
      · exact absurd hpc hne
      · exact .inr hc
    obtain ⟨hheld, hkeep⟩ := h.given ⟨s', _, _, none⟩ hk h0
      (fun f hf => (Session.mem_dropped.mp hf).1) hothers rfl
    refine ⟨⟨bs', hheld⟩, fun _ => ⟨_, rfl, fun h0 => by simp at h0, fun _ =>
      ⟨fun f hf hne => hkeep f (Session.mem_dropped.mpr ⟨hf, hne⟩), by simp, fun n hn i hi => ?_⟩⟩⟩
    obtain ⟨c, hc, -, hpc, hnc⟩ := h.room _ hn
    obtain rfl : c = b := h.represents.eq_of_addr hc hb (by simp only at hpc; omega)
    exact hbytes i (by simp only at hnc; omega)
  · rw [show (allocator.srealloc os (b.addr + 32) size).run t.heap = _ from hrun,
      Session.record_null] at ht
    subst ht
    obtain ⟨hheld, hkeep⟩ := h.unchanged ⟨t.heap, t.live, _, none⟩ rfl rfl
    exact ⟨⟨_, hheld⟩, fun _ => ⟨0, rfl, fun _ => hkeep, fun h0 => absurd rfl h0⟩⟩
  · rw [show (allocator.srealloc os (b.addr + 32) size).run t.heap = _ from hrun] at ht
    subst ht
    exact ⟨⟨_, h.represents, h.room, h.pos⟩, fun hf => by cases hf⟩

theorem Held.write_step (h : Held t bs) {i : ℕ} {v : UInt8}
    (hs : allocator.next t (.write p i v) = some t') : (∃ bs', Held t' bs') ∧
      ∃ q, t'.last = some (.write p i v, q) ∧ Honours t t' q (.write p i v) := by
  obtain ⟨⟨e, he, rfl, hi⟩, rfl⟩ := Allocator.next_write hs
  obtain ⟨b, hb, hu, hp, hn⟩ := h.room e he
  obtain ⟨hrep, hother⟩ := h.represents.write_payload hb
    (fun x hx => (Function.update_of_ne (by omega) v t.heap.mem :
      Function.update t.heap.mem (e.1 + i) v x = t.heap.mem x))
  refine ⟨⟨bs, hrep, h.room, h.pos⟩, 0, rfl, fun d hd hne => ⟨hd, ?_⟩⟩
  obtain ⟨c, hc, -, hpc, hnc⟩ := h.room d hd
  exact (hother c hc (by omega)).sub (by omega) (by omega)

theorem Held.step (h : Held t bs) {c : Call} (hok : StaysInHeap t c)
    (hs : allocator.next t c = some t') : (∃ bs', Held t' bs') ∧
      (t'.fault = none → ∃ q, t'.last = some (c, q) ∧ Honours t t' q c) := by
  cases c with
  | smalloc os size => exact (h.smalloc_step hok hs).imp_right fun hc _ => hc
  | scalloc os num size => exact (h.scalloc_step hok hs).imp_right fun hc _ => hc
  | sfree p => exact (h.sfree_step hok hs).imp_right fun hc _ => hc
  | srealloc os p size => exact h.srealloc_step hok hs
  | write p i v => exact (h.write_step hs).imp_right fun hc _ => hc

theorem Held.of_reachable (h : allocator.system.Reachable StaysInHeap t) : ∃ bs, Held t bs := by
  refine h.invariant (I := fun t => ∃ bs, Held t bs) ?_ ?_
  · rintro _ ⟨mem, brk, hpos, hlt, rfl⟩
    exact ⟨[], .empty hpos hlt, by simp [Allocator.fresh], by simp [Allocator.fresh]⟩
  · rintro s c s' ⟨bs, hI⟩ hok hs
    exact (hI.step hok hs).1

end Session

/-- In every run that stays in the `sbrk` heap and merges no block into the one before, memory
holds what the program has stored and what `scalloc` and `srealloc` promise. -/
theorem small_blocks_read_back {s : Session Globals × List (Call × ℕ)}
    (h : (allocator.system.logged allocator.returned).Reachable (fun s c => StaysInHeap s.1 c) s) :
    ∀ p i v, contents s.2 p i = some v →
      (∃ n, (p, n) ∈ s.1.live ∧ i < n) ∧ s.1.heap.mem (p + i) = v :=
  agrees_of_honours (J := fun t => ∃ bs, Held t bs) (fun _ ht => Held.of_reachable ht)
    (fun _ _ _ hj hok hs hf => hj.elim fun _ hh => (hh.step hok hs).2 hf) h

/-- Eight zeros behind another block, the second one overwritten. -/
def zeroedAndWritten : List Call :=
  [.smalloc ⟨true, none⟩ 64, .scalloc ⟨true, none⟩ 2 4, .write 4224 1 7]

theorem small_blocks_read_back_written : ∃ s : Session Globals × List (Call × ℕ),
    contents s.2 4224 1 = some 7 ∧ s.1.heap.mem (4224 + 1) = 7 ∧ s.1.heap.mem (4224 + 7) = 0 := by
  obtain ⟨s, -, hreach, hs⟩ := TransitionSystem.exists_of_run
    (S := allocator.system.logged allocator.returned) (fun s c => StaysInHeap s.1 c)
    zeroedAndWritten (fun s => contents s.2 4224 1 = some 7 ∧ contents s.2 4224 7 = some 0)
    (s := (emptySession, [])) ⟨emptySession_init, rfl⟩
    (fun l hl u => by
      simp only [zeroedAndWritten, List.mem_cons, List.not_mem_nil, or_false] at hl
      rcases hl with rfl | rfl | rfl <;> simp [StaysInHeap, mmapAllocationLimit])
    (by decide +kernel)
  rw [decide_eq_true_eq] at hs
  exact ⟨s, hs.1, (small_blocks_read_back hreach _ _ _ hs.1).2,
    (small_blocks_read_back hreach _ _ _ hs.2).2⟩

end FtfSystems.VirtualMemory.Malloc2

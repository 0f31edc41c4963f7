import FtfSystems.VirtualMemory.Malloc2.MixedResize

/-!
# Large blocks and the regions behind them

A large request gets a region of its own as long as no free block and no block from `sbrk` comes to
the list of `mmap_head`. Such blocks come there through `sfree`, which tells the mapped blocks by
their sizes, and through resizes that split or merge mapped blocks. In every run without those
calls the blocks on both lists are known: each mapped one fills a region.
-/
namespace FtfSystems.VirtualMemory.Malloc2
open Foundation

/-- The `n` bytes at `p` lie in one region that is mapped now. -/
def Backed (s : Heap) (p n : ℕ) : Prop :=
  ∃ r ∈ s.regions, r.addr ≤ p ∧ p + n ≤ r.addr + r.len ∧ r.addr + r.len ≤ 2 ^ 64

instance (s : Heap) (p n : ℕ) : Decidable (Backed s p n) :=
  inferInstanceAs (Decidable (∃ r ∈ s.regions, _))

/-- Calls of programs that give back a block of the size of a mapped one only if it is one, and
resize so that mapped blocks are neither split nor merged. Requests are not restricted. -/
def KeepsMapped (t : Session Globals) : Call → Prop
  | .smalloc _ _ => True
  | .sfree p => p = 0 ∨ ((metadataAt t.heap.mem (header p)).size < mmapAllocationLimit ∨
      ∃ r ∈ t.heap.regions, r.addr = header p) ∧ KeepsEnd t.heap (header p)
  | .srealloc _ oldp size => oldp = 0 ∨ (0 < size → size ≤ maxAllocation →
      Resizes t.heap (header oldp) size)
  | .write _ _ _ => True
  | .scalloc _ _ _ => False

instance (t : Session Globals) : (c : Call) → Decidable (KeepsMapped t c)
  | .smalloc _ _ => inferInstanceAs (Decidable True)
  | .sfree _ => inferInstanceAs (Decidable (_ ∨ _))
  | .srealloc _ _ _ => inferInstanceAs (Decidable (_ ∨ (_ → _ → _)))
  | .write _ _ _ => inferInstanceAs (Decidable True)
  | .scalloc _ _ _ => inferInstanceAs (Decidable False)

/-- If the latest call was a large request that returned a pointer, the bytes asked for lie
in one mapped region. -/
def LargeBacked (t : Session Globals) : Prop :=
  ∀ os size p, t.last = some (.smalloc os size, p) → mmapAllocationLimit ≤ size → p ≠ 0 →
    Backed t.heap p size

/-- The payload of a mapped block lies in its region. -/
theorem backed_of_mapped {s : Heap} {bs : List Block} {m : Option Block} {b : Block}
    (h : MixedHeap s bs m) (hb : b ∈ m.toList ++ bs) (hmap : IsMapped s.regions b) {n : ℕ}
    (hn : n ≤ b.size) : Backed s (b.addr + 32) n := by
  obtain ⟨r, hr, he⟩ := hmap
  have hlen := (h.filled b hb r hr he).len_eq
  have hlt := (h.placed r hr).lt
  exact ⟨r, hr, by omega, by omega, hlt.le⟩

/-- `srealloc` of null is a request. -/
theorem srealloc_null (os : OsAnswer) (size : ℕ) (s : Heap) :
    (srealloc os 0 size).run s = (smalloc os size).run s := by
  by_cases hlegal : size = 0 ∨ maxAllocation < size
  · rw [srealloc, smalloc, if_pos hlegal, if_pos hlegal]
  · rw [srealloc, if_neg hlegal, if_pos rfl]

/-- Every pointer held is the payload of a block in use that has the bytes asked for. -/
def Room (bs : List Block) (live : List (ℕ × ℕ)) : Prop :=
  ∀ e ∈ live, 0 < e.2 ∧ ∃ b ∈ bs, b.isFree = false ∧ e.1 = b.addr + 32 ∧ e.2 ≤ b.size

namespace Room
variable {bs bs' : List Block} {live : List (ℕ × ℕ)} {p : Block}

theorem mono (h : Room bs live) (hbs : ∀ c ∈ bs, c.isFree = false → c ∈ bs') : Room bs' live := by
  intro e he
  obtain ⟨hpos, c, hc, hu, hp, hn⟩ := h e he
  exact ⟨hpos, c, hbs c hc hu, hu, hp, hn⟩

theorem cons (h : Room bs live) {size : ℕ} (hpos : 0 < size) (hp : p ∈ bs) (hu : p.isFree = false)
    (hsize : size ≤ p.size) : Room bs ((p.addr + 32, size) :: live) := by
  intro e he
  rcases List.mem_cons.mp he with rfl | he
  · exact ⟨hpos, p, hp, hu, rfl, hsize⟩
  · exact h e he

theorem dropped {t : Session Globals} (h : Room bs t.live) {a : ℕ}
    (hbs : ∀ c ∈ bs, c.isFree = false → c.addr ≠ a → c ∈ bs') :
    Room bs' (t.dropped (a + 32)) := by
  intro e he
  obtain ⟨hold, hne⟩ := Session.mem_dropped.mp he
  obtain ⟨hpos, c, hc, hu, hp, hn⟩ := h e hold
  exact ⟨hpos, c, hbs c hc hu (by omega), hu, hp, hn⟩

end Room

/-- The blocks that a session works with, from `sbrk` and from `mmap`. -/
structure Mixed (t : Session Globals) (bs : List Block) (m : Option Block) : Prop where
  heap : MixedHeap t.heap bs m
  room : Room (m.toList ++ bs) t.live

namespace Mixed
variable {t t' : Session Globals} {bs bs' : List Block} {m m' : Option Block} {b : Block}
  {os : OsAnswer} {size : ℕ}

/-- A call that does not return, or returns null. -/
theorem unchanged (h : Mixed t bs m) (hheap : t'.heap = { t.heap with calls := t'.heap.calls })
    (hlive : t'.live = t.live) : Mixed t' bs m where
  heap := h.heap.frame (by rw [hheap]) fun _ _ => by
    rw [hheap]
    exact Memory.AgreeOn.refl _ _ _
  room := hlive ▸ h.room

/-- A request that returns, whichever call has made it. -/
theorem request (h : Mixed t bs m) (c : Call) {q : ℕ} {s' : Heap}
    (hrun : (Malloc2.smalloc os size).run t.heap = .ok (q, s')) :
    (∃ bs' m', Mixed (t.record c size t.live (.ok (q, s'))) bs' m') ∧
      (mmapAllocationLimit ≤ size → q ≠ 0 → Backed s' q size) := by
  obtain ⟨rfl, heq⟩ | ⟨hpos, p, bs', m', rfl, hh⟩ := h.heap.smalloc_ok hrun
  · exact ⟨⟨bs, m, h.unchanged heq rfl⟩, fun _ h0 => absurd rfl h0⟩
  · have hp := (hh.mem p hh.inUse).mpr (.inl rfl)
    have hroom : Room (m'.toList ++ bs') t.live :=
      h.room.mono fun c hc hu => (hh.mem c hu).mpr (.inr hc)
    rw [Session.record_pointer _ _ _ _ _ (by omega : p.addr + 32 ≠ 0)]
    refine ⟨⟨bs', m', hh.mixed, hroom.cons hpos hp hh.inUse hh.size_le⟩, fun hlarge _ => ?_⟩
    have hmap : IsMapped s'.regions p := by
      rw [(hh.large hlarge).2]
      exact ⟨_, List.mem_cons_self, rfl⟩
    exact backed_of_mapped hh.mixed hp hmap hh.size_le

theorem smalloc (h : Mixed t bs m) (hs : allocator.next t (.smalloc os size) = some t') :
    ∃ bs' m', Mixed t' bs' m' := by
  obtain ⟨-, rfl⟩ := Allocator.next_smalloc hs
  cases hrun : (allocator.smalloc os size).run t.heap with
  | error f => exact ⟨bs, m, h.unchanged rfl rfl⟩
  | ok r => exact (h.request _ hrun).1

/-- A pointer held is the payload of a block in use, whose header it leads to. -/
theorem block_of_holds (h : Mixed t bs m) {p : ℕ} (hp : t.Holds p) (h0 : p ≠ 0) :
    ∃ b ∈ m.toList ++ bs, b.isFree = false ∧ 0 < b.size ∧ p = b.addr + 32 ∧ header p = b.addr := by
  obtain ⟨e, he, rfl⟩ := hp.resolve_left h0
  obtain ⟨hpos, b, hb, hu, hp, hn⟩ := h.room e he
  have hlt := (h.heap.bounds hb).2
  refine ⟨b, hb, hu, by omega, hp, ?_⟩
  rw [hp, header_of_lt (by omega)]

/-- The program stores a byte in a payload it holds. -/
theorem write (h : Mixed t bs m) {p i : ℕ} {v : UInt8}
    (hs : allocator.next t (.write p i v) = some t') : Mixed t' bs m := by
  obtain ⟨⟨e, he, rfl, hi⟩, rfl⟩ := Allocator.next_write hs
  obtain ⟨-, b, hb, -, hp, hn⟩ := h.room e he
  refine ⟨h.heap.write_payload hb rfl fun x hx => Function.update_of_ne ?_ _ _, h.room⟩
  omega

theorem sfree (h : Mixed t bs m) {p : ℕ} (hok : KeepsMapped t (.sfree p))
    (hs : allocator.next t (.sfree p) = some t') : ∃ bs' m', Mixed t' bs' m' := by
  obtain ⟨hp, rfl⟩ := Allocator.next_sfree hs
  cases hrun : (allocator.sfree p).run t.heap with
  | error f => exact ⟨bs, m, h.unchanged rfl rfl⟩
  | ok r =>
    obtain ⟨u, s'⟩ := r
    by_cases h0 : p = 0
    · subst h0
      simp only [allocator, Malloc2.sfree, if_pos, pure_run] at hrun
      cases hrun
      refine ⟨bs, m, h.unchanged rfl (Session.dropped_null fun e he => ?_)⟩
      obtain ⟨-, b, -, -, hp, -⟩ := h.room e he
      omega
    · obtain ⟨hsize, hend⟩ := hok.resolve_left h0
      obtain ⟨b, hb, hu, hpos, rfl, hheader⟩ := h.block_of_holds hp h0
      rw [hheader, (h.heap.sized hb hu).size_eq] at hsize
      rw [hheader] at hend
      obtain ⟨bs', m', hd⟩ := h.heap.sfree_ok hb hu hsize hend hrun
      exact ⟨bs', m', hd.mixed,
        h.room.dropped fun c hc hu hne => (hd.mem c hu).mpr ⟨hc, hne⟩⟩

theorem srealloc (h : Mixed t bs m) {p : ℕ} (hok : KeepsMapped t (.srealloc os p size))
    (hs : allocator.next t (.srealloc os p size) = some t') : ∃ bs' m', Mixed t' bs' m' := by
  obtain ⟨⟨hp, -⟩, rfl⟩ := Allocator.next_srealloc hs
  cases hrun : (allocator.srealloc os p size).run t.heap with
  | error f => exact ⟨bs, m, h.unchanged rfl rfl⟩
  | ok r =>
    obtain ⟨q, s'⟩ := r
    by_cases h0 : p = 0
    · subst h0
      have hnull : t.dropped 0 = t.live := Session.dropped_null fun e he => by
        obtain ⟨-, b, -, -, hp, -⟩ := h.room e he
        omega
      rw [hnull]
      exact (h.request _ ((srealloc_null os size t.heap).symm.trans hrun)).1
    · have hresize := hok.resolve_left h0
      obtain ⟨b, hb, hu, hpos, rfl, hheader⟩ := h.block_of_holds hp h0
      rw [hheader] at hresize
      obtain ⟨rfl, rfl⟩ | ⟨hsize, p, bs', m', rfl, hr⟩ :=
        h.heap.srealloc_ok hb hu hpos hresize hrun
      · exact ⟨bs, m, h.unchanged rfl rfl⟩
      · rw [Session.record_pointer _ _ _ _ _ (by omega : p.addr + 32 ≠ 0)]
        have hroom : Room (m'.toList ++ bs') (t.dropped (b.addr + 32)) :=
          h.room.dropped fun c hc hu hne => (hr.mem c hu).mpr (.inr ⟨hc, hne⟩)
        exact ⟨bs', m', hr.mixed,
          hroom.cons hsize ((hr.mem p hr.inUse).mpr (.inl rfl)) hr.inUse hr.size_le⟩

/-- One call of a program that meets `KeepsMapped`. -/
theorem step {c : Call} (h : Mixed t bs m) (hok : KeepsMapped t c)
    (hs : allocator.next t c = some t') : ∃ bs' m', Mixed t' bs' m' := by
  cases c with
  | smalloc os size => exact h.smalloc hs
  | sfree p => exact h.sfree hok hs
  | srealloc os p size => exact h.srealloc hok hs
  | write p i v => exact ⟨bs, m, h.write hs⟩
  | scalloc os num size => exact hok.elim

end Mixed

/-- A large request is backed when it returns, in a session whose blocks are known. -/
theorem largeBacked_step {t t' : Session Globals} {bs : List Block} {m : Option Block} {c : Call}
    (h : LargeBacked t) (hmixed : Mixed t bs m) (hok : KeepsMapped t c)
    (hs : allocator.next t c = some t') : LargeBacked t' := by
  intro os size p hlast hlarge hp
  cases c with
  | smalloc os' size' =>
    obtain ⟨-, rfl⟩ := Allocator.next_smalloc hs
    cases hrun : (allocator.smalloc os' size').run t.heap with
    | error f =>
      rw [hrun] at hlast
      exact h os size p hlast hlarge hp
    | ok r =>
      rw [hrun] at hlast
      obtain ⟨rfl, rfl⟩ : size' = size ∧ r.1 = p := by
        simp only [Session.record, Option.some.injEq, Prod.mk.injEq, Call.smalloc.injEq] at hlast
        exact ⟨hlast.1.2, hlast.2⟩
      exact (hmixed.request (.smalloc os' size') hrun).2 hlarge hp
  | sfree q =>
    obtain ⟨-, rfl⟩ := Allocator.next_sfree hs
    obtain ⟨f, hf⟩ | hq := t.recordFree_cases q ((allocator.sfree q).run t.heap)
    · rw [hf] at hlast ⊢
      exact h os size p hlast hlarge hp
    · simp [hq] at hlast
  | srealloc os' q size' =>
    obtain ⟨-, rfl⟩ := Allocator.next_srealloc hs
    obtain ⟨f, hf⟩ | ⟨r, s', -, hr, -⟩ := t.record_cases (.srealloc os' q size') size' (t.dropped q)
      ((allocator.srealloc os' q size').run t.heap)
    · rw [hf] at hlast ⊢
      exact h os size p hlast hlarge hp
    · simp [hr] at hlast
  | write q i v =>
    obtain ⟨-, rfl⟩ := Allocator.next_write hs
    simp [Session.recordWrite] at hlast
  | scalloc os' num size' => exact hok.elim

/-- In every run that meets `KeepsMapped`, the bytes of a large request lie in one mapped region
when the request returns, and a pointer held to a mapped block has its bytes in its region. -/
theorem large_requests_backed {t : Session Globals}
    (h : allocator.system.Reachable KeepsMapped t) : LargeBacked t ∧
      ∀ e ∈ t.live, (∃ r ∈ t.heap.regions, r.addr + 32 = e.1) → Backed t.heap e.1 e.2 := by
  have hinv : LargeBacked t ∧ ∃ bs m, Mixed t bs m := by
    refine h.invariant (I := fun t => LargeBacked t ∧ ∃ bs m, Mixed t bs m) ?_ ?_
    · rintro _ ⟨mem, brk, hpos, hlt, rfl⟩
      refine ⟨fun os size p hlast => ?_, [], none, MixedHeap.init mem hpos hlt, ?_⟩
      · simp [Allocator.fresh] at hlast
      · simp [Room, Allocator.fresh]
    · rintro s c s' ⟨hback, bs, m, hI⟩ hok hs
      exact ⟨largeBacked_step hback hI hok hs, hI.step hok hs⟩
  obtain ⟨hback, bs, m, hI⟩ := hinv
  refine ⟨hback, fun e he hregion => ?_⟩
  obtain ⟨-, b, hb, -, hp, hn⟩ := hI.room e he
  obtain ⟨r, hr, hra⟩ := hregion
  rw [hp]
  exact backed_of_mapped hI.heap hb ⟨r, hr, by omega⟩ hn

/-- Blocks of both kinds are requested, freed, merged and resized, then two large ones requested. -/
def mixedRun : List Call :=
  [.smalloc ⟨true, none⟩ 1000, .smalloc ⟨true, none⟩ 2000, .smalloc ⟨true, some 1048576⟩ 131072,
    .smalloc ⟨true, some 2097152⟩ 200000, .smalloc ⟨true, none⟩ 3000, .sfree 4128, .sfree 5160,
    .srealloc ⟨true, none⟩ 2097184 199900, .smalloc ⟨true, none⟩ 2500,
    .srealloc ⟨true, none⟩ 4128 2900, .sfree 2097184, .sfree 1048608,
    .smalloc ⟨true, some 4194304⟩ 300000, .smalloc ⟨true, some 8388608⟩ 150000]

theorem large_requests_backed_mixed : ∃ t, allocator.system.Reachable KeepsMapped t ∧
    t.live = [(8388640, 150000), (4194336, 300000), (4128, 2900), (7192, 3000)] ∧
      Backed t.heap 8388640 150000 ∧ Backed t.heap 4194336 300000 := by
  have hrun : (allocator.system.guardedRun KeepsMapped emptySession mixedRun).any (fun t =>
      t.last = some (.smalloc ⟨true, some 8388608⟩ 150000, 8388640) ∧
        t.live = [(8388640, 150000), (4194336, 300000), (4128, 2900), (7192, 3000)] ∧
        ∃ r ∈ t.heap.regions, r.addr + 32 = 4194336) = true := by decide +kernel
  obtain ⟨t, hreach, ht⟩ := TransitionSystem.exists_of_guardedRun _ _ emptySession_init hrun
  obtain ⟨hlast, hlive, hregion⟩ := of_decide_eq_true ht
  have h := large_requests_backed hreach
  refine ⟨t, hreach, hlive, h.1 _ _ _ hlast (by decide) (by decide), ?_⟩
  exact h.2 (4194336, 300000) (by simp [hlive]) hregion

/-- A request, a pointer given back or a block resized. -/
def RequestFreeOrResize : Call → Prop
  | .smalloc _ _ => True
  | .sfree _ => True
  | .srealloc _ _ _ => True
  | _ => False

/-- A mapped block of 200 KiB is shrunk to 100 KiB and freed, then 300 KiB are requested. -/
def shrunkMapped : List Call :=
  [.smalloc ⟨true, none⟩ 1000, .smalloc ⟨true, some 1048576⟩ 204800,
    .srealloc ⟨true, none⟩ 1048608 102400, .sfree 1048608,
    .smalloc ⟨true, some 2097152⟩ 307200]

/-- The request returns the old block again, 102400 bytes short of its region. -/
theorem large_request_exceeds_region : ∃ t,
    allocator.system.run emptySession shrunkMapped = some t ∧
      allocator.system.Reachable (fun _ c => RequestFreeOrResize c) t ∧ ¬LargeBacked t := by
  obtain ⟨t, hrun, hreach, hlast⟩ := TransitionSystem.exists_of_run
    (fun _ c => RequestFreeOrResize c) shrunkMapped
    (fun t => t.last = some (.smalloc ⟨true, some 2097152⟩ 307200, 1048608) ∧
      ¬Backed t.heap 1048608 307200) emptySession_init
    (by simp [shrunkMapped, RequestFreeOrResize]) (by decide +kernel)
  rw [decide_eq_true_eq] at hlast
  exact ⟨t, hrun, hreach, fun h => hlast.2 (h _ _ _ hlast.1 (by decide) (by decide))⟩

end FtfSystems.VirtualMemory.Malloc2

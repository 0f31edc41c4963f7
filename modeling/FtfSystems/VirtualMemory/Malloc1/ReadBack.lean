import FtfSystems.VirtualMemory.CallocProduct
import FtfSystems.VirtualMemory.Contents
import FtfSystems.VirtualMemory.Malloc1.Contract
import FtfSystems.VirtualMemory.ReallocFailure

/-!
# The first allocator keeps the bytes of the program

Every call honours what it owes to the bytes of the program: `scalloc` returns zeros, `srealloc`
copies what the old block held, and no call writes to another payload.
-/
namespace FtfSystems.VirtualMemory.Malloc1
open Foundation

section
variable {t t' : Session Globals} {bs bs' : List Block} {os : OsAnswer} {p q size : ℕ}

/-- The other payloads and pointers after a call that returned `q`. -/
theorem Holding.keeps (h : Holding t bs) (h' : Holding t' bs') {c : Call} {n : ℕ}
    {live : List (ℕ × ℕ)} (halone : LeavesAlone t bs c t' bs') (hlast : t'.last = some (c, q))
    (hlive : t'.live = if q = 0 then t.live else (q, n) :: live)
    (hsub : ∀ e ∈ t.live, e.1 ≠ c.pointer → e ∈ live) : Keeps t t' c.pointer := by
  refine keeps_of_nodup (fun e he => ?_) hlive h'.nodup hsub fun e he hq hp => ?_
  · obtain ⟨b, -, -, hb, -⟩ := h.room e he
    omega
  · refine halone.payload e he (fun heq => hq ?_) hp
    rw [hlast, Option.some.injEq, Prod.mk.injEq] at heq
    exact heq.2.symm

/-- An `srealloc` that grows a block returns another one with the old bytes. -/
theorem srealloc_copies {s s' : Heap} {b : Block} (h : Represents s bs) (hb : b ∈ bs)
    (hu : b.isFree = false) (hlegal : ¬(size = 0 ∨ maxAllocation < size)) (hgrow : b.size < size)
    (hrun : (srealloc os (b.addr + 32) size).run s = .ok (q, s')) :
    q ≠ 0 ∧ ∀ i < b.size, s'.mem (q + i) = s.mem (b.addr + 32 + i) := by
  have hbound := h.bounds hb
  have hheader : (metadataAt s.mem b.addr).size = b.size := by
    obtain ⟨pre, post, rfl⟩ := List.append_of_mem hb
    rw [h.header]
  rw [srealloc, if_neg hlegal, if_neg (by omega : ¬b.addr + 32 = 0),
    header_of_lt (by omega : b.addr + 32 < 2 ^ 64), StateT.run_bind,
    getSize_run (by omega : b.addr ≠ 0), ok_bind, hheader, if_neg (by omega : ¬size ≤ b.size)]
    at hrun
  obtain ⟨tmp, s₁, hmalloc, hrun⟩ := bind_run_ok hrun
  obtain ⟨p, s₁', bs₁, hok, hserved⟩ | ⟨s₁', hok, -, -⟩ := smalloc_total os size h
  swap
  · -- null is no destination
    rw [hok] at hmalloc
    cases hmalloc
    rw [if_neg null_ne_minusOne] at hrun
    obtain ⟨_, s₂, hmove, -⟩ := bind_run_ok hrun
    rw [moveBytes_null _ (by omega)] at hmove
    cases hmove
  rw [hok] at hmalloc
  cases hmalloc
  have hp := hserved.represents.bounds hserved.mem
  have hroom := hserved.size_le
  rw [if_neg (by simp only [minusOne]; omega : ¬p.addr + 32 = minusOne)] at hrun
  obtain ⟨⟨⟩, s₂, hmove, hrun⟩ := bind_run_ok hrun
  obtain ⟨⟨⟩, s₃, hfree, hrun⟩ := bind_run_ok hrun
  cases hrun
  obtain rfl := moveBytes_run_ok hmove
  have hserved₂ := hserved.write (m := s₁.mem.memmove (p.addr + 32) (b.addr + 32) size)
    (fun x hx => Memory.memmove_agree s₁.mem (b := x) (k := 1) (by omega) x le_rfl (by omega))
  obtain ⟨pre', post', rfl⟩ := List.append_of_mem (hserved.keeps b hb hu)
  obtain ⟨s₃', hok', hg⟩ := sfree_run hserved₂.represents hu
  rw [hok'] at hfree
  cases hfree
  refine ⟨by omega, fun i hi => ?_⟩
  have hcopied := hg.payload p hserved₂.mem hserved₂.inUse (p.addr + 32 + i) (by omega) (by omega)
  rw [hcopied]
  simp only [Memory.memmove_at s₁.mem (by omega : i < size)]
  exact hserved.payload b hb hu _ (by omega) (by omega)

theorem Holding.honours_smalloc (h : Holding t bs)
    (hs : allocator.next t (.smalloc os size) = some t') (hf : t'.fault = none) :
    ∃ q, t'.last = some (.smalloc os size, q) ∧ Honours t t' q (.smalloc os size) := by
  obtain ⟨bs', hhold, halone, -⟩ := h.smalloc_step hs
  obtain ⟨q, -, hlast, hlive⟩ := Session.record_returned (Allocator.next_smalloc hs).2 hf
  exact ⟨q, hlast, h.keeps hhold halone hlast hlive fun e he _ => he⟩

theorem Holding.honours_scalloc (h : Holding t bs) {num : ℕ} (hprod : num * size < 2 ^ 64)
    (hs : allocator.next t (.scalloc os num size) = some t') (hf : t'.fault = none) :
    ∃ q, t'.last = some (.scalloc os num size, q) ∧ Honours t t' q (.scalloc os num size) := by
  obtain ⟨bs', hhold, halone, -⟩ := h.scalloc_step hprod hs
  obtain ⟨q, hrun, hlast, hlive⟩ := Session.record_returned (Allocator.next_scalloc hs).2 hf
  refine ⟨q, hlast, h.keeps hhold halone hlast hlive fun e he _ => he, fun hq => ?_⟩
  rw [if_neg hq] at hlive
  have hmul : wmul size num = num * size := by
    rw [wmul_of_lt (by rwa [Nat.mul_comm]), Nat.mul_comm]
  have hzeroed : (zeroed (smalloc os (wmul size num)) (wmul size num)).run t.heap =
      .ok (q, t'.heap) := hrun
  rw [hmul] at hzeroed
  obtain ⟨s₁, -, hmem⟩ := zeroed_run_ok hzeroed hq
  refine ⟨by simp [hlive], fun i hi => ?_⟩
  rw [hmem, Memory.memset, if_pos (by omega)]

theorem Holding.honours_sfree (h : Holding t bs) (hs : allocator.next t (.sfree p) = some t')
    (hf : t'.fault = none) :
    ∃ q, t'.last = some (.sfree p, q) ∧ Honours t t' q (.sfree p) := by
  obtain ⟨bs', hhold, halone, -⟩ := h.sfree_step hs
  have hlast : t'.last = some (.sfree p, 0) := by
    obtain ⟨-, ht⟩ := Allocator.next_sfree hs
    obtain ⟨f, hfault⟩ | hlast := t.recordFree_cases p ((allocator.sfree p).run t.heap)
    · rw [ht, hfault] at hf
      cases hf
    · rw [ht, hlast]
  refine ⟨0, hlast, fun e he hp => ⟨?_, halone.payload e he (fun heq => ?_) hp⟩⟩
  · rw [Allocator.next_sfree_live hs hf]
    exact Session.mem_dropped.mpr ⟨he, hp⟩
  · rw [hlast, Option.some.injEq, Prod.mk.injEq] at heq
    obtain ⟨b, -, -, hb, -⟩ := h.room e he
    omega

theorem Holding.honours_srealloc (h : Holding t bs)
    (hs : allocator.next t (.srealloc os p size) = some t') (hf : t'.fault = none) :
    ∃ q, t'.last = some (.srealloc os p size, q) ∧ Honours t t' q (.srealloc os p size) := by
  obtain ⟨bs', hhold, halone, -⟩ := h.srealloc_step hs
  obtain ⟨⟨hheld, -⟩, ht⟩ := Allocator.next_srealloc hs
  obtain ⟨q, hrun, hlast, hlive⟩ := Session.record_returned ht hf
  have hkeep := h.keeps hhold halone hlast hlive fun e he hp => Session.mem_dropped.mpr ⟨he, hp⟩
  have hmem (hq : q ≠ 0) : (q, size) ∈ t'.live := by
    rw [hlive, if_neg hq]
    exact List.mem_cons_self
  have hsame (hheap : t'.heap = t.heap) (hq : q = 0) : Keeps t t' 0 := fun e he _ => by
    rw [hlive, if_pos hq, hheap]
    exact ⟨he, Memory.AgreeOn.refl _ _ _⟩
  refine ⟨q, hlast, ?_⟩
  by_cases hlegal : size = 0 ∨ maxAllocation < size
  · have hnull : (allocator.srealloc os p size).run t.heap = .ok (0, t.heap) := by
      simp only [allocator, srealloc, if_pos hlegal, pure_run]
    rw [hnull, Except.ok.injEq, Prod.mk.injEq] at hrun
    obtain ⟨rfl, hheap⟩ := hrun
    exact ⟨hsame hheap.symm, fun h0 => absurd rfl h0⟩
  obtain rfl | ⟨e, he, rfl⟩ := hheld
  · refine ⟨fun _ => hkeep, fun hq => ⟨hkeep, hmem hq, fun n hn => ?_⟩⟩
    obtain ⟨b, -, -, hb, -⟩ := h.room _ hn
    simp at hb
  obtain ⟨b, hb, hu, hpb, -⟩ := h.room e he
  have hbound := h.represents.bounds hb
  have hroom (n : ℕ) (hn : (e.1, n) ∈ t.live) : n ≤ b.size := by
    obtain ⟨c, hc, -, hpc, hnc⟩ := h.room _ hn
    have hcb : c = b := h.represents.eq_of_addr hc hb (by simp only at hpc; omega)
    rw [← hcb]
    exact hnc
  have hrun' : (srealloc os (b.addr + 32) size).run t.heap = .ok (q, t'.heap) := hpb ▸ hrun
  by_cases hfits : size ≤ b.size
  · have hstays : (srealloc os (b.addr + 32) size).run t.heap = .ok (b.addr + 32, t.heap) := by
      obtain ⟨pre, post, rfl⟩ := List.append_of_mem hb
      simp only [srealloc, if_neg hlegal, if_neg (by omega : ¬b.addr + 32 = 0),
        header_of_lt (by omega : b.addr + 32 < 2 ^ 64), StateT.run_bind,
        getSize_run (by omega : b.addr ≠ 0), ok_bind, h.represents.header, if_pos hfits, pure_run]
    rw [hstays, Except.ok.injEq, Prod.mk.injEq] at hrun'
    obtain ⟨rfl, hheap⟩ := hrun'
    refine ⟨hsame hheap.symm, fun hq => ⟨hkeep, hmem hq, fun n _ i _ => ?_⟩⟩
    rw [hpb, hheap]
  · obtain ⟨hq, hcopy⟩ := srealloc_copies h.represents hb hu hlegal (by omega) hrun'
    refine ⟨fun h0 => absurd h0 hq, fun _ => ⟨hkeep, hmem hq, fun n hn i hi => ?_⟩⟩
    have hn' := hroom n hn
    rw [hcopy i (by omega), hpb]

theorem Holding.honours_write (h : Holding t bs) {i : ℕ} {v : UInt8}
    (hs : allocator.next t (.write p i v) = some t') :
    ∃ q, t'.last = some (.write p i v, q) ∧ Honours t t' q (.write p i v) := by
  obtain ⟨bs', -, halone, -⟩ := h.write_step hs
  obtain ⟨-, rfl⟩ := Allocator.next_write hs
  refine ⟨0, rfl, fun e he hp => ⟨he, halone.payload e he (fun heq => ?_) hp⟩⟩
  simp only [Session.recordWrite, Option.some.injEq, Prod.mk.injEq, true_and] at heq
  obtain ⟨b, -, -, hb, -⟩ := h.room e he
  omega

theorem Holding.honours (h : Holding t bs) {c : Call} (hok : NoOverflow t c)
    (hs : allocator.next t c = some t') (hf : t'.fault = none) :
    ∃ q, t'.last = some (c, q) ∧ Honours t t' q c := by
  cases c with
  | smalloc os size => exact h.honours_smalloc hs hf
  | scalloc os num size => exact h.honours_scalloc hok hs hf
  | sfree p => exact h.honours_sfree hs hf
  | srealloc os p size => exact h.honours_srealloc hs hf
  | write p i v => exact h.honours_write hs

end

/-- In every run whose products do not overflow, memory holds what the program has stored and
what `scalloc` and `srealloc` promise, whatever was called in between. -/
theorem reads_back {s : Session Globals × List (Call × ℕ)}
    (h : (allocator.system.logged allocator.returned).Reachable (fun s c => NoOverflow s.1 c) s) :
    ∀ p i v, contents s.2 p i = some v →
      (∃ n, (p, n) ∈ s.1.live ∧ i < n) ∧ s.1.heap.mem (p + i) = v :=
  agrees_of_honours (J := fun t => ∃ bs, Holding t bs) (fun _ ht => Holding.of_reachable ht)
    (fun _ _ _ hj hok hs hf => hj.elim fun _ hh => hh.honours hok hs hf) h

/-- Eight zeros, the second one overwritten, and a larger block. -/
def zeroedAndMoved : List Call :=
  [.scalloc ⟨true, none⟩ 2 4, .write 4128 1 7, .srealloc ⟨true, none⟩ 4128 16]

theorem reads_back_moved : ∃ s : Session Globals × List (Call × ℕ),
    contents s.2 4168 1 = some 7 ∧ s.1.heap.mem (4168 + 1) = 7 ∧ s.1.heap.mem (4168 + 7) = 0 := by
  obtain ⟨s, -, hreach, hs⟩ := TransitionSystem.exists_of_run
    (S := allocator.system.logged allocator.returned) (fun s c => NoOverflow s.1 c) zeroedAndMoved
    (fun s => contents s.2 4168 1 = some 7 ∧ contents s.2 4168 7 = some 0)
    (s := (emptySession, [])) ⟨emptySession_init, rfl⟩
    (fun l hl u => by
      simp only [zeroedAndMoved, List.mem_cons, List.not_mem_nil, or_false] at hl
      rcases hl with rfl | rfl | rfl <;> simp [NoOverflow]) (by decide +kernel)
  rw [decide_eq_true_eq] at hs
  exact ⟨s, hs.1, (reads_back hreach _ _ _ hs.1).2, (reads_back hreach _ _ _ hs.2).2⟩

end FtfSystems.VirtualMemory.Malloc1

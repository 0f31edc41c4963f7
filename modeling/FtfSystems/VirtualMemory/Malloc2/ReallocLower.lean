import FtfSystems.VirtualMemory.Malloc2.StaleHeader

/-!
# Reallocation into the block before

What `sfree` makes of the old header decides whether `srealloc` keeps the data and the list in the
cases 1.b and 1.d. `staleFate` says what that is, from the memory and the blocks before the call.
-/
namespace FtfSystems.VirtualMemory.Malloc2
open Foundation

/-- The old header as `sfree` finds it. -/
def oldHeader (s : Heap) (size : ℕ) (a b : Block) (post : List Block) : MallocMetadata :=
  metadataAt (overlaid s.mem size a b post) b.addr

/-- The header behind the old block as `sfree` finds it, up to its back link. -/
def headerBehind (s : Heap) (size : ℕ) (a b : Block) (post : List Block) : MallocMetadata :=
  metadataAt (overlaid s.mem size a b post) (headAddr Block.addr 0 post)

/-- What `sfree` makes of the old header. -/
inductive StaleFate where
  /-- The header is marked as free: nothing. -/
  | skipped
  /-- Only the flag is set. -/
  | flagged
  /-- The header takes over the one behind the old block. -/
  | absorbs
  /-- The header counts as that of a mapped block, whose neighbours are linked to each other. -/
  | unlinks
  /-- It counts as the only mapped block. -/
  | emptied
  /-- It counts as the last mapped block, but there is no list of mapped blocks. -/
  | crashes
  /-- Links that are put together from two headers or from payload are followed, the list of
  mapped blocks is cut short, or pages of the heap are unmapped. -/
  | wild
  deriving DecidableEq

/-- The new header begins inside of the old one or less than 8 bytes before it. -/
def cutsOldHeader (size : ℕ) (a b : Block) (post : List Block) : Prop :=
  size + 160 ≤ (mergeDown size a b post).1.size ∧ size ≠ a.size ∧ a.size < size + 8 ∧
    size < a.size + 32

instance (size : ℕ) (a b : Block) (post : List Block) : Decidable (cutsOldHeader size a b post) :=
  inferInstanceAs (Decidable (_ ∧ _))

def staleFate (s : Heap) (size : ℕ) (a b : Block) (post : List Block) : StaleFate :=
  let old := oldHeader s size a b post
  let behind := headerBehind s size a b post
  let next := headAddr Block.addr 0 post
  if old.isFree then .skipped
  else if cutsOldHeader size a b post ∨ old.prev ≠ 0 ∧ old.prev ≠ a.addr then .wild
  else if old.size < mmapAllocationLimit then
    if old.next = 0 ∨ old.next = a.addr ∨ old.next = next ∧ behind.isFree = false then .flagged
    else if old.next = next ∧ (behind.next = 0 ∨ behind.next = headAddr Block.addr 0 post.tail) then
      .absorbs
    else .wild
  else if old.prev = 0 then if old.next = 0 ∧ b.addr % pageSize ≠ 0 then .emptied else .wild
  else if old.next = 0 ∧ s.glob.mmapEnd = 0 then .crashes
  else if old.next = next ∧ next ≠ 0 ∧ b.addr % pageSize ≠ 0 then .unlinks
  else .wild

/-- The old header is that of a block in use, which names the block before or none. -/
structure Legible (s : Heap) (size : ℕ) (a b : Block) (post : List Block) : Prop where
  inUse : (oldHeader s size a b post).isFree = false
  uncut : ¬cutsOldHeader size a b post
  prev : (oldHeader s size a b post).prev = 0 ∨ (oldHeader s size a b post).prev = a.addr

section Fate
variable {s : Heap} {size : ℕ} {a b : Block} {post : List Block}

theorem skipped_iff : staleFate s size a b post = .skipped ↔
    (oldHeader s size a b post).isFree = true := by
  simp only [staleFate]
  generalize oldHeader s size a b post = old
  split_ifs <;> simp_all

theorem legible_of (hused : ¬(oldHeader s size a b post).isFree = true)
    (h : ¬(cutsOldHeader size a b post ∨ (oldHeader s size a b post).prev ≠ 0 ∧
      (oldHeader s size a b post).prev ≠ a.addr)) : Legible s size a b post where
  inUse := by simpa using hused
  uncut := fun hc => h (.inl hc)
  prev := by
    by_contra hp
    exact h (.inr (not_or.mp hp))

theorem flagged_inv (h : staleFate s size a b post = .flagged) : Legible s size a b post ∧
    (oldHeader s size a b post).size < mmapAllocationLimit ∧
    ((oldHeader s size a b post).next = 0 ∨ (oldHeader s size a b post).next = a.addr ∨
      (oldHeader s size a b post).next = headAddr Block.addr 0 post ∧
        (headerBehind s size a b post).isFree = false) := by
  simp only [staleFate] at h
  split_ifs at h with h₁ h₂ h₃ h₄
  exact ⟨legible_of h₁ h₂, h₃, h₄⟩

theorem absorbs_inv (h : staleFate s size a b post = .absorbs) : Legible s size a b post ∧
    (oldHeader s size a b post).size < mmapAllocationLimit ∧
    (oldHeader s size a b post).next = headAddr Block.addr 0 post ∧
    headAddr Block.addr 0 post ≠ 0 ∧ (headerBehind s size a b post).isFree = true ∧
    ((headerBehind s size a b post).next = 0 ∨
      (headerBehind s size a b post).next = headAddr Block.addr 0 post.tail) := by
  simp only [staleFate] at h
  split_ifs at h with h₁ h₂ h₃ h₄ h₅
  refine ⟨legible_of h₁ h₂, h₃, h₅.1, ?_, ?_, h₅.2⟩
  · intro h0
    exact h₄ (.inl (h₅.1.trans h0))
  · by_contra hused
    exact h₄ (.inr (.inr ⟨h₅.1, by simpa using hused⟩))

theorem unlinks_inv (h : staleFate s size a b post = .unlinks) : Legible s size a b post ∧
    mmapAllocationLimit ≤ (oldHeader s size a b post).size ∧
    (oldHeader s size a b post).prev ≠ 0 ∧
    (oldHeader s size a b post).next = headAddr Block.addr 0 post ∧
    headAddr Block.addr 0 post ≠ 0 ∧ b.addr % pageSize ≠ 0 := by
  simp only [staleFate] at h
  split_ifs at h with h₁ h₂ h₃ h₄ h₅ h₆ h₇ h₈ h₉
  exact ⟨legible_of h₁ h₂, by omega, h₆, h₉⟩

theorem emptied_inv (h : staleFate s size a b post = .emptied) : Legible s size a b post ∧
    mmapAllocationLimit ≤ (oldHeader s size a b post).size ∧
    (oldHeader s size a b post).prev = 0 ∧ (oldHeader s size a b post).next = 0 ∧
    b.addr % pageSize ≠ 0 := by
  simp only [staleFate] at h
  split_ifs at h with h₁ h₂ h₃ h₄ h₅ h₆ h₇
  exact ⟨legible_of h₁ h₂, by omega, h₆, h₇⟩

theorem crashes_inv (h : staleFate s size a b post = .crashes) : Legible s size a b post ∧
    mmapAllocationLimit ≤ (oldHeader s size a b post).size ∧
    (oldHeader s size a b post).prev ≠ 0 ∧
    (oldHeader s size a b post).next = 0 ∧ s.glob.mmapEnd = 0 := by
  simp only [staleFate] at h
  split_ifs at h with h₁ h₂ h₃ h₄ h₅ h₆ h₇ h₈
  exact ⟨legible_of h₁ h₂, by omega, h₆, h₈⟩

/-- Without a cut, a payload that is not larger than the block before leaves the old header alone. -/
theorem overlaid_agree (m : Memory) (hwhole : (mergeDown size a b post).1.size < size + 160)
    (hle : b.size ≤ a.size) {p k : ℕ} (hp : a.addr + 32 + a.size ≤ p) :
    m.AgreeOn (overlaid m size a b post) p k := by
  rw [overlaid, cutHeader, if_neg (by omega)]
  exact Memory.memmove_agree m (by omega)

/-- Then `sfree` merges it with a free block behind and otherwise marks it as free. -/
theorem staleFate_untouched {ps : List Block} (h : Represents s (ps ++ a :: b :: post))
    (hused : b.isFree = false) (hsmall : b.size < mmapAllocationLimit)
    (hwhole : (mergeDown size a b post).1.size < size + 160) (hle : b.size ≤ a.size) :
    staleFate s size a b post =
      if post.head?.any Block.isFree then .absorbs else .flagged := by
  have hb : Represents s ((ps ++ [a]) ++ b :: post) := by simpa using h
  have hadj := h.adjacent
  have hold : oldHeader s size a b post =
      ⟨b.size, false, headAddr Block.addr 0 post, a.addr⟩ := by
    rw [oldHeader, metadataAt_congr (overlaid_agree s.mem hwhole hle (by omega)), hb.header, hused]
    simp
  have hcuts : ¬cutsOldHeader size a b post := fun hcuts => by
    have := hcuts.1
    omega
  simp only [staleFate, hold, Bool.false_eq_true, if_false, hcuts, ne_eq, not_true_eq_false,
    and_false, or_false, if_pos hsmall, true_and]
  cases post with
  | nil => simp
  | cons c cs =>
    have hc : Represents s ((ps ++ [a, b]) ++ c :: cs) := by simpa using h
    have hbound := h.bounds (b := a) (by simp)
    have hadj' := hb.adjacent
    have hbehind : headerBehind s size a b (c :: cs) =
        ⟨c.size, c.isFree, headAddr Block.addr 0 cs, b.addr⟩ := by
      rw [headerBehind, headAddr_cons,
        metadataAt_congr (overlaid_agree s.mem hwhole hle (by omega)), hc.header]
      simp
    have hc₀ : c.addr ≠ 0 := by omega
    have hca : c.addr ≠ a.addr := by omega
    simp only [headAddr_cons, hbehind, hc₀, hca, false_or, List.tail_cons, or_true, if_true,
      List.head?_cons, Option.any_some]
    by_cases hfree : c.isFree = true <;> simp [hfree]

end Fate

section Moved
variable {s s₃ : Heap} {size : ℕ} {ps post rest : List Block} {a b d : Block}

/-- The blocks behind the new one. -/
theorem Moved.rest_after (hm : Moved s size ps a b post d rest s₃) {c : Block} (hc : c ∈ rest) :
    d.addr + 32 + d.size ≤ c.addr := by
  have hrep := hm.represents
  by_cases hlarge : size + 160 ≤ d.size
  · rw [cutTo, if_pos hlarge] at hrep
    have hr : Represents s₃ ((ps ++ [{ d with size := size }]) ++ d.rest size :: rest) := by
      simpa using hrep
    have := hr.after hc
    simp only [Block.rest] at this
    omega
  · rw [cutTo, if_neg hlarge] at hrep
    have hr : Represents s₃ (ps ++ d :: rest) := by simpa using hrep
    exact hr.after hc

/-- Where the blocks of the list are when `sfree` is called. -/
theorem Moved.position (hm : Moved s size ps a b post d rest s₃)
    (hd : MergedTo size a b post d rest) (hb : b.addr = a.addr + 32 + a.size) {x : Block}
    (hx : x ∈ ps ++ cutTo size d ++ rest) :
    x.addr + 32 ≤ b.addr ∨ (size + 160 ≤ d.size ∧ x = d.rest size) ∨
      (b.addr + 32 + b.size ≤ x.addr ∧ d.addr + 32 + d.size ≤ x.addr) := by
  obtain ⟨e, es, hcut, haddr, -, hsize⟩ := cutTo_head size d
  have hrep : Represents s₃ (ps ++ e :: (es ++ rest)) := by simpa [hcut] using hm.represents
  have hd' := hd.addr
  have hin := hd.holds
  have hle := hd.fits
  have hes : ∀ y ∈ es, size + 160 ≤ d.size ∧ y = d.rest size := by
    intro y hy
    unfold cutTo at hcut
    split at hcut
    · obtain ⟨-, rfl⟩ := List.cons.inj hcut
      exact ⟨‹_›, List.mem_singleton.mp hy⟩
    · obtain ⟨-, rfl⟩ := List.cons.inj hcut
      cases hy
  rcases List.mem_append.mp hx with hx | hx
  · rcases List.mem_append.mp hx with hx | hx
    · have := hrep.before hx
      omega
    · rw [hcut] at hx
      rcases List.mem_cons.mp hx with rfl | hx
      · omega
      · exact .inr (.inl (hes x hx))
  · have := hm.rest_after hx
    omega

/-- The old header in the heap in which `sfree` reads it. -/
theorem Moved.old_eq (hm : Moved s size ps a b post d rest s₃) :
    metadataAt s₃.mem b.addr = oldHeader s size a b post :=
  metadataAt_congr (hm.overlay.sub le_rfl (by omega))

/-- The members of the header behind the old block that `sfree` reads. -/
theorem Moved.behind_eq (hm : Moved s size ps a b post d rest s₃)
    (hnext : headAddr Block.addr 0 post = b.addr + 32 + b.size) :
    metadataAt s₃.mem (headAddr Block.addr 0 post) =
      { headerBehind s size a b post with
        prev := (metadataAt s₃.mem (headAddr Block.addr 0 post)).prev } := by
  have hload (f : Field) (hf : f ≠ .prev) :
      loadField s₃.mem (headAddr Block.addr 0 post) f =
        loadField (overlaid s.mem size a b post) (headAddr Block.addr 0 post) f := by
    apply Memory.load_congr
    apply hm.overlay.sub
    · omega
    · cases f <;> simp only [Field.offset, Field.width] <;> first | omega | exact absurd rfl hf
  simp only [headerBehind, metadataAt, hload .size (by decide), hload .isFree (by decide),
    hload .next (by decide)]

/-- The new header may take the place of the old one, but then it is marked as free. -/
theorem Moved.ne_addr (hm : Moved s size ps a b post d rest s₃)
    (hd : MergedTo size a b post d rest) (h : Represents s (ps ++ a :: b :: post))
    (hfree : (oldHeader s size a b post).isFree = false) :
    ∀ x ∈ ps ++ cutTo size d ++ rest, b.addr ≠ x.addr := by
  have hadj := h.adjacent
  intro x hx he
  rcases hm.position hd hadj hx with hlo | ⟨hlarge, rfl⟩ | hhi
  · omega
  · have hrep := hm.represents
    rw [cutTo, if_pos hlarge] at hrep
    have hr : Represents s₃ ((ps ++ [{ d with size := size }]) ++ d.rest size :: rest) := by
      simpa using hrep
    have hheader := congrArg MallocMetadata.isFree hr.header
    rw [← he, hm.old_eq, hfree] at hheader
    cases hheader
  · omega

/-- The block before is the one that is returned. -/
theorem Moved.first_inUse (hm : Moved s size ps a b post d rest s₃)
    (hd : MergedTo size a b post d rest) : (metadataAt s₃.mem a.addr).isFree = false := by
  obtain ⟨e, es, hcut, haddr, hflag, -⟩ := cutTo_head size d
  have hr : Represents s₃ (ps ++ e :: (es ++ rest)) := by simpa [hcut] using hm.represents
  rw [← hd.addr, ← haddr, hr.header, hflag, hd.inUse]

/-- The old header is stale. -/
theorem Moved.stale (hm : Moved s size ps a b post d rest s₃)
    (hd : MergedTo size a b post d rest) (h : Represents s (ps ++ a :: b :: post))
    (hlegible : Legible s size a b post) :
    Stale s₃ b.addr (oldHeader s size a b post).prev := by
  have hb : Represents s ((ps ++ [a]) ++ b :: post) := by simpa using h
  have hbound := hb.bounds (b := b) (by simp)
  have habound := h.bounds (b := a) (by simp)
  have hadj := h.adjacent
  have hold := hm.old_eq
  have hne := hm.ne_addr hd h hlegible.inUse
  refine ⟨by omega, by omega, ?_, ?_, by rw [hold, hlegible.inUse], by rw [hold], fun hp => ?_⟩
  · obtain ⟨e, es, hcut, -⟩ := cutTo_head size d
    intro he
    have hroot := hm.represents.root_eq
    rw [← he] at hroot
    have hhead : ∃ x ∈ ps ++ cutTo size d ++ rest, b.addr = x.addr := by
      rw [hroot, hcut]
      cases ps with
      | nil => exact ⟨e, by simp, rfl⟩
      | cons x xs => exact ⟨x, by simp, rfl⟩
    obtain ⟨x, hx, hxe⟩ := hhead
    exact hne x hx hxe
  · intro he
    rcases lastAddr_mem_or Block.addr 0 (ps ++ cutTo size d ++ rest) with ⟨-, hl⟩ | ⟨x, hx, hl⟩
    · rw [he, hm.represents.last_eq] at hbound
      omega
    · exact hne x hx (by rw [he, hm.represents.last_eq, hl])
  · rw [hlegible.prev.resolve_left hp]
    exact ⟨hm.first_inUse hd, by omega⟩

/-- The block behind the old one. -/
theorem Moved.next_eq (h : Represents s (ps ++ a :: b :: post))
    (hn : headAddr Block.addr 0 post ≠ 0) :
    headAddr Block.addr 0 post = b.addr + 32 + b.size := by
  have hb : Represents s ((ps ++ [a]) ++ b :: post) := by simpa using h
  exact (hb.next_addr hn).1

theorem Moved.skipped_run (hm : Moved s size ps a b post d rest s₃)
    (h : Represents s (ps ++ a :: b :: post)) (hfate : staleFate s size a b post = .skipped) :
    (sfree (b.addr + 32)).run s₃ = .ok ((), s₃) := by
  have hbound := h.bounds (b := b) (by simp)
  exact sfree_skipped (by omega) (by omega) (by rw [hm.old_eq, skipped_iff.mp hfate])

theorem Moved.flagged_run (hm : Moved s size ps a b post d rest s₃)
    (hd : MergedTo size a b post d rest) (h : Represents s (ps ++ a :: b :: post))
    (hfate : staleFate s size a b post = .flagged) : (sfree (b.addr + 32)).run s₃ =
      .ok ((), { s₃ with mem := storeField s₃.mem b.addr .isFree 1 }) := by
  obtain ⟨hlegible, hsmall, hnext⟩ := flagged_inv hfate
  have hstale := hm.stale hd h hlegible
  refine hstale.sfree_flagged (by rw [hm.old_eq]; exact hsmall) rfl ?_
  rw [hm.old_eq]
  rcases hnext with h0 | ha | ⟨hn, hused⟩
  · exact .inl h0
  · rw [ha]
    exact .inr (hm.first_inUse hd)
  · rw [hn]
    by_cases h0 : headAddr Block.addr 0 post = 0
    · exact .inl h0
    · rw [hm.behind_eq (Moved.next_eq h h0)]
      exact .inr hused

/-- The stale header takes over the one behind the old block; `n` is the link it finds there. -/
theorem Moved.absorbs_run (hm : Moved s size ps a b post d rest s₃)
    (hd : MergedTo size a b post d rest) (h : Represents s (ps ++ a :: b :: post))
    (hfate : staleFate s size a b post = .absorbs) :
    ∃ next n, next = headAddr Block.addr 0 post ∧ next = b.addr + 32 + b.size ∧
      n = (headerBehind s size a b post).next ∧ (n ≠ 0 → b.addr + 32 ≤ n) ∧
      (sfree (b.addr + 32)).run s₃ = .ok ((), { s₃ with
        mem := storeField (combineMemory s₃.mem b.addr next n) b.addr .isFree 1
        glob.end_ := if next = s₃.glob.end_ then b.addr else s₃.glob.end_ }) := by
  obtain ⟨hlegible, hsmall, hnext, hn0, hfree, hn⟩ := absorbs_inv hfate
  have hstale := hm.stale hd h hlegible
  have heq := Moved.next_eq h hn0
  have hbehind := hm.behind_eq heq
  have habove : (headerBehind s size a b post).next ≠ 0 →
      b.addr + 32 ≤ (headerBehind s size a b post).next := by
    intro hne
    have hn' := hn.resolve_left hne
    obtain ⟨c, cs, rfl⟩ : ∃ c cs, post = c :: cs := by
      cases post with
      | nil => exact absurd rfl hn0
      | cons c cs => exact ⟨c, cs, rfl⟩
    have hc : Represents s ((ps ++ [a, b]) ++ c :: cs) := by simpa using h
    rw [hn', List.tail_cons] at hne ⊢
    have hafter := hc.next_addr hne
    have hadj := (by simpa using h : Represents s ((ps ++ [a]) ++ b :: c :: cs)).adjacent
    omega
  refine ⟨_, _, rfl, heq, rfl, habove, ?_⟩
  exact hstale.sfree_absorbs (by rw [hm.old_eq]; exact hsmall) (by rw [hm.old_eq, hnext])
    (by omega) (by rw [hbehind]; exact hfree) (by rw [hbehind]) habove

theorem Moved.unlinks_run (hm : Moved s size ps a b post d rest s₃)
    (hd : MergedTo size a b post d rest) (h : Represents s (ps ++ a :: b :: post))
    (hfate : staleFate s size a b post = .unlinks) :
    ∃ next record, next = headAddr Block.addr 0 post ∧ next = b.addr + 32 + b.size ∧
      (sfree (b.addr + 32)).run s₃ = .ok ((), { s₃ with
        mem := storeField (storeField s₃.mem a.addr .next next) next .prev a.addr
        calls := record :: s₃.calls }) := by
  obtain ⟨hlegible, hlarge, hp0, hnext, hn0, hpage⟩ := unlinks_inv hfate
  have hstale := hm.stale hd h hlegible
  obtain ⟨record, hrun⟩ := hstale.sfree_unlinks (by rw [hm.old_eq]; exact hlarge) hp0
    (by rw [hm.old_eq, hnext]) hn0 hpage
  rw [hlegible.prev.resolve_left hp0] at hrun
  exact ⟨_, record, rfl, Moved.next_eq h hn0, hrun⟩

theorem Moved.emptied_run (hm : Moved s size ps a b post d rest s₃)
    (hd : MergedTo size a b post d rest) (h : Represents s (ps ++ a :: b :: post))
    (hfate : staleFate s size a b post = .emptied) :
    ∃ record, (sfree (b.addr + 32)).run s₃ = .ok ((), { s₃ with
      glob.mmapHead := 0
      calls := record :: s₃.calls }) := by
  obtain ⟨hlegible, hlarge, hprev, hnext, hpage⟩ := emptied_inv hfate
  have hstale := hm.stale hd h hlegible
  rw [hprev] at hstale
  exact hstale.sfree_emptied (by rw [hm.old_eq]; exact hlarge) (by rw [hm.old_eq, hnext]) hpage

theorem Moved.crashes_run (hm : Moved s size ps a b post d rest s₃)
    (hd : MergedTo size a b post d rest) (h : Represents s (ps ++ a :: b :: post))
    (hfate : staleFate s size a b post = .crashes) :
    (sfree (b.addr + 32)).run s₃ = .error .nullDereference := by
  obtain ⟨hlegible, hlarge, hp0, hnext, hend⟩ := crashes_inv hfate
  have hstale := hm.stale hd h hlegible
  exact hstale.sfree_crashes (by rw [hm.old_eq]; exact hlarge) hp0 (by rw [hm.old_eq, hnext])
    (by rw [hm.mmapEnd, hend])

end Moved

/-- What is true of the result of a call is true of the result of its last step. -/
theorem returns_iff {s t : Heap} {h q : ℕ} {P : ℕ → Heap → Prop}
    (hrun : (sfree h).run s = .ok ((), t)) :
    (∃ p s', (do sfree h; return q : M ℕ).run s = .ok (p, s') ∧ P p s') ↔ P q t := by
  rw [StateT.run_bind, hrun, ok_bind, pure_run]
  constructor
  · rintro ⟨p, s', hret, hp⟩
    simp only [Except.ok.injEq, Prod.mk.injEq] at hret
    obtain ⟨rfl, rfl⟩ := hret
    exact hp
  · exact fun hp => ⟨q, t, rfl, hp⟩

theorem not_returns {s : Heap} {h q : ℕ} {e : Fault} {P : ℕ → Heap → Prop}
    (hrun : (sfree h).run s = .error e) :
    ¬∃ p s', (do sfree h; return q : M ℕ).run s = .ok (p, s') ∧ P p s' := by
  rintro ⟨p, s', hret, -⟩
  rw [StateT.run_bind, hrun] at hret
  cases hret

/-! ### The data -/

/-- The data is kept. The header that `split` writes is clear of the payload, and what `sfree`
writes to the old header is no payload, or the same payload. -/
def keepsBytes (s : Heap) (size : ℕ) (a b : Block) (post : List Block) : Prop :=
  ¬headerInPayload size a b ∧
    match staleFate s size a b post with
    | .skipped | .unlinks | .emptied => True
    | .flagged => b.size ≤ a.size + 8
    | .absorbs => b.size ≤ a.size + 8 ∧
        256 ^ (b.size - a.size) ∣ (headerBehind s size a b post).size + 32
    | .crashes | .wild => False

section Bytes
variable {s s₃ : Heap} {size : ℕ} {ps post rest : List Block} {a b d : Block}

theorem BytesKept.congr {s s₃ t : Heap} {oldp n p : ℕ} (h : BytesKept s oldp n p s₃) :
    BytesKept s oldp n p t ↔ s₃.mem.AgreeOn t.mem p n := by
  constructor
  · intro ht x hx hx'
    obtain ⟨i, rfl⟩ := Nat.exists_eq_add_of_le hx
    rw [ht i (by omega), h i (by omega)]
  · intro ht i hi
    rw [ht _ (by omega) (by omega), h i hi]

/-- The flag of a block that is freed is one byte of memory. -/
theorem flag_changed {m : Memory} {h : ℕ} (hused : (metadataAt m h).isFree = false) (m' : Memory) :
    storeField m' h .isFree 1 (h + 8) ≠ m (h + 8) := by
  have hflag : decide (m.load (h + 8) 1 ≠ 0) = false := hused
  have hzero : m.load (h + 8) 1 = 0 := not_not.mp (of_decide_eq_false hflag)
  have hone := Memory.load_store m' (h + 8) 1 1
  intro he
  have hsame : (storeField m' h .isFree 1).load (h + 8) 1 = m.load (h + 8) 1 := by
    apply Memory.load_congr
    intro x hx hx'
    obtain rfl : x = h + 8 := by omega
    exact he
  rw [hzero] at hsame
  have hstored : (storeField m' h .isFree 1).load (h + 8) 1 = 1 % 256 ^ 1 := hone
  omega

/-- The flag is written to the payload that has been moved over the old header. -/
theorem flag_agree_iff {m : Memory} {p n h : ℕ} (hp : p ≤ h)
    (hused : (metadataAt m h).isFree = false) :
    m.AgreeOn (storeField m h .isFree 1) p n ↔ p + n ≤ h + 8 := by
  constructor
  · intro hagree
    by_contra hlt
    exact flag_changed hused m (hagree (h + 8) (by omega) (by omega))
  · intro hle
    exact Memory.store_agree m (by simp only [Field.offset, Field.width]; omega)

theorem wadd_size_mod {z w k : ℕ} (hk : k ≤ 8) :
    wadd z (wadd w 32) % 256 ^ k = z % 256 ^ k ↔ 256 ^ k ∣ w + 32 := by
  have hdvd : 256 ^ k ∣ 2 ^ 64 := by
    have : (2 : ℕ) ^ 64 = 256 ^ 8 := by norm_num
    rw [this]
    exact pow_dvd_pow 256 hk
  have hsum : wadd z (wadd w 32) % 256 ^ k = (z + (w + 32)) % 256 ^ k := by
    rw [wadd, Nat.mod_mod_of_dvd _ hdvd, wadd, Nat.add_mod, Nat.mod_mod_of_dvd _ hdvd, ← Nat.add_mod]
  rw [hsum]
  constructor
  · intro h
    have hmod : z + (w + 32) ≡ z + 0 [MOD 256 ^ k] := h
    exact (Nat.modEq_zero_iff_dvd).mp (hmod.add_left_cancel' z)
  · rintro ⟨q, hq⟩
    rw [hq, Nat.add_mul_mod_self_left]

/-- The first bytes of the size that `combine` writes. -/
theorem combine_agree_iff {m : Memory} {h next n k : ℕ} (hk : k ≤ 8) (hn : n ≠ 0 → h + 32 ≤ n) :
    m.AgreeOn (storeField (combineMemory m h next n) h .isFree 1) h k ↔
      256 ^ k ∣ (metadataAt m next).size + 32 := by
  have hwritten : (storeField m h .size (wadd (metadataAt m h).size
      (wadd (metadataAt m next).size 32))).AgreeOn
      (storeField (combineMemory m h next n) h .isFree 1) h k := by
    have hnext : ∀ m' : Memory, m'.AgreeOn (storeField m' h .next n) h k := fun m' =>
      Memory.store_agree m' (by simp only [Field.offset, Field.width]; omega)
    have hflag : ∀ m' : Memory, m'.AgreeOn (storeField m' h .isFree 1) h k := fun m' =>
      Memory.store_agree m' (by simp only [Field.offset, Field.width]; omega)
    exact (((hnext _).trans (linkBack_agree _ fun h0 => by have := hn h0; omega)).trans
      (hflag _)).trans (hflag _)
  rw [← Memory.load_eq_iff, Memory.load_congr hwritten, ← Memory.load_mod _ h hk]
  have hstored : (storeField m h .size (wadd (metadataAt m h).size
      (wadd (metadataAt m next).size 32))).load h 8 =
      wadd (metadataAt m h).size (wadd (metadataAt m next).size 32) % 256 ^ 8 :=
    Memory.load_store m h 8 _
  have hold : m.load h k = (metadataAt m h).size % 256 ^ k := (Memory.load_mod m h hk).symm
  rw [hstored, hold, Nat.mod_mod_of_dvd _ (pow_dvd_pow 256 hk), wadd_size_mod hk]

/-- Whether the data is kept, when the new header is clear of the payload. -/
theorem Moved.bytes_iff (hm : Moved s size ps a b post d rest s₃)
    (hd : MergedTo size a b post d rest) (h : Represents s (ps ++ a :: b :: post))
    (hclear : ¬headerInPayload size a b) (hwild : staleFate s size a b post ≠ .wild) :
    (∃ p s', (do sfree (b.addr + 32); return a.addr + 32 : M ℕ).run s₃ = .ok (p, s') ∧
      BytesKept s (b.addr + 32) b.size p s') ↔ keepsBytes s size a b post := by
  have hadj := h.adjacent
  have hbound := h.bounds (b := a) (by simp)
  have hmoved := hm.copied hclear
  have hcopy : a.addr + 32 + a.size = b.addr := by omega
  cases hfate : staleFate s size a b post with
  | skipped =>
    rw [returns_iff (hm.skipped_run h hfate)]
    exact iff_of_true hmoved ⟨hclear, by rw [hfate]; trivial⟩
  | flagged =>
    have hused : (metadataAt s₃.mem b.addr).isFree = false := by
      rw [hm.old_eq]
      exact (flagged_inv hfate).1.inUse
    rw [returns_iff (hm.flagged_run hd h hfate), hmoved.congr, flag_agree_iff (by omega) hused]
    simp only [keepsBytes, hfate, hclear, not_false_eq_true, true_and]
    omega
  | absorbs =>
    have hused : (metadataAt s₃.mem b.addr).isFree = false := by
      rw [hm.old_eq]
      exact (absorbs_inv hfate).1.inUse
    obtain ⟨next, n, hnext, heq, -, habove, hrun⟩ := hm.absorbs_run hd h hfate
    have hsize : (metadataAt s₃.mem next).size = (headerBehind s size a b post).size := by
      rw [hnext, hm.behind_eq (by omega)]
    rw [returns_iff hrun, hmoved.congr]
    simp only [keepsBytes, hfate, hclear, not_false_eq_true, true_and]
    rw [← hsize]
    constructor
    · intro hagree
      have hle : b.size ≤ a.size + 8 := by
        by_contra hlt
        exact flag_changed hused _ (hagree (b.addr + 8) (by omega) (by omega))
      exact ⟨hle, (combine_agree_iff (by omega) habove).mp fun x hx hx' =>
        hagree x (by omega) (by omega)⟩
    · rintro ⟨hle, hdvd⟩ x hx hx'
      by_cases hlow : x < b.addr
      · have hframe := (combineMemory_agree s₃.mem (a := b.addr) (b := next) (n := n) (p := x)
          (k := 1) (by omega) (fun hn => by have := habove hn; omega)).trans
          (storeField_agree _ b.addr .isFree 1 (by omega))
        exact hframe x le_rfl (by omega)
      · exact (combine_agree_iff (by omega) habove).mpr hdvd x (by omega) (by omega)
  | unlinks =>
    obtain ⟨next, record, hnext, heq, hrun⟩ := hm.unlinks_run hd h hfate
    rw [returns_iff hrun, hmoved.congr]
    refine iff_of_true ?_ ⟨hclear, by rw [hfate]; trivial⟩
    exact (storeField_agree s₃.mem a.addr .next next (.inr le_rfl)).trans
      (Memory.store_agree _ (.inl (by simp only [Field.offset]; omega)))
  | emptied =>
    obtain ⟨record, hrun⟩ := hm.emptied_run hd h hfate
    rw [returns_iff hrun]
    exact iff_of_true hmoved ⟨hclear, by rw [hfate]; trivial⟩
  | crashes =>
    refine iff_of_false (not_returns (hm.crashes_run hd h hfate)) (fun hkeeps => ?_)
    have := hkeeps.2
    rw [hfate] at this
    exact this
  | wild => exact absurd hfate hwild

end Bytes

/-! ### A header in the payload -/

section Hit
variable {s : Heap} {m m' : Memory} {size p k n q : ℕ} {ps post : List Block} {a b : Block}

theorem linkBack_congr (h : m.AgreeOn m' p k) (n q : ℕ) :
    (linkBack m n q).AgreeOn (linkBack m' n q) p k := by
  unfold linkBack
  split
  · exact h
  · exact h.store _ _ _

/-- What `combine` writes depends on the two sizes that it reads. -/
theorem combineMemory_congr (h : m.AgreeOn m' p k) {a b : ℕ}
    (ha : metadataAt m' a = metadataAt m a) (hb : metadataAt m' b = metadataAt m b) :
    (combineMemory m a b n).AgreeOn (combineMemory m' a b n) p k := by
  rw [combineMemory, combineMemory, ha, hb]
  exact (linkBack_congr ((h.store _ _ _).store _ _ _) n a).store _ _ _

theorem splitMemory_congr (h : m.AgreeOn m' p k) {a : ℕ}
    (ha : metadataAt m' a = metadataAt m a) :
    (splitMemory m a size q n).AgreeOn (splitMemory m' a size q n) p k := by
  rw [splitMemory, splitMemory, ha]
  exact ((linkBack_congr ((((h.store _ _ _).store _ _ _).store _ _ _).store _ _ _) n q).store
    _ _ _).store _ _ _

/-- The last byte of the new header does not depend on what was there. -/
theorem splitMemory_last (m m' : Memory) (a size q n : ℕ) :
    (splitMemory m a size q n).AgreeOn (splitMemory m' a size q n) (q + 31) 1 := by
  have hlast (m m' : Memory) : (storeField m q .prev a).AgreeOn (storeField m' q .prev a) (q + 31) 1 := by
    intro x hx hx'
    have hin : q + Field.offset .prev ≤ x ∧ x < q + Field.offset .prev + Field.width .prev := by
      simp only [Field.offset, Field.width]
      omega
    simp only [storeField, Memory.store]
    rw [if_pos hin, if_pos hin]
  unfold splitMemory
  exact ((linkBack_congr ((hlast _ _).store _ _ _) n q).store _ _ _).store _ _ _

/-- The byte of the payload under the last one of the new header is lost before the payload is
moved: heaps that differ in this byte alone are the same from then on. -/
theorem lowerHeap_eq (h : Represents s (ps ++ a :: b :: post)) (hhit : headerInPayload size a b)
    (hm : ∀ x, x ≠ a.addr + 63 + size → m' x = s.mem x) (n : ℕ) :
    lowerHeap { s with mem := m' } size a b n = lowerHeap s size a b n := by
  obtain ⟨hlarge, hlt⟩ := hhit
  have hadj := h.adjacent
  have hcut : size + 160 ≤ ({ a.merge b with isFree := false } : Block).size := by
    simp only [Block.merge]
    omega
  have hlow {p k : ℕ} (hp : p + k ≤ a.addr + 63 + size) : s.mem.AgreeOn m' p k :=
    fun x _ hx => hm x (by omega)
  have hhigh {p k : ℕ} (hp : a.addr + 63 + size < p) : s.mem.AgreeOn m' p k :=
    fun x hx _ => hm x (by omega)
  have ha : metadataAt m' a.addr = metadataAt s.mem a.addr := metadataAt_congr (hlow (by omega))
  have hb : metadataAt m' b.addr = metadataAt s.mem b.addr := metadataAt_congr (hlow (by omega))
  have hmerged {p k : ℕ} (hagree : s.mem.AgreeOn m' p k) :
      (storeField (combineMemory s.mem a.addr b.addr n) a.addr .isFree 0).AgreeOn
        (storeField (combineMemory m' a.addr b.addr n) a.addr .isFree 0) p k :=
    (combineMemory_congr hagree ha hb).store _ _ _
  have hhead := metadataAt_congr (hmerged (hlow (p := a.addr) (k := 32) (by omega)))
  have hsplit : splitMemory (storeField (combineMemory m' a.addr b.addr n) a.addr .isFree 0) a.addr
      size (a.addr + 32 + size) n =
      splitMemory (storeField (combineMemory s.mem a.addr b.addr n) a.addr .isFree 0) a.addr size
        (a.addr + 32 + size) n := by
    funext x
    rcases lt_trichotomy x (a.addr + 63 + size) with hx | hx | hx
    · exact splitMemory_congr (hmerged (hlow (p := x) (k := 1) (by omega))) hhead x le_rfl (by omega)
    · exact splitMemory_last _ _ _ _ _ _ x (by omega) (by omega)
    · exact splitMemory_congr (hmerged (hhigh (p := x) (k := 1) (by omega))) hhead x le_rfl
        (by omega)
  simp only [lowerHeap, cutHeap, if_pos hcut]
  simp only [mergedInUse, Block.rest, Block.merge, hsplit]
  rfl

/-- Some payload is not kept. -/
theorem header_in_payload_loses (os : OsAnswer) (h : Represents s (ps ++ a :: b :: post))
    (hmax : size ≤ maxAllocation) (hcase : reallocCase size (ps ++ [a]) b post = .lower)
    (hhit : headerInPayload size a b) :
    ¬∀ s, Represents s (ps ++ a :: b :: post) →
      ∃ p s', (srealloc os (b.addr + 32) size).run s = .ok (p, s') ∧
        BytesKept s (b.addr + 32) b.size p s' := by
  intro hall
  obtain ⟨hlarge, hlt⟩ := hhit
  have hadj := h.adjacent
  obtain ⟨i, hi⟩ : ∃ i, i + 1 + a.size = size := ⟨size - a.size - 1, by omega⟩
  obtain ⟨d, rest, hd⟩ := exists_mergedTo h (.inl hcase)
  have hlower := (joined_lower h hcase).1
  -- the same heap with another byte
  obtain ⟨m', hm'⟩ : ∃ m', m' = Function.update s.mem (b.addr + 32 + i) (s.mem (b.addr + 32 + i) + 1) :=
    ⟨_, rfl⟩
  have hother : ∀ x, x ≠ b.addr + 32 + i → m' x = s.mem x := fun x hx => by
    rw [hm', Function.update_of_ne hx]
  have hrep' : Represents { s with mem := m' } (ps ++ a :: b :: post) :=
    (h.write_payload (b := b) (by simp) (fun x hx => hother x (by omega))).1
  obtain ⟨s₃, hmoved, hrun⟩ := srealloc_moved os h hmax (.inl hcase) hd
  obtain ⟨t₃, hmoved', hrun'⟩ := srealloc_moved (s := { s with mem := m' }) os hrep' hmax (.inl hcase) hd
  have hsame : t₃ = s₃ := by
    rw [hmoved.state hlower, hmoved'.state hlower]
    exact lowerHeap_eq h ⟨hlarge, hlt⟩ (fun x hx => hother x (by omega)) _
  obtain ⟨p, s', hret, hkept⟩ := hall s h
  obtain ⟨p', s'', hret', hkept'⟩ := hall { s with mem := m' } hrep'
  rw [hrun', hsame, ← hrun, hret] at hret'
  simp only [Except.ok.injEq, Prod.mk.injEq] at hret'
  obtain ⟨rfl, rfl⟩ := hret'
  have hbyte := (hkept i (by omega)).symm.trans (hkept' i (by omega))
  rw [hm'] at hbyte
  simp at hbyte

end Hit

/-! ### The list -/

section List
variable {s s₃ t : Heap} {size : ℕ} {ps post rest bs : List Block} {a b d : Block}

/-- The blocks other than the new one are clear of the old one. -/
theorem Moved.outside (hm : Moved s size ps a b post d rest s₃)
    (hd : MergedTo size a b post d rest) (hb : b.addr = a.addr + 32 + a.size) {c : Block}
    (hc : c ∈ ps ∨ c ∈ rest) :
    c.addr + 32 + c.size ≤ a.addr ∨ b.addr + 32 + b.size ≤ c.addr := by
  obtain ⟨e, es, hcut, haddr, -, -⟩ := cutTo_head size d
  have hrep : Represents s₃ (ps ++ e :: (es ++ rest)) := by simpa [hcut] using hm.represents
  have hd' := hd.addr
  have hin := hd.holds
  rcases hc with hc | hc
  · have := hrep.before hc
    omega
  · have := hm.rest_after hc
    omega

section Absorbed
variable {next n : ℕ} (hm : Moved s size ps a b post d rest s₃) (hd : MergedTo size a b post d rest)
  (h : Represents s (ps ++ a :: b :: post)) (hfate : staleFate s size a b post = .absorbs)
  (hnext : next = headAddr Block.addr 0 post) (heq : next = b.addr + 32 + b.size)
  (hn : n = (headerBehind s size a b post).next) (habove : n ≠ 0 → b.addr + 32 ≤ n)
  (ht : t = { s₃ with
    mem := storeField (combineMemory s₃.mem b.addr next n) b.addr .isFree 1
    glob.end_ := if next = s₃.glob.end_ then b.addr else s₃.glob.end_ })
include hm hd h hfate ht

include hnext heq hn

include habove

omit hfate hnext hn habove

include hfate hnext hn habove

end Absorbed

section Unlinked
variable {next : ℕ} {record : Syscall} (hm : Moved s size ps a b post d rest s₃)
  (hd : MergedTo size a b post d rest) (h : Represents s (ps ++ a :: b :: post))
  (hnext : next = headAddr Block.addr 0 post) (heq : next = b.addr + 32 + b.size)
  (ht : t = { s₃ with
    mem := storeField (storeField s₃.mem a.addr .next next) next .prev a.addr
    calls := record :: s₃.calls })
include h heq ht

include hm hd

include hnext

end Unlinked

end List

section Contract
variable {s : Heap} {size : ℕ} {ps post : List Block} {a b : Block}

theorem keepsBytes_not_wild (h : keepsBytes s size a b post) :
    ¬headerInPayload size a b ∧ staleFate s size a b post ≠ .wild := by
  refine ⟨h.1, fun hfate => ?_⟩
  have := h.2
  rw [hfate] at this
  exact this

theorem small_le_max (hsize : size < mmapAllocationLimit) : size ≤ maxAllocation := by
  simp only [maxAllocation, mmapAllocationLimit] at hsize ⊢
  omega

/-- After a merge with the block before, the data is kept exactly as `keepsBytes` says, as far as
the header that `sfree` reads is no mixture. Where the header that `split` writes lies in the
payload, not all data is kept. -/
theorem srealloc_lower_keeps_bytes (os : OsAnswer) (h : Represents s (ps ++ a :: b :: post))
    (hsize : size < mmapAllocationLimit)
    (hcase : reallocCase size (ps ++ [a]) b post = .lower ∨
      reallocCase size (ps ++ [a]) b post = .both) :
    (keepsBytes s size a b post → ∃ p s', (srealloc os (b.addr + 32) size).run s = .ok (p, s') ∧
      BytesKept s (b.addr + 32) b.size p s') ∧
    ((∃ p s', (srealloc os (b.addr + 32) size).run s = .ok (p, s') ∧
      BytesKept s (b.addr + 32) b.size p s') → keepsBytes s size a b post ∨
        staleFate s size a b post = .wild ∨ headerInPayload size a b) ∧
    (headerInPayload size a b → ¬∀ s, Represents s (ps ++ a :: b :: post) →
      ∃ p s', (srealloc os (b.addr + 32) size).run s = .ok (p, s') ∧
        BytesKept s (b.addr + 32) b.size p s') := by
  obtain ⟨d, rest, hd⟩ := exists_mergedTo h hcase
  obtain ⟨s₃, hm, hrun⟩ := srealloc_moved os h (small_le_max hsize) hcase hd
  refine ⟨fun hkeeps => ?_, fun hkept => ?_, fun hhit => ?_⟩
  · obtain ⟨hclear, hwild⟩ := keepsBytes_not_wild hkeeps
    rw [hrun]
    exact (hm.bytes_iff hd h hclear hwild).mpr hkeeps
  · by_cases hwild : staleFate s size a b post = .wild
    · exact .inr (.inl hwild)
    by_cases hhit : headerInPayload size a b
    · exact .inr (.inr hhit)
    rw [hrun] at hkept
    exact .inl ((hm.bytes_iff hd h hhit hwild).mp hkept)
  · refine header_in_payload_loses os h (small_le_max hsize) ?_ hhit
    rcases hcase with hcase | hcase
    · exact hcase
    · have hlt := (joined_both h hcase).1
      have := hhit.1
      omega

/-- A free block, a block in use and a free block again. -/
def freeAround : Heap where
  glob := ⟨4096, 4460, 0, 0⟩
  mem := storeField (storeField (storeField (storeField (storeField (storeField (storeField
    (storeField (storeField (fun _ => 0) 4096 .size 200) 4096 .isFree 1) 4096 .next 4328)
    4328 .size 100) 4328 .next 4460) 4328 .prev 4096) 4460 .size 160) 4460 .isFree 1) 4460 .prev 4328
  heapStart := 4096
  brk := 4652
  regions := []
  calls := []

theorem freeAround_wellFormed :
    WellFormed freeAround [⟨4096, 200, true⟩, ⟨4328, 100, false⟩, ⟨4460, 160, true⟩] where
  represents :=
    { root_eq := rfl
      last_eq := rfl
      linked := ⟨rfl, rfl, rfl, trivial⟩
      tiles := ⟨rfl, rfl, rfl, rfl⟩
      pos := by decide
      brk_lt := by decide }
  separated := separated_cons_cons.mpr ⟨by simp, separated_cons (List.IsChain.singleton _) rfl⟩

/-- The old header absorbs the last block: in case 1.d with a new header right behind the members
that `sfree` reads, and in case 1.b. -/
theorem freeAround_fate :
    (staleFate freeAround 356 ⟨4096, 200, true⟩ ⟨4328, 100, false⟩ [⟨4460, 160, true⟩] = .absorbs ∧
      (headerBehind freeAround 356 ⟨4096, 200, true⟩ ⟨4328, 100, false⟩
        [⟨4460, 160, true⟩]).next = 0) ∧
    staleFate freeAround 150 ⟨4096, 200, true⟩ ⟨4328, 100, false⟩ [⟨4460, 160, true⟩] =
      .absorbs :=
  ⟨⟨rfl, rfl⟩, rfl⟩

theorem srealloc_lower_keeps_bytes_freeAround :
    reallocCase 356 [⟨4096, 200, true⟩] ⟨4328, 100, false⟩ [⟨4460, 160, true⟩] = .both ∧
    ∃ p s', (srealloc ⟨true, none⟩ 4360 356).run freeAround = .ok (p, s') ∧
      BytesKept freeAround 4360 100 p s' := by
  have hcase : reallocCase 356 ([] ++ [⟨4096, 200, true⟩]) ⟨4328, 100, false⟩
      [⟨4460, 160, true⟩] = .both := by decide
  have hrep : Represents freeAround ([] ++ ⟨4096, 200, true⟩ :: ⟨4328, 100, false⟩ ::
      [⟨4460, 160, true⟩]) := freeAround_wellFormed.represents
  refine ⟨hcase, (srealloc_lower_keeps_bytes _ hrep (by decide) (.inr hcase)).1 ⟨by decide, ?_⟩⟩
  rw [freeAround_fate.1.1]
  exact ⟨by decide, one_dvd _⟩

/-- A heap whose first block is free and whose second block, of 180 bytes, is in use. The byte
39 of its payload is 7. -/
def lowerFree : Heap where
  glob := ⟨4096, 4328, 0, 0⟩
  mem := Memory.store (storeField (storeField (storeField (storeField (storeField (fun _ => 0)
    4096 .size 200) 4096 .isFree 1) 4096 .next 4328) 4328 .size 180) 4328 .prev 4096) 4399 1 7
  heapStart := 4096
  brk := 4540
  regions := []
  calls := []

theorem lowerFree_wellFormed :
    WellFormed lowerFree [⟨4096, 200, true⟩, ⟨4328, 180, false⟩] where
  represents :=
    { root_eq := rfl
      last_eq := rfl
      linked := ⟨rfl, rfl, trivial⟩
      tiles := ⟨rfl, rfl, rfl⟩
      pos := by decide
      brk_lt := by decide }
  separated := separated_cons_cons.mpr ⟨by simp, List.IsChain.singleton _⟩

/-- The request of 240 bytes makes `split` write its header into the payload. -/
theorem srealloc_lower_loses_bytes :
    WellFormed lowerFree [⟨4096, 200, true⟩, ⟨4328, 180, false⟩] ∧
    reallocCase 240 [⟨4096, 200, true⟩] ⟨4328, 180, false⟩ [] = .lower ∧
    ¬∃ p s', (srealloc ⟨true, none⟩ 4360 240).run lowerFree = .ok (p, s') ∧
      BytesKept lowerFree 4360 180 p s' := by
  refine ⟨lowerFree_wellFormed, by decide, ?_⟩
  rintro ⟨p, s', hrun, hkept⟩
  have hbyte : ((srealloc ⟨true, none⟩ 4360 240).run lowerFree).toOption.map
      (fun r => r.2.mem (r.1 + 39)) = some 0 := by rfl
  rw [hrun] at hbyte
  have hzero : s'.mem (p + 39) = 0 := Option.some.inj hbyte
  rw [hkept 39 (by decide)] at hzero
  exact absurd hzero (by decide)

end Contract
end FtfSystems.VirtualMemory.Malloc2

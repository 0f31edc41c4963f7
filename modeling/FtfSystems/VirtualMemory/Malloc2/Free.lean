import FtfSystems.VirtualMemory.Malloc2.Allocate

/-!
# Freeing on the `sbrk` heap

`release` is what freeing a block means for the list: it is flagged and then every run of
adjacent free blocks is one block. `sfree` has a path of its own for the root, for the end
and for a block between two others; all of them free the block and merge it with the free
blocks next to it, which is `release` when no other free blocks are neighbours.
-/
namespace FtfSystems.VirtualMemory.Malloc2
open Foundation

/-- The block with this address is free, the others are as they were. -/
def freeAt (a : ℕ) (b : Block) : Block := if b.addr = a then b.freed else b

/-- The block list after the block at `a` is freed. -/
def release (a : ℕ) (bs : List Block) : List Block :=
  coalesce Block.isFree Block.merge (bs.map (freeAt a))

/-- The heap `s'` holds `bs'`; only headers at the addresses `as` and `end` have changed. -/
structure Relinked (as : List ℕ) (s : Heap) (bs' : List Block) (s' : Heap) : Prop where
  represents : Represents s' bs'
  only : s' = { s with mem := s'.mem, glob.end_ := s'.glob.end_ }
  headers : HeadersOnly as s.mem s'.mem

theorem Relinked.trans {as : List ℕ} {s s' s'' : Heap} {bs' bs'' : List Block}
    (h : Relinked as s bs' s') (h' : Relinked as s' bs'' s'') : Relinked as s bs'' s'' :=
  ⟨h'.represents, by rw [h'.only, h.only], h.headers.trans h'.headers⟩

/-- Assigning `end` the value it has. -/
theorem setEnd_self {s : Heap} {p : ℕ} (h : s.glob.end_ = p) : { s with glob.end_ := p } = s := by
  subst h
  rfl

/-- Assigning `root` the value it has. -/
theorem setRoot_self {s : Heap} {p : ℕ} (h : s.glob.root = p) : { s with glob.root := p } = s := by
  subst h
  rfl

section Release
variable {s : Heap} {pre post bs : List Block} {a b : Block} {as : List ℕ}

theorem map_freeAt (h : Represents s (pre ++ b :: post)) :
    (pre ++ b :: post).map (freeAt b.addr) = pre ++ b.freed :: post := by
  have hother (c : Block) (hc : c ∈ pre ∨ c ∈ post) : freeAt b.addr c = c := by
    refine if_neg ?_
    rcases hc with hc | hc
    · have := h.before hc
      omega
    · have := h.after hc
      omega
  have hmap (l : List Block) (hl : ∀ c ∈ l, c ∈ pre ∨ c ∈ post) : l.map (freeAt b.addr) = l :=
    (List.map_congr_left (fun c hc => hother c (hl c hc))).trans (List.map_id l)
  rw [List.map_append, List.map_cons, hmap pre (fun c hc => .inl hc),
    hmap post (fun c hc => .inr hc), freeAt, if_pos rfl]

/-- The flag written through a pointer to a header that has become payload. -/
theorem setIsFree_inside (h : Represents s (pre ++ a :: post)) {p : ℕ}
    (hlo : a.addr + 32 ≤ p) (hhi : p ≤ a.addr + a.size) (hp : p ∈ as) :
    ∃ s', (setIsFree p true).run s = .ok ((), s') ∧ Relinked as s (pre ++ a :: post) s' := by
  have hmem : HeadersOnly [p] s.mem (storeField s.mem p .isFree 1) := .storeField _ (by simp) _ _
  refine ⟨_, setIsFree_run (by omega) s true, ?_, rfl, hmem.mono (by simpa using hp)⟩
  refine h.frame (fun c hc => hmem.agree (fun t ht => ?_))
  rw [List.mem_singleton] at ht
  by_cases hca : c = a
  · subst hca
    omega
  · have := h.apart hc (by simp : a ∈ pre ++ a :: post) hca
    omega

theorem setIsFree_relinked (h : Represents s (pre ++ b :: post)) (hb : b.addr ∈ as) :
    ∃ s', (setIsFree b.addr true).run s = .ok ((), s') ∧
      Relinked as s (pre ++ b.freed :: post) s' := by
  obtain ⟨s', hrun, heq, hrep, hmem⟩ := setIsFree_represents true h
  exact ⟨s', hrun, hrep, by rw [heq], hmem.mono (by simpa using hb)⟩

theorem combine_relinked (h : Represents s (pre ++ a :: b :: post)) (ha : a.addr ∈ as)
    (hpost : ∀ c ∈ post, c.addr ∈ as) :
    ∃ s', (combine a.addr b.addr).run s = .ok ((), s') ∧
      Relinked as s (pre ++ a.merge b :: post) s' := by
  obtain ⟨s', hrun, heq, hrep, hmem⟩ := combine_represents h
  refine ⟨s', hrun, hrep, heq, hmem.mono ?_⟩
  intro t ht
  simp only [List.mem_cons, List.mem_map] at ht
  rcases ht with rfl | ⟨c, hc, rfl⟩
  · exact ha
  · exact hpost c (List.mem_of_mem_take hc)

/-- The blocks `bs'` are those of `pre`, the freed block `b` and those of `post`, up to merging
free neighbours. -/
structure Settled (as : List ℕ) (s : Heap) (pre : List Block) (b : Block) (post bs' : List Block)
    (s' : Heap) : Prop where
  relinked : Relinked as s bs' s'
  same : coalesce Block.isFree Block.merge bs' =
    coalesce Block.isFree Block.merge (pre ++ b.freed :: post)
  separated : Separated Block.isFree pre → Separated Block.isFree (b.freed :: post) →
    Separated Block.isFree bs'

/-- The block behind is merged when it is free; the block itself still has to be flagged. -/
theorem combineNext_relinked (h : Represents s (pre ++ b :: post)) (hb : b.addr ∈ as)
    (hpost : ∀ c ∈ post, c.addr ∈ as) :
    ∃ s' b' post', (combineNext b.addr).run s = .ok ((), s') ∧
      Relinked as s (pre ++ b' :: post') s' ∧ b'.addr = b.addr ∧ post' ⊆ post ∧
      (Separated Block.isFree post → Separated Block.isFree (b'.freed :: post')) ∧
      coalesce Block.isFree Block.merge (pre ++ b.freed :: post) =
        coalesce Block.isFree Block.merge (pre ++ b'.freed :: post') := by
  have hb0 : b.addr ≠ 0 := by have := h.bounds (b := b) (by simp); omega
  cases post with
  | nil =>
    refine ⟨s, b, [], ?_, ⟨h, rfl, .refl _ _⟩, rfl, List.Subset.refl _,
      fun _ => List.IsChain.singleton _, rfl⟩
    simp only [combineNext, StateT.run_bind, getNext_run hb0, ok_bind, h.header, headAddr_nil,
      ne_eq, not_true_eq_false, if_false, pure_run]
  | cons c cs =>
    have hc0 : c.addr ≠ 0 := by have := h.bounds (b := c) (by simp); omega
    have hc : Represents s ((pre ++ [b]) ++ c :: cs) := by simpa using h
    simp only [combineNext, StateT.run_bind, getNext_run hb0, ok_bind, h.header, headAddr_cons,
      ne_eq, hc0, not_false_eq_true, if_true, getIsFree_run hc0, hc.header]
    by_cases hfree : c.isFree
    · obtain ⟨s', hrun, hrel⟩ := combine_relinked h hb (fun d hd => hpost d (by simp [hd]))
      refine ⟨s', b.merge c, cs, ?_, hrel, rfl, List.subset_cons_self _ _, fun hsep => ?_, ?_⟩
      · simp only [hfree, if_true, StateT.run_bind, getNext_run hb0, ok_bind, h.header,
          headAddr_cons, hrun]
      · cases cs with
        | nil => exact List.IsChain.singleton _
        | cons d ds =>
          rw [separated_cons_cons] at hsep ⊢
          exact ⟨fun hd => hsep.1 ⟨hfree, hd.2⟩, hsep.2⟩
      · exact coalesce_merge Block.mergeLaws rfl hfree pre cs
    · refine ⟨s, b, c :: cs, ?_, ⟨h, rfl, .refl _ _⟩, rfl, List.Subset.refl _, fun hsep => ?_, rfl⟩
      · simp only [hfree]
        rfl
      · exact separated_cons_cons.mpr ⟨fun hc => hfree hc.2, hsep⟩

/-- The block before is free and takes `b` in; then the flag of `b` is payload. -/
theorem combine_into_prev (h : Represents s (pre ++ a :: b :: post)) (ha : a.isFree)
    (has : ∀ c ∈ pre ++ a :: b :: post, c.addr ∈ as) :
    ∃ s₁ s', (combine a.addr b.addr).run s = .ok ((), s₁) ∧
      metadataAt s₁.mem b.addr = metadataAt s.mem b.addr ∧
      (post = [] → s₁.glob.end_ = a.addr) ∧
      (setIsFree b.addr true).run s₁ = .ok ((), s') ∧
      Settled as s (pre ++ [a]) b post (pre ++ a.merge b :: post) s' := by
  have hadj := h.tiles.split.2.1
  simp only [Block.len] at hadj
  obtain ⟨s₁, hrun₁, heq, hrep, hmem⟩ := combine_represents h
  obtain ⟨s₂, hrun₂, hrel₁⟩ := combine_relinked h (has a (by simp)) (fun c hc => has c (by simp [hc]))
  obtain rfl : s₁ = s₂ := by
    rw [hrun₁] at hrun₂
    simpa using hrun₂
  obtain ⟨s', hrun', hrel'⟩ := setIsFree_inside hrep (p := b.addr)
    (by simp only [Block.merge]; omega) (by simp only [Block.merge]; omega) (has b (by simp))
  refine ⟨s₁, s', hrun₁, metadataAt_congr (hmem.agree (fun t ht => ?_)), ?_, hrun',
    hrel₁.trans hrel', ?_, fun hpre hpost => ?_⟩
  · simp only [List.mem_cons, List.mem_map] at ht
    rcases ht with rfl | ⟨c, hc, rfl⟩
    · omega
    · have hb' : Represents s ((pre ++ [a]) ++ b :: post) := by simpa using h
      have := hb'.after (List.mem_of_mem_take hc)
      omega
  · rintro rfl
    rw [hrep.last_eq]
    simp [Block.merge]
  · rw [List.append_assoc]
    exact (coalesce_merge Block.mergeLaws (c := b.freed) ha rfl pre post).symm
  · refine separated_append_cons.mpr ⟨?_, ?_⟩
    · exact List.IsChain.append (List.IsChain.left_of_append hpre) (List.IsChain.singleton _)
        (fun x hx y hy hxy => (List.isChain_append.mp hpre).2.2 x hx a rfl ⟨hxy.1, ha⟩)
    · cases post with
      | nil => exact List.IsChain.singleton _
      | cons c cs =>
        rw [separated_cons_cons] at hpost ⊢
        exact ⟨fun hc => hpost.1 ⟨rfl, hc.2⟩, hpost.2⟩

/-- The block before is in use, or there is none: only the flag is set. -/
theorem setIsFree_alone (h : Represents s (pre ++ b :: post))
    (hlast : ∀ a ∈ pre.getLast?, a.isFree = false) (hb : b.addr ∈ as) :
    ∃ s', (setIsFree b.addr true).run s = .ok ((), s') ∧
      Settled as s pre b post (pre ++ b.freed :: post) s' := by
  obtain ⟨s', hrun, hrel⟩ := setIsFree_relinked h hb
  refine ⟨s', hrun, hrel, rfl, fun hpre hpost => ?_⟩
  exact separated_append_cons.mpr ⟨List.IsChain.append hpre (List.IsChain.singleton _)
    (fun x hx y _ hxy => by simp [hlast x hx] at hxy), hpost⟩

/-- The rest of `sfree`, for the block before and the flag. -/
theorem combinePrev_settled (h : Represents s (pre ++ b :: post))
    (has : ∀ c ∈ pre ++ b :: post, c.addr ∈ as) :
    ∃ s' bs', (do combinePrev b.addr; setIsFree b.addr true : M Unit).run s = .ok ((), s') ∧
      Settled as s pre b post bs' s' := by
  have hb0 : b.addr ≠ 0 := by have := h.bounds (b := b) (by simp); omega
  rcases List.eq_nil_or_concat pre with rfl | ⟨ps, a, rfl⟩
  · obtain ⟨s', hrun, hset⟩ := setIsFree_alone h (by simp) (has b (by simp))
    refine ⟨s', _, ?_, hset⟩
    simp only [combinePrev, StateT.run_bind, getPrev_run hb0, ok_bind, h.header, lastAddr_nil,
      ne_eq, not_true_eq_false, if_false, pure_run, hrun]
  · rw [List.concat_eq_append] at *
    have ha : Represents s (ps ++ a :: b :: post) := by simpa using h
    have ha0 : a.addr ≠ 0 := by have := h.bounds (b := a) (by simp); omega
    have hlast : lastAddr Block.addr 0 (ps ++ [a]) = a.addr := by simp
    simp only [combinePrev, StateT.run_bind, getPrev_run hb0, ok_bind, h.header, hlast,
      ne_eq, ha0, not_false_eq_true, if_true, getIsFree_run ha0, ha.header]
    by_cases hfree : a.isFree
    · obtain ⟨s₁, s', hrun₁, -, -, hrun', hset⟩ := combine_into_prev ha hfree (by simpa using has)
      refine ⟨s', _, ?_, hset⟩
      simp only [hfree, if_true, StateT.run_bind, getPrev_run hb0, ok_bind, h.header, hlast, hrun₁,
        hrun']
    · obtain ⟨s', hrun, hset⟩ := setIsFree_alone h (by simpa using hfree) (has b (by simp))
      refine ⟨s', _, ?_, hset⟩
      simp only [hfree]
      exact hrun

/-- Every path of `sfree` frees `b` and merges free neighbours only, all of them when no
others are left. -/
structure Freed (s : Heap) (pre : List Block) (b : Block) (post bs' : List Block) (s' : Heap) :
    Prop where
  relinked : Relinked ((pre ++ b :: post).map Block.addr) s bs' s'
  same : coalesce Block.isFree Block.merge bs' =
    coalesce Block.isFree Block.merge (pre ++ b.freed :: post)
  separated : Separated Block.isFree (pre ++ b :: post) → Separated Block.isFree bs'

theorem Settled.freed {bs' : List Block} {s' : Heap}
    (h : Settled ((pre ++ b :: post).map Block.addr) s pre b post bs' s')
    (hpost : Separated Block.isFree (b :: post) → Separated Block.isFree (b.freed :: post)) :
    Freed s pre b post bs' s' where
  relinked := h.relinked
  same := h.same
  separated hsep := h.separated (List.IsChain.left_of_append hsep)
    (hpost (List.IsChain.right_of_append hsep))

theorem sfreeNeighbours_freed (h : Represents s (pre ++ b :: post)) :
    ∃ s' bs', (sfreeNeighbours b.addr).run s = .ok ((), s') ∧ Freed s pre b post bs' s' := by
  have has : ∀ c ∈ pre ++ b :: post, c.addr ∈ (pre ++ b :: post).map Block.addr :=
    fun c hc => List.mem_map_of_mem hc
  obtain ⟨s₁, b', post', hrun₁, hrel₁, haddr, hsub, hsep₁, hco⟩ :=
    combineNext_relinked h (has b (by simp)) (fun c hc => has c (by simp [hc]))
  have has' : ∀ c ∈ pre ++ b' :: post', c.addr ∈ (pre ++ b :: post).map Block.addr := by
    intro c hc
    simp only [List.mem_append, List.mem_cons] at hc
    rcases hc with hc | rfl | hc
    · exact has c (by simp [hc])
    · exact haddr ▸ has b (by simp)
    · exact has c (by simp [hsub hc])
  obtain ⟨s₂, bs', hrun₂, hset⟩ := combinePrev_settled hrel₁.represents has'
  refine ⟨s₂, bs', ?_, hrel₁.trans hset.relinked, hset.same.trans hco.symm, fun hsep => ?_⟩
  · rw [haddr] at hrun₂
    rw [sfreeNeighbours, StateT.run_bind, hrun₁, ok_bind, hrun₂]
  · exact hset.separated (List.IsChain.left_of_append hsep)
      (hsep₁ (List.IsChain.right_of_append hsep).tail)

/-- Every path of `sfree` through the `sbrk` list. -/
theorem sfreeSbrk_freed (h : Represents s (pre ++ b :: post)) :
    ∃ s' bs', (sfreeSbrk b.addr).run s = .ok ((), s') ∧ Freed s pre b post bs' s' := by
  have hb0 : b.addr ≠ 0 := by have := h.bounds (b := b) (by simp); omega
  have hneigh := sfreeNeighbours_freed h
  have has : ∀ c ∈ pre ++ b :: post, c.addr ∈ (pre ++ b :: post).map Block.addr :=
    fun c hc => List.mem_map_of_mem hc
  simp only [sfreeSbrk, StateT.run_bind, getRoot_run, ok_bind, h.root_eq_iff]
  by_cases hroot : pre = []
  · subst hroot
    rw [if_pos rfl]
    have hp : b.addr = s.glob.root := h.root_eq_iff.mpr rfl
    cases post with
    | nil =>
      obtain ⟨s', hrun, hset⟩ := setIsFree_alone h (by simp) (has b (by simp))
      have hend : s.glob.end_ = s.glob.root := by rw [← hp, eq_comm, h.last_eq_iff]
      refine ⟨s', _, ?_, hset.freed fun _ => List.IsChain.singleton _⟩
      simp only [StateT.run_bind, getNext_run hb0, ok_bind, h.header, headAddr_nil, if_true,
        getRoot_run, setEnd_run, setEnd_self hend, hrun]
    | cons c cs =>
      have hc : Represents s ([b] ++ c :: cs) := by simpa using h
      have hc0 : c.addr ≠ 0 := by have := h.bounds (b := c) (by simp); omega
      simp only [StateT.run_bind, getNext_run hb0, ok_bind, h.header, headAddr_cons, hc0,
        if_false, getIsFree_run hc0, hc.header]
      by_cases hfree : c.isFree
      · obtain ⟨s₁, b', post', hrun₁, hrel₁, haddr, hsub, hsep₁, hco⟩ :=
          combineNext_relinked h (has b (by simp)) (fun d hd => has d (by simp [hd]))
        obtain ⟨s', hrun', hset'⟩ := setIsFree_alone hrel₁.represents (by simp)
          (haddr ▸ has b (by simp))
        have hroot₁ : s₁.glob.root = b.addr := by rw [hrel₁.only, hp]
        refine ⟨s', _, ?_, hrel₁.trans hset'.relinked, hset'.same.trans hco.symm, fun hsep => ?_⟩
        · simp only [combineNext, StateT.run_bind, getNext_run hb0, ok_bind, h.header,
            headAddr_cons, hc0, ne_eq, not_false_eq_true, if_true, getIsFree_run hc0, hc.header,
            hfree] at hrun₁
          rw [haddr] at hrun'
          simp only [hfree, if_true, StateT.run_bind, getNext_run hb0, ok_bind, h.header,
            headAddr_cons, hrun₁, setRoot_run, setRoot_self hroot₁, hrun']
        · exact hset'.separated separated_nil (hsep₁ hsep.tail)
      · simp only [hfree]
        exact hneigh
  · rw [if_neg hroot]
    simp only [StateT.run_bind, getEnd_run, ok_bind, h.last_eq_iff]
    by_cases hend : post = []
    · subst hend
      rw [if_pos rfl]
      obtain ⟨ps, a, rfl⟩ : ∃ ps a, pre = ps ++ [a] := by
        rcases List.eq_nil_or_concat pre with he | ⟨ps, a, he⟩
        · exact absurd he hroot
        · exact ⟨ps, a, by simpa using he⟩
      have ha : Represents s (ps ++ a :: [b]) := by simpa using h
      have ha0 : a.addr ≠ 0 := by have := h.bounds (b := a) (by simp); omega
      have hlast : lastAddr Block.addr 0 (ps ++ [a]) = a.addr := by simp
      simp only [StateT.run_bind, getPrev_run hb0, ok_bind, h.header, hlast, getIsFree_run ha0,
        ha.header]
      by_cases hfree : a.isFree
      · have has' : ∀ c ∈ ps ++ [a, b], c.addr ∈ (ps ++ [a] ++ [b]).map Block.addr := by
          simpa using has
        obtain ⟨s₁, s', hrun₁, hkeep, hlast₁, hrun', hset⟩ := combine_into_prev ha hfree has'
        refine ⟨s', _, ?_, hset.freed fun _ => List.IsChain.singleton _⟩
        simp only [hfree, if_true, StateT.run_bind, getPrev_run hb0, ok_bind, h.header, hlast,
          hrun₁, hkeep, setEnd_run, setEnd_self (hlast₁ rfl), hrun']
      · obtain ⟨s', hrun, hset⟩ := setIsFree_alone h (by simpa using hfree) (has b (by simp))
        refine ⟨s', _, ?_, hset.freed fun _ => List.IsChain.singleton _⟩
        simp only [hfree]
        exact hrun
    · rw [if_neg hend]
      exact hneigh

/-- The last statement of every path sets the flag, also where the header is payload by then. -/
theorem sfreeSbrk_ends {p : ℕ} (hp : p ≠ 0) :
    Ends (fun s => (metadataAt s.mem p).isFree = true) (sfreeSbrk p) := by
  have hset := Ends.setIsFree (G := Globals) hp
  have hneighbours : Ends (fun s => (metadataAt s.mem p).isFree = true) (sfreeNeighbours p) :=
    .bind fun _ => .bind fun _ => hset
  refine .bind fun root => .ite ?_ ?_
  · refine .bind fun next => .ite (.bind fun _ => .bind fun _ => hset) ?_
    refine .bind fun next' => .bind fun free => .ite ?_ hneighbours
    exact .bind fun _ => .bind fun _ => .bind fun _ => hset
  · refine .bind fun last => .ite ?_ hneighbours
    refine .bind fun prev => .bind fun free => .ite ?_ hset
    exact .bind fun _ => .bind fun _ => .bind fun _ => .bind fun _ => hset

/-- A block in use is freed by way of the `sbrk` list when its size is below the limit. -/
theorem sfree_freed (h : Represents s (pre ++ b :: post)) (hused : b.isFree = false)
    (hsize : b.size < mmapAllocationLimit) :
    ∃ s' bs', (sfree (b.addr + 32)).run s = .ok ((), s') ∧ Freed s pre b post bs' s' := by
  have hbounds := h.bounds (b := b) (by simp)
  have hb0 : b.addr ≠ 0 := by omega
  obtain ⟨s', bs', hrun, hfreed⟩ := sfreeSbrk_freed h
  refine ⟨s', bs', ?_, hfreed⟩
  simp only [sfree, if_neg (by omega : ¬b.addr + 32 = 0), header_of_lt (by omega : b.addr + 32 < _),
    StateT.run_bind, getIsFree_run hb0, getSize_run hb0, ok_bind, h.header, hused,
    Bool.false_eq_true, if_false, if_neg (by omega : ¬mmapAllocationLimit ≤ b.size), hrun]

theorem Freed.frame {bs' : List Block} {s' : Heap} (hf : Freed s pre b post bs' s')
    (h : Represents s (pre ++ b :: post)) : HeapFrame s (pre ++ b :: post) s' := by
  refine HeapFrame.of_headersOnly h hf.relinked.headers (by rw [hf.relinked.only])
    (fun a ha => .inl ?_)
  obtain ⟨c, hc, rfl⟩ := List.mem_map.mp ha
  exact ⟨c, hc, rfl⟩

/-- `sfree` returns and frees the block; `bs` are the blocks before. -/
structure Released (s : Heap) (bs : List Block) (a : ℕ) (s' : Heap) : Prop where
  represents : Represents s' (release a bs)
  maps : SameMaps s s'
  frame : HeapFrame s bs s'
  brk : s'.brk = s.brk
  calls : s'.calls = s.calls

/-- On a heap without free neighbours `sfree` computes `release`. -/
theorem sfree_released (h : Represents s bs) (hsep : Separated Block.isFree bs) (hb : b ∈ bs)
    (hused : b.isFree = false) (hsize : b.size < mmapAllocationLimit) :
    ∃ s', (sfree (b.addr + 32)).run s = .ok ((), s') ∧ Released s bs b.addr s' := by
  obtain ⟨pre, post, rfl⟩ := List.append_of_mem hb
  obtain ⟨s', bs', hrun, hfreed⟩ := sfree_freed h hused hsize
  have hrelease : bs' = release b.addr (pre ++ b :: post) := by
    rw [release, map_freeAt h, ← hfreed.same, coalesce_of_separated (hfreed.separated hsep)]
  have hrel := hfreed.relinked
  exact ⟨s', hrun, hrelease ▸ hrel.represents, .of_eq hrel.only, hfreed.frame h,
    by rw [hrel.only], by rw [hrel.only]⟩

theorem release_separated (a : ℕ) (bs : List Block) : Separated Block.isFree (release a bs) :=
  coalesce_separated _

/-- The blocks in use after `release` are the others that were in use before. -/
theorem mem_release_inUse {a : ℕ} {c : Block} (hc : c.isFree = false) :
    c ∈ release a bs ↔ c ∈ bs ∧ c.addr ≠ a := by
  rw [release, mem_coalesce_of_not_marked Block.mergeLaws hc, List.mem_map]
  constructor
  · rintro ⟨d, hd, rfl⟩
    unfold freeAt at hc ⊢
    split at hc
    · simp [Block.freed] at hc
    · rename_i hne
      rw [if_neg hne]
      exact ⟨hd, hne⟩
  · rintro ⟨hmem, hne⟩
    exact ⟨c, hmem, if_neg hne⟩

theorem headAddr_release (a brk : ℕ) (bs : List Block) :
    headAddr Block.addr brk (release a bs) = headAddr Block.addr brk bs := by
  rw [release, headAddr_coalesce]
  cases bs with
  | nil => rfl
  | cons b bs =>
    simp only [List.map_cons, headAddr_cons, freeAt]
    split <;> rfl

end Release
end FtfSystems.VirtualMemory.Malloc2

import FtfSystems.VirtualMemory.Malloc2.HeapContract

/-!
# Reallocation on the `sbrk` heap

`srealloc` enlarges a block in place, by merging it with the free block before it, behind it
or both, or else by allocating another one. Which of these it does is read off the list:
`reallocCase`. The paths that leave the block before alone return a block that holds the old
bytes and keep the list and every other block in use.
-/
namespace FtfSystems.VirtualMemory.Malloc2
open Foundation

/-- The cases 1.a, 1.b, 1.c and 1.d of `srealloc`, and the copy to another block. -/
inductive ReallocCase where
  | inPlace
  | lower
  | upper
  | both
  | copy
  deriving DecidableEq

/-- The case `srealloc` takes for the block `b` between `pre` and `post`. -/
def reallocCase (size : ℕ) (pre : List Block) (b : Block) (post : List Block) : ReallocCase :=
  if size ≤ b.size then .inPlace
  else if pre.getLast?.any fun a => size ≤ a.size + b.size + 32 && a.isFree then .lower
  else if post.head?.any fun c => size ≤ c.size + b.size + 32 && c.isFree then .upper
  else if pre.getLast?.any fun a => post.head?.any fun c =>
      size ≤ a.size + c.size + b.size + 64 && a.isFree && c.isFree then .both
  else .copy

/-- The blocks that `split` makes of `d` when the rest can hold a header and 128 bytes. -/
def cutTo (size : ℕ) (d : Block) : List Block :=
  if size + 160 ≤ d.size then [{ d with size := size }, d.rest size] else [d]

/-- The heap after `split` if the rest of `d` is large enough; `n` is the address behind `d`. -/
def cutHeap (s : Heap) (size : ℕ) (d : Block) (n : ℕ) : Heap :=
  if size + 160 ≤ d.size then
    { s with
      mem := splitMemory s.mem d.addr size (d.rest size).addr n
      glob.end_ := if d.addr = s.glob.end_ then (d.rest size).addr else s.glob.end_ }
  else s

section Cut
variable {s : Heap} {pre post : List Block} {b d : Block} {size : ℕ}

theorem cutTo_head (size : ℕ) (d : Block) : ∃ e rest, cutTo size d = e :: rest ∧ e.addr = d.addr ∧
    e.isFree = d.isFree ∧ (size ≤ d.size → size ≤ e.size) := by
  unfold cutTo
  split
  · exact ⟨_, _, rfl, rfl, rfl, fun _ => le_rfl⟩
  · exact ⟨_, _, rfl, rfl, rfl, id⟩

/-- The memory behind a new header and in front of it is that of before. -/
theorem splitIf_run (h : Represents s (pre ++ d :: post)) (hsize : size ≤ d.size) :
    ∃ s', (if wadd 128 sizeofMetadata ≤ wsub d.size size then split d.addr size
        else pure () : M Unit).run s = .ok ((), s') ∧
      s' = { s with mem := s'.mem, glob.end_ := s'.glob.end_ } ∧
      s' = cutHeap s size d (headAddr Block.addr 0 post) ∧
      Represents s' (pre ++ cutTo size d ++ post) ∧
      HeadersOnly ((cutTo size d).map Block.addr ++ (post.take 1).map Block.addr) s.mem s'.mem := by
  have hd := h.bounds (b := d) (by simp)
  have hcut : wadd 128 sizeofMetadata ≤ wsub d.size size ↔ size + 160 ≤ d.size := by
    rw [wsub_of_le (by omega) hsize]
    simp only [wadd, sizeofMetadata]
    omega
  unfold cutTo cutHeap
  by_cases hlarge : size + 160 ≤ d.size
  · obtain ⟨s', hrun, heq, hrep, hmem⟩ := split_represents size h (by omega)
    have hq : wadd (wadd d.addr size) 32 = (d.rest size).addr := by
      simp only [wadd, Block.rest]
      omega
    have hcall := split_run (s := s) (by omega : d.addr ≠ 0) hq (by simp only [Block.rest]; omega)
      (congrArg MallocMetadata.next h.header)
    rw [hrun] at hcall
    refine ⟨s', ?_, heq, ?_, ?_, ?_⟩
    · rw [if_pos (hcut.mpr hlarge), hrun]
    · rw [if_pos hlarge]
      exact (Prod.mk.inj (Except.ok.inj hcall)).2
    · simpa [hlarge] using hrep
    · simpa [hlarge] using hmem
  · refine ⟨s, ?_, rfl, ?_, ?_, .refl _ _⟩
    · rw [if_neg (mt hcut.mp hlarge), pure_run]
    · rw [if_neg hlarge]
    · simpa [hlarge] using h

theorem cutTo_inner {start stop : ℕ} (ht : Tiles Block.addr Block.len start [d] stop) :
    ∀ t ∈ (cutTo size d).map Block.addr, start ≤ t ∧ t + 32 ≤ stop := by
  simp only [Tiles_cons, Tiles_nil, Block.len] at ht
  unfold cutTo
  split
  · simp only [List.map_cons, List.map_nil, List.mem_cons, List.not_mem_nil, or_false,
      forall_eq_or_imp, forall_eq, Block.rest]
    omega
  · simp only [List.map_cons, List.map_nil, List.mem_singleton, forall_eq]
    omega

/-- The first bytes of a block are kept when the rest is cut off. -/
theorem cutTo_agree (h : Represents s (pre ++ d :: post)) (hsize : size ≤ d.size) {m' : Memory}
    (hmem : HeadersOnly ((cutTo size d).map Block.addr ++ (post.take 1).map Block.addr) s.mem m') :
    s.mem.AgreeOn m' (d.addr + 32) size := by
  refine hmem.agree (fun t ht => ?_)
  rcases List.mem_append.mp ht with ht | ht
  · unfold cutTo at ht
    split at ht
    · simp only [List.map_cons, List.map_nil, List.mem_cons, List.not_mem_nil, or_false,
        Block.rest] at ht
      omega
    · simp only [List.map_cons, List.map_nil, List.mem_singleton] at ht
      omega
  · obtain ⟨c, hc, rfl⟩ := List.mem_map.mp ht
    have hafter := h.after (List.mem_of_mem_take hc)
    omega

end Cut

/-- Headers written between two parts of the list, and in the first block of the second part,
are not in the payloads of either. -/
theorem outer_agree {m m' : Memory} {root last brk : ℕ} {pre l post : List Block} {c : Block}
    {u : List ℕ} (h : BlockList m root last brk (pre ++ l ++ post))
    (hmem : HeadersOnly (u ++ (post.take 1).map Block.addr) m m')
    (hin : ∀ start stop, Tiles Block.addr Block.len start l stop →
      ∀ t ∈ u, start ≤ t ∧ t + 32 ≤ stop) (hc : c ∈ pre ∨ c ∈ post) :
    m.AgreeOn m' (c.addr + 32) c.size := by
  obtain ⟨stop, hx, hty⟩ := Tiles_append.mp h.tiles
  obtain ⟨start, htp, htm⟩ := Tiles_append.mp hx
  have hle := htm.le
  refine hmem.agree (fun t ht => ?_)
  rcases List.mem_append.mp ht with ht | ht
  · have hi := hin _ _ htm t ht
    rcases hc with hc | hc
    · have hb := (htp.bounds hc).2
      simp only [Block.len] at hb
      omega
    · have hb := (hty.bounds hc).1
      omega
  · obtain ⟨d, hd, rfl⟩ := List.mem_map.mp ht
    have hd' := List.mem_of_mem_take hd
    have hcl : c ∈ pre ++ l ++ post := by
      rcases hc with hc | hc <;> simp [hc]
    by_cases hcd : c = d
    · subst hcd
      omega
    · have := h.apart hcl (by simp [hd'] : d ∈ pre ++ l ++ post) hcd
      omega

/-- The heap after `combine(a, b)` and the assignment that takes the result into use; `n` is the
address behind `b`. -/
def mergedInUse (s : Heap) (a b n : ℕ) : Heap :=
  { s with
    mem := storeField (combineMemory s.mem a b n) a .isFree 0
    glob.end_ := if b = s.glob.end_ then a else s.glob.end_ }

section Merge
variable {s : Heap} {pre post : List Block} {a b c : Block} {size : ℕ}

theorem reallocCase_lower (h : reallocCase size pre b post = .lower) :
    b.size < size ∧ ∃ ps a, pre = ps ++ [a] ∧ a.isFree ∧ size ≤ a.size + b.size + 32 := by
  unfold reallocCase at h
  split_ifs at h with hfits hlower
  refine ⟨by omega, ?_⟩
  rcases List.eq_nil_or_concat' pre with rfl | ⟨ps, a, rfl⟩
  · simp at hlower
  · obtain ⟨hsize, hfree⟩ : size ≤ a.size + b.size + 32 ∧ a.isFree := by simpa using hlower
    exact ⟨ps, a, rfl, hfree, hsize⟩

theorem reallocCase_upper (h : reallocCase size pre b post = .upper) :
    b.size < size ∧ ∃ c cs, post = c :: cs ∧ c.isFree ∧ size ≤ c.size + b.size + 32 := by
  unfold reallocCase at h
  split_ifs at h with hfits hlower hupper
  refine ⟨by omega, ?_⟩
  cases post with
  | nil => simp at hupper
  | cons c cs =>
    obtain ⟨hsize, hfree⟩ : size ≤ c.size + b.size + 32 ∧ c.isFree := by simpa using hupper
    exact ⟨c, cs, rfl, hfree, hsize⟩

theorem reallocCase_both (h : reallocCase size pre b post = .both) :
    b.size < size ∧ ∃ ps a c cs, pre = ps ++ [a] ∧ post = c :: cs ∧ a.isFree ∧ c.isFree ∧
      a.size + b.size + 32 < size ∧ c.size + b.size + 32 < size ∧
      size ≤ a.size + c.size + b.size + 64 := by
  unfold reallocCase at h
  split_ifs at h with hfits hlower hupper hboth
  refine ⟨by omega, ?_⟩
  rcases List.eq_nil_or_concat' pre with rfl | ⟨ps, a, rfl⟩
  · simp at hboth
  cases post with
  | nil => simp at hboth
  | cons c cs =>
    obtain ⟨⟨hsize, ha⟩, hc⟩ : (size ≤ a.size + c.size + b.size + 64 ∧ a.isFree) ∧ c.isFree := by
      simpa using hboth
    have hlower' : a.size + b.size + 32 < size := by simpa [ha] using hlower
    have hupper' : c.size + b.size + 32 < size := by simpa [hc] using hupper
    exact ⟨ps, a, c, cs, rfl, rfl, ha, hc, hlower', hupper', hsize⟩

/-- The size that `srealloc` compares with for two neighbours. -/
theorem wadd_sizes {m n : ℕ} (h : m + n + 32 < 2 ^ 64) :
    wadd (wadd m n) sizeofMetadata = m + n + 32 := by
  simp only [wadd, sizeofMetadata]
  omega

/-- The merges of `srealloc` by case. -/
theorem sreallocMerge_run (h : Represents s (pre ++ b :: post)) (hgt : b.size < size) :
    (sreallocMerge b.addr size).run s =
      match reallocCase size pre b post with
      | .lower => (do
          combine (lastAddr Block.addr 0 pre) b.addr
          setIsFree (lastAddr Block.addr 0 pre) false
          return lastAddr Block.addr 0 pre : M ℕ).run s
      | .upper => (do
          combine b.addr (headAddr Block.addr 0 post)
          setIsFree b.addr false
          return b.addr : M ℕ).run s
      | .both => (do
          combine (lastAddr Block.addr 0 pre) b.addr
          combine (lastAddr Block.addr 0 pre) (headAddr Block.addr 0 post)
          setIsFree (lastAddr Block.addr 0 pre) false
          return lastAddr Block.addr 0 pre : M ℕ).run s
      | _ => .ok (0, s) := by
  have hb := h.bounds (b := b) (by simp)
  have hb0 : b.addr ≠ 0 := by omega
  have hown := h.header
  simp only [sreallocMerge, StateT.run_bind, getPrev_run hb0, getNext_run hb0, getSize_run hb0,
    ok_bind, hown, reallocCase, if_neg (by omega : ¬size ≤ b.size)]
  rcases List.eq_nil_or_concat' pre with rfl | ⟨ps, a, rfl⟩ <;> rcases post with _ | ⟨c, cs⟩
  · rfl
  · have hbound := h.bounds (b := c) (by simp)
    have hc0 : c.addr ≠ 0 := by omega
    have hc : Represents s ([b] ++ c :: cs) := by simpa using h
    have hadj := h.adjacent
    have hsum := wadd_sizes (by omega : c.size + b.size + 32 < 2 ^ 64)
    simp only [headAddr_cons, lastAddr_nil, ne_eq, hc0, not_true_eq_false, not_false_eq_true,
      if_true, if_false, getSize_run hc0, getIsFree_run hc0, hc.header, hsum, StateT.run_bind,
      ok_bind, pure_run, List.getLast?_nil, Option.any_none, List.head?_cons, Option.any_some,
      Bool.false_eq_true]
    split_ifs <;> simp only [StateT.run_bind, pure_run]
  · have ha : Represents s (ps ++ a :: b :: []) := by simpa using h
    have hbounda := h.bounds (b := a) (by simp)
    have ha0 : a.addr ≠ 0 := by omega
    have hadj := ha.adjacent
    have hsum := wadd_sizes (by omega : a.size + b.size + 32 < 2 ^ 64)
    simp only [headAddr_nil, lastAddr_append, lastAddr_cons, lastAddr_nil, ne_eq, ha0,
      not_true_eq_false, not_false_eq_true, if_true, if_false, getSize_run ha0, getIsFree_run ha0,
      ha.header, hsum, StateT.run_bind, ok_bind, pure_run, List.getLast?_append,
      List.getLast?_singleton, Option.some_or, List.head?_nil, Option.any_some, Option.any_none,
      Bool.false_eq_true]
    split_ifs <;> simp only [StateT.run_bind, pure_run]
  · have ha : Represents s (ps ++ a :: b :: c :: cs) := by simpa using h
    have hc : Represents s ((ps ++ [a] ++ [b]) ++ c :: cs) := by simpa using h
    have hbounda := h.bounds (b := a) (by simp)
    have hboundc := h.bounds (b := c) (by simp)
    have ha0 : a.addr ≠ 0 := by omega
    have hc0 : c.addr ≠ 0 := by omega
    have hadj := h.adjacent
    have hadj' := ha.adjacent
    have hlower := wadd_sizes (by omega : a.size + b.size + 32 < 2 ^ 64)
    have hupper := wadd_sizes (by omega : c.size + b.size + 32 < 2 ^ 64)
    have hboth : wadd (wadd (wadd a.size c.size) b.size) (wmul 2 sizeofMetadata) =
        a.size + c.size + b.size + 64 := by
      simp only [wadd, wmul, sizeofMetadata]
      omega
    simp only [headAddr_cons, lastAddr_append, lastAddr_cons, lastAddr_nil, ne_eq, ha0, hc0,
      not_false_eq_true, if_true, getSize_run ha0, getIsFree_run ha0, ha.header, hlower,
      StateT.run_bind, ok_bind, pure_run, List.getLast?_append, List.getLast?_singleton,
      Option.some_or, List.head?_cons, Option.any_some]
    clear hadj hadj'
    have hsize := getSize_run hc0 s
    have hfree := getIsFree_run hc0 s
    rw [hc.header] at hsize hfree
    split_ifs with h₁ h₂ h₃ <;>
      simp only [StateT.run_bind, ok_bind, pure_run, getSize_run ha0, getIsFree_run ha0, ha.header,
        if_true, if_false, Bool.false_eq_true, *]

/-- Two neighbours are taken as one block in use. -/
theorem mergeInUse_run (h : Represents s (pre ++ a :: b :: post)) :
    ∃ s', (do combine a.addr b.addr; setIsFree a.addr false; return a.addr : M ℕ).run s =
        .ok (a.addr, s') ∧ s' = mergedInUse s a.addr b.addr (headAddr Block.addr 0 post) ∧
      Represents s' (pre ++ { a.merge b with isFree := false } :: post) ∧
      HeadersOnly (a.addr :: (post.take 1).map Block.addr) s.mem s'.mem := by
  have ha := h.bounds (b := a) (by simp)
  have hadj := h.adjacent
  have hb : Represents s ((pre ++ [a]) ++ b :: post) := by simpa using h
  obtain ⟨s₁, hrun₁, heq₁, hrep₁, hmem₁⟩ := combine_represents h
  obtain ⟨s₂, hrun₂, heq₂, hrep₂, hmem₂⟩ := setIsFree_represents false hrep₁
  have hcall := combine_run (s := s) (by omega : a.addr ≠ 0) (by omega : a.addr + 32 ≤ b.addr)
    (congrArg MallocMetadata.next hb.header)
  have hflag := setIsFree_run (by omega : a.addr ≠ 0) s₁ false
  rw [show (a.merge b).addr = a.addr from rfl] at hrun₂
  rw [hrun₁] at hcall
  rw [hrun₂, (Prod.mk.inj (Except.ok.inj hcall)).2] at hflag
  refine ⟨s₂, ?_, (Prod.mk.inj (Except.ok.inj hflag)).2, hrep₂,
    hmem₁.trans (hmem₂.mono (by simp [Block.merge]))⟩
  rw [StateT.run_bind, hrun₁, ok_bind, StateT.run_bind, hrun₂, ok_bind, pure_run]

/-- Three neighbours are taken as one block in use. -/
theorem mergeBoth_run (h : Represents s (pre ++ a :: b :: c :: post)) :
    ∃ s₁ s', (combine a.addr b.addr).run s = .ok ((), s₁) ∧ (do
        combine a.addr b.addr
        combine a.addr c.addr
        setIsFree a.addr false
        return a.addr : M ℕ).run s = .ok (a.addr, s') ∧
      s₁.mem = combineMemory s.mem a.addr b.addr c.addr ∧
      s' = mergedInUse s₁ a.addr c.addr (headAddr Block.addr 0 post) ∧
      s' = { s with mem := s'.mem, glob.end_ := s'.glob.end_ } ∧
      Represents s' (pre ++ { (a.merge b).merge c with isFree := false } :: post) ∧
      HeadersOnly ([a.addr, c.addr] ++ (post.take 1).map Block.addr) s.mem s'.mem := by
  have ha := h.bounds (b := a) (by simp)
  have hadj := h.adjacent
  have hb : Represents s ((pre ++ [a]) ++ b :: c :: post) := by simpa using h
  obtain ⟨s₁, hrun₁, heq₁, hrep₁, hmem₁⟩ := combine_represents h
  obtain ⟨s₂, hrun₂, heq₂, hrep₂, hmem₂⟩ := mergeInUse_run hrep₁
  have hcall := combine_run (s := s) (by omega : a.addr ≠ 0) (by omega : a.addr + 32 ≤ b.addr)
    (congrArg MallocMetadata.next hb.header)
  rw [hrun₁, headAddr_cons] at hcall
  have hmerged := (Prod.mk.inj (Except.ok.inj hcall)).2
  refine ⟨s₁, s₂, hrun₁, ?_, by rw [hmerged], heq₂, ?_, hrep₂,
    (hmem₁.mono (by simp)).trans (hmem₂.mono ?_)⟩
  · rw [StateT.run_bind, hrun₁, ok_bind]
    exact hrun₂
  · rw [heq₂, hmerged]
    rfl
  · simp [Block.merge]

end Merge

/-- The block `d` serves the request: the list is in order, and the other blocks in use are in
it as they were. -/
structure HeapKept (s : Heap) (others : List Block) (size : ℕ) (d : Block) (bs' : List Block)
    (s' : Heap) : Prop where
  represents : Represents s' bs'
  mem : d ∈ bs'
  inUse : d.isFree = false
  size_le : size ≤ d.size
  kept : ∀ c ∈ others, c.isFree = false → Kept s s' bs' c

/-- The first `n` bytes at `p` are those that were at `oldp`. -/
def BytesKept (s : Heap) (oldp n p : ℕ) (s' : Heap) : Prop :=
  ∀ i < n, s'.mem (p + i) = s.mem (oldp + i)

section Paths
variable {s : Heap} {pre post : List Block} {b : Block} {size : ℕ}

/-- A conditional statement and what follows it. -/
theorem if_then_run {α : Type} {p : Prop} [Decidable p] {x : M Unit} {s₁ : Heap} (k : M α)
    (hrun : (if p then x else pure () : M Unit).run s = .ok ((), s₁)) :
    (do
      if p then x
      k : M α).run s = k.run s₁ := by
  split_ifs at hrun ⊢
  · rw [StateT.run_bind, hrun, ok_bind]
  · cases hrun
    rfl

/-- The header of the block can be reached from its payload and has its size. -/
structure Sized (s : Heap) (b : Block) : Prop where
  pos : 0 < b.addr
  lt : b.addr + 32 < 2 ^ 64
  size_eq : (metadataAt s.mem b.addr).size = b.size

theorem sized_of_mem (h : Represents s (pre ++ b :: post)) : Sized s b := by
  have hb := h.bounds (b := b) (by simp)
  exact ⟨by omega, by omega, by rw [h.header]⟩

/-- `srealloc` of a block for a legal size. -/
theorem srealloc_run (os : OsAnswer) (hb : Sized s b) (h0 : 0 < size)
    (hmax : size ≤ maxAllocation) : (srealloc os (b.addr + 32) size).run s =
      if size ≤ b.size then (do
        if wadd 128 sizeofMetadata ≤ wsub b.size size then split b.addr size
        if (← getIsFree b.addr) then setSize b.addr size
        setIsFree b.addr false
        return b.addr + 32 : M ℕ).run s
      else (do
        let dest ← sreallocMerge b.addr size
        if dest ≠ 0 then
          if wadd 128 sizeofMetadata ≤ wsub (← getSize dest) size then split dest size
          moveBytes (payload dest) (b.addr + 32) b.size
          if b.addr ≠ dest then sfree (b.addr + 32)
          return payload dest
        else
          let dest ← smalloc os size
          if dest = minusOne then return 0
          else
            moveBytes dest (b.addr + 32) b.size
            if b.addr ≠ header dest then sfree (b.addr + 32)
            return dest : M ℕ).run s := by
  simp only [srealloc, if_neg (by omega : ¬(size = 0 ∨ maxAllocation < size)),
    if_neg (by omega : ¬b.addr + 32 = 0), header_of_lt hb.lt]
  rw [StateT.run_bind, getSize_run hb.pos.ne', ok_bind, hb.size_eq]
  split_ifs <;> rfl

theorem srealloc_inPlace (os : OsAnswer) (h : Represents s (pre ++ b :: post))
    (hused : b.isFree = false) (h0 : 0 < size) (hmax : size ≤ maxAllocation)
    (hle : size ≤ b.size) :
    ∃ d s' bs', (srealloc os (b.addr + 32) size).run s = .ok (d.addr + 32, s') ∧
      HeapKept s (pre ++ post) size d bs' s' ∧
      BytesKept s (b.addr + 32) (min b.size size) (d.addr + 32) s' := by
  have hb := h.bounds (b := b) (by simp)
  have hb0 : b.addr ≠ 0 := by omega
  obtain ⟨s₁, hrun₁, heq₁, -, hrep₁, hmem₁⟩ := splitIf_run h hle
  obtain ⟨d, rest, hcut, haddr, hflag, hsize⟩ := cutTo_head size b
  have hrep₁' : Represents s₁ (pre ++ d :: (rest ++ post)) := by simpa [hcut] using hrep₁
  have hheader := hrep₁'.header
  obtain ⟨s₂, hrun₂, heq₂, hrep₂, hmem₂⟩ := setIsFree_represents false hrep₁'
  rw [haddr] at hheader hrun₂
  have hd : { d with isFree := false } = d := by rw [← hused, ← hflag]
  rw [hd] at hrep₂
  have hmem : HeadersOnly ((cutTo size b).map Block.addr ++ (post.take 1).map Block.addr) s.mem
      s₂.mem := hmem₁.trans (hmem₂.mono (by simp [hcut]))
  refine ⟨d, s₂, _, ?_, ⟨hrep₂, by simp, hflag.trans hused, hsize hle, fun c hc hu => ⟨?_, ?_⟩⟩, ?_⟩
  · rw [srealloc_run os (sized_of_mem h) h0 hmax, if_pos hle, if_then_run _ hrun₁, StateT.run_bind,
      getIsFree_run hb0, ok_bind, hheader]
    simp only [hflag, hused, Bool.false_eq_true, if_false]
    rw [StateT.run_bind, hrun₂, ok_bind, pure_run, haddr]
  · rcases List.mem_append.mp hc with hc | hc <;> simp [hc]
  · exact outer_agree (l := [b]) (by simpa using h) hmem (fun _ _ => cutTo_inner)
      (List.mem_append.mp hc)
  · intro i hi
    rw [haddr]
    exact cutTo_agree h hle hmem _ (by omega) (by omega)

/-- Case 1.e: after a merge the block is cut and the old bytes are moved to it. -/
theorem srealloc_merged (os : OsAnswer) (h : Represents s (pre ++ b :: post)) (h0 : 0 < size)
    (hmax : size ≤ maxAllocation) (hgt : b.size < size) {s₁ : Heap} {pre₁ post₁ : List Block}
    {d : Block} (hmerge : (sreallocMerge b.addr size).run s = .ok (d.addr, s₁))
    (hrep₁ : Represents s₁ (pre₁ ++ d :: post₁)) (hle : size ≤ d.size)
    (hin : b.addr + b.size ≤ d.addr + d.size) :
    ∃ s₂, s₂ = { s₁ with mem := s₂.mem, glob.end_ := s₂.glob.end_ } ∧
      s₂ = cutHeap s₁ size d (headAddr Block.addr 0 post₁) ∧
      Represents s₂ (pre₁ ++ cutTo size d ++ post₁) ∧
      HeadersOnly ((cutTo size d).map Block.addr ++ (post₁.take 1).map Block.addr) s₁.mem s₂.mem ∧
      (srealloc os (b.addr + 32) size).run s = (do
        if b.addr ≠ d.addr then sfree (b.addr + 32)
        return d.addr + 32 : M ℕ).run
          { s₂ with mem := s₂.mem.memmove (d.addr + 32) (b.addr + 32) b.size } := by
  have hd := hrep₁.bounds (b := d) (by simp)
  have hd0 : d.addr ≠ 0 := by omega
  obtain ⟨s₂, hrun₂, heq₂, hcut₂, hrep₂, hmem₂⟩ := splitIf_run hrep₁ hle
  have hbrk : s₂.brk = s₁.brk := by rw [heq₂]
  have hsrc : s₂.Mapped (b.addr + 32) b.size := Process.mapped_of_le_brk (by omega)
  have hdst : s₂.Mapped (d.addr + 32) b.size := Process.mapped_of_le_brk (by omega)
  refine ⟨s₂, heq₂, hcut₂, hrep₂, hmem₂, ?_⟩
  rw [srealloc_run os (sized_of_mem h) h0 hmax, if_neg (by omega), StateT.run_bind, hmerge, ok_bind,
    if_pos (by simpa using hd0), StateT.run_bind, getSize_run hd0, ok_bind, hrep₁.header,
    if_then_run _ hrun₂, payload_of_lt (by omega : d.addr + 32 < 2 ^ 64), StateT.run_bind,
    moveBytes_run (by omega) hsrc hdst, ok_bind]

theorem srealloc_upper (os : OsAnswer) (h : Represents s (pre ++ b :: post)) (h0 : 0 < size)
    (hmax : size ≤ maxAllocation) (hcase : reallocCase size pre b post = .upper) :
    ∃ d s' bs', (srealloc os (b.addr + 32) size).run s = .ok (d.addr + 32, s') ∧
      HeapKept s (pre ++ post) size d bs' s' ∧
      BytesKept s (b.addr + 32) (min b.size size) (d.addr + 32) s' := by
  obtain ⟨hgt, c, cs, rfl, hfree, hsum⟩ := reallocCase_upper hcase
  have hmerge := sreallocMerge_run h hgt
  obtain ⟨s₁, hrun₁, heq₁, hrep₁, hmem₁⟩ := mergeInUse_run h
  rw [hcase] at hmerge
  simp only [headAddr_cons, hrun₁] at hmerge
  obtain ⟨d₁, hd₁⟩ : ∃ d₁, d₁ = ({ b.merge c with isFree := false } : Block) := ⟨_, rfl⟩
  rw [← hd₁] at hrep₁
  have haddr₁ : d₁.addr = b.addr := by rw [hd₁]; rfl
  have hle : size ≤ d₁.size := by
    rw [hd₁]
    simp only [Block.merge]
    omega
  obtain ⟨s₂, heq₂, -, hrep₂, hmem₂, hrun₂⟩ :=
    srealloc_merged os h h0 hmax hgt (by rw [haddr₁]; exact hmerge) hrep₁ hle (by omega)
  obtain ⟨d, rest, hcut, haddr, hflag, hsize⟩ := cutTo_head size d₁
  rw [hcut] at hrep₂
  rw [haddr₁, Memory.memmove_self, if_neg (by simp), pure_run] at hrun₂
  refine ⟨d, s₂, _, ?_, ⟨hrep₂, by simp, ?_, hsize hle, fun e he hu => ⟨?_, ?_⟩⟩, ?_⟩
  · rw [haddr, haddr₁]
    exact hrun₂
  · rw [hflag, hd₁]
  · simp only [List.mem_append, List.mem_cons] at he ⊢
    rcases he with he | rfl | he
    · simp [he]
    · simp [hfree] at hu
    · simp [he]
  · have houter : e ∈ pre ∨ e ∈ cs := by
      simp only [List.mem_append, List.mem_cons] at he
      rcases he with he | rfl | he
      · exact .inl he
      · simp [hfree] at hu
      · exact .inr he
    have hagree₁ := outer_agree (l := [b, c]) (u := [b.addr]) (by simpa using h)
      (hmem₁.mono (by simp)) (fun start stop ht => by simp [Block.len] at ht ⊢; omega) houter
    have hagree₂ := outer_agree (l := [d₁]) (by simpa using hrep₁) hmem₂
      (fun _ _ => cutTo_inner) houter
    exact hagree₁.trans hagree₂
  · have hadj := h.adjacent
    have hagree₁ : s.mem.AgreeOn s₁.mem (b.addr + 32) b.size := by
      refine hmem₁.agree (fun t ht => ?_)
      simp only [List.mem_cons, List.mem_map] at ht
      rcases ht with rfl | ⟨e, he, rfl⟩
      · omega
      · have hafter := h.after (c := e) (by simp [List.mem_of_mem_take he])
        omega
    have hagree₂ := cutTo_agree hrep₁ hle hmem₂
    rw [haddr₁] at hagree₂
    intro i hi
    rw [haddr, haddr₁, hagree₂ _ (by omega) (by omega)]
    exact hagree₁ _ (by omega) (by omega)

/-- No block in use has the address of the block that serves a request. -/
theorem Served.addr_ne {os : OsAnswer} {bs bs' : List Block} {p : Block} {s' : Heap}
    (hs : Served s os size bs p bs' s') (h : Represents s bs) {c : Block} (hc : c ∈ bs)
    (hu : c.isFree = false) : c.addr ≠ p.addr := by
  intro he
  have hcb := h.bounds hc
  have hfree (d : Block) (hd : d ∈ bs) (hf : d.isFree) : c.addr ≠ d.addr := by
    intro he
    rw [h.eq_of_addr hc hd he, hf] at hu
    cases hu
  have hstep := hs.step
  generalize s'.brk = brk' at hstep
  generalize s.brk = brk at hstep hcb
  cases hstep with
  | reuse _ hfit _ | split _ hfit _ =>
    simp only [Block.fits, Bool.and_eq_true] at hfit
    exact hfree _ (by simp) hfit.2 he
  | grow _ hf => exact hfree _ (by simp) hf he
  | append =>
    simp only at he
    omega

theorem srealloc_copy {os : OsAnswer} (h : Represents s (pre ++ b :: post))
    (hused : b.isFree = false) (hb : b.size < mmapAllocationLimit) (h0 : 0 < size)
    (hsize : size < mmapAllocationLimit) (hcase : reallocCase size pre b post = .copy)
    (hgrant : ∀ n, neededSbrk size (pre ++ b :: post) = some n → s.sbrkTarget os n ≠ none) :
    ∃ d s' bs', (srealloc os (b.addr + 32) size).run s = .ok (d.addr + 32, s') ∧
      HeapKept s (pre ++ post) size d bs' s' ∧
      BytesKept s (b.addr + 32) (min b.size size) (d.addr + 32) s' := by
  have hgt : b.size < size := by
    by_contra hle
    rw [reallocCase, if_pos (by omega)] at hcase
    cases hcase
  have hmax : size ≤ maxAllocation := by
    simp only [maxAllocation, mmapAllocationLimit] at hsize ⊢
    omega
  have hmerge := sreallocMerge_run h hgt
  simp only [hcase] at hmerge
  obtain ⟨p, bs₁, s₁, hrun₁, hserved⟩ | ⟨n, hneed, hfail, -⟩ :=
    smallocSbrk_cases os h h0.ne' hmax
  swap
  · exact absurd hfail (hgrant n hneed)
  have hp := hserved.represents.bounds hserved.step.mem
  have hpsize := hserved.step.size_le
  have hne := hserved.addr_ne h (by simp) hused
  have hold₁ := hserved.represents.bounds (hserved.step.keeps (by simp) hused : b ∈ bs₁)
  -- the old bytes go to the payload of `p` only
  have hmove (x : ℕ) (hx : x < p.addr + 32 ∨ p.addr + 32 + p.size ≤ x) :
      s₁.mem.memmove (p.addr + 32) (b.addr + 32) b.size x = s₁.mem x :=
    Memory.memmove_agree s₁.mem (b := x) (k := 1) (by omega) x le_rfl (by omega)
  obtain ⟨hrep₂, hother⟩ := hserved.represents.write_payload hserved.step.mem hmove
  set s₂ : Heap := { s₁ with mem := s₁.mem.memmove (p.addr + 32) (b.addr + 32) b.size } with hs₂
  obtain ⟨pre₁, post₁, rfl⟩ := List.append_of_mem (hserved.step.keeps (by simp) hused : b ∈ bs₁)
  obtain ⟨s₃, bs₃, hrun₃, hfreed⟩ := sfree_freed (s := s₂) hrep₂ hused hb
  have hframe := hfreed.frame (s := s₂) hrep₂
  have hstays (c : Block) (hc : c ∈ pre₁ ++ b :: post₁) (hu : c.isFree = false)
      (hcb : c.addr ≠ b.addr) : c ∈ bs₃ := by
    rw [← mem_coalesce_of_not_marked Block.mergeLaws hu, hfreed.same,
      ← map_freeAt hserved.represents]
    exact (mem_release_inUse hu).mpr ⟨hc, hcb⟩
  have hmem (c : Block) (hc : c ∈ pre ++ post) : c ∈ pre ++ b :: post := by
    rcases List.mem_append.mp hc with hc | hc <;> simp [hc]
  have hdiff (c : Block) (hc : c ∈ pre ++ post) : c.addr ≠ b.addr := by
    rcases List.mem_append.mp hc with hc | hc
    · have := h.before hc
      omega
    · have := h.after hc
      omega
  refine ⟨p, s₃, bs₃, ?_, ⟨hfreed.relinked.represents, ?_, hserved.step.inUse, hpsize,
    fun c hc hu => ⟨?_, ?_⟩⟩, ?_⟩
  · have hmalloc : (smalloc os size).run s = .ok (p.addr + 32, s₁) := by
      rw [smalloc, if_neg (by omega : ¬(size = 0 ∨ maxAllocation < size)), if_pos hsize, hrun₁]
    have hvalid : ¬p.addr + 32 = minusOne := by
      simp only [minusOne]
      omega
    have hmoved : b.addr ≠ header (p.addr + 32) := by
      rwa [header_of_lt (by omega : p.addr + 32 < 2 ^ 64)]
    have hsrc : s₁.Mapped (b.addr + 32) b.size := Process.mapped_of_le_brk (by omega)
    have hdst : s₁.Mapped (p.addr + 32) b.size := Process.mapped_of_le_brk (by omega)
    rw [srealloc_run os (sized_of_mem h) h0 hmax, if_neg (by omega), StateT.run_bind, hmerge,
      ok_bind, if_neg (by simp), StateT.run_bind, hmalloc, ok_bind, if_neg hvalid, StateT.run_bind,
      moveBytes_run (by omega) hsrc hdst, ok_bind, if_pos hmoved, StateT.run_bind, hrun₃, ok_bind,
      pure_run]
  · exact hstays p hserved.step.mem hserved.step.inUse hne.symm
  · exact hstays c (hserved.step.keeps (hmem c hc) hu) hu (hdiff c hc)
  · have hkept := hserved.step.keeps (hmem c hc) hu
    refine ((hserved.frame.payload c (hmem c hc) hu).trans ?_).trans (hframe.payload c hkept hu)
    exact hother c hkept (hserved.addr_ne h (hmem c hc) hu)
  · intro i hi
    have hold := hserved.frame.payload b (by simp) hused
    rw [hframe.payload p hserved.step.mem hserved.step.inUse _ (by omega) (by omega)]
    exact (Memory.memmove_at s₁.mem (by omega)).trans (hold _ (by omega) (by omega))

/-- On every path that does not merge with the block before, `srealloc` returns a block in use
of the requested size with the old bytes and leaves the rest of the heap in order. -/
theorem srealloc_keeps_heap {os : OsAnswer} (h : Represents s (pre ++ b :: post))
    (hused : b.isFree = false) (hb : b.size < mmapAllocationLimit) (h0 : 0 < size)
    (hsize : size < mmapAllocationLimit) (hlower : reallocCase size pre b post ≠ .lower)
    (hboth : reallocCase size pre b post ≠ .both)
    (hgrant : reallocCase size pre b post = .copy →
      ∀ n, neededSbrk size (pre ++ b :: post) = some n → s.sbrkTarget os n ≠ none) :
    ∃ d s' bs', (srealloc os (b.addr + 32) size).run s = .ok (d.addr + 32, s') ∧
      HeapKept s (pre ++ post) size d bs' s' ∧
      BytesKept s (b.addr + 32) (min b.size size) (d.addr + 32) s' := by
  have hmax : size ≤ maxAllocation := by
    simp only [maxAllocation, mmapAllocationLimit] at hsize ⊢
    omega
  cases hcase : reallocCase size pre b post with
  | inPlace =>
    refine srealloc_inPlace os h hused h0 hmax ?_
    by_contra hle
    rw [reallocCase, if_neg hle] at hcase
    split_ifs at hcase
  | lower => exact absurd hcase hlower
  | upper => exact srealloc_upper os h h0 hmax hcase
  | both => exact absurd hcase hboth
  | copy => exact srealloc_copy h hused hb h0 hsize hcase (hgrant hcase)

theorem srealloc_keeps_heap_copy :
    ∃ d s' bs', (srealloc ⟨true, none⟩ 4128 100).run twoBlocks = .ok (d.addr + 32, s') ∧
      HeapKept twoBlocks [⟨4192, 64, false⟩] 100 d bs' s' ∧
      BytesKept twoBlocks 4128 64 (d.addr + 32) s' := by
  have hrep : Represents twoBlocks ([] ++ ⟨4096, 64, false⟩ :: [⟨4192, 64, false⟩]) :=
    twoBlocks_wellFormed.represents
  refine srealloc_keeps_heap (b := ⟨4096, 64, false⟩) hrep rfl (by decide) (by decide) (by decide)
    (by decide) (by decide) ?_
  intro _ n hn
  obtain rfl : 132 = n := by simpa [neededSbrk, Block.fits] using hn
  decide

end Paths
end FtfSystems.VirtualMemory.Malloc2

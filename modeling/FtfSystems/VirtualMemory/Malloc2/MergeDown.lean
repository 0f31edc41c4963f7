import FtfSystems.VirtualMemory.Malloc2.Reallocate

/-!
# Merging with the block before

In the cases 1.b and 1.d `srealloc` merges the old block into the free block before it, cuts the
result with `split`, moves the payload down and then calls `sfree` on the old header. The header
that `split` writes and the moved payload may lie over the old one. What `sfree` will find there
is read off the memory before the call.
-/
namespace FtfSystems.VirtualMemory.Malloc2
open Foundation

/-- The block that the merges of 1.b and 1.d make, and the blocks behind it. -/
def mergeDown (size : ℕ) (a b : Block) (post : List Block) : Block × List Block :=
  if size ≤ a.size + b.size + 32 then ({ a.merge b with isFree := false }, post)
  else
    match post with
    | [] => ({ a.merge b with isFree := false }, [])
    | c :: cs => ({ (a.merge b).merge c with isFree := false }, cs)

/-- The memory after the header that `split` cuts off `d` has been written, and nothing else. -/
def cutHeader (m : Memory) (size : ℕ) (d : Block) (n : ℕ) : Memory :=
  if size + 160 ≤ d.size then
    storeField (storeField (storeField (storeField m (d.rest size).addr .size (d.rest size).size)
      (d.rest size).addr .isFree 1) (d.rest size).addr .prev d.addr) (d.rest size).addr .next n
  else m

/-- The memory of before with the new header and then the moved payload laid over it. -/
def overlaid (m : Memory) (size : ℕ) (a b : Block) (post : List Block) : Memory :=
  (cutHeader m size (mergeDown size a b post).1
    (headAddr Block.addr 0 (mergeDown size a b post).2)).memmove (a.addr + 32) (b.addr + 32) b.size

/-- In case 1.b the header that `split` writes lies in the old payload. -/
def headerInPayload (size : ℕ) (a b : Block) : Prop := size + 128 ≤ a.size + b.size ∧ a.size < size

instance (size : ℕ) (a b : Block) : Decidable (headerInPayload size a b) :=
  inferInstanceAs (Decidable (_ ∧ _))

/-- The heap of case 1.b when `sfree` is called; `n` is the address behind `b`. -/
def lowerHeap (s : Heap) (size : ℕ) (a b : Block) (n : ℕ) : Heap :=
  let cut := cutHeap (mergedInUse s a.addr b.addr n) size { a.merge b with isFree := false } n
  { cut with mem := cut.mem.memmove (a.addr + 32) (b.addr + 32) b.size }

/-! ### The writes of the merge and of the cut -/

theorem linkBack_agree (m : Memory) {n p q k : ℕ} (h : n ≠ 0 → q + k ≤ n + 24 ∨ n + 32 ≤ q) :
    m.AgreeOn (linkBack m n p) q k := by
  unfold linkBack
  split
  · exact .refl _ _ _
  · have := h ‹_›
    exact Memory.store_agree m (by simp only [Field.offset, Field.width]; omega)

/-- What `combine` writes besides the first header is the back link of the block behind. -/
theorem combineMemory_agree (m : Memory) {a b n p k : ℕ} (ha : p + k ≤ a ∨ a + 32 ≤ p)
    (hn : n ≠ 0 → p + k ≤ n + 24 ∨ n + 32 ≤ p) : m.AgreeOn (combineMemory m a b n) p k :=
  (((storeField_agree m a _ _ ha).trans (storeField_agree _ a _ _ ha)).trans
    (linkBack_agree _ hn)).trans (storeField_agree _ a _ _ ha)

/-- What the cut writes besides the header of the block is the new header, and the back link of
the block behind. -/
theorem splitMemory_agree {m m₀ : Memory} {size n p k : ℕ} {d : Block}
    (hsize : (metadataAt m d.addr).size = d.size) (hd : d.size < 2 ^ 64)
    (hlarge : size + 160 ≤ d.size) (ha : d.addr + 32 ≤ p)
    (hn : n ≠ 0 → p + k ≤ n + 24 ∨ n + 32 ≤ p) (h : m₀.AgreeOn m p k) :
    (cutHeader m₀ size d n).AgreeOn (splitMemory m d.addr size (d.rest size).addr n) p k := by
  have hrest : wsub (wsub (metadataAt m d.addr).size size) 32 = (d.rest size).size := by
    rw [hsize, wsub_of_le hd (by omega), wsub_of_le (by omega) (by omega), Block.rest]
  have hold (m : Memory) (f : Field) (v : ℕ) : m.AgreeOn (storeField m d.addr f v) p k :=
    storeField_agree m d.addr f v (.inr ha)
  have hnew := (((h.store ((d.rest size).addr + Field.offset .size) (Field.width .size)
    (d.rest size).size).store ((d.rest size).addr + Field.offset .isFree) (Field.width .isFree)
    1).store ((d.rest size).addr + Field.offset .prev) (Field.width .prev) d.addr).store
    ((d.rest size).addr + Field.offset .next) (Field.width .next) n
  rw [cutHeader, if_pos hlarge, splitMemory, hrest]
  exact ((hnew.trans (linkBack_agree _ hn)).trans (hold _ _ _)).trans (hold _ _ _)

section Down
variable {s s₁ s₃ : Heap} {size : ℕ} {ps post : List Block} {a b c : Block}

theorem mergeDown_lower (h : size ≤ a.size + b.size + 32) :
    mergeDown size a b post = ({ a.merge b with isFree := false }, post) := if_pos h

theorem mergeDown_both (h : a.size + b.size + 32 < size) : mergeDown size a b (c :: post) =
    ({ (a.merge b).merge c with isFree := false }, post) := if_neg (by omega)

/-- The heap `s₁` after the merge: the old block is still in memory, header included. -/
structure Joined (s : Heap) (size : ℕ) (ps : List Block) (a b : Block) (post : List Block)
    (s₁ : Heap) : Prop where
  run : (sreallocMerge b.addr size).run s = .ok (a.addr, s₁)
  represents : Represents s₁ (ps ++ (mergeDown size a b post).1 :: (mergeDown size a b post).2)
  rest : s₁ = { s with mem := s₁.mem, glob.end_ := s₁.glob.end_ }
  old : s.mem.AgreeOn s₁.mem b.addr (b.size + 56)
  keeps : ∀ c, c ∈ ps ∨ c ∈ (mergeDown size a b post).2 →
    s.mem.AgreeOn s₁.mem (c.addr + 32) c.size
  merged : size ≤ a.size + b.size + 32 →
    s₁ = mergedInUse s a.addr b.addr (headAddr Block.addr 0 post)

theorem joined_lower (h : Represents s (ps ++ a :: b :: post))
    (hcase : reallocCase size (ps ++ [a]) b post = .lower) :
    size ≤ a.size + b.size + 32 ∧ ∃ s₁, Joined s size ps a b post s₁ := by
  have hb : Represents s ((ps ++ [a]) ++ b :: post) := by simpa using h
  have hadj := h.adjacent
  have hsize : size ≤ a.size + b.size + 32 := by
    obtain ⟨-, ps', a', hpre, -, hsize⟩ := reallocCase_lower hcase
    obtain rfl : a = a' := by simpa using (List.append_inj' hpre rfl).2
    exact hsize
  have hmerge := sreallocMerge_run hb (reallocCase_lower hcase).1
  obtain ⟨s₁, hrun₁, heq₁, hrep₁, hmem₁⟩ := mergeInUse_run h
  simp only [hcase, lastAddr_append, lastAddr_cons, lastAddr_nil, hrun₁] at hmerge
  refine ⟨hsize, s₁, hmerge, ?_, by rw [heq₁]; rfl, ?_, ?_, fun _ => heq₁⟩
  · rw [mergeDown_lower hsize]
    exact hrep₁
  · rw [heq₁]
    refine (combineMemory_agree _ (by omega) (fun hn => ?_)).trans
      (storeField_agree _ _ _ _ (by omega))
    have := hb.next_addr hn
    omega
  · rw [mergeDown_lower hsize]
    refine fun c hc => outer_agree (l := [a, b]) (u := [a.addr]) (by simpa using h)
      (hmem₁.mono (by simp)) (fun start stop ht => ?_) hc
    simp only [Tiles_cons, Tiles_nil, Block.len] at ht
    simp only [List.mem_singleton, forall_eq]
    omega

theorem joined_both (h : Represents s (ps ++ a :: b :: post))
    (hcase : reallocCase size (ps ++ [a]) b post = .both) :
    a.size + b.size + 32 < size ∧ ∃ s₁, Joined s size ps a b post s₁ := by
  have hb : Represents s ((ps ++ [a]) ++ b :: post) := by simpa using h
  obtain ⟨hgt, ps', a', c, cs, hpre, rfl, -, -, hlt, -, -⟩ := reallocCase_both hcase
  obtain rfl : a = a' := by simpa using (List.append_inj' hpre rfl).2
  have hc : Represents s ((ps ++ [a, b]) ++ c :: cs) := by simpa using h
  have hadj := h.adjacent
  have hadj' := hb.adjacent
  have hmerge := sreallocMerge_run hb hgt
  obtain ⟨s₀, s₁, -, hrun₁, hmem₀, heq₁, hrest, hrep₁, hmem₁⟩ := mergeBoth_run h
  simp only [hcase, lastAddr_append, lastAddr_cons, lastAddr_nil, headAddr_cons, hrun₁] at hmerge
  refine ⟨hlt, s₁, hmerge, ?_, hrest, ?_, ?_, fun hle => by omega⟩
  · rw [mergeDown_both hlt]
    exact hrep₁
  · rw [heq₁]
    refine ((combineMemory_agree s.mem (a := a.addr) (b := b.addr) (n := c.addr) (by omega)
      (fun _ => by omega)).trans ?_).trans (storeField_agree _ _ _ _ (by omega))
    rw [← hmem₀]
    refine combineMemory_agree _ (by omega) (fun hn => ?_)
    have := hc.next_addr hn
    omega
  · rw [mergeDown_both hlt]
    refine fun e he => outer_agree (l := [a, b, c]) (u := [a.addr, c.addr]) (by simpa using h)
      hmem₁ (fun start stop ht => ?_) he
    simp only [Tiles_cons, Tiles_nil, Block.len] at ht
    simp only [List.mem_cons, List.not_mem_nil, or_false, forall_eq_or_imp, forall_eq]
    omega

/-- `d` is the block that the merges make of `a`, `b` and, in case 1.d, the block behind; `rest`
follows it. -/
structure MergedTo (size : ℕ) (a b : Block) (post : List Block) (d : Block) (rest : List Block) :
    Prop where
  eq : mergeDown size a b post = (d, rest)
  addr : d.addr = a.addr
  inUse : d.isFree = false
  free : a.isFree = true
  grows : b.size < size
  fits : size ≤ d.size
  holds : a.size + 32 + b.size ≤ d.size
  lower : size ≤ a.size + b.size + 32 → d.size = a.size + 32 + b.size ∧ rest = post
  both : a.size + b.size + 32 < size → ∃ c, post = c :: rest ∧ c.isFree ∧
    d.size = a.size + 32 + b.size + 32 + c.size

theorem exists_mergedTo (h : Represents s (ps ++ a :: b :: post))
    (hcase : reallocCase size (ps ++ [a]) b post = .lower ∨
      reallocCase size (ps ++ [a]) b post = .both) : ∃ d rest, MergedTo size a b post d rest := by
  rcases hcase with hcase | hcase
  · have hsize := (joined_lower h hcase).1
    obtain ⟨hgt, ps', a', hpre, hfree, -⟩ := reallocCase_lower hcase
    obtain rfl : a = a' := by simpa using (List.append_inj' hpre rfl).2
    refine ⟨_, _, mergeDown_lower hsize, rfl, rfl, hfree, hgt, ?_, ?_, fun _ => ⟨rfl, rfl⟩,
      fun _ => by omega⟩
    all_goals simp only [Block.merge]
    all_goals omega
  · obtain ⟨hgt, ps', a', c, cs, hpre, rfl, hfree, hfree', hlt, -, hle⟩ := reallocCase_both hcase
    obtain rfl : a = a' := by simpa using (List.append_inj' hpre rfl).2
    refine ⟨_, _, mergeDown_both hlt, rfl, rfl, hfree, hgt, ?_, ?_, fun _ => by omega,
      fun _ => ⟨c, rfl, hfree', rfl⟩⟩
    all_goals simp only [Block.merge]
    all_goals omega

/-- The heap `s₃` when `sfree` is called on the old header. -/
structure Moved (s : Heap) (size : ℕ) (ps : List Block) (a b : Block) (post : List Block)
    (d : Block) (rest : List Block) (s₃ : Heap) : Prop where
  represents : Represents s₃ (ps ++ cutTo size d ++ rest)
  mmapEnd : s₃.glob.mmapEnd = s.glob.mmapEnd
  keeps : ∀ c, c ∈ ps ∨ c ∈ rest → s.mem.AgreeOn s₃.mem (c.addr + 32) c.size
  overlay : (overlaid s.mem size a b post).AgreeOn s₃.mem b.addr (b.size + 56)
  copied : ¬headerInPayload size a b → BytesKept s (b.addr + 32) b.size (a.addr + 32) s₃
  state : size ≤ a.size + b.size + 32 → s₃ = lowerHeap s size a b (headAddr Block.addr 0 post)

/-- The header that the cut may write is the only change inside of the block. -/
theorem cut_inside {d : Block} (h : Represents s (ps ++ d :: post)) {m' : Memory}
    (hmem : HeadersOnly ((cutTo size d).map Block.addr ++ (post.take 1).map Block.addr) s.mem m')
    {q k : ℕ} (hlo : d.addr + 32 ≤ q) (hhi : q + k ≤ d.addr + 32 + d.size)
    (hcut : size + 160 ≤ d.size → q + k ≤ d.addr + 32 + size ∨ d.addr + 64 + size ≤ q) :
    s.mem.AgreeOn m' q k := by
  refine hmem.agree (fun t ht => ?_)
  rcases List.mem_append.mp ht with ht | ht
  · unfold cutTo at ht
    split at ht
    · rename_i hlarge
      have := hcut hlarge
      simp only [List.map_cons, List.map_nil, List.mem_cons, List.not_mem_nil, or_false,
        Block.rest] at ht
      omega
    · simp only [List.map_cons, List.map_nil, List.mem_singleton] at ht
      omega
  · obtain ⟨c, hc, rfl⟩ := List.mem_map.mp ht
    have hafter := h.after (List.mem_of_mem_take hc)
    omega

/-- Up to the call of `sfree` every request that goes down succeeds. -/
theorem srealloc_moved {d : Block} {rest : List Block} (os : OsAnswer)
    (h : Represents s (ps ++ a :: b :: post)) (hmax : size ≤ maxAllocation)
    (hcase : reallocCase size (ps ++ [a]) b post = .lower ∨
      reallocCase size (ps ++ [a]) b post = .both) (hd : MergedTo size a b post d rest) :
    ∃ s₃, Moved s size ps a b post d rest s₃ ∧ (srealloc os (b.addr + 32) size).run s = (do
        sfree (b.addr + 32)
        return a.addr + 32 : M ℕ).run s₃ := by
  have hb : Represents s ((ps ++ [a]) ++ b :: post) := by simpa using h
  have hadj := h.adjacent
  obtain ⟨s₁, hj⟩ : ∃ s₁, Joined s size ps a b post s₁ :=
    hcase.elim (fun hcase => (joined_lower h hcase).2) (fun hcase => (joined_both h hcase).2)
  have haddr := hd.addr
  have hle := hd.fits
  have hgt := hd.grows
  have hin := hd.holds
  have hrep₁ : Represents s₁ (ps ++ d :: rest) := by
    have := hj.represents
    rwa [hd.eq] at this
  have hbound := hrep₁.bounds (b := d) (by simp)
  have hkeeps : ∀ c, c ∈ ps ∨ c ∈ rest → s.mem.AgreeOn s₁.mem (c.addr + 32) c.size := by
    have := hj.keeps
    rwa [hd.eq] at this
  obtain ⟨s₂, heq₂, hcut₂, hrep₂, hmem₂, hrun⟩ := srealloc_merged os hb (by omega) hmax hgt
    (by rw [haddr]; exact hj.run) hrep₁ hle (by omega)
  rw [if_pos (by omega)] at hrun
  obtain ⟨e, es, hcut, headdr, -, hsize⟩ := cutTo_head size d
  have he := hsize hle
  have hwrite (x : ℕ) (hx : x < e.addr + 32 ∨ e.addr + 32 + e.size ≤ x) :
      s₂.mem.memmove (d.addr + 32) (b.addr + 32) b.size x = s₂.mem x :=
    Memory.memmove_agree s₂.mem (b := x) (k := 1) (by omega) x le_rfl (by omega)
  obtain ⟨hrep₃, hother⟩ := hrep₂.write_payload (b := e) (by simp [hcut]) hwrite
  -- the old block in the memory after the cut
  have hnext (hn : headAddr Block.addr 0 rest ≠ 0) :
      b.addr + (b.size + 56) ≤ headAddr Block.addr 0 rest + 24 := by
    have := hrep₁.next_addr hn
    omega
  have hold : (cutHeader s.mem size d (headAddr Block.addr 0 rest)).AgreeOn s₂.mem b.addr
      (b.size + 56) := by
    rw [hcut₂]
    unfold cutHeap
    split
    · exact splitMemory_agree (by rw [hrep₁.header]) (by omega) ‹_› (by omega)
        (fun hn => .inl (hnext hn)) hj.old
    · rw [cutHeader, if_neg ‹_›]
      exact hj.old
  rw [haddr] at hrun
  refine ⟨_, ⟨?_, ?_, ?_, ?_, ?_, ?_⟩, hrun⟩
  · rw [← haddr]
    exact hrep₃
  · simp only
    rw [heq₂, hj.rest]
  · intro c hc
    have hne : c.addr ≠ e.addr := by
      rcases hc with hc | hc
      · have hbefore := hrep₁.before hc
        omega
      · have hafter := hrep₁.after hc
        omega
    have houter := outer_agree (l := [d]) (by simpa using hrep₁) hmem₂
      (fun _ _ => cutTo_inner) hc
    rw [haddr] at hother
    exact ((hkeeps c hc).trans houter).trans
      (hother c (by rcases hc with hc | hc <;> simp [hc]) hne)
  · rw [overlaid, hd.eq]
    exact hold.memmove (a.addr + 32) (hold.sub (by omega) (by omega))
  · intro hclear i hi
    have hout : size + 160 ≤ d.size → b.addr + 32 + b.size ≤ d.addr + 32 + size ∨
        d.addr + 64 + size ≤ b.addr + 32 := by
      intro hlarge
      simp only [headerInPayload] at hclear
      by_cases hlower : size ≤ a.size + b.size + 32
      · have hsum := (hd.lower hlower).1
        omega
      · omega
    have hkept := cut_inside hrep₁ hmem₂ (q := b.addr + 32) (k := b.size) (by omega) (by omega) hout
    refine (Memory.memmove_at s₂.mem hi).trans ?_
    rw [hkept _ (by omega) (by omega)]
    exact hj.old _ (by omega) (by omega)
  · intro hlower
    have hmerged := hj.merged hlower
    obtain ⟨rfl, rfl⟩ := Prod.mk.inj ((mergeDown_lower hlower).symm.trans hd.eq)
    rw [lowerHeap, ← hmerged, ← hcut₂]

end Down
end FtfSystems.VirtualMemory.Malloc2

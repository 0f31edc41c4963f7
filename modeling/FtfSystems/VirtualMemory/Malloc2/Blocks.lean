import FtfSystems.VirtualMemory.Execution
import FtfSystems.VirtualMemory.Malloc2.Program

/-!
# What `split`, `combine` and a new header do to the block list

Each of the three is first executed: its final memory is written down as a chain of
member assignments. From that memory follow the headers it leaves, the bytes it does not
touch and the block list it represents.
-/
namespace FtfSystems.VirtualMemory.Malloc2
open Foundation

@[simp] theorem getRoot_run (s : Heap) : getRoot.run s = .ok (s.glob.root, s) := rfl

@[simp] theorem getEnd_run (s : Heap) : getEnd.run s = .ok (s.glob.end_, s) := rfl

@[simp] theorem getMmapHead_run (s : Heap) : getMmapHead.run s = .ok (s.glob.mmapHead, s) := rfl

@[simp] theorem getMmapEnd_run (s : Heap) : getMmapEnd.run s = .ok (s.glob.mmapEnd, s) := rfl

@[simp] theorem setRoot_run (p : ℕ) (s : Heap) :
    (setRoot p).run s = .ok ((), { s with glob.root := p }) := rfl

@[simp] theorem setEnd_run (p : ℕ) (s : Heap) :
    (setEnd p).run s = .ok ((), { s with glob.end_ := p }) := rfl

@[simp] theorem setMmapHead_run (p : ℕ) (s : Heap) :
    (setMmapHead p).run s = .ok ((), { s with glob.mmapHead := p }) := rfl

@[simp] theorem setMmapEnd_run (p : ℕ) (s : Heap) :
    (setMmapEnd p).run s = .ok ((), { s with glob.mmapEnd := p }) := rfl

/-- The heap holds the blocks `bs` in the list of `root` and `end`. -/
abbrev Represents (s : Heap) (bs : List Block) : Prop :=
  BlockList s.mem s.glob.root s.glob.end_ s.brk bs

/-- The back link of the block `n`, if there is one, is set to `p`. -/
def linkBack (m : Memory) (n p : ℕ) : Memory := if n = 0 then m else storeField m n .prev p

theorem linkBack_headersOnly {as : List ℕ} (m : Memory) {n p : ℕ} (h : n ≠ 0 → n ∈ as) :
    HeadersOnly as m (linkBack m n p) := by
  unfold linkBack
  split
  · exact .refl _ _
  · exact .storeField m (h ‹_›) _ _

theorem linkBack_apart (m : Memory) {n p q : ℕ} (h : n ≠ 0 → n + 32 ≤ q ∨ q + 32 ≤ n) :
    metadataAt (linkBack m n p) q = metadataAt m q := by
  unfold linkBack
  split
  · rfl
  · exact metadataAt_storeField_of_apart m _ _ (h ‹_›)

theorem linkBack_at (m : Memory) {n p : ℕ} (h : n ≠ 0) :
    metadataAt (linkBack m n p) n = (metadataAt m n).set .prev p := by
  rw [linkBack, if_neg h, metadataAt_storeField]

/-- The memory after `combine(a, b)` when `n` follows `b`. -/
def combineMemory (m : Memory) (a b n : ℕ) : Memory :=
  storeField (linkBack (storeField (storeField m a .size
    (wadd (metadataAt m a).size (wadd (metadataAt m b).size 32))) a .next n) n a) a .isFree 1

theorem combine_run {s : Heap} {a b n : ℕ} (ha : a ≠ 0) (hab : a + 32 ≤ b)
    (hn : (metadataAt s.mem b).next = n) :
    (combine a b).run s = .ok ((), { s with
      mem := combineMemory s.mem a b n
      glob.end_ := if b = s.glob.end_ then a else s.glob.end_ }) := by
  have hb : b ≠ 0 := by omega
  have hother (m : Memory) (f : Field) (v : ℕ) :
      metadataAt (storeField m a f v) b = metadataAt m b :=
    metadataAt_storeField_of_apart m f v (.inl hab)
  unfold combine combineMemory linkBack
  simp only [StateT.run_bind, getSize_run ha, getSize_run hb, getNext_run hb, setSize_run ha,
    setNext_run ha, ok_bind, hother, hn]
  by_cases h0 : n = 0
  · simp only [h0, ne_eq, not_true_eq_false, if_false, if_true, StateT.run_bind, getEnd_run,
      ok_bind]
    split <;> simp [setIsFree_run ha]
  · simp only [h0, ne_eq, not_false_eq_true, if_true, if_false, StateT.run_bind, getNext_run hb,
      ok_bind, hother, hn, setPrev_run h0, getEnd_run]
    split <;> simp [setIsFree_run ha]

theorem combineMemory_headersOnly (as : List ℕ) (m : Memory) {a b n : ℕ} (ha : a ∈ as)
    (hn : n ≠ 0 → n ∈ as) : HeadersOnly as m (combineMemory m a b n) :=
  (((HeadersOnly.storeField m ha _ _).trans (.storeField _ ha _ _)).trans
    (linkBack_headersOnly _ hn)).trans (.storeField _ ha _ _)

theorem combineMemory_first (m : Memory) {a b n : ℕ} (hn : n ≠ 0 → n + 32 ≤ a ∨ a + 32 ≤ n) :
    metadataAt (combineMemory m a b n) a =
      ⟨wadd (metadataAt m a).size (wadd (metadataAt m b).size 32) % 2 ^ 64, true, n % 2 ^ 64,
        (metadataAt m a).prev⟩ := by
  simp [combineMemory, metadataAt_storeField, linkBack_apart _ hn, MallocMetadata.set]

theorem combineMemory_next (m : Memory) {a b n : ℕ} (h0 : n ≠ 0) (hn : n + 32 ≤ a ∨ a + 32 ≤ n) :
    metadataAt (combineMemory m a b n) n = { metadataAt m n with prev := a % 2 ^ 64 } := by
  rw [combineMemory, metadataAt_storeField_of_apart _ _ _ hn.symm, linkBack_at _ h0,
    metadataAt_storeField_of_apart _ _ _ hn.symm, metadataAt_storeField_of_apart _ _ _ hn.symm]
  rfl

/-- The memory after `split(a, size)` when `n` follows `a`; `q` is the new header. -/
def splitMemory (m : Memory) (a size q n : ℕ) : Memory :=
  storeField (storeField (linkBack (storeField (storeField (storeField (storeField m q .size
    (wsub (wsub (metadataAt m a).size size) 32)) q .isFree 1) q .prev a) q .next n) n q)
    a .next q) a .size size

theorem split_run {s : Heap} {a size q n : ℕ} (ha : a ≠ 0) (hq : wadd (wadd a size) 32 = q)
    (haq : a + 32 ≤ q) (hn : (metadataAt s.mem a).next = n) :
    (split a size).run s = .ok ((), { s with
      mem := splitMemory s.mem a size q n
      glob.end_ := if a = s.glob.end_ then q else s.glob.end_ }) := by
  have hq0 : q ≠ 0 := by omega
  have hother (m : Memory) (f : Field) (v : ℕ) :
      metadataAt (storeField m q f v) a = metadataAt m a :=
    metadataAt_storeField_of_apart m f v (.inr haq)
  unfold split splitMemory linkBack
  simp only [sizeofMetadata, hq, StateT.run_bind, getSize_run ha, getNext_run ha, setSize_run hq0,
    setIsFree_run hq0, setPrev_run hq0, setNext_run hq0, ok_bind, hother, hn]
  by_cases h0 : n = 0
  · simp only [h0, ne_eq, not_true_eq_false, if_false, if_true, StateT.run_bind, setNext_run ha,
      setSize_run ha, getEnd_run, ok_bind]
    split <;> rfl
  · simp only [h0, ne_eq, not_false_eq_true, if_true, if_false, StateT.run_bind, getNext_run ha,
      ok_bind, hother, hn, setPrev_run h0, setNext_run ha, setSize_run ha, getEnd_run]
    split <;> rfl

theorem splitMemory_headersOnly (as : List ℕ) (m : Memory) (size : ℕ) {a q n : ℕ} (ha : a ∈ as)
    (hq : q ∈ as) (hn : n ≠ 0 → n ∈ as) : HeadersOnly as m (splitMemory m a size q n) :=
  ((((((HeadersOnly.storeField m hq _ _).trans (.storeField _ hq _ _)).trans
    (.storeField _ hq _ _)).trans (.storeField _ hq _ _)).trans
    (linkBack_headersOnly _ hn)).trans (.storeField _ ha _ _)).trans (.storeField _ ha _ _)

theorem splitMemory_place (m : Memory) {a size q n : ℕ} (haq : a + 32 ≤ q)
    (hn : n ≠ 0 → n + 32 ≤ a ∨ a + 32 ≤ n) : metadataAt (splitMemory m a size q n) a =
      ⟨size % 2 ^ 64, (metadataAt m a).isFree, q % 2 ^ 64, (metadataAt m a).prev⟩ := by
  have hother (m : Memory) (f : Field) (v : ℕ) :
      metadataAt (storeField m q f v) a = metadataAt m a :=
    metadataAt_storeField_of_apart m f v (.inr haq)
  simp [splitMemory, metadataAt_storeField, linkBack_apart _ hn, hother, MallocMetadata.set]

theorem splitMemory_new (m : Memory) {a size q n : ℕ} (haq : a + 32 ≤ q)
    (hn : n ≠ 0 → n + 32 ≤ q ∨ q + 32 ≤ n) : metadataAt (splitMemory m a size q n) q =
      ⟨wsub (wsub (metadataAt m a).size size) 32 % 2 ^ 64, true, n % 2 ^ 64, a % 2 ^ 64⟩ := by
  have hother (m : Memory) (f : Field) (v : ℕ) :
      metadataAt (storeField m a f v) q = metadataAt m q :=
    metadataAt_storeField_of_apart m f v (.inl haq)
  simp [splitMemory, metadataAt_storeField, linkBack_apart _ hn, hother, MallocMetadata.set]

theorem splitMemory_next (m : Memory) {a size q n : ℕ} (h0 : n ≠ 0) (haq : a + 32 ≤ q)
    (hn : n + 32 ≤ a ∨ q + 32 ≤ n) :
    metadataAt (splitMemory m a size q n) n = { metadataAt m n with prev := q % 2 ^ 64 } := by
  have hplace (m : Memory) (f : Field) (v : ℕ) :
      metadataAt (storeField m a f v) n = metadataAt m n :=
    metadataAt_storeField_of_apart m f v (by omega)
  have hnew (m : Memory) (f : Field) (v : ℕ) :
      metadataAt (storeField m q f v) n = metadataAt m n :=
    metadataAt_storeField_of_apart m f v (by omega)
  simp [splitMemory, hplace, hnew, linkBack_at _ h0, MallocMetadata.set]

section Chain
variable {m : Memory} {root last : ℕ} {pre post : List Block} {a b : Block}

/-- `combine` on two neighbours of a chain that are adjacent merges them into one free block. -/
theorem combine_chain (h : BlockChain m root last (pre ++ a :: b :: post))
    (hadj : b.addr = a.addr + 32 + a.size) :
    BlockChain (combineMemory m a.addr b.addr (headAddr Block.addr 0 post)) root
      (if b.addr = last then a.addr else last) (pre ++ a.merge b :: post) := by
  have ha := h.bounds a (by simp)
  have hb := h.bounds b (by simp)
  have hb' : BlockChain m root last ((pre ++ [a]) ++ b :: post) := by simpa using h
  have hsp : BlockChain m root last (pre ++ [a, b] ++ post) := by simpa using h
  have hside (c : Block) (hc : c ∈ pre ∨ c ∈ post) : (a.merge b).Apart c := by
    refine (h.side ?_).merge (hb'.side ?_) hadj <;> rcases hc with hc | hc <;> simp [hc]
  have hn : headAddr Block.addr 0 post ≠ 0 → headAddr Block.addr 0 post + 32 ≤ a.addr ∨
      a.addr + 32 ≤ headAddr Block.addr 0 post := by
    intro h0
    obtain ⟨c, cs, rfl, hc, -⟩ := hb'.next_cases.resolve_left h0
    have := h.side (c := c) (by simp)
    rw [hc]
    simp only [Block.Apart] at this
    omega
  have hmem := combineMemory_headersOnly ([a.addr] ++ (post.take 1).map Block.addr) m
    (a := a.addr) (b := b.addr) (n := headAddr Block.addr 0 post) (by simp) (fun h0 => by
      obtain ⟨c, cs, rfl, hc, -⟩ := hb'.next_cases.resolve_left h0
      simp [hc])
  have hlast : (if b.addr = last then a.addr else last) =
      lastAddr Block.addr 0 (pre ++ [a.merge b] ++ post) := by
    rw [← hb'.last_splice (pre ++ [a.merge b]), lastAddr_append]
    rfl
  rw [hlast, show pre ++ a.merge b :: post = pre ++ [a.merge b] ++ post by simp]
  refine hsp.splice [a.addr] (fun n => rfl) (fun t ht c hc => ?_) hmem ⟨?_, trivial⟩ ?_
    (pairwise_splice hsp.apart (List.pairwise_singleton _ _) ?_) ?_
  · have := hside c hc
    rw [List.mem_singleton.mp ht]
    simp only [Block.Apart, Block.merge] at this
    omega
  · have hsize : wadd a.size (wadd b.size 32) % 2 ^ 64 = a.size + 32 + b.size := by
      simp only [wadd]
      omega
    rw [Block.At, Block.merge, combineMemory_first _ hn, h.header, hb'.header, hsize, hb'.next_mod]
    rfl
  · rintro c cs rfl
    have hc := h.bounds c (by simp)
    rw [headAddr_cons] at hn ⊢
    rw [combineMemory_next _ (by omega) (hn (by omega)), lastAddr_append, lastAddr_cons,
      lastAddr_nil, Nat.mod_eq_of_lt (by omega : a.addr < 2 ^ 64)]
    rfl
  · intro d hd
    rw [List.mem_singleton.mp hd]
    exact hside
  · intro d hd
    rw [List.mem_singleton.mp hd]
    simp only [Block.merge]
    omega

/-- `split` cuts a block of a chain in two. -/
theorem split_chain (size : ℕ) (h : BlockChain m root last (pre ++ b :: post))
    (hsize : size + 32 ≤ b.size) :
    BlockChain (splitMemory m b.addr size (b.rest size).addr (headAddr Block.addr 0 post)) root
      (if b.addr = last then (b.rest size).addr else last)
      (pre ++ { b with size := size } :: b.rest size :: post) := by
  have hb := h.bounds b (by simp)
  have haq : (b.rest size).addr = b.addr + 32 + size := rfl
  have hrest : (b.rest size).size = b.size - size - 32 := rfl
  have hsp : BlockChain m root last (pre ++ [b] ++ post) := by simpa using h
  have hn : headAddr Block.addr 0 post ≠ 0 → headAddr Block.addr 0 post + 32 ≤ b.addr ∨
      (b.rest size).addr + 32 ≤ headAddr Block.addr 0 post := by
    intro h0
    obtain ⟨c, cs, -, hc, hside, -⟩ := h.next_cases.resolve_left h0
    rw [hc]
    simp only [Block.Apart] at hside
    omega
  have hmem := splitMemory_headersOnly ([b.addr, (b.rest size).addr] ++
    (post.take 1).map Block.addr) m size (a := b.addr) (q := (b.rest size).addr)
    (n := headAddr Block.addr 0 post) (by simp) (by simp) (fun h0 => by
      obtain ⟨c, cs, rfl, hc, -⟩ := h.next_cases.resolve_left h0
      simp [hc])
  have hlast := h.last_splice (pre ++ [{ b with size := size }, b.rest size])
  rw [lastAddr_append, lastAddr_cons, lastAddr_cons, lastAddr_nil] at hlast
  rw [hlast, show pre ++ { b with size := size } :: b.rest size :: post =
    pre ++ [{ b with size := size }, b.rest size] ++ post by simp]
  have hpieces : ∀ d ∈ [{ b with size := size }, b.rest size], b.addr ≤ d.addr ∧
      d.addr + 32 + d.size ≤ b.addr + 32 + b.size := by
    simp only [List.mem_cons, List.not_mem_nil, or_false, forall_eq_or_imp, forall_eq]
    omega
  refine hsp.splice [b.addr, (b.rest size).addr] (fun n => rfl) (fun t ht c hc => ?_) hmem
    ⟨?_, ?_, trivial⟩ ?_ (pairwise_splice hsp.apart ?_ fun d hd c hc => ?_) fun d hd => ?_
  · have hside := h.side hc
    simp only [Block.Apart] at hside
    simp only [List.mem_cons, List.not_mem_nil, or_false] at ht
    omega
  · rw [Block.At, splitMemory_place _ (by omega) (fun h0 => by have := hn h0; omega), h.header,
      Nat.mod_eq_of_lt (by omega : size < 2 ^ 64),
      Nat.mod_eq_of_lt (by omega : (b.rest size).addr < 2 ^ 64)]
    rfl
  · have hcut : wsub (wsub b.size size) 32 % 2 ^ 64 = b.size - size - 32 := by
      simp only [wsub]
      omega
    rw [Block.At, splitMemory_new _ (by omega) (fun h0 => by have := hn h0; omega), h.header, hcut,
      h.next_mod, Nat.mod_eq_of_lt (by omega : b.addr < 2 ^ 64)]
    rfl
  · rintro c cs rfl
    have hc := h.bounds c (by simp)
    rw [headAddr_cons] at hn ⊢
    rw [splitMemory_next _ (by omega) (by omega) (hn (by omega)), lastAddr_append, lastAddr_cons,
      lastAddr_cons, lastAddr_nil, Nat.mod_eq_of_lt (by omega : (b.rest size).addr < 2 ^ 64)]
  · refine List.pairwise_pair.mpr (.inl ?_)
    simp only [haq]
    omega
  · have hside := h.side hc
    have hin := hpieces d hd
    simp only [Block.Apart] at hside ⊢
    omega
  · have hin := hpieces d hd
    omega

end Chain

section Represents
variable {s : Heap} {pre post : List Block} {a b : Block}

/-- `combine` on two neighbours of the list merges them into one free block. -/
theorem combine_represents (h : Represents s (pre ++ a :: b :: post)) :
    ∃ s', (combine a.addr b.addr).run s = .ok ((), s') ∧
      s' = { s with mem := s'.mem, glob.end_ := s'.glob.end_ } ∧
      Represents s' (pre ++ a.merge b :: post) ∧
      HeadersOnly (a.addr :: (post.take 1).map Block.addr) s.mem s'.mem := by
  have ha := h.bounds (b := a) (by simp)
  have hadj := h.adjacent
  have hb : Represents s ((pre ++ [a]) ++ b :: post) := by simpa using h
  have hmem := combineMemory_headersOnly (a.addr :: (post.take 1).map Block.addr) s.mem
    (a := a.addr) (b := b.addr) (n := headAddr Block.addr 0 post) (by simp)
    (fun h0 => List.mem_cons_of_mem _ (hb.next_addr h0).2.2)
  refine ⟨_, combine_run (by omega) (by omega) (by rw [hb.header]), rfl, ?_, hmem⟩
  have hsp : Represents s (pre ++ [a, b] ++ post) := by simpa using h
  have hchain := combine_chain h.chain hadj
  rw [show pre ++ a.merge b :: post = pre ++ [a.merge b] ++ post by simp] at hchain ⊢
  refine hsp.of_chain (fun n => rfl) (fun start stop ht => ?_) hchain
  simp only [Tiles_cons, Tiles_nil, Block.len, Block.merge] at ht ⊢
  omega

/-- `split` cuts a block of the list in two. -/
theorem split_represents (size : ℕ) (h : Represents s (pre ++ b :: post))
    (hsize : size + 32 ≤ b.size) :
    ∃ s', (split b.addr size).run s = .ok ((), s') ∧
      s' = { s with mem := s'.mem, glob.end_ := s'.glob.end_ } ∧
      Represents s' (pre ++ { b with size := size } :: b.rest size :: post) ∧
      HeadersOnly ([b.addr, (b.rest size).addr] ++ (post.take 1).map Block.addr)
        s.mem s'.mem := by
  have hb := h.bounds (b := b) (by simp)
  have hq : wadd (wadd b.addr size) 32 = (b.rest size).addr := by
    simp only [wadd, Block.rest]
    omega
  have haq : (b.rest size).addr = b.addr + 32 + size := rfl
  have hmem := splitMemory_headersOnly ([b.addr, (b.rest size).addr] ++
    (post.take 1).map Block.addr) s.mem size (a := b.addr) (q := (b.rest size).addr)
    (n := headAddr Block.addr 0 post) (by simp) (by simp)
    (fun h0 => List.mem_append_right _ (h.next_addr h0).2.2)
  refine ⟨_, split_run (by omega) hq (by omega) (by rw [h.header]), rfl, ?_, hmem⟩
  have hsp : Represents s (pre ++ [b] ++ post) := by simpa using h
  have hchain := split_chain size h.chain hsize
  rw [show pre ++ { b with size := size } :: b.rest size :: post =
    pre ++ [{ b with size := size }, b.rest size] ++ post by simp] at hchain ⊢
  refine hsp.of_chain (fun n => rfl) (fun start stop ht => ?_) hchain
  simp only [Tiles_cons, Tiles_nil, Block.len, Block.rest] at ht ⊢
  omega

/-- Assigning the flag of a block of the list. -/
theorem setIsFree_represents (f : Bool) (h : Represents s (pre ++ b :: post)) :
    ∃ s', (setIsFree b.addr f).run s = .ok ((), s') ∧ s' = { s with mem := s'.mem } ∧
      Represents s' (pre ++ { b with isFree := f } :: post) ∧
      HeadersOnly [b.addr] s.mem s'.mem := by
  have hb := h.bounds (b := b) (by simp)
  exact ⟨_, setIsFree_run (by omega) s f, rfl, h.setFlag f, .storeField _ (by simp) _ _⟩

end Represents
end FtfSystems.VirtualMemory.Malloc2

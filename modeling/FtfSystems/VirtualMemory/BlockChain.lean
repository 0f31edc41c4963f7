import FtfSystems.Foundation.Coalesce
import FtfSystems.Foundation.LinkedBlocks
import FtfSystems.VirtualMemory.Metadata

/-!
# Blocks in memory and the chains they form

A block is a header and the payload behind it. `BlockChain` relates a list of blocks to memory:
the headers carry the sizes and flags and thread the blocks in both directions between `root` and
`last`. The blocks do not overlap, but may lie anywhere. `splice` is the one way in which the
allocators change a chain.
-/
namespace FtfSystems.VirtualMemory
open Foundation

/-- A block: the address of its header, the size of its payload and its flag. -/
structure Block where
  addr : ℕ
  size : ℕ
  isFree : Bool
  deriving DecidableEq

/-- The bytes a block takes, header included. -/
def Block.len (b : Block) : ℕ := 32 + b.size

/-- Two adjacent free blocks taken as one; the second header becomes payload. -/
def Block.merge (b c : Block) : Block := ⟨b.addr, b.size + 32 + c.size, true⟩

/-- The same block, free. -/
def Block.freed (b : Block) : Block := { b with isFree := true }

/-- What is left behind the first `size` bytes of a block and a new header, free. -/
def Block.rest (b : Block) (size : ℕ) : Block := ⟨b.addr + 32 + size, b.size - size - 32, true⟩

theorem Block.sum_len (bs : List Block) :
    (bs.map Block.len).sum = (bs.map Block.size).sum + 32 * bs.length := by
  induction bs with
  | nil => rfl
  | cons b bs ih =>
    simp only [List.map_cons, List.sum_cons, List.length_cons, ih, Block.len]
    omega

theorem Block.mergeLaws : MergeLaws Block.isFree Block.merge where
  marked_merge _ _ _ _ := rfl
  assoc a b c := by simp only [merge, Block.mk.injEq, and_true, true_and]; omega

/-- Merging free blocks keeps the first address. -/
theorem headAddr_coalesce (n : ℕ) (bs : List Block) :
    headAddr Block.addr n (coalesce Block.isFree Block.merge bs) = headAddr Block.addr n bs := by
  cases bs with
  | nil => rfl
  | cons b bs =>
    rw [coalesce_cons, headAddr_cons]
    cases coalesce Block.isFree Block.merge bs with
    | nil => rfl
    | cons c cs =>
      simp only [pushMerge]
      split <;> rfl

/-- The header of `b` is in memory, with these links. -/
def Block.At (m : Memory) (b : Block) (prv nxt : ℕ) : Prop :=
  metadataAt m b.addr = ⟨b.size, b.isFree, nxt, prv⟩

/-- `m'` differs from `m` at most in the headers at the addresses `as`. -/
def HeadersOnly (as : List ℕ) (m m' : Memory) : Prop :=
  ∀ x, (∀ a ∈ as, x < a ∨ a + 32 ≤ x) → m' x = m x

namespace HeadersOnly
variable {as bs : List ℕ} {m m' m'' : Memory}

theorem refl (as : List ℕ) (m : Memory) : HeadersOnly as m m := fun _ _ => rfl

theorem trans (h : HeadersOnly as m m') (h' : HeadersOnly as m' m'') : HeadersOnly as m m'' :=
  fun x hx => (h' x hx).trans (h x hx)

theorem mono (h : HeadersOnly as m m') (hs : as ⊆ bs) : HeadersOnly bs m m' :=
  fun x hx => h x (fun a ha => hx a (hs ha))

theorem agree (h : HeadersOnly as m m') {a n : ℕ} (hd : ∀ c ∈ as, a + n ≤ c ∨ c + 32 ≤ a) :
    m.AgreeOn m' a n := by
  intro x hx hx'
  apply h
  intro c hc
  have := hd c hc
  omega

theorem storeField (m : Memory) {p : ℕ} (hp : p ∈ as) (f : Field) (v : ℕ) :
    HeadersOnly as m (storeField m p f v) := by
  intro x hx
  have hxp := hx p hp
  exact storeField_agree m p f v (b := x) (k := 1) (by omega) x le_rfl (by omega)

theorem newHeader (m : Memory) {p : ℕ} (hp : p ∈ as) (size next prev : ℕ) :
    HeadersOnly as m (newHeader m p size next prev) :=
  (((HeadersOnly.storeField m hp _ _).trans (.storeField _ hp _ _)).trans
    (.storeField _ hp _ _)).trans (.storeField _ hp _ _)

theorem exists_of_ne {x : ℕ} (h : HeadersOnly as m m')
    (hx : m' x ≠ m x) : ∃ a ∈ as, a ≤ x ∧ x < a + 32 := by
  by_contra hno
  refine hx (h x fun a ha => ?_)
  by_contra hin
  exact hno ⟨a, ha, by omega⟩

end HeadersOnly

/-- The memory after a block has been put at `brk` and linked to the block at `last`, if there is
one. -/
def appendedMemory (m : Memory) (brk size last : ℕ) : Memory :=
  if last = 0 then newHeader m brk size 0 0
  else storeField (newHeader m brk size 0 last) last .next brk

section Append
variable (m : Memory) {brk size last : ℕ}

theorem appendedMemory_headersOnly {as : List ℕ} (hbrk : brk ∈ as) (hlast : last ≠ 0 → last ∈ as) :
    HeadersOnly as m (appendedMemory m brk size last) := by
  unfold appendedMemory
  split
  · exact .newHeader m hbrk _ _ _
  · exact (HeadersOnly.newHeader m hbrk _ _ _).trans (.storeField _ (hlast ‹_›) _ _)

theorem appendedMemory_new (hsize : size < 2 ^ 64) (hlt : last < 2 ^ 64)
    (hlast : last ≠ 0 → last + 32 ≤ brk ∨ brk + 32 ≤ last) :
    metadataAt (appendedMemory m brk size last) brk = ⟨size, false, 0, last⟩ := by
  unfold appendedMemory
  split
  · rename_i h0
    rw [metadataAt_newHeader m hsize (by omega) (by omega), h0]
  · rename_i h0
    rw [metadataAt_storeField_of_apart _ _ _ (hlast h0),
      metadataAt_newHeader m hsize (by omega) hlt]

theorem appendedMemory_last (h0 : last ≠ 0) (hlast : last + 32 ≤ brk ∨ brk + 32 ≤ last)
    (hbrk : brk < 2 ^ 64) :
    metadataAt (appendedMemory m brk size last) last =
      { metadataAt m last with next := brk } := by
  have hkeep : metadataAt (newHeader m brk size 0 last) last = metadataAt m last := by
    have hmem : HeadersOnly [brk] m (newHeader m brk size 0 last) := .newHeader m (by simp) _ _ _
    exact metadataAt_congr (hmem.agree (fun a ha => by rw [List.mem_singleton] at ha; omega))
  rw [appendedMemory, if_neg h0, metadataAt_storeField, hkeep, MallocMetadata.set,
    Nat.mod_eq_of_lt hbrk]

end Append

/-- The two blocks do not overlap, headers included. -/
def Block.Apart (b c : Block) : Prop :=
  b.addr + 32 + b.size ≤ c.addr ∨ c.addr + 32 + c.size ≤ b.addr

instance : Std.Symm Block.Apart := ⟨fun _ _ => Or.symm⟩

theorem Block.Apart.symm {b c : Block} (h : b.Apart c) : c.Apart b := Or.symm h

/-- What is apart from two adjacent blocks is apart from both taken as one. -/
theorem Block.Apart.merge {a b c : Block} (ha : a.Apart c) (hb : b.Apart c)
    (hadj : b.addr = a.addr + 32 + a.size) : (a.merge b).Apart c := by
  simp only [Apart, Block.merge] at *
  omega

/-- The blocks of `mid` are replaced by others. -/
theorem pairwise_splice {pre mid mid' post : List Block}
    (h : (pre ++ mid ++ post).Pairwise Block.Apart) (hmid : mid'.Pairwise Block.Apart)
    (hout : ∀ b ∈ mid', ∀ c, c ∈ pre ∨ c ∈ post → b.Apart c) :
    (pre ++ mid' ++ post).Pairwise Block.Apart := by
  simp only [List.pairwise_append] at h ⊢
  obtain ⟨⟨hpre, -, -⟩, hpost, hcross⟩ := h
  refine ⟨⟨hpre, hmid, fun c hc b hb => (hout b hb c (.inl hc)).symm⟩, hpost, fun c hc d hd => ?_⟩
  rcases List.mem_append.mp hc with hc | hc
  · exact hcross c (List.mem_append_left _ hc) d hd
  · exact hout c hc d (.inr hd)

/-- `bs` is the list of blocks that memory holds between `root` and `last`, wherever they lie. -/
structure BlockChain (m : Memory) (root last : ℕ) (bs : List Block) : Prop where
  root_eq : root = headAddr Block.addr 0 bs
  last_eq : last = lastAddr Block.addr 0 bs
  linked : Linked Block.addr (Block.At m) 0 bs 0
  apart : bs.Pairwise Block.Apart
  bounds : ∀ b ∈ bs, 0 < b.addr ∧ b.addr + 32 + b.size < 2 ^ 64

namespace BlockChain
variable {m m' : Memory} {root last : ℕ} {bs pre mid mid' post : List Block} {b c : Block}

theorem empty (m : Memory) : BlockChain m 0 0 [] where
  root_eq := rfl
  last_eq := rfl
  linked := trivial
  apart := List.Pairwise.nil
  bounds := by simp

theorem apart_of_ne (h : BlockChain m root last bs) (hb : b ∈ bs) (hc : c ∈ bs) (hne : b ≠ c) :
    b.Apart c :=
  h.apart.forall hb hc hne

theorem eq_of_addr (h : BlockChain m root last bs) (hb : b ∈ bs) (hc : c ∈ bs)
    (he : b.addr = c.addr) : b = c := by
  by_contra hne
  have := h.apart_of_ne hb hc hne
  simp only [Block.Apart] at this
  omega

/-- The header of a block and the blocks on its two sides. -/
theorem header (h : BlockChain m root last (pre ++ b :: post)) : metadataAt m b.addr =
    ⟨b.size, b.isFree, headAddr Block.addr 0 post, lastAddr Block.addr 0 pre⟩ :=
  Linked_mid h.linked

/-- A block and those on its two sides. -/
theorem side (h : BlockChain m root last (pre ++ b :: post)) (hc : c ∈ pre ∨ c ∈ post) :
    b.Apart c := by
  have hp := h.apart
  simp only [List.pairwise_append, List.pairwise_cons] at hp
  rcases hc with hc | hc
  · exact (hp.2.2 c hc b (by simp)).symm
  · exact hp.2.1.1 c hc

/-- The address behind a position is null or that of a block. -/
theorem next_cases (h : BlockChain m root last (pre ++ b :: post)) :
    headAddr Block.addr 0 post = 0 ∨ ∃ c cs, post = c :: cs ∧ headAddr Block.addr 0 post = c.addr ∧
      b.Apart c ∧ c.addr + 32 + c.size < 2 ^ 64 := by
  cases post with
  | nil => exact .inl rfl
  | cons c cs => exact .inr ⟨c, cs, rfl, rfl, h.side (by simp), (h.bounds c (by simp)).2⟩

theorem next_mod (h : BlockChain m root last (pre ++ b :: post)) :
    headAddr Block.addr 0 post % 2 ^ 64 = headAddr Block.addr 0 post := by
  rcases h.next_cases with h0 | ⟨c, cs, -, hc, -, hlt⟩
  · rw [h0]
    rfl
  · exact Nat.mod_eq_of_lt (by omega)

theorem last_eq_iff (h : BlockChain m root last (pre ++ b :: post)) :
    b.addr = last ↔ post = [] := by
  rw [h.last_eq, lastAddr_append, lastAddr_cons]
  constructor
  · intro he
    rcases lastAddr_mem_or Block.addr b.addr post with ⟨hnil, -⟩ | ⟨c, hc, hlast⟩
    · exact hnil
    · have := h.side (.inr hc)
      simp only [Block.Apart] at this
      omega
  · rintro rfl
    rfl

theorem root_eq_iff (h : BlockChain m root last (pre ++ b :: post)) :
    b.addr = root ↔ pre = [] := by
  rw [h.root_eq, headAddr_append, headAddr_cons]
  cases pre with
  | nil => simp
  | cons c cs =>
    have := h.side (c := c) (by simp)
    simp only [Block.Apart] at this
    simp only [headAddr_cons, reduceCtorEq, iff_false]
    omega

theorem root_ne_zero (h : BlockChain m root last (b :: bs)) : root ≠ 0 := by
  rw [h.root_eq, headAddr_cons]
  have := h.bounds b (by simp)
  omega

theorem last_lt (h : BlockChain m root last bs) : last < 2 ^ 64 := by
  rw [h.last_eq]
  rcases lastAddr_mem_or Block.addr 0 bs with ⟨-, h0⟩ | ⟨c, hc, h0⟩
  · omega
  · have := h.bounds c hc
    omega

theorem length_lt (h : BlockChain m root last bs) : bs.length < 2 ^ 64 := by
  have hsum : (bs.map Block.len).sum ≤ 2 ^ 64 - 1 := by
    have hapart : bs.Pairwise fun b c => b.addr + b.len ≤ c.addr ∨ c.addr + c.len ≤ b.addr := by
      refine h.apart.imp fun hbc => ?_
      simpa only [Block.Apart, Block.len, Nat.add_assoc] using hbc
    refine sum_len_le_of_apart hapart fun b hb => ?_
    have := h.bounds b hb
    simp only [Block.len]
    omega
  rw [Block.sum_len] at hsum
  omega

/-- The last block after the blocks up to `b` are replaced. -/
theorem last_splice (h : BlockChain m root last (pre ++ b :: post)) (mid : List Block) :
    (if b.addr = last then lastAddr Block.addr 0 mid else last) =
      lastAddr Block.addr 0 (mid ++ post) := by
  by_cases hp : post = []
  · rw [if_pos (h.last_eq_iff.mpr hp), hp, List.append_nil]
  · obtain ⟨c, cs, rfl⟩ := List.exists_cons_of_ne_nil hp
    rw [if_neg (fun he => hp (h.last_eq_iff.mp he)), h.last_eq]
    simp

/-- Memory that keeps every header keeps the chain. -/
theorem frame (h : BlockChain m root last bs) (hm : ∀ b ∈ bs, m.AgreeOn m' b.addr 32) :
    BlockChain m' root last bs :=
  { h with linked := h.linked.frame (fun b hb _ _ hat => (metadataAt_congr (hm b hb)).trans hat) }

/-- Replace the blocks `mid` by blocks `mid'`. Besides headers that are apart from the other blocks
only the back link of the block behind them changes in memory. -/
theorem splice (h : BlockChain m root last (pre ++ mid ++ post)) (inner : List ℕ)
    (hhead : ∀ n, headAddr Block.addr n mid' = headAddr Block.addr n mid)
    (hinner : ∀ t ∈ inner, ∀ c, c ∈ pre ∨ c ∈ post → c.addr + 32 ≤ t ∨ t + 32 ≤ c.addr)
    (hmem : HeadersOnly (inner ++ (post.take 1).map Block.addr) m m')
    (hlinks : Linked Block.addr (Block.At m') (lastAddr Block.addr 0 pre) mid'
      (headAddr Block.addr 0 post))
    (hback : ∀ c cs, post = c :: cs → metadataAt m' c.addr =
      { metadataAt m c.addr with prev := lastAddr Block.addr 0 (pre ++ mid') })
    (hapart : (pre ++ mid' ++ post).Pairwise Block.Apart)
    (hbounds : ∀ b ∈ mid', 0 < b.addr ∧ b.addr + 32 + b.size < 2 ^ 64) :
    BlockChain m' root (lastAddr Block.addr 0 (pre ++ mid' ++ post)) (pre ++ mid' ++ post) := by
  have hpair := h.apart
  simp only [List.pairwise_append] at hpair
  obtain ⟨-, hpost, hcross⟩ := hpair
  obtain ⟨hl, hlpost⟩ := Linked_append.mp h.linked
  obtain ⟨hlpre, -⟩ := Linked_append.mp hl
  -- a header outside of `mid` that is not the first one behind it is not written
  have hkeep (c : Block) (hc : c ∈ pre ∨ c ∈ post) (hne : ∀ d ∈ post.take 1, c.Apart d) :
      m.AgreeOn m' c.addr 32 := by
    refine hmem.agree (fun t ht => ?_)
    rcases List.mem_append.mp ht with ht | ht
    · exact (hinner t ht c hc).symm.symm
    · obtain ⟨d, hd, rfl⟩ := List.mem_map.mp ht
      have := hne d hd
      simp only [Block.Apart] at this
      omega
  refine ⟨?_, rfl, ?_, hapart, fun c hc => ?_⟩
  · rw [h.root_eq]
    simp only [headAddr_append, hhead]
  · refine Linked_append.mpr ⟨Linked_append.mpr ⟨?_, hlinks⟩, ?_⟩
    · rw [hhead]
      refine hlpre.frame (fun c hc _ _ hat => (metadataAt_congr (hkeep c (.inl hc) ?_)).trans hat)
      exact fun d hd => hcross c (List.mem_append_left _ hc) d (List.mem_of_mem_take hd)
    · cases post with
      | nil => trivial
      | cons c cs =>
        have hc : metadataAt m c.addr = _ := hlpost.1
        refine ⟨by rw [Block.At, hback c cs rfl, hc], hlpost.2.frame (fun d hd _ _ hat =>
          (metadataAt_congr (hkeep d (.inr (List.mem_cons_of_mem _ hd)) ?_)).trans hat)⟩
        intro e he
        obtain rfl : e = c := by simpa using he
        exact ((List.pairwise_cons.mp hpost).1 d hd).symm
  · simp only [List.append_assoc, List.mem_append] at hc
    rcases hc with hc | hc | hc
    · exact h.bounds c (by simp [hc])
    · exact hbounds c hc
    · exact h.bounds c (by simp [hc])

/-- Assign the size and the flag of a block. -/
theorem setHeader (h : BlockChain m root last (pre ++ b :: post)) (size : ℕ) (f : Bool)
    (hmem : HeadersOnly [b.addr] m m')
    (hnew : metadataAt m' b.addr = { metadataAt m b.addr with size := size, isFree := f })
    (hout : ∀ c, c ∈ pre ∨ c ∈ post → Block.Apart ⟨b.addr, size, f⟩ c)
    (hlt : b.addr + 32 + size < 2 ^ 64) :
    BlockChain m' root last (pre ++ ⟨b.addr, size, f⟩ :: post) := by
  have hsp : BlockChain m root last (pre ++ [b] ++ post) := by simpa using h
  have hlast : last = lastAddr Block.addr 0 (pre ++ [⟨b.addr, size, f⟩] ++ post) := by
    rw [h.last_eq]
    simp
  have hpos := (h.bounds b (by simp)).1
  rw [hlast, show pre ++ ⟨b.addr, size, f⟩ :: post = pre ++ [⟨b.addr, size, f⟩] ++ post by simp]
  refine hsp.splice [b.addr] (fun n => rfl) (fun t ht c hc => ?_) (hmem.mono (by simp))
    ⟨?_, trivial⟩ ?_ ?_ ?_
  · have := h.side hc
    rw [List.mem_singleton] at ht
    simp only [Block.Apart] at this
    omega
  · rw [Block.At, hnew, h.header]
    rfl
  · rintro c cs rfl
    have hc : BlockChain m root last ((pre ++ [b]) ++ c :: cs) := by simpa using h
    have hside := h.side (c := c) (by simp)
    simp only [Block.Apart] at hside
    rw [metadataAt_congr (hmem.agree fun t ht => by rw [List.mem_singleton] at ht; omega), hc.header]
    simp
  · refine pairwise_splice hsp.apart (List.pairwise_singleton _ _) fun c hc => ?_
    rw [List.mem_singleton.mp hc]
    exact hout
  · intro c hc
    rw [List.mem_singleton.mp hc]
    exact ⟨hpos, hlt⟩

/-- Assign the flag of a block. -/
theorem setFlag (h : BlockChain m root last (pre ++ b :: post)) (f : Bool) :
    BlockChain (storeField m b.addr .isFree f.toNat) root last
      (pre ++ { b with isFree := f } :: post) := by
  refine h.setHeader b.size f (.storeField _ (by simp) _ _) ?_ (fun c hc => h.side hc)
    (h.bounds b (by simp)).2
  rw [metadataAt_storeField, h.header]
  cases f <;> rfl

/-- Put a block behind the last one. -/
theorem append (h : BlockChain m root last bs) (addr size : ℕ) (hpos : 0 < addr)
    (hlt : addr + 32 + size < 2 ^ 64) (hout : ∀ c ∈ bs, c.Apart ⟨addr, size, false⟩) :
    BlockChain (appendedMemory m addr size last) (headAddr Block.addr addr bs) addr
      (bs ++ [⟨addr, size, false⟩]) := by
  have hlast : last ≠ 0 → last + 32 ≤ addr ∨ addr + 32 ≤ last := by
    rw [h.last_eq]
    rcases lastAddr_mem_or Block.addr 0 bs with ⟨-, h0⟩ | ⟨c, hc, h0⟩
    · exact fun hne => absurd h0 hne
    · have := hout c hc
      simp only [Block.Apart] at this
      omega
  refine ⟨by simp, by simp, Linked_append.mpr ⟨?_, ?_, trivial⟩, ?_, fun c hc => ?_⟩
  · rcases List.eq_nil_or_concat' bs with rfl | ⟨pre, b, rfl⟩
    · trivial
    · have hb := h.bounds b (by simp)
      have hend : last = b.addr := by
        rw [h.last_eq]
        simp
      subst hend
      obtain ⟨hpre, -⟩ := Linked_append.mp h.linked
      refine Linked_append.mpr ⟨hpre.frame (fun c hc _ _ hat => ?_), ?_, trivial⟩
      · have hside := h.side (.inl hc)
        have hnew := hout c (by simp [hc])
        have hmem : HeadersOnly [addr, b.addr] m (appendedMemory m addr size b.addr) :=
          appendedMemory_headersOnly m (by simp) (by simp)
        refine (metadataAt_congr (hmem.agree (fun t ht => ?_))).trans hat
        simp only [List.mem_cons, List.not_mem_nil, or_false] at ht
        simp only [Block.Apart] at hside hnew
        omega
      · rw [Block.At, appendedMemory_last m (by omega) (hlast (by omega)) (by omega), h.header]
        rfl
  · rw [Block.At, appendedMemory_new m (by omega) h.last_lt hlast, h.last_eq]
    rfl
  · refine List.pairwise_append.mpr ⟨h.apart, List.pairwise_singleton _ _, fun c hc d hd => ?_⟩
    rw [List.mem_singleton.mp hd]
    exact hout c hc
  · rcases List.mem_append.mp hc with hc | hc
    · exact h.bounds c hc
    · rw [List.mem_singleton.mp hc]
      exact ⟨hpos, hlt⟩

end BlockChain
end FtfSystems.VirtualMemory

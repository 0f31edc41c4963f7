import FtfSystems.VirtualMemory.BlockChain

/-!
# Lists of blocks in memory

The abstract heap is the list of its blocks by increasing address. `BlockList` relates it
to memory: the blocks form a chain between `root` and `last`, and they tile the addresses
from the first one to the program break. Both allocators keep this relation: whatever keeps a chain
and its tiling keeps it (`of_chain`), and `splice` is the case of a few blocks in a row.
-/
namespace FtfSystems.VirtualMemory
open Foundation

/-- `bs` is the list of blocks that memory holds between `root` and `last`. -/
structure BlockList (m : Memory) (root last brk : ℕ) (bs : List Block) : Prop where
  root_eq : root = headAddr Block.addr 0 bs
  last_eq : last = lastAddr Block.addr 0 bs
  linked : Linked Block.addr (Block.At m) 0 bs 0
  tiles : Tiles Block.addr Block.len (headAddr Block.addr brk bs) bs brk
  pos : 0 < headAddr Block.addr brk bs
  brk_lt : brk < 2 ^ 64

/-- The header of `b` is in memory, with this forward link and any back link. -/
def Block.Forward (m : Memory) (b : Block) (_prv nxt : ℕ) : Prop :=
  metadataAt m b.addr = ⟨b.size, b.isFree, nxt, (metadataAt m b.addr).prev⟩

/-- The forward links determine the list. -/
theorem forward_unique {m : Memory} {prv prv' : ℕ} {bs bs' : List Block}
    (h : Linked Block.addr (Block.Forward m) prv bs 0)
    (h' : Linked Block.addr (Block.Forward m) prv' bs' 0) (hpos : ∀ b ∈ bs, b.addr ≠ 0)
    (hpos' : ∀ b ∈ bs', b.addr ≠ 0)
    (hhead : headAddr Block.addr 0 bs = headAddr Block.addr 0 bs') : bs = bs' := by
  induction bs generalizing prv prv' bs' with
  | nil =>
    cases bs' with
    | nil => rfl
    | cons b' bs' => exact absurd hhead.symm (hpos' b' (by simp))
  | cons b bs ih =>
    cases bs' with
    | nil => exact absurd hhead (hpos b (by simp))
    | cons b' bs' =>
      have haddr : b.addr = b'.addr := hhead
      have hb := h.1
      have hb' := h'.1
      rw [Block.Forward] at hb hb'
      rw [← haddr, hb] at hb'
      simp only [MallocMetadata.mk.injEq, and_true] at hb'
      obtain ⟨hsize, hflag, hnext⟩ := hb'
      obtain rfl : b = b' := by
        cases b
        cases b'
        simp_all
      rw [ih h.2 h'.2 (fun c hc => hpos c (by simp [hc])) (fun c hc => hpos' c (by simp [hc])) hnext]

/-- A list that ends meets no address twice. -/
theorem nodup_of_forward {m : Memory} {prv : ℕ} {bs : List Block}
    (h : Linked Block.addr (Block.Forward m) prv bs 0) (hpos : ∀ b ∈ bs, b.addr ≠ 0) :
    (bs.map Block.addr).Nodup := by
  induction bs generalizing prv with
  | nil => exact List.nodup_nil
  | cons b bs ih =>
    have hpos' : ∀ c ∈ bs, c.addr ≠ 0 := fun c hc => hpos c (by simp [hc])
    rw [List.map_cons, List.nodup_cons]
    refine ⟨fun hmem => ?_, ih h.2 hpos'⟩
    -- otherwise the list is the same from both nodes on, and one of the two ends is shorter
    obtain ⟨c, hc, haddr⟩ := List.mem_map.mp hmem
    obtain ⟨xs, ys, rfl⟩ := List.append_of_mem hc
    have hsame := forward_unique h (Linked_append.mp h.2).2 hpos (fun d hd => hpos' d (by simp [hd]))
      haddr.symm
    have hlen := congrArg List.length hsame
    simp only [List.length_cons, List.length_append] at hlen
    omega

namespace BlockList
variable {m m' : Memory} {root last brk : ℕ} {bs pre mid mid' post : List Block} {b c : Block}

/-- The list of a heap that has not been used. -/
theorem empty {m : Memory} {brk : ℕ} (hpos : 0 < brk) (hlt : brk < 2 ^ 64) :
    BlockList m 0 0 brk [] where
  root_eq := rfl
  last_eq := rfl
  linked := trivial
  tiles := rfl
  pos := hpos
  brk_lt := hlt

theorem bounds (h : BlockList m root last brk bs) (hb : b ∈ bs) :
    0 < b.addr ∧ headAddr Block.addr brk bs ≤ b.addr ∧ b.addr + 32 + b.size ≤ brk ∧
      b.addr + 32 + b.size < 2 ^ 64 := by
  have ht := h.tiles.bounds hb
  have hp := h.pos
  have hl := h.brk_lt
  simp only [Block.len] at ht
  omega

/-- The blocks of a tiling do not overlap. -/
theorem apart_of_tiles {start stop : ℕ} (h : Tiles Block.addr Block.len start bs stop) :
    bs.Pairwise Block.Apart := by
  refine h.pairwise.imp fun hbc => .inl ?_
  simp only [Block.len] at hbc
  omega

theorem chain (h : BlockList m root last brk bs) : BlockChain m root last bs where
  root_eq := h.root_eq
  last_eq := h.last_eq
  linked := h.linked
  apart := apart_of_tiles h.tiles
  bounds b hb := by
    have := h.bounds hb
    omega

theorem before (h : BlockList m root last brk (pre ++ b :: post)) (hc : c ∈ pre) :
    c.addr + 32 + c.size ≤ b.addr := by
  have ht := h.tiles.before hc
  simp only [Block.len] at ht
  omega

theorem after (h : BlockList m root last brk (pre ++ b :: post)) (hc : c ∈ post) :
    b.addr + 32 + b.size ≤ c.addr := by
  have ht := h.tiles.after hc
  simp only [Block.len] at ht
  omega

/-- Different blocks do not overlap, headers included. -/
theorem apart (h : BlockList m root last brk bs) (hb : b ∈ bs) (hc : c ∈ bs) (hne : b ≠ c) :
    b.addr + 32 + b.size ≤ c.addr ∨ c.addr + 32 + c.size ≤ b.addr :=
  h.chain.apart_of_ne hb hc hne

theorem eq_of_addr (h : BlockList m root last brk bs) (hb : b ∈ bs) (hc : c ∈ bs)
    (he : b.addr = c.addr) : b = c := h.chain.eq_of_addr hb hc he

/-- The header of a block and the blocks on its two sides. -/
theorem header (h : BlockList m root last brk (pre ++ b :: post)) : metadataAt m b.addr =
    ⟨b.size, b.isFree, headAddr Block.addr 0 post, lastAddr Block.addr 0 pre⟩ := h.chain.header

theorem adjacent (h : BlockList m root last brk (pre ++ b :: c :: post)) :
    c.addr = b.addr + 32 + b.size := by
  have hadj := h.tiles.split.2.1
  simp only [Block.len] at hadj
  omega

theorem length_lt (h : BlockList m root last brk bs) : bs.length < 2 ^ 64 := h.chain.length_lt

/-- The payloads and the headers fill the heap. -/
theorem sum_bytes (h : BlockList m root last brk bs) :
    headAddr Block.addr brk bs + ((bs.map Block.size).sum + 32 * bs.length) = brk := by
  rw [← Block.sum_len]
  exact h.tiles.sum

theorem root_ne_zero (h : BlockList m root last brk (b :: bs)) : root ≠ 0 := h.chain.root_ne_zero

theorem last_eq_iff (h : BlockList m root last brk (pre ++ b :: post)) :
    b.addr = last ↔ post = [] := h.chain.last_eq_iff

theorem root_eq_iff (h : BlockList m root last brk (pre ++ b :: post)) :
    b.addr = root ↔ pre = [] := h.chain.root_eq_iff

/-- The block behind a position starts where the block there ends. -/
theorem next_addr (h : BlockList m root last brk (pre ++ b :: post))
    (hn : headAddr Block.addr 0 post ≠ 0) :
    headAddr Block.addr 0 post = b.addr + 32 + b.size ∧ headAddr Block.addr 0 post < 2 ^ 64 ∧
      headAddr Block.addr 0 post ∈ (post.take 1).map Block.addr := by
  cases post with
  | nil => exact absurd rfl hn
  | cons c cs =>
    have hc := h.bounds (b := c) (by simp)
    have hadj := h.tiles.split.2.1
    simp only [Block.len] at hadj
    simp only [headAddr_cons, List.take_succ_cons, List.take_zero, List.map_cons, List.map_nil,
      List.mem_singleton, and_true]
    omega

theorem next_mod (h : BlockList m root last brk (pre ++ b :: post)) :
    headAddr Block.addr 0 post % 2 ^ 64 = headAddr Block.addr 0 post := h.chain.next_mod

/-- Memory that keeps every header keeps the list. -/
theorem frame (h : BlockList m root last brk bs) (hm : ∀ b ∈ bs, m.AgreeOn m' b.addr 32) :
    BlockList m' root last brk bs :=
  { h with linked := h.linked.frame (fun b hb _ _ hat => (metadataAt_congr (hm b hb)).trans hat) }

/-- Headers at blocks of the list or behind the break are no payload. -/
theorem payload_agree (h : BlockList m root last brk bs) {as : List ℕ} (hm : HeadersOnly as m m')
    (has : ∀ a ∈ as, (∃ b ∈ bs, a = b.addr) ∨ brk ≤ a) (hc : c ∈ bs) :
    m.AgreeOn m' (c.addr + 32) c.size := by
  have hcb := h.bounds hc
  refine hm.agree (fun a ha => ?_)
  rcases has a ha with ⟨b, hb, rfl⟩ | hnew
  · by_cases hbc : b = c
    · subst hbc
      omega
    · have := h.apart hb hc hbc
      omega
  · omega

/-- Writing to the payload of one block keeps the list and the payloads of the others. -/
theorem write_payload (h : BlockList m root last brk bs) (hb : b ∈ bs)
    (hm : ∀ x, x < b.addr + 32 ∨ b.addr + 32 + b.size ≤ x → m' x = m x) :
    BlockList m' root last brk bs ∧
      ∀ c ∈ bs, c.addr ≠ b.addr → m.AgreeOn m' (c.addr + 32) c.size := by
  constructor
  · refine h.frame (fun c hc x hx hx' => hm x ?_)
    by_cases hbc : b = c
    · subst hbc
      omega
    · have := h.apart hb hc hbc
      omega
  · intro c hc hne x hx hx'
    have := h.apart hb hc (fun he => hne (by rw [he]))
    exact hm x (by omega)

/-- Blocks `mid'` that tile the addresses of `mid` take their place in the chain. -/
theorem of_chain {last' : ℕ} (h : BlockList m root last brk (pre ++ mid ++ post))
    (hhead : ∀ n, headAddr Block.addr n mid' = headAddr Block.addr n mid)
    (htiles : ∀ start stop, Tiles Block.addr Block.len start mid stop →
      Tiles Block.addr Block.len start mid' stop)
    (hchain : BlockChain m' root last' (pre ++ mid' ++ post)) :
    BlockList m' root last' brk (pre ++ mid' ++ post) := by
  have hstart (n : ℕ) : headAddr Block.addr n (pre ++ mid' ++ post) =
      headAddr Block.addr n (pre ++ mid ++ post) := by
    simp only [headAddr_append, hhead]
  obtain ⟨stop, hx, hty⟩ := Tiles_append.mp h.tiles
  obtain ⟨start, htp, htm⟩ := Tiles_append.mp hx
  refine ⟨hchain.root_eq, hchain.last_eq, hchain.linked, ?_, ?_, h.brk_lt⟩
  · rw [hstart]
    exact Tiles_append.mpr ⟨stop, Tiles_append.mpr ⟨start, htp, htiles _ _ htm⟩, hty⟩
  · rw [hstart]
    exact h.pos

/-- Assign the flag of a block. -/
theorem setFlag (h : BlockList m root last brk (pre ++ b :: post)) (f : Bool) :
    BlockList (storeField m b.addr .isFree f.toNat) root last brk
      (pre ++ { b with isFree := f } :: post) := by
  have hsp : BlockList m root last brk (pre ++ [b] ++ post) := by simpa using h
  have hflag := h.chain.setFlag f
  rw [show pre ++ { b with isFree := f } :: post = pre ++ [{ b with isFree := f }] ++ post by simp]
    at hflag ⊢
  exact hsp.of_chain (fun n => rfl) (fun start stop ht => ht) hflag

theorem last_lt (h : BlockList m root last brk bs) : last < 2 ^ 64 := h.chain.last_lt

/-- Put a block behind the last one, at the break, and move the break to its end. -/
theorem append (h : BlockList m root last brk bs) (size : ℕ) (hlt : brk + 32 + size < 2 ^ 64) :
    BlockList (appendedMemory m brk size last) (headAddr Block.addr brk bs) brk (brk + 32 + size)
      (bs ++ [⟨brk, size, false⟩]) := by
  have hpos := h.pos
  have hle := h.tiles.le
  have hchain := h.chain.append brk size (by omega) hlt (fun c hc => .inl (h.bounds hc).2.2.1)
  have hhead : headAddr Block.addr (brk + 32 + size) (bs ++ [⟨brk, size, false⟩]) =
      headAddr Block.addr brk bs := by simp
  refine ⟨hchain.root_eq, hchain.last_eq, hchain.linked, ?_, by rwa [hhead], hlt⟩
  rw [hhead]
  refine Tiles_append.mpr ⟨brk, h.tiles, rfl, ?_⟩
  simp only [Block.len, Tiles_nil]
  omega

/-- Give the last block a new size and flag and move the break to its end. -/
theorem grow (h : BlockList m root last brk (pre ++ [b])) (size : ℕ) (f : Bool)
    (hlt : b.addr + 32 + size < 2 ^ 64) (hmem : HeadersOnly [b.addr] m m')
    (hnew : metadataAt m' b.addr = { metadataAt m b.addr with size := size, isFree := f }) :
    BlockList m' root last (b.addr + 32 + size) (pre ++ [⟨b.addr, size, f⟩]) := by
  have hhead (n n' : ℕ) : headAddr Block.addr n' (pre ++ [⟨b.addr, size, f⟩]) =
      headAddr Block.addr n (pre ++ [b]) := by simp
  have hchain := h.chain.setHeader size f hmem hnew (fun c hc => ?_) hlt
  · refine ⟨hchain.root_eq, hchain.last_eq, hchain.linked, ?_, ?_, hlt⟩
    · rw [hhead brk]
      obtain ⟨mid, hpre, hb, -⟩ := Tiles_append.mp h.tiles
      refine Tiles_append.mpr ⟨mid, hpre, hb, ?_⟩
      simp only [Block.len, Tiles_nil]
      omega
    · rw [hhead brk]
      exact h.pos
  · have := h.before (c := c) (by simpa using hc)
    exact .inr this

end BlockList
end FtfSystems.VirtualMemory

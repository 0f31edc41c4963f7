import FtfSystems.VirtualMemory.Malloc2.Free

/-!
# Mapped blocks in the list of `root`

While `mmap_head` is taken, `smallocMmap` puts the blocks that it maps behind `end`, so that the
list of `root` holds blocks of both kinds. Those from `sbrk` still tile the heap in the order of
the list. A mapped block fills a region of its own outside of the heap and is in use; `mmap_head`
is such a block too, with no other on its list.
-/
namespace FtfSystems.VirtualMemory.Malloc2
open Foundation

/-- The block is at the start of a mapped region. -/
def IsMapped (rs : List Region) (b : Block) : Prop := ∃ r ∈ rs, r.addr = b.addr

instance (rs : List Region) (b : Block) : Decidable (IsMapped rs b) :=
  inferInstanceAs (Decidable (∃ r ∈ rs, _))

/-- The blocks of a list that came from `sbrk`. -/
def heapPart (rs : List Region) (bs : List Block) : List Block := bs.filter fun b => ¬IsMapped rs b

section HeapPart
variable {rs : List Region} {bs bs' : List Block} {b : Block}

@[simp] theorem heapPart_nil : heapPart rs [] = [] := rfl

@[simp] theorem heapPart_append :
    heapPart rs (bs ++ bs') = heapPart rs bs ++ heapPart rs bs' := List.filter_append ..

theorem heapPart_cons (h : ¬IsMapped rs b) : heapPart rs (b :: bs) = b :: heapPart rs bs :=
  List.filter_cons_of_pos (by simpa using h)

theorem heapPart_cons_mapped (h : IsMapped rs b) : heapPart rs (b :: bs) = heapPart rs bs :=
  List.filter_cons_of_neg (by simpa using h)

theorem mem_heapPart : b ∈ heapPart rs bs ↔ b ∈ bs ∧ ¬IsMapped rs b := by
  simp [heapPart]

theorem heapPart_congr {rs' : List Region} (h : ∀ b ∈ bs, IsMapped rs' b ↔ IsMapped rs b) :
    heapPart rs' bs = heapPart rs bs :=
  List.filter_congr fun b hb => by simp [h b hb]

end HeapPart

/-- A region that `mmap` may have returned. -/
structure PlacedRegion (s : Heap) (r : Region) : Prop where
  aligned : r.addr % pageSize = 0
  pos : 0 < r.addr
  len_pos : 0 < r.len
  lt : r.addr + r.len < 2 ^ 64
  outside : r.addr + r.len ≤ s.heapStart ∨ s.brk ≤ r.addr

/-- The block takes the whole region and is in use. -/
structure FilledRegion (r : Region) (b : Block) : Prop where
  len_eq : r.len = b.size + 32
  inUse : b.isFree = false
  large : mmapAllocationLimit ≤ b.size

/-- `mmap_head` and `mmap_end` are the block `b`, which is in no other list. -/
structure MappedHead (s : Heap) (bs : List Block) (b : Block) : Prop where
  head_eq : s.glob.mmapHead = b.addr
  end_eq : s.glob.mmapEnd = b.addr
  header : metadataAt s.mem b.addr = ⟨b.size, false, 0, 0⟩
  isMapped : IsMapped s.regions b
  alone : ∀ c ∈ bs, c.addr ≠ b.addr

/-- The list of `root` holds the blocks `bs`, from `sbrk` and from `mmap`, that of `mmap_head` the
block `m`, if there is one. -/
structure MixedHeap (s : Heap) (bs : List Block) (m : Option Block) : Prop where
  chain : BlockChain s.mem s.glob.root s.glob.end_ bs
  tiles : Tiles Block.addr Block.len s.heapStart (heapPart s.regions bs) s.brk
  first : ∀ b ∈ bs.head?, ¬IsMapped s.regions b
  pos : 0 < s.heapStart
  brk_lt : s.brk < 2 ^ 64
  placed : ∀ r ∈ s.regions, PlacedRegion s r
  regions_apart : s.regions.Pairwise fun r r' => r.Disjoint r'.addr r'.len
  filled : ∀ b ∈ m.toList ++ bs, ∀ r ∈ s.regions, r.addr = b.addr → FilledRegion r b
  head : m.elim (s.glob.mmapHead = 0) (MappedHead s bs)

namespace MixedHeap
variable {s s' : Heap} {bs bs' pre post : List Block} {m : Option Block} {a b c : Block}

theorem init (mem : Memory) {brk : ℕ} (hpos : 0 < brk) (hlt : brk < 2 ^ 64) :
    MixedHeap (allocator.fresh mem brk).heap [] none where
  chain := .empty mem
  tiles := rfl
  first := by simp
  pos := hpos
  brk_lt := hlt
  placed := by simp [Allocator.fresh]
  regions_apart := List.Pairwise.nil
  filled := by simp [Allocator.fresh]
  head := rfl

/-- A free block came from `sbrk`. -/
theorem heap_of_free (h : MixedHeap s bs m) (hb : b ∈ bs) (hfree : b.isFree) :
    ¬IsMapped s.regions b := by
  rintro ⟨r, hr, he⟩
  have hused := (h.filled b (by simp [hb]) r hr he).inUse
  rw [hfree] at hused
  cases hused

theorem heap_bounds (h : MixedHeap s bs m) (hb : b ∈ bs) (hheap : ¬IsMapped s.regions b) :
    s.heapStart ≤ b.addr ∧ b.addr + 32 + b.size ≤ s.brk := by
  have ht := h.tiles.bounds (mem_heapPart.mpr ⟨hb, hheap⟩)
  simp only [Block.len] at ht
  omega

theorem mapped_bounds (h : MixedHeap s bs m) (hb : b ∈ m.toList ++ bs)
    (hmap : IsMapped s.regions b) : b.addr % pageSize = 0 ∧ 0 < b.addr ∧
      b.addr + 32 + b.size < 2 ^ 64 ∧ (b.addr + 32 + b.size ≤ s.heapStart ∨ s.brk ≤ b.addr) := by
  obtain ⟨r, hr, he⟩ := hmap
  have hlen := (h.filled b hb r hr he).len_eq
  have hplaced := h.placed r hr
  have hpos := hplaced.pos
  have hlt := hplaced.lt
  have hout := hplaced.outside
  refine ⟨he ▸ hplaced.aligned, ?_⟩
  omega

theorem bounds (h : MixedHeap s bs m) (hb : b ∈ m.toList ++ bs) :
    0 < b.addr ∧ b.addr + 32 + b.size < 2 ^ 64 := by
  rcases List.mem_append.mp hb with hm | hbs
  · obtain rfl : m = some b := by simpa using hm
    have := h.mapped_bounds hb h.head.isMapped
    omega
  · exact h.chain.bounds b hbs

theorem mem_isMapped (h : MixedHeap s bs m) (hm : m = some b) : IsMapped s.regions b := by
  subst hm
  exact h.head.isMapped

/-- Blocks in different regions do not overlap. -/
theorem regions_apart_of_ne (h : MixedHeap s bs m) {r r' : Region} (hr : r ∈ s.regions)
    (hr' : r' ∈ s.regions) (hne : r ≠ r') : r.Disjoint r'.addr r'.len := by
  obtain ⟨xs, ys, hregions⟩ := List.append_of_mem hr
  have hp := h.regions_apart
  rw [hregions] at hp hr'
  simp only [List.pairwise_append, List.pairwise_cons] at hp
  simp only [List.mem_append, List.mem_cons] at hr'
  rcases hr' with hr' | hr' | hr'
  · have := hp.2.2 r' hr' r (by simp)
    simp only [Region.Disjoint] at this ⊢
    omega
  · exact absurd hr'.symm hne
  · exact hp.2.1.1 r' hr'

/-- Different blocks do not overlap, on whichever list they are. -/
theorem apart (h : MixedHeap s bs m) (hb : b ∈ m.toList ++ bs) (hc : c ∈ m.toList ++ bs)
    (hne : b ≠ c) : b.Apart c := by
  have hmap {d e : Block} (hd : m = some d) (he : e ∈ bs) : d.Apart e := by
    have hd' : d ∈ m.toList ++ bs := by simp [hd]
    have hdm := h.mem_isMapped hd
    have hdb := h.mapped_bounds hd' hdm
    by_cases hem : IsMapped s.regions e
    · obtain ⟨r, hr, hra⟩ := hdm
      obtain ⟨q, hq, hqa⟩ := hem
      have hrlen := (h.filled d hd' r hr hra).len_eq
      have hqlen := (h.filled e (by simp [he]) q hq hqa).len_eq
      have hne : r ≠ q := by
        rintro rfl
        subst hd
        exact h.head.alone e he (hqa.symm.trans hra)
      have := h.regions_apart_of_ne hr hq hne
      simp only [Region.Disjoint, Block.Apart] at this ⊢
      omega
    · have := h.heap_bounds he hem
      simp only [Block.Apart]
      omega
  rcases List.mem_append.mp hb with hb | hb <;> rcases List.mem_append.mp hc with hc | hc
  · have hb' : m = some b := by simpa using hb
    have hc' : m = some c := by simpa using hc
    exact absurd (Option.some.inj (hb'.symm.trans hc')) hne
  · exact hmap (by simpa using hb) hc
  · exact (hmap (by simpa using hc) hb).symm
  · exact h.chain.apart_of_ne hb hc hne

theorem eq_of_addr (h : MixedHeap s bs m) (hb : b ∈ m.toList ++ bs) (hc : c ∈ m.toList ++ bs)
    (he : b.addr = c.addr) : b = c := by
  by_contra hne
  have := h.apart hb hc hne
  simp only [Block.Apart] at this
  omega

/-- Neighbours from `sbrk` are adjacent in memory. -/
theorem adjacent (h : MixedHeap s (pre ++ a :: b :: post) m) (ha : ¬IsMapped s.regions a)
    (hb : ¬IsMapped s.regions b) : b.addr = a.addr + 32 + a.size := by
  have ht := h.tiles
  rw [heapPart_append, heapPart_cons ha, heapPart_cons hb] at ht
  have hadj := ht.split.2.1
  simp only [Block.len] at hadj
  omega

/-- The blocks behind a block of the list start where it ends, unless it is the last one. -/
theorem last_stop (h : MixedHeap s (pre ++ [b]) m) (hb : ¬IsMapped s.regions b) :
    b.addr + 32 + b.size = s.brk := by
  have ht := h.tiles
  rw [heapPart_append, heapPart_cons hb] at ht
  have hstop := ht.split.2
  simp only [Block.len, heapPart_nil, Tiles_nil] at hstop
  omega

/-- Only headers of the list and bytes of the heap are written to: the block of `mmap_head` and the
regions stay. -/
theorem relist (h : MixedHeap s bs m) {ts : List ℕ} (hmaps : SameMaps s s')
    (hchain : BlockChain s'.mem s'.glob.root s'.glob.end_ bs')
    (htiles : Tiles Block.addr Block.len s.heapStart (heapPart s.regions bs') s'.brk)
    (hfirst : ∀ b ∈ bs'.head?, ¬IsMapped s.regions b)
    (hclear : s'.brk = s.brk ∨ ∃ n, s'.brk = s.brk + n ∧ ∀ r ∈ s.regions, r.Disjoint s.brk n)
    (hlt : s'.brk < 2 ^ 64) (hmem : HeadersOnly ts s.mem s'.mem)
    (hts : ∀ t ∈ ts, (∃ b ∈ bs, t = b.addr) ∨ (s.heapStart ≤ t ∧ t + 32 ≤ s'.brk))
    (hmapped : ∀ b ∈ bs', IsMapped s.regions b → b ∈ bs) : MixedHeap s' bs' m := by
  have hplaced : ∀ r ∈ s.regions, PlacedRegion s' r := by
    intro r hr
    have hr' := h.placed r hr
    have hstop := h.tiles.le
    have hout : r.addr + r.len ≤ s.heapStart ∨ s'.brk ≤ r.addr := by
      have := hr'.outside
      have := hr'.len_pos
      rcases hclear with heq | ⟨n, heq, hdis⟩
      · omega
      · have := hdis r hr
        simp only [Region.Disjoint] at this
        omega
    exact ⟨hr'.aligned, hr'.pos, hr'.len_pos, hr'.lt, by rwa [hmaps.heapStart]⟩
  have hfilled : ∀ b ∈ m.toList ++ bs', ∀ r ∈ s.regions, r.addr = b.addr → FilledRegion r b := by
    intro b hb r hr he
    refine h.filled b ?_ r hr he
    rcases List.mem_append.mp hb with hb | hb
    · exact List.mem_append_left _ hb
    · exact List.mem_append_right _ (hmapped b hb ⟨r, hr, he⟩)
  refine ⟨hchain, by rwa [hmaps.heapStart, hmaps.regions], by rwa [hmaps.regions],
    by rw [hmaps.heapStart]; exact h.pos, hlt, by rwa [hmaps.regions],
    by rw [hmaps.regions]; exact h.regions_apart, by rwa [hmaps.regions], ?_⟩
  cases m with
  | none => exact hmaps.mmapHead.trans h.head
  | some d =>
    have hd : MappedHead s bs d := h.head
    have hdm := h.mapped_bounds (b := d) (by simp) hd.isMapped
    refine ⟨hmaps.mmapHead.trans hd.head_eq, hmaps.mmapEnd.trans hd.end_eq, ?_,
      by rw [hmaps.regions]; exact hd.isMapped, fun c hc he => ?_⟩
    · refine (metadataAt_congr (hmem.agree fun t ht => ?_)).trans hd.header
      rcases hts t ht with ⟨b, hb, rfl⟩ | hin
      · have := h.apart (b := d) (c := b) (by simp) (by simp [hb])
          (fun he => hd.alone b hb (by rw [he]))
        simp only [Block.Apart] at this
        omega
      · obtain ⟨r, hr, hra⟩ := hd.isMapped
        have hlen := (h.filled d (by simp) r hr hra).len_eq
        have := (hplaced r hr).outside
        rw [hmaps.heapStart] at this
        omega
    · obtain ⟨r, hr, hra⟩ := hd.isMapped
      exact hd.alone c (hmapped c hc ⟨r, hr, hra.trans he.symm⟩) he

/-- What lies in the heap is no mapped block. -/
theorem not_isMapped (h : MixedHeap s bs m) (hlo : s.heapStart ≤ b.addr) (hhi : b.addr < s.brk) :
    ¬IsMapped s.regions b := by
  rintro ⟨r, hr, he⟩
  have hplaced := h.placed r hr
  have hlen := hplaced.len_pos
  have hout := hplaced.outside
  omega

/-- Memory that keeps every header keeps the lists. -/
theorem frame (h : MixedHeap s bs m) (heq : s' = { s with mem := s'.mem, calls := s'.calls })
    (hm : ∀ c ∈ m.toList ++ bs, s.mem.AgreeOn s'.mem c.addr 32) : MixedHeap s' bs m := by
  rw [heq]
  refine { h with chain := h.chain.frame fun c hc => hm c (by simp [hc]), placed := ?_, head := ?_ }
  · intro r hr
    have hr' := h.placed r hr
    exact ⟨hr'.aligned, hr'.pos, hr'.len_pos, hr'.lt, hr'.outside⟩
  · cases m with
    | none => exact h.head
    | some d =>
      have hd : MappedHead s bs d := h.head
      exact { hd with header := (metadataAt_congr (hm d (by simp))).trans hd.header }

/-- Regions that no block fills come and go. -/
theorem remap (h : MixedHeap s bs m)
    (heq : s' = { s with regions := s'.regions, calls := s'.calls })
    (hplaced : ∀ r ∈ s'.regions, PlacedRegion s r)
    (hapart : s'.regions.Pairwise fun r r' => r.Disjoint r'.addr r'.len)
    (hsame : ∀ b ∈ m.toList ++ bs, ∀ r : Region, r.addr = b.addr →
      (r ∈ s'.regions ↔ r ∈ s.regions)) : MixedHeap s' bs m := by
  have hmapped (b : Block) (hb : b ∈ m.toList ++ bs) :
      IsMapped s'.regions b ↔ IsMapped s.regions b := by
    constructor <;> rintro ⟨r, hr, he⟩
    · exact ⟨r, (hsame b hb r he).mp hr, he⟩
    · exact ⟨r, (hsame b hb r he).mpr hr, he⟩
  have hpart : heapPart s'.regions bs = heapPart s.regions bs :=
    heapPart_congr fun b hb => hmapped b (by simp [hb])
  rw [heq]
  refine { h with tiles := hpart ▸ h.tiles
                  first := fun b hb => (hmapped b (by simp [List.mem_of_mem_head? hb])).not.mpr
                    (h.first b hb)
                  placed := ?_, regions_apart := hapart
                  filled := fun b hb r hr he => h.filled b hb r ((hsame b hb r he).mp hr) he
                  head := ?_ }
  · intro r hr
    have hr' := hplaced r hr
    exact ⟨hr'.aligned, hr'.pos, hr'.len_pos, hr'.lt, hr'.outside⟩
  · cases m with
    | none => exact h.head
    | some d =>
      have hd : MappedHead s bs d := h.head
      exact { hd with isMapped := (hmapped d (by simp)).mpr hd.isMapped }

/-- Writing to the payload of a block keeps the lists. -/
theorem write_payload (h : MixedHeap s bs m) (hb : b ∈ m.toList ++ bs)
    (heq : s' = { s with mem := s'.mem })
    (hm : ∀ x, x < b.addr + 32 ∨ b.addr + 32 + b.size ≤ x → s'.mem x = s.mem x) :
    MixedHeap s' bs m := by
  refine h.frame (by rw [heq]) fun c hc x hx hx' => hm x ?_
  by_cases hbc : b = c
  · subst hbc
    omega
  · have := h.apart hb hc hbc
    simp only [Block.Apart] at this
    omega

/-- Blocks from `sbrk` are replaced by others that tile the same addresses. -/
theorem splice {mid mid' : List Block} {ts : List ℕ} (h : MixedHeap s (pre ++ mid ++ post) m)
    (hheap : ∀ b ∈ mid, ¬IsMapped s.regions b)
    (hhead : ∀ n, headAddr Block.addr n mid' = headAddr Block.addr n mid)
    (htiles : ∀ start stop, Tiles Block.addr Block.len start mid stop →
      Tiles Block.addr Block.len start mid' stop)
    (hchain : BlockChain s'.mem s'.glob.root s'.glob.end_ (pre ++ mid' ++ post))
    (heq : s' = { s with mem := s'.mem, glob.end_ := s'.glob.end_ })
    (hmem : HeadersOnly ts s.mem s'.mem)
    (hts : ∀ t ∈ ts, (∃ b ∈ pre ++ mid ++ post, t = b.addr) ∨
      (s.heapStart ≤ t ∧ t + 32 ≤ s.brk)) : MixedHeap s' (pre ++ mid' ++ post) m := by
  have hbrk : s'.brk = s.brk := by rw [heq]
  have hall : heapPart s.regions mid = mid := by
    refine List.filter_eq_self.mpr fun b hb => ?_
    simpa using hheap b hb
  have ht := h.tiles
  rw [heapPart_append, heapPart_append, hall] at ht
  obtain ⟨stop, hx, hty⟩ := Tiles_append.mp ht
  obtain ⟨start, htp, htm⟩ := Tiles_append.mp hx
  have htm' := htiles _ _ htm
  have hin : ∀ b ∈ mid', ¬IsMapped s.regions b := by
    intro b hb
    have hb' := htm'.bounds hb
    have hstart := htp.le
    have hstop := hty.le
    simp only [Block.len] at hb'
    exact h.not_isMapped (by omega) (by omega)
  have hall' : heapPart s.regions mid' = mid' := by
    refine List.filter_eq_self.mpr fun b hb => ?_
    simpa using hin b hb
  refine h.relist (SameMaps.of_eq heq) hchain ?_ ?_ (.inl hbrk) (hbrk ▸ h.brk_lt) hmem
    (by rwa [hbrk]) fun b hb hbm => ?_
  · rw [hbrk, heapPart_append, heapPart_append, hall']
    exact Tiles_append.mpr ⟨stop, Tiles_append.mpr ⟨start, htp, htm'⟩, hty⟩
  · intro b hb
    cases pre with
    | cons c cs => exact h.first b hb
    | nil =>
      cases mid' with
      | cons c cs => exact hin b (by simpa using Or.inl (Option.some.inj hb).symm)
      | nil =>
        -- an address in front of any rest is that of the rest
        obtain rfl : mid = [] := by
          cases mid with
          | nil => rfl
          | cons c cs => exact absurd ((hhead 0).trans (hhead 1).symm) (by simp)
        exact h.first b hb
  · simp only [List.append_assoc, List.mem_append] at hb ⊢
    rcases hb with hb | hb | hb
    · exact .inl hb
    · exact absurd hbm (hin b hb)
    · exact .inr (.inr hb)

/-- Assigning the flag of a block from `sbrk`. -/
theorem setIsFree_run (h : MixedHeap s (pre ++ b :: post) m) (hb : ¬IsMapped s.regions b)
    (f : Bool) : ∃ s', (setIsFree b.addr f).run s = .ok ((), s') ∧
      s' = { s with mem := s'.mem, glob.end_ := s'.glob.end_ } ∧
      MixedHeap s' (pre ++ { b with isFree := f } :: post) m := by
  have hpos := (h.chain.bounds b (by simp)).1
  have hsp : MixedHeap s (pre ++ [b] ++ post) m := by simpa using h
  have hchain := h.chain.setFlag f
  have hmem : HeadersOnly [b.addr] s.mem (storeField s.mem b.addr .isFree f.toNat) :=
    .storeField _ (by simp) _ _
  refine ⟨_, VirtualMemory.setIsFree_run (by omega) s f, rfl, ?_⟩
  rw [show pre ++ { b with isFree := f } :: post = pre ++ [{ b with isFree := f }] ++ post by simp]
    at hchain ⊢
  refine hsp.splice (by simpa using hb) (fun n => rfl) (fun _ _ ht => ht) hchain rfl hmem ?_
  intro t ht
  exact .inl ⟨b, by simp, List.mem_singleton.mp ht⟩

/-- `combine` on two neighbours from `sbrk`. The second header stays in memory. -/
theorem combine_run (h : MixedHeap s (pre ++ a :: b :: post) m) (ha : ¬IsMapped s.regions a)
    (hb : ¬IsMapped s.regions b) : ∃ s', (combine a.addr b.addr).run s = .ok ((), s') ∧
      s' = { s with mem := s'.mem, glob.end_ := s'.glob.end_ } ∧
      metadataAt s'.mem b.addr = metadataAt s.mem b.addr ∧
      MixedHeap s' (pre ++ a.merge b :: post) m := by
  have hadj := h.adjacent ha hb
  have hpos := (h.chain.bounds a (by simp)).1
  have hb' : BlockChain s.mem s.glob.root s.glob.end_ ((pre ++ [a]) ++ b :: post) := by
    simpa using h.chain
  have hsp : MixedHeap s (pre ++ [a, b] ++ post) m := by simpa using h
  have hchain := combine_chain h.chain hadj
  have hnext : ∀ t ∈ a.addr :: (post.take 1).map Block.addr,
      ∃ c ∈ pre ++ a :: post, t = c.addr ∧ b.addr ≠ t := by
    intro t ht
    rcases List.mem_cons.mp ht with rfl | ht
    · exact ⟨a, by simp, rfl, by omega⟩
    · obtain ⟨c, hc, rfl⟩ := List.mem_map.mp ht
      have hc' := List.mem_of_mem_take hc
      have := hb'.side (.inr hc')
      simp only [Block.Apart] at this
      exact ⟨c, by simp [hc'], rfl, by omega⟩
  have hmem := combineMemory_headersOnly (a.addr :: (post.take 1).map Block.addr) s.mem
    (a := a.addr) (b := b.addr) (n := headAddr Block.addr 0 post) (by simp) (fun h0 => by
      obtain ⟨c, cs, rfl, hc, -⟩ := hb'.next_cases.resolve_left h0
      simp [hc])
  refine ⟨_, Malloc2.combine_run (by omega) (by omega) (by rw [hb'.header]), rfl, ?_, ?_⟩
  · refine metadataAt_congr (hmem.agree fun t ht => ?_)
    obtain ⟨c, hc, rfl, hne⟩ := hnext t ht
    have hside := h.chain.apart_of_ne (b := b) (c := c) (by simp) (by
      simp only [List.mem_append, List.mem_cons] at hc ⊢
      tauto) (fun he => hne (by rw [he]))
    simp only [Block.Apart] at hside
    omega
  · rw [show pre ++ a.merge b :: post = pre ++ [a.merge b] ++ post by simp] at hchain ⊢
    refine hsp.splice ?_ (fun n => rfl) (fun start stop ht => ?_) hchain rfl hmem fun t ht => ?_
    · simp only [List.mem_cons, List.not_mem_nil, or_false, forall_eq_or_imp, forall_eq]
      exact ⟨ha, hb⟩
    · simp only [Tiles_cons, Tiles_nil, Block.len, Block.merge] at ht ⊢
      omega
    · obtain ⟨c, hc, rfl, -⟩ := hnext t ht
      refine .inl ⟨c, ?_, rfl⟩
      simp only [List.mem_append, List.mem_cons] at hc ⊢
      tauto

/-- `split` on a block from `sbrk`. -/
theorem split_run (size : ℕ) (h : MixedHeap s (pre ++ b :: post) m) (hb : ¬IsMapped s.regions b)
    (hsize : size + 32 ≤ b.size) : ∃ s', (split b.addr size).run s = .ok ((), s') ∧
      s' = { s with mem := s'.mem, glob.end_ := s'.glob.end_ } ∧
      MixedHeap s' (pre ++ { b with size := size } :: b.rest size :: post) m := by
  have hbound := h.chain.bounds b (by simp)
  have hheap := h.heap_bounds (by simp) hb
  have hq : wadd (wadd b.addr size) 32 = (b.rest size).addr := by
    simp only [wadd, Block.rest]
    omega
  have haq : (b.rest size).addr = b.addr + 32 + size := rfl
  have hsp : MixedHeap s (pre ++ [b] ++ post) m := by simpa using h
  have hchain := split_chain size h.chain hsize
  have hmem := splitMemory_headersOnly ([b.addr, (b.rest size).addr] ++
    (post.take 1).map Block.addr) s.mem size (a := b.addr) (q := (b.rest size).addr)
    (n := headAddr Block.addr 0 post) (by simp) (by simp) (fun h0 => by
      obtain ⟨c, cs, rfl, hc, -⟩ := h.chain.next_cases.resolve_left h0
      simp [hc])
  refine ⟨_, Malloc2.split_run (by omega) hq (by omega) (by rw [h.chain.header]), rfl, ?_⟩
  rw [show pre ++ { b with size := size } :: b.rest size :: post =
    pre ++ [{ b with size := size }, b.rest size] ++ post by simp] at hchain ⊢
  refine hsp.splice (by simpa using hb) (fun n => rfl) (fun start stop ht => ?_) hchain rfl hmem
    fun t ht => ?_
  · simp only [Tiles_cons, Tiles_nil, Block.len, Block.rest] at ht ⊢
    omega
  · simp only [List.mem_append, List.mem_cons, List.not_mem_nil, or_false, List.mem_map] at ht
    rcases ht with (rfl | rfl) | ⟨c, hc, rfl⟩
    · exact .inl ⟨b, by simp, rfl⟩
    · exact .inr ⟨by omega, by omega⟩
    · exact .inl ⟨c, by simp [List.mem_of_mem_take hc], rfl⟩

end MixedHeap
end FtfSystems.VirtualMemory.Malloc2

import Mathlib.Tactic

/-!
# Doubly linked lists and tilings of an interval

`Linked At prv bs nxt` says that the nodes `bs` are threaded in both directions between
the node `prv` and the node `nxt`. How a node stores its two links is left to the
predicate `At b p n`: node `b` is present, its back link is `p` and its forward link is
`n`. `Tiles start bs stop` says that the same nodes, taken as intervals, cover
`[start, stop)` in order with neither gap nor overlap.
-/
namespace FtfSystems.Foundation

variable {β : Type*} (addr len : β → ℕ)

/-- The first address of a list, or `nxt` when the list is empty. -/
def headAddr (nxt : ℕ) : List β → ℕ
  | [] => nxt
  | b :: _ => addr b

/-- The last address of a list, or `prv` when the list is empty. -/
def lastAddr (prv : ℕ) : List β → ℕ
  | [] => prv
  | b :: bs => lastAddr (addr b) bs

@[simp] theorem headAddr_nil (nxt : ℕ) : headAddr addr nxt [] = nxt := rfl

@[simp] theorem headAddr_cons (nxt : ℕ) (b : β) (bs : List β) :
    headAddr addr nxt (b :: bs) = addr b := rfl

@[simp] theorem lastAddr_nil (prv : ℕ) : lastAddr addr prv [] = prv := rfl

@[simp] theorem lastAddr_cons (prv : ℕ) (b : β) (bs : List β) :
    lastAddr addr prv (b :: bs) = lastAddr addr (addr b) bs := rfl

@[simp] theorem headAddr_append (nxt : ℕ) (xs ys : List β) :
    headAddr addr nxt (xs ++ ys) = headAddr addr (headAddr addr nxt ys) xs := by
  cases xs <;> rfl

@[simp] theorem lastAddr_append (prv : ℕ) (xs ys : List β) :
    lastAddr addr prv (xs ++ ys) = lastAddr addr (lastAddr addr prv xs) ys := by
  induction xs generalizing prv with
  | nil => rfl
  | cons b bs ih => exact ih (addr b)

theorem lastAddr_mem_or (prv : ℕ) (bs : List β) :
    (bs = [] ∧ lastAddr addr prv bs = prv) ∨ ∃ b ∈ bs, lastAddr addr prv bs = addr b := by
  induction bs generalizing prv with
  | nil => exact .inl ⟨rfl, rfl⟩
  | cons b bs ih =>
    rcases ih (addr b) with ⟨rfl, -⟩ | ⟨c, hc, he⟩
    · exact .inr ⟨b, by simp, rfl⟩
    · exact .inr ⟨c, List.mem_cons_of_mem _ hc, he⟩

/-- The nodes are threaded in both directions between `prv` and `nxt`. -/
def Linked (At : β → ℕ → ℕ → Prop) : ℕ → List β → ℕ → Prop
  | _, [], _ => True
  | prv, b :: bs, nxt => At b prv (headAddr addr nxt bs) ∧ Linked At (addr b) bs nxt

section Linked
variable {addr} {At At' : β → ℕ → ℕ → Prop} {prv nxt : ℕ} {bs xs ys : List β}

@[simp] theorem Linked_nil : Linked addr At prv [] nxt := trivial

theorem Linked_cons {b : β} : Linked addr At prv (b :: bs) nxt ↔
    At b prv (headAddr addr nxt bs) ∧ Linked addr At (addr b) bs nxt := Iff.rfl

theorem Linked_append : Linked addr At prv (xs ++ ys) nxt ↔
    Linked addr At prv xs (headAddr addr nxt ys) ∧
      Linked addr At (lastAddr addr prv xs) ys nxt := by
  induction xs generalizing prv with
  | nil => simp
  | cons b bs ih =>
    rw [List.cons_append, Linked_cons, Linked_cons, ih, lastAddr_cons, headAddr_append, and_assoc]

/-- A node in the middle of a threaded list is linked to its two neighbours. -/
theorem Linked_mid {b : β} (h : Linked addr At prv (xs ++ b :: ys) nxt) :
    At b (lastAddr addr prv xs) (headAddr addr nxt ys) :=
  (Linked_append.mp h).2.1

/-- A change of store that keeps every node of the list keeps the list. -/
theorem Linked.frame (h : Linked addr At prv bs nxt)
    (hf : ∀ b ∈ bs, ∀ p n, At b p n → At' b p n) : Linked addr At' prv bs nxt := by
  induction bs generalizing prv with
  | nil => trivial
  | cons b bs ih =>
    exact ⟨hf b (by simp) _ _ h.1, ih h.2 (fun c hc => hf c (List.mem_cons_of_mem _ hc))⟩

end Linked

/-- The intervals `[addr b, addr b + len b)` cover `[start, stop)` in order. -/
def Tiles : ℕ → List β → ℕ → Prop
  | start, [], stop => start = stop
  | start, b :: bs, stop => addr b = start ∧ Tiles (start + len b) bs stop

section Tiles
variable {addr len} {start stop : ℕ} {bs xs ys : List β}

@[simp] theorem Tiles_nil : Tiles addr len start [] stop ↔ start = stop := Iff.rfl

@[simp] theorem Tiles_cons {b : β} : Tiles addr len start (b :: bs) stop ↔
    addr b = start ∧ Tiles addr len (start + len b) bs stop := Iff.rfl

theorem Tiles_append : Tiles addr len start (xs ++ ys) stop ↔
    ∃ mid, Tiles addr len start xs mid ∧ Tiles addr len mid ys stop := by
  induction xs generalizing start with
  | nil => simp
  | cons b bs ih => simp [ih, and_assoc]

theorem Tiles.le (h : Tiles addr len start bs stop) : start ≤ stop := by
  induction bs generalizing start with
  | nil => exact le_of_eq h
  | cons b bs ih => exact (Nat.le_add_right _ _).trans (ih h.2)

theorem Tiles.bounds (h : Tiles addr len start bs stop) {b : β} (hb : b ∈ bs) :
    start ≤ addr b ∧ addr b + len b ≤ stop := by
  induction bs generalizing start with
  | nil => simp at hb
  | cons c cs ih =>
    obtain ⟨hc, ht⟩ := h
    rcases List.mem_cons.mp hb with rfl | hb
    · exact ⟨hc.ge, hc ▸ ht.le⟩
    · have hi := ih ht hb
      exact ⟨by omega, hi.2⟩

/-- The blocks before a node end at its address, the ones behind it start after its end. -/
theorem Tiles.split {b : β} (h : Tiles addr len start (xs ++ b :: ys) stop) :
    Tiles addr len start xs (addr b) ∧ Tiles addr len (addr b + len b) ys stop := by
  obtain ⟨mid, hx, hb, hy⟩ := Tiles_append.mp h
  subst hb
  exact ⟨hx, hy⟩

theorem Tiles.before {b c : β} (h : Tiles addr len start (xs ++ b :: ys) stop) (hc : c ∈ xs) :
    addr c + len c ≤ addr b := (h.split.1.bounds hc).2

theorem Tiles.after {b c : β} (h : Tiles addr len start (xs ++ b :: ys) stop) (hc : c ∈ ys) :
    addr b + len b ≤ addr c := (h.split.2.bounds hc).1

theorem Tiles.pairwise (h : Tiles addr len start bs stop) :
    bs.Pairwise fun b c => addr b + len b ≤ addr c := by
  induction bs generalizing start with
  | nil => exact List.Pairwise.nil
  | cons b bs ih =>
    refine List.pairwise_cons.mpr ⟨fun c hc => ?_, ih h.2⟩
    rw [h.1]
    exact (h.2.bounds hc).1

/-- Members of a tiling by non-empty blocks are determined by their addresses. -/
theorem Tiles.eq_of_addr (h : Tiles addr len start bs stop) (hpos : ∀ b ∈ bs, 0 < len b) {b c : β}
    (hb : b ∈ bs) (hc : c ∈ bs) (he : addr b = addr c) : b = c := by
  induction bs generalizing start with
  | nil => simp at hb
  | cons d ds ih =>
    have hd := hpos d (by simp)
    rcases List.mem_cons.mp hb with rfl | hb' <;> rcases List.mem_cons.mp hc with rfl | hc'
    · rfl
    · have hlt := (h.2.bounds hc').1
      have hst := h.1
      omega
    · have hlt := (h.2.bounds hb').1
      have hst := h.1
      omega
    · exact ih h.2 (fun x hx => hpos x (List.mem_cons_of_mem _ hx)) hb' hc'

/-- Two different members of a tiling do not overlap. -/
theorem Tiles.apart (h : Tiles addr len start bs stop) {b c : β} (hb : b ∈ bs) (hc : c ∈ bs)
    (hne : b ≠ c) : addr b + len b ≤ addr c ∨ addr c + len c ≤ addr b := by
  obtain ⟨xs, ys, rfl⟩ := List.append_of_mem hb
  rcases List.mem_append.mp hc with hx | hy
  · exact .inr (h.before hx)
  · rcases List.mem_cons.mp hy with rfl | hy
    · exact absurd rfl hne
    · exact .inl (h.after hy)

/-- The lengths of the blocks add up to the length of the interval. -/
theorem Tiles.sum (h : Tiles addr len start bs stop) : start + (bs.map len).sum = stop := by
  induction bs generalizing start with
  | nil => simpa using h
  | cons b bs ih =>
    rw [List.map_cons, List.sum_cons, ← Nat.add_assoc]
    exact ih h.2

theorem Tiles.length_le (h : Tiles addr len start bs stop) {k : ℕ} (hk : ∀ b ∈ bs, k ≤ len b) :
    start + k * bs.length ≤ stop := by
  have hs := List.card_nsmul_le_sum (bs.map len) k (by simpa using hk)
  rw [List.length_map, smul_eq_mul] at hs
  have ht := h.sum
  rw [Nat.mul_comm]
  omega

/-- Intervals that do not overlap have as many points as their lengths say. -/
theorem exists_points_of_apart
    (h : bs.Pairwise fun b c => addr b + len b ≤ addr c ∨ addr c + len c ≤ addr b) :
    ∃ S : Finset ℕ, S.card = (bs.map len).sum ∧
      ∀ x ∈ S, ∃ b ∈ bs, addr b ≤ x ∧ x < addr b + len b := by
  induction bs with
  | nil => exact ⟨∅, rfl, by simp⟩
  | cons b bs ih =>
    rw [List.pairwise_cons] at h
    obtain ⟨S, hcard, hS⟩ := ih h.2
    have hdisj : Disjoint (Finset.Ico (addr b) (addr b + len b)) S := by
      rw [Finset.disjoint_left]
      intro x hx hxS
      obtain ⟨c, hc, hlo, hhi⟩ := hS x hxS
      have hb := Finset.mem_Ico.mp hx
      have hbc := h.1 c hc
      omega
    refine ⟨Finset.Ico (addr b) (addr b + len b) ∪ S, ?_, fun x hx => ?_⟩
    · rw [Finset.card_union_of_disjoint hdisj, hcard, Nat.card_Ico, List.map_cons, List.sum_cons]
      omega
    · rcases Finset.mem_union.mp hx with hx | hx
      · exact ⟨b, by simp, Finset.mem_Ico.mp hx⟩
      · obtain ⟨c, hc, hin⟩ := hS x hx
        exact ⟨c, by simp [hc], hin⟩

/-- Intervals that do not overlap and end at `bound` at the latest. -/
theorem sum_len_le_of_apart {bound : ℕ}
    (h : bs.Pairwise fun b c => addr b + len b ≤ addr c ∨ addr c + len c ≤ addr b)
    (hbound : ∀ b ∈ bs, addr b + len b ≤ bound) : (bs.map len).sum ≤ bound := by
  obtain ⟨S, hcard, hS⟩ := exists_points_of_apart h
  have hsub : S ⊆ Finset.range bound := by
    intro x hx
    obtain ⟨b, hb, -, hhi⟩ := hS x hx
    have := hbound b hb
    exact Finset.mem_range.mpr (by omega)
  rw [← hcard, ← Finset.card_range bound]
  exact Finset.card_le_card hsub

end Tiles
end FtfSystems.Foundation

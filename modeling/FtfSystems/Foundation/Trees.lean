import Mathlib.Tactic

/-!
# Trees of linked nodes

A forest is given by the list of children of every node, or by the parent of every node. The
first is traversed from a node downwards and lists everything below it once; the second is
climbed, and in a finite set of nodes the climb is shorter than the set.
-/
namespace FtfSystems.Foundation

section Children
variable {α : Type*} {children : α → List α} {rank : α → ℕ} {a b c d : α} {fuel : ℕ}

/-- `b` is a strict descendant of `a`. -/
abbrev Below (children : α → List α) (a b : α) : Prop :=
  Relation.TransGen (fun a b => b ∈ children a) a b

/-- No node has two parents or is twice among the children of one, and the rank decreases from a
node to its children. -/
structure Forest (children : α → List α) (rank : α → ℕ) : Prop where
  nodup : ∀ a, (children a).Nodup
  parent_unique : ∀ a a' b, b ∈ children a → b ∈ children a' → a = a'
  rank_lt : ∀ a b, b ∈ children a → rank b < rank a

/-- The nodes of the tree under `a`, a node before its children. -/
def preorder (children : α → List α) : ℕ → α → List α
  | 0, _ => []
  | fuel + 1, a => a :: (children a).flatMap (preorder children fuel)

theorem below_or_eq_of_mem_preorder (h : b ∈ preorder children fuel a) :
    b = a ∨ Below children a b := by
  induction fuel generalizing a with
  | zero => simp [preorder] at h
  | succ fuel ih =>
    rw [preorder, List.mem_cons, List.mem_flatMap] at h
    obtain rfl | ⟨c, hc, hb⟩ := h
    · exact .inl rfl
    · obtain rfl | hcb := ih hb
      · exact .inr (.single hc)
      · exact .inr (.head hc hcb)

theorem mem_preorder_self (children : α → List α) (a : α) (hfuel : 0 < fuel) :
    a ∈ preorder children fuel a := by
  cases fuel with
  | zero => omega
  | succ fuel => exact List.mem_cons_self

namespace Forest
variable (h : Forest children rank)
include h

theorem rank_lt_of_below (hab : Below children a b) : rank b < rank a := by
  induction hab with
  | single hb => exact h.rank_lt _ _ hb
  | tail _ hb ih => exact (h.rank_lt _ _ hb).trans ih

theorem not_below_self : ¬Below children a a := fun ha => (h.rank_lt_of_below ha).false

/-- Of two nodes above a third one is above the other. -/
theorem comparable (hb : Below children b d) (hc : Below children c d) :
    b = c ∨ Below children b c ∨ Below children c b := by
  induction hb with
  | single hd =>
    cases hc with
    | single hd' => exact .inl (h.parent_unique _ _ _ hd hd')
    | tail hc' hd' =>
      rw [h.parent_unique _ _ _ hd hd']
      exact .inr (.inr hc')
  | @tail p d hbp hd ih =>
    cases hc with
    | single hd' =>
      rw [← h.parent_unique _ _ _ hd hd']
      exact .inr (.inl hbp)
    | tail hc' hd' =>
      rw [← h.parent_unique _ _ _ hd hd'] at hc'
      exact ih hc'

theorem not_below_sibling (hb : b ∈ children a) (hc : c ∈ children a) : ¬Below children b c := by
  intro hbc
  cases hbc with
  | single hc' => exact (h.rank_lt _ _ hb).ne (by rw [h.parent_unique _ _ _ hc hc'])
  | tail hbp hc' =>
    rw [← h.parent_unique _ _ _ hc hc'] at hbp
    exact h.not_below_self (hbp.head hb)

/-- Nothing is under two children of a node. -/
theorem disjoint_siblings (hb : b ∈ children a) (hc : c ∈ children a) (hbc : b ≠ c) (fuel : ℕ) :
    List.Disjoint (preorder children fuel b) (preorder children fuel c) := by
  intro d hdb hdc
  obtain rfl | hbd := below_or_eq_of_mem_preorder hdb
  · obtain hdc | hcd := below_or_eq_of_mem_preorder hdc
    · exact hbc hdc
    · exact h.not_below_sibling hc hb hcd
  · obtain rfl | hcd := below_or_eq_of_mem_preorder hdc
    · exact h.not_below_sibling hb hc hbd
    · obtain hbc' | hbc' | hcb := h.comparable hbd hcd
      · exact hbc hbc'
      · exact h.not_below_sibling hb hc hbc'
      · exact h.not_below_sibling hc hb hcb

theorem nodup_preorder (fuel : ℕ) (a : α) : (preorder children fuel a).Nodup := by
  induction fuel generalizing a with
  | zero => exact List.nodup_nil
  | succ fuel ih =>
    rw [preorder, List.nodup_cons, List.mem_flatMap, List.nodup_flatMap]
    refine ⟨?_, fun c _ => ih c, ?_⟩
    · rintro ⟨c, hc, ha⟩
      obtain rfl | hca := below_or_eq_of_mem_preorder ha
      · exact h.not_below_self (.single hc)
      · exact h.not_below_self (hca.head hc)
    · exact (h.nodup a).imp_of_mem fun hb hc hbc => h.disjoint_siblings hb hc hbc fuel

/-- With fuel for the rank of the node the list is complete. -/
theorem mem_preorder_of_below (hab : Below children a b) (hfuel : rank a < fuel) :
    b ∈ preorder children fuel a := by
  induction hab using Relation.TransGen.head_induction_on generalizing fuel with
  | single hb =>
    cases fuel with
    | zero => omega
    | succ fuel =>
      have := h.rank_lt _ _ hb
      exact List.mem_cons_of_mem _
        (List.mem_flatMap.mpr ⟨b, hb, mem_preorder_self children b (by omega)⟩)
  | head hc _ ih =>
    cases fuel with
    | zero => omega
    | succ fuel =>
      have := h.rank_lt _ _ hc
      exact List.mem_cons_of_mem _ (List.mem_flatMap.mpr ⟨_, hc, ih (by omega)⟩)

/-- What is listed after the node itself are its descendants. -/
theorem mem_flatMap_preorder (hfuel : rank a ≤ fuel) :
    b ∈ (children a).flatMap (preorder children fuel) ↔ Below children a b := by
  constructor
  · intro hb
    obtain ⟨c, hc, hb⟩ := List.mem_flatMap.mp hb
    obtain rfl | hcb := below_or_eq_of_mem_preorder hb
    · exact .single hc
    · exact hcb.head hc
  · intro hab
    have hmem := h.mem_preorder_of_below hab (Nat.lt_succ_of_le hfuel)
    rw [preorder, List.mem_cons] at hmem
    exact hmem.resolve_left fun heq => h.not_below_self (heq ▸ hab)

end Forest
end Children

section Parents
variable {α : Type*} {parent : α → α} {s : Finset α} {a r : α}

/-- The climb from a node to `r` passes fewer nodes than there are. -/
theorem exists_iterate_lt_card (hclosed : ∀ b ∈ s, parent b ∈ s) (ha : a ∈ s)
    (h : ∃ n, parent^[n] a = r) :
    ∃ n, n < s.card ∧ parent^[n] a = r ∧ ∀ m, m < n → parent^[m] a ≠ r := by
  classical
  obtain ⟨n, hn, hmin⟩ : ∃ n, parent^[n] a = r ∧ ∀ m, m < n → parent^[m] a ≠ r :=
    ⟨Nat.find h, Nat.find_spec h, fun m hm => Nat.find_min h hm⟩
  refine ⟨n, ?_, hn, hmin⟩
  have hmem (m : ℕ) : parent^[m] a ∈ s := by
    induction m with
    | zero => exact ha
    | succ m ih =>
      rw [Function.iterate_succ_apply']
      exact hclosed _ ih
  -- a node passed twice would be a shortcut to `r`
  have hne (i j : ℕ) (hij : i < j) (hj : j ≤ n) : parent^[i] a ≠ parent^[j] a := by
    intro heq
    refine hmin (n - j + i) (by omega) ?_
    rw [Function.iterate_add_apply, heq, ← Function.iterate_add_apply, Nat.sub_add_cancel hj, hn]
  have hcard := Finset.card_le_card_of_injOn (s := Finset.range (n + 1)) (t := s) _
    (fun m _ => hmem m) fun i hi j hj heq => by
      simp only [Finset.coe_range, Set.mem_Iio] at hi hj
      obtain hij | hij | hij := Nat.lt_trichotomy i j
      · exact absurd heq (hne i j hij (by omega))
      · exact hij
      · exact absurd heq.symm (hne j i hij (by omega))
  rw [Finset.card_range] at hcard
  omega

end Parents

section FirstMax
variable {β : Type*} [LinearOrder β] {f : ℕ → β} {n i : ℕ}

/-- Among `f 0`, ..., `f (n - 1)` the value at `i` is the largest, and the first of that size. -/
structure FirstMax (f : ℕ → β) (n i : ℕ) : Prop where
  lt : i < n
  le : ∀ j, j < n → f j ≤ f i
  first : ∀ j, j < i → f j < f i

theorem FirstMax.single (f : ℕ → β) : FirstMax f 1 0 :=
  ⟨by omega, fun j hj => by rw [show j = 0 by omega], fun j hj => by omega⟩

theorem FirstMax.next_of_lt (h : FirstMax f n i) (hn : f i < f n) : FirstMax f (n + 1) n := by
  refine ⟨by omega, fun j hj => ?_, fun j hj => (h.le j hj).trans_lt hn⟩
  obtain hj | rfl : j < n ∨ j = n := by omega
  · exact (h.le j hj).trans hn.le
  · exact le_rfl

theorem FirstMax.next_of_le (h : FirstMax f n i) (hn : f n ≤ f i) : FirstMax f (n + 1) i := by
  refine ⟨h.lt.trans (by omega), fun j hj => ?_, h.first⟩
  obtain hj | rfl : j < n ∨ j = n := by omega
  · exact h.le j hj
  · exact hn

end FirstMax
end FtfSystems.Foundation

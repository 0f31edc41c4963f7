import Mathlib.Tactic

/-!
# Counting the threads in a state

`countOf p f` is the number of indices whose value under `f` satisfies `p`. The one lemma
that invariants over a pool of threads need is how it changes when one of them moves.
-/
namespace FtfSystems.Foundation

variable {ι β : Type*} [Fintype ι]

/-- How many indices have a value that satisfies `p`. -/
def countOf (p : β → Bool) (f : ι → β) : ℕ := (Finset.univ.filter fun i => p (f i)).card

variable {p : β → Bool} {f g : ι → β}

theorem countOf_congr (h : ∀ i, p (g i) = p (f i)) : countOf p g = countOf p f := by
  unfold countOf
  congr 1
  ext i
  rw [Finset.mem_filter, Finset.mem_filter, h i]

theorem countOf_pos : 0 < countOf p f ↔ ∃ i, p (f i) = true := by
  simp [countOf, Finset.card_pos, Finset.Nonempty]

theorem countOf_eq_zero (h : ∀ i, p (f i) = false) : countOf p f = 0 := by
  simp [countOf, h]

/-- One index gets a new value. -/
theorem countOf_update [DecidableEq ι] (p : β → Bool) (f : ι → β) (i : ι) (b : β) :
    countOf p (Function.update f i b) + (p (f i)).toNat = countOf p f + (p b).toNat := by
  have hrest : (Finset.univ.erase i).filter (fun j => p (Function.update f i b j)) =
      (Finset.univ.erase i).filter (fun j => p (f j)) := by
    refine Finset.filter_congr (fun j hj => ?_)
    rw [Function.update_of_ne (Finset.ne_of_mem_erase hj)]
  have hsplit (h : ι → β) :
      countOf p h = ((Finset.univ.erase i).filter (fun j => p (h j))).card + (p (h i)).toNat := by
    rw [countOf, ← Finset.insert_erase (Finset.mem_univ i), Finset.filter_insert]
    cases hi : p (h i) <;> simp [Finset.filter_erase]
  rw [hsplit f, hsplit (Function.update f i b), hrest, Function.update_self]
  omega

/-- A sum over the indices when one of them gets a new value. -/
theorem sum_update_add [DecidableEq ι] (c : β → ℕ) (f : ι → β) (i : ι) (b : β) :
    ∑ j, c (Function.update f i b j) + c (f i) = ∑ j, c (f j) + c b := by
  have hrest : ∑ j ∈ Finset.univ.erase i, c (Function.update f i b j) =
      ∑ j ∈ Finset.univ.erase i, c (f j) := by
    refine Finset.sum_congr rfl fun j hj => ?_
    rw [Function.update_of_ne (Finset.ne_of_mem_erase hj)]
  rw [← Finset.add_sum_erase _ _ (Finset.mem_univ i), hrest, Function.update_self,
    ← Finset.add_sum_erase Finset.univ (fun j => c (f j)) (Finset.mem_univ i)]
  omega

end FtfSystems.Foundation

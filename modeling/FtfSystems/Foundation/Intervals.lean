import Mathlib.Tactic

/-!
# Ranges covered by intervals

Whether a range lies in a union of half-open intervals is a statement about all of its points. It
is decided by the left end of the range and the right ends of the intervals: the first point left
out is one of them.
-/
namespace FtfSystems.Foundation

/-- The point lies in one of the intervals. -/
def InSome (intervals : List (ℕ × ℕ)) (x : ℕ) : Prop := ∃ i ∈ intervals, i.1 ≤ x ∧ x < i.2

instance (intervals : List (ℕ × ℕ)) (x : ℕ) : Decidable (InSome intervals x) :=
  inferInstanceAs (Decidable (∃ i ∈ intervals, _))

/-- Every point from `a` up to `b` lies in one of the intervals. -/
def Covers (intervals : List (ℕ × ℕ)) (a b : ℕ) : Prop := ∀ x, a ≤ x → x < b → InSome intervals x

/-- The ends at which a cover may stop. -/
theorem covers_iff {intervals : List (ℕ × ℕ)} {a b : ℕ} :
    Covers intervals a b ↔ ∀ x ∈ a :: intervals.map Prod.snd, a ≤ x → x < b → InSome intervals x := by
  constructor
  · intro h x _
    exact h x
  · intro h x ha hb
    induction x with
    | zero =>
      apply h 0 _ ha hb
      simp [Nat.le_zero.mp ha]
    | succ x ih =>
      by_cases hx : a = x + 1
      · exact h (x + 1) (by simp [hx]) ha hb
      · obtain ⟨i, hi, hlo, hhi⟩ := ih (by omega) (by omega)
        by_cases hend : i.2 = x + 1
        · exact h (x + 1) (by simp [← hend, List.mem_map_of_mem hi]) ha hb
        · exact ⟨i, hi, by omega, by omega⟩

instance (intervals : List (ℕ × ℕ)) (a b : ℕ) : Decidable (Covers intervals a b) :=
  decidable_of_iff _ covers_iff.symm

theorem covers_of_mem {intervals : List (ℕ × ℕ)} {i : ℕ × ℕ} {a b : ℕ} (hi : i ∈ intervals)
    (ha : i.1 ≤ a) (hb : b ≤ i.2) : Covers intervals a b := by
  intro x hx hx'
  exact ⟨i, hi, by omega, by omega⟩

end FtfSystems.Foundation

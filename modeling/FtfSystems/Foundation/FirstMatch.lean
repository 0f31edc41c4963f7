import Mathlib.Tactic

/-!
# The first element with a property

`modifyFirst p f` changes the first element of a list that satisfies `p`, as a write through
a pointer does that a search has returned.
-/
namespace FtfSystems.Foundation

variable {α β : Type*} {p : α → Bool} {f : α → α} {a b : α} {l : List α}

/-- Change the first element that satisfies `p`. -/
def modifyFirst (p : α → Bool) (f : α → α) : List α → List α
  | [] => []
  | a :: l => if p a then f a :: l else a :: modifyFirst p f l

theorem modifyFirst_of_forall_not (h : ∀ a ∈ l, p a = false) : modifyFirst p f l = l := by
  induction l with
  | nil => rfl
  | cons a l ih =>
    rw [modifyFirst, if_neg (by simp [h a]), ih fun b hb => h b (by simp [hb])]

theorem modifyFirst_append_cons {pre post : List α} (hpre : ∀ b ∈ pre, p b = false)
    (ha : p a = true) : modifyFirst p f (pre ++ a :: post) = pre ++ f a :: post := by
  induction pre with
  | nil => rw [List.nil_append, modifyFirst, if_pos ha, List.nil_append]
  | cons b pre ih =>
    rw [List.cons_append, modifyFirst, if_neg (by simp [hpre b]),
      ih fun c hc => hpre c (by simp [hc]), List.cons_append]

theorem modifyFirst_append_left {pre post : List α} (h : ∃ b ∈ pre, p b = true) :
    modifyFirst p f (pre ++ post) = modifyFirst p f pre ++ post := by
  induction pre with
  | nil => simp at h
  | cons b pre ih =>
    by_cases hb : p b
    · rw [List.cons_append, modifyFirst, modifyFirst, if_pos hb, if_pos hb, List.cons_append]
    · rw [List.cons_append, modifyFirst, modifyFirst, if_neg hb, if_neg hb, List.cons_append,
        ih (by simpa [hb] using h)]

/-- Either nothing satisfies `p`, or the list splits at the first element that does. -/
theorem modifyFirst_cases (p : α → Bool) (f : α → α) (l : List α) :
    (l.find? p = none ∧ modifyFirst p f l = l) ∨
    ∃ pre a post, l = pre ++ a :: post ∧ (∀ b ∈ pre, p b = false) ∧ p a = true ∧
      l.find? p = some a ∧ modifyFirst p f l = pre ++ f a :: post := by
  cases h : l.find? p with
  | none =>
    refine .inl ⟨rfl, modifyFirst_of_forall_not fun a ha => ?_⟩
    simpa using List.find?_eq_none.mp h a ha
  | some a =>
    obtain ⟨ha, pre, post, rfl, hpre⟩ := List.find?_eq_some_iff_append.mp h
    have hpre' : ∀ b ∈ pre, p b = false := fun b hb => by simpa using hpre b hb
    exact .inr ⟨pre, a, post, rfl, hpre', ha, rfl, modifyFirst_append_cons hpre' ha⟩

theorem mem_modifyFirst (h : b ∈ modifyFirst p f l) : b ∈ l ∨ ∃ a ∈ l, p a = true ∧ b = f a := by
  obtain ⟨-, he⟩ | ⟨pre, a, post, rfl, -, ha, -, he⟩ := modifyFirst_cases p f l
  · exact .inl (he ▸ h)
  · rw [he] at h
    simp only [List.mem_append, List.mem_cons] at h ⊢
    rcases h with h | rfl | h
    · exact .inl (.inl h)
    · exact .inr ⟨a, by simp, ha, rfl⟩
    · exact .inl (.inr (.inr h))

end FtfSystems.Foundation

import Mathlib.Data.List.DropRight
import Mathlib.Tactic

/-!
# Words between separators

The words of a list are the nonempty runs between its separators. They do not depend on the
separators at either end, and a part of the list has no more words than the whole.
-/
namespace FtfSystems.Foundation

variable {α : Type*} {p q : α → Bool} {a : α} {s t w : List α}

/-- The nonempty pieces of a list cut at the separators `p`. -/
def words (p : α → Bool) (s : List α) : List (List α) := (s.splitOnP p).filter fun w => !w.isEmpty

theorem words_append_cons (ha : p a = true) (s t : List α) :
    words p (s ++ a :: t) = words p s ++ words p t := by
  rw [words, List.splitOnP_append_cons s t ha, List.filter_append, words, words]

theorem words_of_forall_not (h : ∀ a ∈ s, p a = false) :
    words p s = if s.isEmpty then [] else [s] := by
  rw [words, List.splitOnP_eq_singleton h]
  cases s <;> rfl

theorem ne_nil_of_mem_words (h : w ∈ words p s) : w ≠ [] := by
  simpa using (List.mem_filter.mp h).2

theorem length_le_of_mem_splitOnP (h : w ∈ s.splitOnP p) : w.length ≤ s.length := by
  induction s generalizing w with
  | nil =>
    rw [List.splitOnP_nil, List.mem_singleton] at h
    rw [h]
  | cons a s ih =>
    rw [List.splitOnP_cons_eq_if_modifyHead] at h
    split_ifs at h
    · rcases List.mem_cons.mp h with rfl | h
      · simp
      · exact (ih h).trans (by simp)
    · obtain ⟨first, rest, hs⟩ := List.exists_cons_of_ne_nil (List.splitOnP_ne_nil p s)
      rw [hs] at h ih
      rcases List.mem_cons.mp h with rfl | h
      · simpa using ih (List.mem_cons_self)
      · exact (ih (List.mem_cons_of_mem _ h)).trans (by simp)

theorem length_le_of_mem_words (h : w ∈ words p s) : w.length ≤ s.length :=
  length_le_of_mem_splitOnP (List.mem_of_mem_filter h)

/-- A nonempty run before a separator is a word. -/
theorem words_append_cons_of_forall_not (h : ∀ a ∈ s, p a = false) (hne : s ≠ []) (ha : p a = true)
    (t : List α) : words p (s ++ a :: t) = s :: words p t := by
  rw [words_append_cons ha, words_of_forall_not h, if_neg (by simpa using hne)]
  rfl

theorem words_cons (ha : p a = true) (s : List α) : words p (a :: s) = words p s := by
  simpa [words] using words_append_cons ha [] s

theorem words_concat (ha : p a = true) (s : List α) : words p (s ++ [a]) = words p s := by
  simpa [words] using words_append_cons ha s []

theorem words_dropWhile (h : ∀ a, q a = true → p a = true) (s : List α) :
    words p (s.dropWhile q) = words p s := by
  induction s with
  | nil => rfl
  | cons a s ih =>
    rw [List.dropWhile_cons]
    split_ifs with ha
    · rw [ih, words_cons (h a ha)]
    · rfl

theorem words_rdropWhile (h : ∀ a, q a = true → p a = true) (s : List α) :
    words p (s.rdropWhile q) = words p s := by
  induction s using List.reverseRecOn with
  | nil => simp
  | append_singleton s a ih =>
    by_cases ha : q a = true
    · rw [List.rdropWhile_concat_pos q s a ha, ih, words_concat (h a ha)]
    · rw [List.rdropWhile_concat_neg q s a ha]

theorem words_eq_nil_iff : words p s = [] ↔ ∀ a ∈ s, p a = true := by
  induction s with
  | nil => simp [words]
  | cons a s ih =>
    by_cases ha : p a = true
    · rw [words_cons ha, ih, List.forall_mem_cons]
      exact ⟨fun h => ⟨ha, h⟩, And.right⟩
    · obtain ⟨first, rest, hs⟩ := List.exists_cons_of_ne_nil (List.splitOnP_ne_nil p s)
      simp [words, List.splitOnP_cons_eq_if_modifyHead, ha, hs]

/-- Either no element of a list is a separator, or it splits at the last one that is. -/
theorem forall_not_or_split (p : α → Bool) (s : List α) :
    (∀ a ∈ s, p a = false) ∨ ∃ pre a post, s = pre ++ a :: post ∧ p a = true ∧
      ∀ b ∈ post, p b = false := by
  induction s with
  | nil => exact .inl (by simp)
  | cons b s ih =>
    rcases ih with h | ⟨pre, a, post, rfl, ha, hpost⟩
    · cases hb : p b with
      | false => exact .inl (by simpa [hb] using h)
      | true => exact .inr ⟨[], b, s, rfl, hb, h⟩
    · exact .inr ⟨b :: pre, a, post, rfl, ha, hpost⟩

theorem length_words_letters_le (h : ∀ a ∈ s, p a = false) (hsub : ∀ a ∈ s, a ∈ t) :
    (words p s).length ≤ (words p t).length := by
  rw [words_of_forall_not h]
  cases s with
  | nil => simp
  | cons a s =>
    have hne : words p t ≠ [] := fun hnil => by
      simpa [h a (by simp)] using words_eq_nil_iff.mp hnil a (hsub a (by simp))
    exact List.length_pos_iff.mpr hne

theorem length_words_append_right (s t : List α) :
    (words p s).length ≤ (words p (s ++ t)).length := by
  rcases forall_not_or_split p s with h | ⟨pre, a, post, rfl, ha, hpost⟩
  · exact length_words_letters_le h fun a ha => List.mem_append_left t ha
  · rw [List.append_assoc, List.cons_append, words_append_cons ha, words_append_cons ha,
      List.length_append, List.length_append]
    exact Nat.add_le_add_left
      (length_words_letters_le hpost fun b hb => List.mem_append_left t hb) _

theorem length_words_cons (a : α) (s : List α) :
    (words p s).length ≤ (words p (a :: s)).length := by
  by_cases ha : p a = true
  · rw [words_cons ha]
  · obtain ⟨first, rest, hs⟩ := List.exists_cons_of_ne_nil (List.splitOnP_ne_nil p s)
    have hlong : words p (a :: s) = (a :: first) :: rest.filter fun w => !w.isEmpty := by
      rw [words, List.splitOnP_cons_eq_if_modifyHead, if_neg ha, hs, List.modifyHead_cons,
        List.filter_cons_of_pos rfl]
    have hshort : words p s = ([first].filter fun w => !w.isEmpty) ++
        rest.filter fun w => !w.isEmpty := by
      rw [words, hs, ← List.filter_append, List.singleton_append]
    rw [hlong, hshort, List.length_append, List.length_cons, Nat.add_comm]
    exact Nat.add_le_add_left (List.length_filter_le _ [first]) _

theorem length_words_append_left (s t : List α) :
    (words p t).length ≤ (words p (s ++ t)).length := by
  induction s with
  | nil => exact le_rfl
  | cons a s ih => exact ih.trans (length_words_cons a (s ++ t))

/-- A part of a list has no more words than the list. -/
theorem length_words_le_of_infix (h : s <:+: t) : (words p s).length ≤ (words p t).length := by
  obtain ⟨l, r, rfl⟩ := h
  exact (length_words_append_left l s).trans (length_words_append_right (l ++ s) r)

theorem splitOnP_congr (h : ∀ a ∈ s, p a = q a) : s.splitOnP p = s.splitOnP q := by
  induction s with
  | nil => simp
  | cons a s ih =>
    rw [List.splitOnP_cons_eq_if_modifyHead, List.splitOnP_cons_eq_if_modifyHead, h a (by simp),
      ih fun b hb => h b (by simp [hb])]

/-- The last piece of a list is what follows its last separator. -/
theorem splitOnP_eq_concat (p : α → Bool) (s : List α) :
    ∃ init, s.splitOnP p = init ++ [s.rtakeWhile fun a => !p a] := by
  rcases forall_not_or_split p s with h | ⟨pre, a, post, rfl, ha, hpost⟩
  · refine ⟨[], ?_⟩
    rw [List.splitOnP_eq_singleton h, List.rtakeWhile_eq_self_iff.mpr fun a ha => by simp [h a ha]]
    rfl
  · refine ⟨pre.splitOnP p, ?_⟩
    have hlast : (pre ++ a :: post).rtakeWhile (fun a => !p a) = post := by
      rw [List.rtakeWhile, List.reverse_append, List.reverse_cons, List.append_assoc,
        List.takeWhile_append_of_pos fun b hb => by simp [hpost b (List.mem_reverse.mp hb)]]
      simp [ha]
    rw [List.splitOnP_append_cons pre post ha, List.splitOnP_eq_singleton hpost, hlast]

end FtfSystems.Foundation

import FtfSystems.Shell.Text

/-!
# Words, trimming and splitting

A text is trimmed of spaces on both sides; only its other characters matter for the words in it
and for where it is split.
-/
namespace FtfSystems.Shell

variable {c d : Char} {s l r : Line}

/-- A text without the spaces around it, as the commands compute it. -/
def trimmed (s : Line) : Line := ltrim (rtrim s)

theorem mem_dropWhile_of_neg {p : Char → Bool} (hc : p c = false) : c ∈ s.dropWhile p ↔ c ∈ s := by
  induction s with
  | nil => rfl
  | cons a s ih =>
    rw [List.dropWhile_cons]
    split_ifs with ha
    · rw [ih, List.mem_cons, or_iff_right]
      rintro rfl
      simp [hc] at ha
    · rfl

theorem mem_ltrim (hc : c ≠ ' ') : c ∈ ltrim s ↔ c ∈ s := mem_dropWhile_of_neg (by simpa using hc)

theorem mem_rtrim (hc : c ≠ ' ') : c ∈ rtrim s ↔ c ∈ s := by
  rw [rtrim, List.rdropWhile, List.mem_reverse, mem_dropWhile_of_neg (by simpa using hc),
    List.mem_reverse]

theorem mem_trimmed (hc : c ≠ ' ') : c ∈ trimmed s ↔ c ∈ s := (mem_ltrim hc).trans (mem_rtrim hc)

theorem length_trimmed_le (s : Line) : (trimmed s).length ≤ s.length :=
  (List.dropWhile_suffix _).length_le.trans (List.rdropWhile_prefix _ _).length_le

theorem ltrim_space (s : Line) : ltrim (' ' :: s) = ltrim s := by simp [ltrim]

theorem ltrim_append (hc : c ≠ ' ') : ltrim (l ++ c :: r) = ltrim l ++ c :: r := by
  induction l with
  | nil => simp [ltrim, hc]
  | cons a l ih =>
    by_cases ha : a = ' '
    · rw [ha, List.cons_append, ltrim_space, ltrim_space, ih]
    · simp [ltrim, ha]

theorem rtrim_append (hc : c ≠ ' ') : rtrim (l ++ c :: r) = l ++ c :: rtrim r := by
  have h := congrArg List.reverse (ltrim_append (l := r.reverse) (r := l.reverse) hc)
  simpa [ltrim, rtrim, List.rdropWhile] using h

theorem rtrim_space (s : Line) : rtrim (s ++ [' ']) = rtrim s := by simp [rtrim]

theorem ltrim_ltrim (s : Line) : ltrim (ltrim s) = ltrim s := List.dropWhile_idempotent _ _

theorem rtrim_rtrim (s : Line) : rtrim (rtrim s) = rtrim s := List.rdropWhile_idempotent _ _

theorem eq_spaces_or_split (s : Line) :
    (∀ a ∈ s, a = ' ') ∨ ∃ l c r, s = l ++ c :: r ∧ c ≠ ' ' := by
  by_cases h : ∀ a ∈ s, a = ' '
  · exact .inl h
  · push Not at h
    obtain ⟨c, hc, hne⟩ := h
    obtain ⟨l, r, rfl⟩ := List.append_of_mem hc
    exact .inr ⟨l, c, r, rfl, hne⟩

theorem ltrim_spaces (h : ∀ a ∈ s, a = ' ') : ltrim s = [] := by
  simpa [ltrim, List.dropWhile_eq_nil_iff] using h

theorem rtrim_spaces (h : ∀ a ∈ s, a = ' ') : rtrim s = [] := by
  simpa [rtrim, List.rdropWhile_eq_nil_iff] using h

/-- The order of the two trims does not matter. -/
theorem trim_eq_trimmed (s : Line) : trim s = trimmed s := by
  rcases eq_spaces_or_split s with h | ⟨l, c, r, rfl, hc⟩
  · rw [trim, trimmed, ltrim_spaces h, rtrim_spaces h]
    rfl
  · rw [trim, trimmed, ltrim_append hc, rtrim_append hc, rtrim_append hc, ltrim_append hc]

theorem trimmed_ltrim (s : Line) : trimmed (ltrim s) = trimmed s := by
  rw [← trim_eq_trimmed, ← trim_eq_trimmed, trim, ltrim_ltrim]
  rfl

theorem trimmed_rtrim (s : Line) : trimmed (rtrim s) = trimmed s := by
  rw [trimmed, rtrim_rtrim]
  rfl

theorem trimmed_space (s : Line) : trimmed (' ' :: s) = trimmed s := by
  rw [← trimmed_ltrim, ltrim_space, trimmed_ltrim]

theorem trimmed_space' (s : Line) : trimmed (s ++ [' ']) = trimmed s := by
  rw [← trimmed_rtrim, rtrim_space, trimmed_rtrim]

theorem trimmed_append (hc : c ≠ ' ') : trimmed (l ++ c :: r) = ltrim l ++ c :: rtrim r := by
  rw [trimmed, rtrim_append hc, ltrim_append hc]

/-! ### Words -/

theorem splitOnP_mem {p : Char → Bool} {w : Line} (h : w ∈ s.splitOnP p) (hc : c ∈ w) :
    c ∈ s ∧ p c = false := by
  induction s generalizing w with
  | nil => simp_all
  | cons a s ih =>
    rw [List.splitOnP_cons_eq_if_modifyHead] at h
    split_ifs at h with ha
    · rcases List.mem_cons.mp h with rfl | h
      · cases hc
      · exact ⟨by simp [(ih h hc).1], (ih h hc).2⟩
    · obtain ⟨first, rest, hs⟩ := List.exists_cons_of_ne_nil (List.splitOnP_ne_nil p s)
      rw [hs, List.modifyHead_cons] at h
      rcases List.mem_cons.mp h with rfl | h
      · rcases List.mem_cons.mp hc with rfl | hc
        · exact ⟨by simp, by simpa using ha⟩
        · have := ih (by simp [hs]) hc
          exact ⟨by simp [this.1], this.2⟩
      · have := ih (by simp [hs, h]) hc
        exact ⟨by simp [this.1], this.2⟩

theorem exists_mem_splitOnP {p : Char → Bool} (hc : c ∈ s) (hp : p c = false) :
    ∃ w ∈ s.splitOnP p, c ∈ w := by
  induction s with
  | nil => cases hc
  | cons a s ih =>
    rw [List.splitOnP_cons_eq_if_modifyHead]
    split_ifs with ha
    · have hc' : c ∈ s := by
        rcases List.mem_cons.mp hc with rfl | hc
        · simp [hp] at ha
        · exact hc
      obtain ⟨w, hw, hmem⟩ := ih hc'
      exact ⟨w, by simp [hw], hmem⟩
    · obtain ⟨first, rest, hs⟩ := List.exists_cons_of_ne_nil (List.splitOnP_ne_nil p s)
      rcases List.mem_cons.mp hc with rfl | hc
      · exact ⟨c :: first, by simp [hs], by simp⟩
      obtain ⟨w, hw, hmem⟩ := ih hc
      rw [hs] at hw ⊢
      rcases List.mem_cons.mp hw with rfl | hw
      · exact ⟨a :: w, by simp, by simp [hmem]⟩
      · exact ⟨w, by simp [hw], hmem⟩

theorem length_filter_splitOnP_le (p : Char → Bool) (s : Line) :
    ((s.splitOnP p).filter (· ≠ [])).length ≤ s.length := by
  induction s with
  | nil => simp
  | cons a s ih =>
    rw [List.splitOnP_cons_eq_if_modifyHead]
    split_ifs with ha
    · simpa using ih.trans (Nat.le_succ _)
    · obtain ⟨first, rest, hs⟩ := List.exists_cons_of_ne_nil (List.splitOnP_ne_nil p s)
      rw [hs] at ih
      rw [hs, List.modifyHead_cons, List.filter_cons_of_pos (by simp), List.length_cons,
        List.length_cons]
      have hrest := (List.sublist_cons_self first rest).filter (fun w => decide (w ≠ []))
      exact Nat.succ_le_succ (hrest.length_le.trans ih)

theorem mem_of_mem_word {w : Line} (h : w ∈ parseCommandLine s) (hc : c ∈ w) : c ∈ s := by
  obtain ⟨hmem, hsp⟩ := splitOnP_mem (List.mem_of_mem_filter h) hc
  have hne : c ≠ ' ' := by
    rintro rfl
    simp [isSpace] at hsp
  rwa [trim_eq_trimmed, mem_trimmed hne] at hmem

theorem exists_mem_word (hc : c ∈ s) (hsp : isSpace c = false) :
    ∃ w ∈ parseCommandLine s, c ∈ w := by
  have hne : c ≠ ' ' := by
    rintro rfl
    simp [isSpace] at hsp
  obtain ⟨w, hw, hmem⟩ := exists_mem_splitOnP ((mem_trimmed hne).mpr hc) hsp
  rw [← trim_eq_trimmed] at hw
  exact ⟨w, List.mem_filter.mpr ⟨hw, by simpa using List.ne_nil_of_mem hmem⟩, hmem⟩

theorem parseCommandLine_ne_nil_iff : parseCommandLine s ≠ [] ↔ ∃ c ∈ s, isSpace c = false := by
  constructor
  · intro h
    obtain ⟨w, hw⟩ := List.exists_mem_of_ne_nil _ h
    obtain ⟨c, hc⟩ := List.exists_mem_of_ne_nil w (by simpa using List.of_mem_filter hw)
    exact ⟨c, mem_of_mem_word hw hc, (splitOnP_mem (List.mem_of_mem_filter hw) hc).2⟩
  · rintro ⟨c, hc, hsp⟩ hnil
    obtain ⟨w, hw, -⟩ := exists_mem_word hc hsp
    simp [hnil] at hw

theorem length_parseCommandLine_le (s : Line) : (parseCommandLine s).length ≤ s.length := by
  refine (length_filter_splitOnP_le isSpace (trim s)).trans ?_
  rw [trim_eq_trimmed]
  exact length_trimmed_le s

/-! ### Splitting -/

theorem splitFirst_cons_of_neg {b : Line} (h : ¬ b <+: c :: s) :
    splitFirst b (c :: s) = (splitFirst b s).map fun x => (c :: x.1, x.2) := by
  rw [splitFirst, if_neg h]

theorem splitFirst_bar (h : '|' ∉ l) : splitFirst ['|'] (l ++ '|' :: r) = some (l, r) := by
  induction l with
  | nil => simp [splitFirst]
  | cons a l ih =>
    simp only [List.mem_cons, not_or] at h
    rw [List.cons_append, splitFirst_cons_of_neg (by simp [h.1]), ih h.2]
    rfl

theorem splitFirst_barAmp (h : '&' ∉ l) :
    splitFirst ['|', '&'] (l ++ '|' :: '&' :: r) = some (l, r) := by
  induction l with
  | nil => simp [splitFirst]
  | cons a l ih =>
    simp only [List.mem_cons, not_or] at h
    have hne : ¬ ['|', '&'] <+: a :: (l ++ '|' :: '&' :: r) := by
      cases l with
      | nil => simp
      | cons d l =>
        simp only [List.mem_cons, not_or] at h
        simp [h.2.1]
    rw [List.cons_append, splitFirst_cons_of_neg hne, ih h.2]
    rfl

theorem mem_of_contains {b : Line} (h : contains b s = true) (hc : c ∈ b) : c ∈ s := by
  rw [contains] at h
  induction s with
  | nil => cases h
  | cons a s ih =>
    by_cases hp : b <+: a :: s
    · exact hp.subset hc
    · rw [splitFirst_cons_of_neg hp, Option.isSome_map] at h
      exact List.mem_cons_of_mem _ (ih h)

theorem not_contains {b : Line} (hc : c ∈ b) (h : c ∉ s) : contains b s = false :=
  Bool.eq_false_iff.mpr fun hb => h (mem_of_contains hb hc)

theorem contains_singleton : contains [c] s = true ↔ c ∈ s := by
  constructor
  · exact fun h => mem_of_contains h (by simp)
  · intro h
    rw [contains]
    induction s with
    | nil => cases h
    | cons a s ih =>
      by_cases ha : c = a
      · rw [splitFirst, if_pos (by simpa using ha)]
        rfl
      · rw [splitFirst_cons_of_neg (by simpa using ha), Option.isSome_map]
        exact ih (by simpa [ha] using h)

/-- A final `&` is no part of an operator when the text before it does not end in `|`. -/
theorem not_contains_final (h : '&' ∉ s) (hs : s.getLast? ≠ some '|') :
    contains ['|', '&'] (s ++ ['&']) = false := by
  rw [contains]
  induction s with
  | nil => simp [splitFirst]
  | cons a s ih =>
    simp only [List.mem_cons, not_or] at h
    have hne : ¬ ['|', '&'] <+: a :: (s ++ ['&']) := by
      cases s with
      | nil => simpa [eq_comm] using hs
      | cons d s =>
        simp only [List.mem_cons, not_or] at h
        simp [h.2.1]
    have hs' : s.getLast? ≠ some '|' := by
      cases s with
      | nil => simp
      | cons d s => simpa using hs
    rw [List.cons_append, splitFirst_cons_of_neg hne, Option.isSome_map]
    exact ih h.2 hs'

theorem eraseFromLast_append (h : c ∉ r) : eraseFromLast c (l ++ c :: r) = l := by
  have hdrop : (l ++ c :: r).rdropWhile (fun x => decide (x ≠ c)) = l ++ [c] := by
    rw [List.rdropWhile, List.reverse_append, List.reverse_cons, List.append_assoc,
      List.dropWhile_append_of_pos, List.singleton_append, List.dropWhile_cons_of_neg]
    · simp
    · simp
    · intro a ha
      have : a ≠ c := by
        rintro rfl
        exact h (List.mem_reverse.mp ha)
      simpa using this
  rw [eraseFromLast, if_pos (by simp), hdrop, List.dropLast_concat]

end FtfSystems.Shell

import FtfSystems.Foundation.Words
import FtfSystems.Shell.Tokens

/-!
# The two tokenisers

`_parseCommandLine` extracts words from a stream, `_parseCat` cuts at every space. The pieces
of `_parseCat` are words but for its last one, which it keeps even when it is empty.
-/
namespace FtfSystems.Shell
open Foundation

variable {cmdLine : Line}

theorem isSpace_of_eq_space {c : Char} (h : decide (c = ' ') = true) : isSpace c = true := by
  simp_all [isSpace]

theorem parseCommandLine_eq_words (cmdLine : Line) :
    parseCommandLine cmdLine = words isSpace cmdLine := by
  have hpieces (s : Line) : (s.splitOnP isSpace).filter (· ≠ []) = words isSpace s :=
    List.filter_congr fun w _ => by cases w <;> rfl
  rw [parseCommandLine, hpieces, trim, rtrim, words_rdropWhile fun _ => isSpace_of_eq_space, ltrim,
    words_dropWhile fun _ => isSpace_of_eq_space]

/-- The last piece of `_parseCat` is what follows the last space. -/
theorem parseCat_eq (cmdLine : Line) :
    ∃ init, cmdLine.splitOn ' ' = init ++ [cmdLine.rtakeWhile (· ≠ ' ')] ∧
      parseCat cmdLine = (init.filter fun w => !w.isEmpty) ++ [cmdLine.rtakeWhile (· ≠ ' ')] := by
  obtain ⟨init, h⟩ := splitOnP_eq_concat (· == ' ') cmdLine
  have hlast : (cmdLine.rtakeWhile fun c => !(c == ' ')) = cmdLine.rtakeWhile (· ≠ ' ') := by
    congr 1
    ext c
    rw [Bool.beq_eq_decide_eq, decide_not]
  rw [hlast, ← List.splitOn_eq_splitOnP] at h
  refine ⟨init, h, ?_⟩
  simp only [parseCat, h, List.dropLast_concat]
  congr 1
  · exact List.filter_congr fun w _ => by cases w <;> rfl
  · simp

theorem rtakeWhile_ne_nil_iff :
    cmdLine.rtakeWhile (· ≠ ' ') ≠ [] ↔ ∃ c, cmdLine.getLast? = some c ∧ c ≠ ' ' := by
  rcases List.eq_nil_or_concat cmdLine with rfl | ⟨s, c, rfl⟩
  · simp
  · by_cases hc : c = ' '
    · simp [hc]
    · simp [hc]

/-- Without other white space the two tokenisers agree exactly on the lines that do not end in
a space. -/
theorem tokenisers_agree_iff (cmdLine : Line) (hsp : ∀ c ∈ cmdLine, isSpace c = true → c = ' ') :
    (parseCat cmdLine = parseCommandLine cmdLine ∧ ∀ w ∈ parseCat cmdLine, w ≠ []) ↔
      ∃ c, cmdLine.getLast? = some c ∧ c ≠ ' ' := by
  obtain ⟨init, hpieces, hcat⟩ := parseCat_eq cmdLine
  have hwords : parseCommandLine cmdLine =
      (init ++ [cmdLine.rtakeWhile (· ≠ ' ')]).filter fun w => !w.isEmpty := by
    rw [parseCommandLine_eq_words, ← hpieces, words, List.splitOn_eq_splitOnP]
    congr 1
    refine splitOnP_congr fun c hc => ?_
    rw [Bool.eq_iff_iff, beq_iff_eq]
    exact ⟨hsp c hc, fun h => isSpace_of_eq_space (decide_eq_true h)⟩
  rw [← rtakeWhile_ne_nil_iff]
  constructor
  · rintro ⟨-, hne⟩
    exact hne _ (by simp [hcat])
  · intro hne
    have hkept : [cmdLine.rtakeWhile (· ≠ ' ')].filter (fun w => !w.isEmpty) =
        [cmdLine.rtakeWhile (· ≠ ' ')] :=
      List.filter_eq_self.mpr (by simpa using hne)
    have heq : parseCat cmdLine = parseCommandLine cmdLine := by
      rw [hcat, hwords, List.filter_append, hkept]
    refine ⟨heq, fun w hw => ?_⟩
    rw [heq, parseCommandLine_eq_words] at hw
    simpa using List.of_mem_filter hw

/-- Leading and repeated spaces make no difference. -/
theorem tokenisers_agree_iff_inner_spaces :
    parseCat "  cat  f  g".toList = parseCommandLine "  cat  f  g".toList ∧
      ∀ w ∈ parseCat "  cat  f  g".toList, w ≠ [] :=
  (tokenisers_agree_iff "  cat  f  g".toList (by simp [isSpace])).mpr ⟨'g', by decide, by decide⟩

/-- A space at the end of the line is an empty last argument of `cat`. -/
theorem parseCat_final_space :
    ¬ ∀ cmdLine : Line, (∀ c ∈ cmdLine, isSpace c = true → c = ' ') →
      parseCat cmdLine = parseCommandLine cmdLine ∧ ∀ w ∈ parseCat cmdLine, w ≠ [] := by
  intro h
  obtain ⟨-, hne⟩ := h "cat f ".toList (by simp [isSpace])
  exact hne [] (by decide) rfl

end FtfSystems.Shell

import FtfSystems.Foundation.Words
import FtfSystems.Shell.Pipeline
import FtfSystems.Shell.TableSteps

/-!
# The background sign

A final `&` asks for the background and is no part of the text that runs. `ExternalCommand::execute`
erases every `&` of its line, `RedirectionCommand::execute` the file name from its last `&` on.
-/
namespace FtfSystems.Shell
open Foundation

/-- `argv` of the `bash` that `ExternalCommand::execute` starts. -/
def bashArgv (cmd : Command) : List Line :=
  ["bash".toList, "-c".toList, eraseChar '&' cmd.enteredCmd]

/-- The text after the operator of a redirection. -/
def afterOperator (enteredCmd : Line) : Line :=
  let withAppend := contains ['>', '>'] enteredCmd
  let barrier := if withAppend then ['>', '>'] else ['>']
  ((splitFirst barrier enteredCmd).map Prod.snd).getD enteredCmd

/-- The file that `RedirectionCommand::execute` opens and whether it appends to it. -/
def outFile (enteredCmd : Line) : Line × Bool :=
  let outFile := ltrim (rtrim (afterOperator enteredCmd))
  let outFile := if '&' ∈ outFile then eraseFromLast '&' outFile else outFile
  (ltrim (rtrim outFile), contains ['>', '>'] enteredCmd)

/-- `t` is `s`, or `s` without an `&` that only spaces follow. -/
def StripsSign (s t : Line) : Prop :=
  t = s ∨ ∃ a b, s = a ++ '&' :: b ∧ (∀ c ∈ b, c = ' ') ∧ t = a ++ b

variable {s a b : Line}

/-- Only spaces follow the last character of a text that is not trimmed. -/
theorem eq_rtrim_append (s : Line) : ∃ b : Line, s = rtrim s ++ b ∧ ∀ c ∈ b, c = ' ' :=
  ⟨s.rtakeWhile (· = ' '), (List.rdropWhile_append_rtakeWhile ..).symm,
    fun c hc => by simpa using List.mem_rtakeWhile_imp hc⟩

theorem rtrim_append_spaces (hb : ∀ c ∈ b, c = ' ') (a : Line) : rtrim (a ++ b) = rtrim a := by
  induction b using List.reverseRecOn with
  | nil => rw [List.append_nil]
  | append_singleton b c ih =>
    rw [hb c (by simp), ← List.append_assoc, rtrim_space]
    exact ih fun d hd => hb d (by simp [hd])

theorem isBackgroundCommand_iff :
    isBackgroundCommand s = true ↔ ∃ a b, s = a ++ '&' :: b ∧ ∀ c ∈ b, c = ' ' := by
  constructor
  · intro h
    obtain ⟨a, ha⟩ := List.getLast?_eq_some_iff.mp (of_decide_eq_true h)
    obtain ⟨b, hs, hb⟩ := eq_rtrim_append s
    refine ⟨a, b, ?_, hb⟩
    rw [hs, ha, List.append_assoc, List.singleton_append]
  · rintro ⟨a, b, rfl, hb⟩
    rw [isBackgroundCommand, rtrim_append (by decide), rtrim_spaces hb]
    simp

/-- The command loses a character besides the sign unless its sign is the only `&`. -/
theorem stripsSign_eraseChar_iff :
    StripsSign s (eraseChar '&' s) ↔ '&' ∉ (rtrim s).dropLast := by
  have herase : '&' ∉ eraseChar '&' s := by simp [eraseChar]
  constructor
  · rintro (h | ⟨a, b, rfl, hb, h⟩)
    · rw [h] at herase
      exact fun hm => herase ((mem_rtrim (by decide)).mp (List.mem_of_mem_dropLast hm))
    · rw [rtrim_append (by decide), rtrim_spaces hb, List.dropLast_concat]
      rw [h] at herase
      exact fun hm => herase (List.mem_append_left b hm)
  · intro h
    by_cases hm : '&' ∈ s
    · obtain ⟨c, hlast⟩ : ∃ c, (rtrim s).getLast? = some c :=
        Option.ne_none_iff_exists'.mp fun hnone => by
          rw [List.getLast?_eq_none_iff] at hnone
          simp [← mem_rtrim (s := s) (c := '&') (by decide), hnone] at hm
      obtain ⟨a, ha⟩ := List.getLast?_eq_some_iff.mp hlast
      rw [ha, List.dropLast_concat] at h
      obtain rfl : '&' = c := by
        have := (mem_rtrim (by decide)).mpr hm
        simpa [ha, h] using this
      obtain ⟨b, hs, hb⟩ := eq_rtrim_append s
      have hamp : '&' ∉ b := fun hb' => absurd (hb _ hb') (by decide)
      rw [ha, List.append_assoc, List.singleton_append] at hs
      refine .inr ⟨a, b, hs, hb, ?_⟩
      rw [hs, eraseChar, List.filter_append, List.filter_cons_of_neg (by simp)]
      exact congrArg₂ _ (eraseChar_eq_self h) (eraseChar_eq_self hamp)
    · exact .inl (eraseChar_eq_self hm)

/-- The file name is computed as the right half of a pipe is. -/
theorem outFile_eq (enteredCmd : Line) :
    (outFile enteredCmd).1 = pipeRight (afterOperator enteredCmd) := by
  simp only [outFile, pipeRight]
  split_ifs
  · rfl
  · exact (trimmed_ltrim _).trans (trimmed_rtrim _)

/-- The file name loses a character besides the sign unless its last `&` is the sign. -/
theorem stripsSign_pipeRight_iff :
    (∃ t, StripsSign s t ∧ pipeRight s = trimmed t) ↔ ('&' ∈ s → isBackgroundCommand s = true) := by
  constructor
  · rintro ⟨t, rfl | ⟨a, b, hs, hb, -⟩, ht⟩ hm
    · -- the name is shorter than the text, as it ends before the last `&`
      rcases forall_not_or_split (· == '&') t with hno | ⟨pre, c, post, rfl, hc, hpost⟩
      · simpa using hno _ hm
      obtain rfl : c = '&' := by simpa using hc
      have hamp : '&' ∉ post := fun hm' => by simpa using hpost _ hm'
      have hshort : (trimmed pre).length ≤ (ltrim pre).length := by
        rw [← trim_eq_trimmed]
        exact (List.rdropWhile_prefix _ _).length_le
      rw [pipeRight_append hamp, trimmed_append (by decide)] at ht
      have hlen := congrArg List.length ht
      simp only [List.length_append, List.length_cons] at hlen
      omega
    · exact isBackgroundCommand_iff.mpr ⟨a, b, hs, hb⟩
  · intro h
    by_cases hm : '&' ∈ s
    · obtain ⟨a, b, rfl, hb⟩ := isBackgroundCommand_iff.mp (h hm)
      have hamp : '&' ∉ b := fun hb' => absurd (hb _ hb') (by decide)
      refine ⟨a ++ b, .inr ⟨a, b, rfl, hb, rfl⟩, ?_⟩
      rw [pipeRight_append hamp, trimmed, trimmed, rtrim_append_spaces hb]
    · exact ⟨s, .inl rfl, pipeRight_of_not_mem hm⟩

/-- An external command runs its line without the sign exactly when no `&` stands before the last
character of the line, and a redirection opens the file it names exactly when the text after the
operator has no `&` or ends in one. -/
theorem background_sign_iff (chdir : Line → Line → Option Line) (maxArgs : ℕ) (sh sh' : SmallShell)
    (cmdLine : Line) (cmd : Command)
    (h : createCommand chdir maxArgs sh cmdLine = some (cmd, sh')) :
    (cmd.kind = .external →
      ((∃ text, bashArgv cmd = ["bash".toList, "-c".toList, text] ∧ StripsSign cmdLine text) ↔
        '&' ∉ (rtrim cmdLine).dropLast)) ∧
    (cmd.kind = .redirection →
      ((∃ text, StripsSign (afterOperator cmdLine) text ∧
        (outFile cmd.enteredCmd).1 = trimmed text) ↔
        ('&' ∈ afterOperator cmdLine → isBackgroundCommand (afterOperator cmdLine) = true))) := by
  have htext : cmd.enteredCmd = cmdLine := (createCommand_created h).1.text
  refine ⟨fun _ => ?_, fun _ => ?_⟩
  · rw [← stripsSign_eraseChar_iff]
    constructor
    · rintro ⟨text, htext', hs⟩
      rw [bashArgv, htext] at htext'
      simp only [List.cons.injEq, true_and, and_true] at htext'
      exact htext' ▸ hs
    · intro hs
      exact ⟨_, by rw [bashArgv, htext], hs⟩
  · rw [htext, outFile_eq]
    exact stripsSign_pipeRight_iff

/-- A sign at the end is all that `sleep 5 &` and `ls > f &` lose. -/
theorem background_sign_iff_last :
    (∃ text, bashArgv (createExternal "sleep 5 &".toList ["sleep".toList, ['5'], ['&']]) =
        ["bash".toList, "-c".toList, text] ∧ StripsSign "sleep 5 &".toList text) ∧
    ∃ text, StripsSign (afterOperator "ls > f &".toList) text ∧
      (outFile "ls > f &".toList).1 = trimmed text := by
  constructor
  · exact ((background_sign_iff (fun _ _ => none) commandMaxArgs (.new []) (.new [])
      "sleep 5 &".toList (createExternal "sleep 5 &".toList ["sleep".toList, ['5'], ['&']])
      (by rfl)).1 rfl).mpr (by decide)
  · exact ((background_sign_iff (fun _ _ => none) commandMaxArgs (.new []) (.new [])
      "ls > f &".toList { kind := .redirection, enteredCmd := "ls > f &".toList }
      (by rfl)).2 rfl).mpr (by decide)

/-- `a&&b` runs the command `ab`. -/
theorem background_sign_inside :
    ¬ ∀ (chdir : Line → Line → Option Line) (maxArgs : ℕ) (sh sh' : SmallShell) (cmdLine : Line)
      (cmd : Command), createCommand chdir maxArgs sh cmdLine = some (cmd, sh') →
      cmd.kind = .external → '|' ∉ cmdLine →
      ∃ text, bashArgv cmd = ["bash".toList, "-c".toList, text] ∧ StripsSign cmdLine text := by
  intro h
  obtain ⟨text, htext, hs⟩ := h (fun _ _ => none) commandMaxArgs (.new []) (.new []) "a&&b".toList
    (createExternal "a&&b".toList ["a&&b".toList]) (by rfl) rfl (by decide)
  obtain rfl : ['a', 'b'] = text := by simpa [bashArgv, createExternal, eraseChar] using htext
  exact absurd (stripsSign_eraseChar_iff.mp hs) (by decide)

end FtfSystems.Shell

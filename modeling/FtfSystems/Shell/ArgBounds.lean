import FtfSystems.Shell.Pipeline
import FtfSystems.Shell.TableSteps
import FtfSystems.Shell.Tokenisers

/-!
# The bounds of `args`

`CreateCommand` has room for `COMMAND_MAX_ARGS` pointers. `_parseCommandLine` fills them without a
bound, and the loop of `cat` runs over the pieces of `_parseCat`. The lines come from the user
and from cutting a line at the operators of pipes and redirections.
-/
namespace FtfSystems.Shell
open Foundation

/-- The writes of `_parseCommandLine` for the words from index `i` on. -/
def argWrites (i : ℕ) : List Line → List (ℕ × Option Line)
  | [] => []
  | s :: words => (i, some s) :: (i + 1, none) :: argWrites (i + 1) words

/-- `args` after some writes; `CreateCommand` starts with null pointers. -/
def argsAfter (args : ℕ → Option Line) (writes : List (ℕ × Option Line)) : ℕ → Option Line :=
  writes.foldl (fun args w => Function.update args w.1 w.2) args

/-- The indices at which `CreateCommand` reads `args` for a command: that of the first word, those
of the loops over all pointers, and those of the branch for the command. -/
def argReads (cmd : Command) : List ℕ :=
  0 :: List.range commandMaxArgs ++
    match cmd.kind with
    | .kill => [1, 2]
    | .cd | .chprompt | .fg | .bg | .quit => [1]
    | .cat => List.range cmd.args.length
    | _ => []

/-- A line is parsed within the bounds of `args`, and its first word is there. -/
structure InBounds (chdir : Line → Line → Option Line) (t : Line) : Prop where
  writes : ∀ w ∈ argWrites 0 (parseCommandLine t), w.1 < commandMaxArgs
  first : argsAfter (fun _ => none) (argWrites 0 (parseCommandLine t)) 0 ≠ none
  reads : ∀ sh cmd sh', createCommand chdir commandMaxArgs sh t = some (cmd, sh') →
    ∀ i ∈ argReads cmd, i < commandMaxArgs

/-- The lines that are passed to `CreateCommand` for a line of the user. -/
inductive Passed (chdir : Line → Line → Option Line) (cmdLine : Line) : Line → Prop
  | entered : Passed chdir cmdLine cmdLine
  | redirected {t : Line} {sh sh' : SmallShell} {cmd : Command} (h : Passed chdir cmdLine t)
      (hc : createCommand chdir commandMaxArgs sh t = some (cmd, sh')) (hk : cmd.kind = .redirection) :
      Passed chdir cmdLine (SmallShell.redirectedText cmd.enteredCmd)
  | left {t : Line} {sh sh' : SmallShell} {cmd : Command} (h : Passed chdir cmdLine t)
      (hc : createCommand chdir commandMaxArgs sh t = some (cmd, sh')) (hk : cmd.kind = .pipe) :
      Passed chdir cmdLine (pipeSplit cmd.enteredCmd).2.1
  | right {t : Line} {sh sh' : SmallShell} {cmd : Command} (h : Passed chdir cmdLine t)
      (hc : createCommand chdir commandMaxArgs sh t = some (cmd, sh')) (hk : cmd.kind = .pipe) :
      Passed chdir cmdLine (pipeSplit cmd.enteredCmd).2.2

/-- The texts that a line is cut into at its operators. -/
inductive Cut (cmdLine : Line) : Line → Prop
  | entered : Cut cmdLine cmdLine
  | redirected {t : Line} (h : Cut cmdLine t) (hr : IsRedirectionLine t) :
      Cut cmdLine (SmallShell.redirectedText t)
  | left {t : Line} (h : Cut cmdLine t) (hp : IsPipeLine t) : Cut cmdLine (pipeSplit t).2.1
  | right {t : Line} (h : Cut cmdLine t) (hp : IsPipeLine t) : Cut cmdLine (pipeSplit t).2.2

/-- The line runs `cat`. -/
def IsCatLine (t : Line) : Prop :=
  '|' ∉ t ∧ '>' ∉ t ∧ ∃ arg0 ∈ (parseCommandLine t).head?, eraseChar '&' arg0 = "cat".toList

variable {chdir : Line → Line → Option Line} {sh sh' : SmallShell} {cmd : Command} {t cmdLine : Line}
  {ws : List Line} {i : ℕ}

/-! ### The writes -/

/-- `_parseCommandLine` stores its words in order, with null pointers after them. -/
theorem argsAfter_argWrites (args : ℕ → Option Line) (i : ℕ) (ws : List Line)
    (hargs : ∀ j, i ≤ j → args j = none) (j : ℕ) :
    argsAfter args (argWrites i ws) j = if j < i then args j else ws[j - i]? := by
  induction ws generalizing args i with
  | nil =>
    split_ifs with hj
    · rfl
    · simpa [argsAfter, argWrites] using hargs j (by omega)
  | cons s ws ih =>
    rw [argWrites, argsAfter, List.foldl_cons, List.foldl_cons]
    refine (ih _ (i + 1) fun k hk => ?_).trans ?_
    · by_cases hik : k = i + 1
      · rw [hik, Function.update_self]
      · rw [Function.update_of_ne hik, Function.update_of_ne (by omega), hargs k (by omega)]
    · rcases Nat.lt_trichotomy j i with hj | rfl | hj
      · rw [if_pos (by omega), if_pos hj, Function.update_of_ne (by omega),
          Function.update_of_ne (by omega)]
      · rw [if_pos (by omega), if_neg (by omega), Function.update_of_ne (by omega),
          Function.update_self, Nat.sub_self, List.getElem?_cons_zero]
      · rw [if_neg (by omega), if_neg (by omega), show j - i = j - (i + 1) + 1 by omega,
          List.getElem?_cons_succ]

theorem mem_argWrites_iff {n : ℕ} :
    (∀ w ∈ argWrites i ws, w.1 < n) ↔ ws = [] ∨ i + ws.length < n := by
  induction ws generalizing i with
  | nil => simp [argWrites]
  | cons s ws ih =>
    rw [argWrites, List.forall_mem_cons, List.forall_mem_cons, ih]
    cases ws with
    | nil => simp; omega
    | cons s' ws => simp; omega

theorem argsAfter_first (ws : List Line) :
    argsAfter (fun _ => none) (argWrites 0 ws) 0 = ws.head? := by
  rw [argsAfter_argWrites _ 0 ws (fun _ _ => rfl) 0, if_neg (by omega), List.head?_eq_getElem?]

/-! ### The reads -/

theorem createByName_cat (arg0 : Line) (rest : List Line) (h : eraseChar '&' arg0 = "cat".toList) :
    createByName chdir sh t arg0 rest = (createCat t (arg0 :: rest), sh) := by
  simp [createByName, h]

theorem eq_cat_of_kind (arg0 : Line) (rest : List Line) :
    (createByName chdir sh t arg0 rest).1.kind = .cat → eraseChar '&' arg0 = "cat".toList := by
  apply createByName_rule (P := fun r => r.1.kind = .cat → eraseChar '&' arg0 = "cat".toList)
  · have hne : ∀ kind ∈ [CommandKind.pwd, .chprompt, .showpid, .jobs], kind ≠ .cat := by decide
    exact fun kind hkind _ _ hk => absurd hk (hne kind hkind)
  · simp [createChangeDir_kind]
  · simp [(createKill_kind _ _ _).1]
  · simp [(createForeground_kind _ _ _).1]
  · simp [(createBackground_kind _ _ _).1]
  · simp [createQuit_kind]
  · exact fun h _ => h
  · simp [createExternal]

theorem createCommand_cat_iff (h : createCommand chdir commandMaxArgs sh t = some (cmd, sh')) :
    (cmd.kind = .cat ↔ IsCatLine t) ∧ (cmd.kind = .cat → cmd.args = parseCat t) := by
  obtain ⟨arg0, rest, ha, -, ⟨hp, -, args, opt, rfl⟩ | ⟨hr, -, rfl⟩ | ⟨hb, hgt, hn⟩⟩ :=
    createCommand_cases h
  · refine ⟨iff_of_false (by simp) fun hcat => ?_, by simp⟩
    rcases hp with (hw | hw) | hw
    · exact hcat.1 (mem_of_mem_word hw (by simp))
    · exact hcat.1 (mem_of_mem_word hw (by simp))
    · exact hcat.1 hw.2
  · exact ⟨iff_of_false (by simp) fun hcat => hcat.2.1 hr.2, by simp⟩
  · have hcat : cmd.kind = .cat → eraseChar '&' arg0 = "cat".toList := by
      have hk : cmd.kind = (createByName chdir sh t arg0 rest).1.kind := by rw [hn]
      rw [hk]
      exact eq_cat_of_kind arg0 rest
    have hargs (h0 : eraseChar '&' arg0 = "cat".toList) : cmd = createCat t (arg0 :: rest) :=
      congrArg Prod.fst (hn.symm.trans (createByName_cat arg0 rest h0))
    refine ⟨⟨fun hk => ⟨hb, hgt, arg0, by simp [ha], hcat hk⟩, ?_⟩, fun hk => ?_⟩
    · rintro ⟨-, -, first, hfirst, h0⟩
      rw [ha] at hfirst
      obtain rfl : arg0 = first := by simpa using hfirst
      rw [hargs h0]
      rfl
    · rw [hargs (hcat hk)]
      rfl

theorem argReads_iff :
    (∀ i ∈ argReads cmd, i < commandMaxArgs) ↔
      (cmd.kind = .cat → cmd.args.length ≤ commandMaxArgs) := by
  rw [argReads, List.forall_mem_append, and_iff_right (by decide)]
  cases hk : cmd.kind with
  | cat =>
    simp only [List.mem_range, true_implies]
    exact ⟨fun h => not_lt.mp fun hlt => lt_irrefl _ (h _ hlt), fun h i hi => hi.trans_le h⟩
  | _ => simp [commandMaxArgs]

/-- A line is parsed in bounds when it has from one to nineteen words and, if it runs `cat`, at
most twenty pieces. -/
theorem inBounds_iff :
    InBounds chdir t ↔ HasWord t ∧ (parseCommandLine t).length < commandMaxArgs ∧
      (IsCatLine t → (parseCat t).length ≤ commandMaxArgs) := by
  have hword : HasWord t ↔ parseCommandLine t ≠ [] := parseCommandLine_ne_nil_iff.symm
  constructor
  · rintro ⟨hwrites, hfirst, hreads⟩
    rw [argsAfter_first, Ne, List.head?_eq_none_iff] at hfirst
    have hlen : (parseCommandLine t).length < commandMaxArgs := by
      simpa [hfirst] using mem_argWrites_iff.mp hwrites
    obtain ⟨cmd, sh', hc⟩ : ∃ cmd sh', createCommand chdir commandMaxArgs (.new []) t =
        some (cmd, sh') := createCommand_isSome_iff.mpr ⟨hfirst, hlen⟩
    obtain ⟨hcat, hargs⟩ := createCommand_cat_iff hc
    refine ⟨hword.mpr hfirst, hlen, fun h => ?_⟩
    have hk := hcat.mpr h
    exact hargs hk ▸ argReads_iff.mp (hreads _ _ _ hc) hk
  · rintro ⟨hw, hlen, hcat⟩
    have hne := hword.mp hw
    refine ⟨mem_argWrites_iff.mpr (.inr (by simpa using hlen)), ?_, fun sh cmd sh' hc => ?_⟩
    · rwa [argsAfter_first, Ne, List.head?_eq_none_iff]
    · obtain ⟨hiff, hargs⟩ := createCommand_cat_iff hc
      exact argReads_iff.mpr fun hk => hargs hk ▸ hcat (hiff.mp hk)

/-! ### The cuts -/

theorem splitFirst_eq {b l r : Line} (h : splitFirst b t = some (l, r)) : t = l ++ b ++ r := by
  induction t generalizing l with
  | nil => cases h
  | cons c t ih =>
    by_cases hp : b <+: c :: t
    · rw [splitFirst, if_pos hp] at h
      cases Option.some.inj h
      exact List.prefix_append_drop hp
    · rw [splitFirst_cons_of_neg hp] at h
      obtain ⟨⟨l', r'⟩, hs, he⟩ := Option.map_eq_some_iff.mp h
      obtain ⟨rfl, rfl⟩ := Prod.mk.inj he
      rw [ih hs]
      rfl

theorem splitFirst_within {b : Line} {parts : Line × Line} (h : splitFirst b t = some parts) :
    parts.1 <:+: t ∧ parts.2 <:+: t := by
  have ht := splitFirst_eq (l := parts.1) (r := parts.2) h
  exact ⟨⟨[], b ++ parts.2, by rw [ht]; simp⟩, ⟨parts.1 ++ b, [], by rw [ht]; simp⟩⟩

theorem trimmed_within (s : Line) : trimmed s <:+: s :=
  (List.dropWhile_suffix _).isInfix.trans (List.rdropWhile_prefix _ _).isInfix

theorem pipeRight_within (s : Line) : pipeRight s <:+: s := by
  have herase (s : Line) : eraseFromLast '&' s <+: s := by
    rw [eraseFromLast]
    split_ifs
    · exact (List.dropLast_prefix _).trans (List.rdropWhile_prefix _ _)
    · exact List.prefix_rfl
  rw [pipeRight]
  split_ifs with h
  · exact (trimmed_within _).trans ((herase _).isInfix.trans (trimmed_within s))
  · exact trimmed_within s

theorem redirectedText_within (t : Line) : SmallShell.redirectedText t <:+: t := by
  refine (trimmed_within _).trans ?_
  cases hs : splitFirst (if contains ['>', '>'] t then ['>', '>'] else ['>']) t with
  | none => exact List.infix_rfl
  | some parts => exact (splitFirst_within hs).1

theorem pipeSplit_within (t : Line) : (pipeSplit t).2.1 <:+: t ∧ (pipeSplit t).2.2 <:+: t := by
  rw [pipeSplit]
  cases hs : splitFirst (if contains ['|', '&'] t then ['|', '&'] else ['|']) t with
  | none => exact ⟨trimmed_within t, pipeRight_within t⟩
  | some parts =>
    obtain ⟨hleft, hright⟩ := splitFirst_within hs
    exact ⟨(trimmed_within parts.1).trans hleft, (pipeRight_within parts.2).trans hright⟩

/-- A text that a line is cut into has no more words than the line. -/
theorem Cut.length_le (h : Cut cmdLine t) :
    (parseCommandLine t).length ≤ (parseCommandLine cmdLine).length := by
  have hle {s s' : Line} (hs : s <:+: s') :
      (parseCommandLine s).length ≤ (parseCommandLine s').length := by
    rw [parseCommandLine_eq_words, parseCommandLine_eq_words]
    exact length_words_le_of_infix hs
  induction h with
  | entered => exact le_rfl
  | redirected _ _ ih => exact (hle (redirectedText_within _)).trans ih
  | left _ _ ih => exact (hle (pipeSplit_within _).1).trans ih
  | right _ _ ih => exact (hle (pipeSplit_within _).2).trans ih

theorem Passed.cut (h : Passed chdir cmdLine t) : Cut cmdLine t := by
  have htext {sh sh' : SmallShell} {cmd : Command} {t : Line}
      (hc : createCommand chdir commandMaxArgs sh t = some (cmd, sh')) : cmd.enteredCmd = t :=
    (createCommand_created hc).1.text
  induction h with
  | entered => exact .entered
  | redirected _ hc hk ih => exact htext hc ▸ ih.redirected ((createCommand_redirection_iff hc).mp hk)
  | left _ hc hk ih => exact htext hc ▸ ih.left ((createCommand_pipe_iff hc).mp hk)
  | right _ hc hk ih => exact htext hc ▸ ih.right ((createCommand_pipe_iff hc).mp hk)

/-- As long as every line is parsed, all that a line is cut into is passed on. -/
theorem Cut.passed (hall : ∀ t, Passed chdir cmdLine t → InBounds chdir t) (h : Cut cmdLine t) :
    Passed chdir cmdLine t := by
  have hparsed {t : Line} (hp : Passed chdir cmdLine t) :
      ∃ cmd sh', createCommand chdir commandMaxArgs (.new []) t = some (cmd, sh') ∧
        cmd.enteredCmd = t := by
    obtain ⟨hw, hlen, -⟩ := inBounds_iff.mp (hall t hp)
    obtain ⟨cmd, sh', hc⟩ := createCommand_isSome_iff.mpr ⟨parseCommandLine_ne_nil_iff.mpr hw, hlen⟩
    exact ⟨cmd, sh', hc, (createCommand_created hc).1.text⟩
  induction h with
  | entered => exact .entered
  | redirected _ hr ih =>
    obtain ⟨cmd, sh', hc, ht⟩ := hparsed ih
    exact ht ▸ ih.redirected hc ((createCommand_redirection_iff hc).mpr hr)
  | left _ hp ih =>
    obtain ⟨cmd, sh', hc, ht⟩ := hparsed ih
    exact ht ▸ ih.left hc ((createCommand_pipe_iff hc).mpr hp)
  | right _ hp ih =>
    obtain ⟨cmd, sh', hc, ht⟩ := hparsed ih
    exact ht ▸ ih.right hc ((createCommand_pipe_iff hc).mpr hp)

/-- A line and all lines it is cut into are parsed in bounds exactly when it has at most nineteen
words, none of the texts is blank, and those that run `cat` have at most twenty pieces. -/
theorem parse_in_bounds_iff (chdir : Line → Line → Option Line) (cmdLine : Line) :
    (∀ t, Passed chdir cmdLine t → InBounds chdir t) ↔
      (parseCommandLine cmdLine).length < commandMaxArgs ∧
      ∀ t, Cut cmdLine t → HasWord t ∧ (IsCatLine t → (parseCat t).length ≤ commandMaxArgs) := by
  constructor
  · intro hall
    refine ⟨(inBounds_iff.mp (hall _ .entered)).2.1, fun t ht => ?_⟩
    obtain ⟨hw, -, hcat⟩ := inBounds_iff.mp (hall t (ht.passed hall))
    exact ⟨hw, hcat⟩
  · rintro ⟨hlen, hcuts⟩ t ht
    obtain ⟨hw, hcat⟩ := hcuts t ht.cut
    exact inBounds_iff.mpr ⟨hw, ht.cut.length_le.trans_lt hlen, hcat⟩

/-- A line of one space has no first word. -/
theorem blank_line_out_of_bounds :
    ¬ ∀ (chdir : Line → Line → Option Line) (cmdLine : Line), cmdLine ≠ [] →
      ∀ t, Passed chdir cmdLine t → InBounds chdir t := by
  intro h
  have hfirst := (h (fun _ _ => none) [' '] (by simp) _ .entered).first
  exact hfirst rfl

end FtfSystems.Shell

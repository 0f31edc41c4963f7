import FtfSystems.Shell.Commands
import FtfSystems.Shell.Tokens

/-!
# The forms of a command line

`CreateCommand` first looks for the operators of pipes and redirections, then goes by the first
word. Which of these it does depends on the line alone.
-/
namespace FtfSystems.Shell

/-- The line is one of a pipe: an operator is a word, or stands inside a word of a line that is
not redirected. -/
def IsPipeLine (t : Line) : Prop :=
  (['|'] ∈ parseCommandLine t ∨ ['|', '&'] ∈ parseCommandLine t) ∨ '>' ∉ t ∧ '|' ∈ t

/-- The line is redirected. -/
def IsRedirectionLine (t : Line) : Prop :=
  ¬ (['|'] ∈ parseCommandLine t ∨ ['|', '&'] ∈ parseCommandLine t) ∧ '>' ∈ t

variable {chdir : Line → Line → Option Line} {maxArgs : ℕ} {sh sh' : SmallShell} {t arg0 : Line}
  {cmd : Command} {rest : List Line}

theorem contains_pair_or {c d : Char} :
    (contains [c, d] t = true ∨ contains [c] t = true) ↔ c ∈ t := by
  rw [contains_singleton]
  exact or_iff_right_of_imp fun h => mem_of_contains h (by simp)

/-- What `CreateCommand` makes of a line. -/
theorem createCommand_cases (h : createCommand chdir maxArgs sh t = some (cmd, sh')) :
    ∃ arg0 rest, parseCommandLine t = arg0 :: rest ∧ (parseCommandLine t).length < maxArgs ∧
      (IsPipeLine t ∧ sh' = sh ∧ (∃ args optionalArg,
        cmd = { kind := .pipe, enteredCmd := t, args := args, optionalArg := optionalArg }) ∨
      IsRedirectionLine t ∧ sh' = sh ∧ cmd = { kind := .redirection, enteredCmd := t } ∨
      '|' ∉ t ∧ '>' ∉ t ∧ createByName chdir sh t arg0 rest = (cmd, sh')) := by
  rw [createCommand, Option.ite_none_left_eq_some, not_le] at h
  obtain ⟨hlen, h⟩ := h
  cases ha : parseCommandLine t with
  | nil =>
    rw [ha] at h
    cases h
  | cons arg0 rest =>
    simp only [ha] at h
    refine ⟨arg0, rest, rfl, ha ▸ hlen, ?_⟩
    by_cases hops : ['|'] ∈ arg0 :: rest ∨ ['|', '&'] ∈ arg0 :: rest
    · rw [if_pos hops] at h
      cases Option.some.inj h
      exact .inl ⟨.inl (ha ▸ hops), rfl, _, _, rfl⟩
    rw [if_neg hops] at h
    have hgt : (contains ['>', '>'] t = true ∨ contains ['>'] t = true) ↔ '>' ∈ t := contains_pair_or
    have hbar : (contains ['|'] t = true ∨ contains ['|', '&'] t = true) ↔ '|' ∈ t :=
      or_comm.trans contains_pair_or
    by_cases hm : '>' ∈ t
    · rw [if_pos (hgt.mpr hm)] at h
      cases Option.some.inj h
      exact .inr (.inl ⟨⟨ha ▸ hops, hm⟩, rfl, rfl⟩)
    rw [if_neg (hgt.not.mpr hm)] at h
    by_cases hb : '|' ∈ t
    · rw [if_pos (hbar.mpr hb)] at h
      cases Option.some.inj h
      exact .inl ⟨.inr ⟨hm, hb⟩, rfl, _, _, rfl⟩
    · rw [if_neg (hbar.not.mpr hb)] at h
      exact .inr (.inr ⟨hb, hm, Option.some.inj h⟩)

/-- A line whose words fit is parsed. -/
theorem createCommand_isSome_iff :
    (∃ cmd sh', createCommand chdir maxArgs sh t = some (cmd, sh')) ↔
      parseCommandLine t ≠ [] ∧ (parseCommandLine t).length < maxArgs := by
  constructor
  · rintro ⟨cmd, sh', h⟩
    obtain ⟨arg0, rest, ha, hlen, -⟩ := createCommand_cases h
    exact ⟨by simp [ha], hlen⟩
  · rintro ⟨hne, hlen⟩
    obtain ⟨arg0, rest, ha⟩ := List.exists_cons_of_ne_nil hne
    rw [createCommand, if_neg (not_le.mpr hlen), ha]
    dsimp only
    split_ifs <;> exact ⟨_, _, rfl⟩

theorem createChangeDir_kind (args : List Line) :
    (createChangeDir chdir sh t args).1.kind = .cd := by
  unfold createChangeDir
  cases args[1]? with
  | none => rfl
  | some arg1 =>
    dsimp only
    cases chdir sh.cwd arg1 with
    | none => split_ifs <;> rfl
    | some dir => split_ifs <;> rfl

theorem createQuit_kind (args : List Line) : (createQuit t args).kind = .quit := by
  unfold createQuit
  split
  · split_ifs <;> rfl
  · rfl

theorem createByName_kind (arg0 : Line) (rest : List Line) :
    (createByName chdir sh t arg0 rest).1.kind ≠ .pipe ∧
      (createByName chdir sh t arg0 rest).1.kind ≠ .redirection := by
  apply createByName_rule (P := fun r => r.1.kind ≠ .pipe ∧ r.1.kind ≠ .redirection)
  · have hne : ∀ kind ∈ [CommandKind.pwd, .chprompt, .showpid, .jobs],
        kind ≠ .pipe ∧ kind ≠ .redirection := by decide
    exact fun kind hkind _ _ => hne kind hkind
  · simp [createChangeDir_kind]
  · simp [(createKill_kind _ _ _).1]
  · simp [(createForeground_kind _ _ _).1]
  · simp [(createBackground_kind _ _ _).1]
  · simp [createQuit_kind]
  · simp [createCat, Command.builtIn]
  · simp [createExternal]

/-- Commands of these kinds come from the branch of their name alone. -/
theorem createCommand_of_kind (h : createCommand chdir maxArgs sh t = some (cmd, sh')) :
    (cmd.kind = .cd → (cmd, sh') = createChangeDir chdir sh t (parseCommandLine t) ∧
      (parseCommandLine t).head?.map (eraseChar '&') = some "cd".toList) ∧
    (cmd.kind = .kill → (cmd, sh') = (createKill sh.jobs t (parseCommandLine t), sh)) ∧
    (cmd.kind = .fg → (cmd, sh') = (createForeground sh.jobs t (parseCommandLine t), sh)) ∧
    (cmd.kind = .bg → (cmd, sh') = (createBackground sh.jobs t (parseCommandLine t), sh)) := by
  obtain ⟨arg0, rest, ha, -, ⟨-, -, args, opt, rfl⟩ | ⟨-, -, rfl⟩ | ⟨-, -, hn⟩⟩ :=
    createCommand_cases h
  · simp
  · simp
  · rw [ha, ← hn, show cmd.kind = (createByName chdir sh t arg0 rest).1.kind by rw [hn]]
    apply createByName_rule (P := fun r =>
      (r.1.kind = .cd → r = createChangeDir chdir sh t (arg0 :: rest) ∧
        (arg0 :: rest).head?.map (eraseChar '&') = some "cd".toList) ∧
      (r.1.kind = .kill → r = (createKill sh.jobs t (arg0 :: rest), sh)) ∧
      (r.1.kind = .fg → r = (createForeground sh.jobs t (arg0 :: rest), sh)) ∧
      (r.1.kind = .bg → r = (createBackground sh.jobs t (arg0 :: rest), sh)))
    · have hne : ∀ kind ∈ [CommandKind.pwd, .chprompt, .showpid, .jobs],
          kind ≠ .cd ∧ kind ≠ .kill ∧ kind ≠ .fg ∧ kind ≠ .bg := by decide
      intro kind hkind list newlen
      obtain ⟨hcd, hkill, hfg, hbg⟩ := hne kind hkind
      exact ⟨fun hk => absurd hk hcd, fun hk => absurd hk hkill, fun hk => absurd hk hfg,
        fun hk => absurd hk hbg⟩
    · intro hcd
      simp [createChangeDir_kind, hcd]
    · simp [(createKill_kind _ _ _).1]
    · simp [(createForeground_kind _ _ _).1]
    · simp [(createBackground_kind _ _ _).1]
    · simp [createQuit_kind]
    · simp [createCat, Command.builtIn]
    · simp [createExternal]

theorem createCommand_pipe_iff (h : createCommand chdir maxArgs sh t = some (cmd, sh')) :
    cmd.kind = .pipe ↔ IsPipeLine t := by
  obtain ⟨arg0, rest, -, -, ⟨hp, -, args, opt, rfl⟩ | ⟨hr, -, rfl⟩ | ⟨hb, hgt, hn⟩⟩ :=
    createCommand_cases h
  · exact iff_of_true rfl hp
  · refine iff_of_false (by simp) ?_
    rintro (hw | hw)
    · exact hr.1 hw
    · exact hw.1 hr.2
  · have hk : (createByName chdir sh t arg0 rest).1.kind ≠ .pipe := (createByName_kind arg0 rest).1
    rw [hn] at hk
    refine iff_of_false hk ?_
    rintro ((hw | hw) | hw)
    · exact hb (mem_of_mem_word hw (by simp))
    · exact hb (mem_of_mem_word hw (by simp))
    · exact hb hw.2

theorem createCommand_redirection_iff (h : createCommand chdir maxArgs sh t = some (cmd, sh')) :
    cmd.kind = .redirection ↔ IsRedirectionLine t := by
  obtain ⟨arg0, rest, -, -, ⟨hp, -, args, opt, rfl⟩ | ⟨hr, -, rfl⟩ | ⟨hb, hgt, hn⟩⟩ :=
    createCommand_cases h
  · refine iff_of_false (by simp) ?_
    rintro ⟨hno, hgt⟩
    rcases hp with hw | hw
    · exact hno hw
    · exact hw.1 hgt
  · exact iff_of_true rfl hr
  · have hk : (createByName chdir sh t arg0 rest).1.kind ≠ .redirection :=
      (createByName_kind arg0 rest).2
    rw [hn] at hk
    exact iff_of_false hk fun hr => hgt hr.2

end FtfSystems.Shell

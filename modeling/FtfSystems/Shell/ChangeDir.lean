import FtfSystems.Foundation.TransitionSystem
import FtfSystems.Shell.CommandLines
import FtfSystems.Shell.Smash

/-!
# `cd` and the previous directory

`CreateCommand` tries the directory of a `cd`, goes back and moves `LASTD`; the directory is changed
later, when `execute` runs, for an argument without its `&` and only if there is a single one. The
two go apart when one of them fails and the other does not.
-/
namespace FtfSystems.Shell
open Foundation

/-- The arguments of a line without the sign of a background command at its end. -/
def dropAmp (args : List Line) : List Line :=
  match args.getLast? with
  | none => []
  | some last =>
    if last = ['&'] then args.dropLast
    else if last.getLast? = some '&' then args.dropLast ++ [last.dropLast]
    else args

/-- The path that the arguments of `cd` ask for; `-` is the previous directory. -/
def requestedPath (lastD : Line) (args : List Line) : Option Line :=
  match dropAmp args with
  | [path] => if path ≠ ['-'] then some path else if lastD = [] then none else some lastD
  | _ => none

section
variable (chdir : Line → Line → Option Line)

/-- The directory that `cd` is asked to go to from `cwd`, if there is one. -/
def requestedDir (cwd lastD : Line) (args : List Line) : Option Line :=
  (requestedPath lastD args).bind (chdir cwd)

/-- The working directory after a call of `chdir`. -/
def goTo (cwd path : Line) : Line := (chdir cwd path).getD cwd

/-- A line goes to the directory it asks for and makes the one before it the previous one, or
changes neither. -/
def SmallShell.CdInStep (sh : SmallShell) (cmdLine : Line) (ans : Answers) : Prop :=
  ∃ s, State.executeCommand chdir commandMaxArgs sh cmdLine ans = some s ∧ s.phase = .prompt ∧
    (requestedDir chdir sh.cwd sh.lastD (parseCommandLine cmdLine).tail = some s.shell.cwd ∧
        s.shell.lastD = sh.cwd ∨
      s.shell.cwd = sh.cwd ∧ s.shell.lastD = sh.lastD)

/-- The file system answers the paths of a `cd` such that the trial and the change agree, or the
previous directory is already the working directory. -/
def CdAgrees (cwd lastD : Line) (args : List Line) : Prop :=
  let asks dir := requestedDir chdir cwd lastD args = some dir
  match args with
  | [] => True
  | [arg1] =>
    if arg1 = ['-'] then lastD = [] ∨ lastD = cwd ∨ chdir cwd lastD ≠ none
    else match chdir cwd arg1 with
      | none =>
        let dir := goTo chdir cwd (eraseChar '&' arg1)
        dir = cwd ∨ lastD = cwd ∧ asks dir
      | some tried =>
        let dir := goTo chdir (goTo chdir tried cwd) (eraseChar '&' arg1)
        asks dir ∨ lastD = cwd ∧ dir = cwd
  | arg1 :: _ =>
    if arg1 = ['-'] then lastD = [] ∨ lastD = cwd ∨ asks cwd
    else match chdir cwd arg1 with
      | none => True
      | some tried =>
        let dir := goTo chdir tried cwd
        asks dir ∨ lastD = cwd ∧ dir = cwd

end

variable {chdir : Line → Line → Option Line} {sh sh' : SmallShell} {t : Line} {cmd : Command}
  {ans : Answers} {dir : Line}

/-! ### One line -/

/-- The branch for `cd` makes a built-in command and keeps the first word. -/
theorem createChangeDir_fields (arg0 : Line) (args : List Line) :
    (createChangeDir chdir sh t (arg0 :: args)).1.builtInCmd = true ∧
      (createChangeDir chdir sh t (arg0 :: args)).1.args[0]? = some arg0 := by
  unfold createChangeDir
  cases args with
  | nil => exact ⟨rfl, rfl⟩
  | cons arg1 rest =>
    simp only [List.getElem?_cons_succ, List.getElem?_cons_zero]
    cases chdir sh.cwd arg1 with
    | none => split_ifs <;> exact ⟨rfl, rfl⟩
    | some tried => split_ifs <;> exact ⟨rfl, rfl⟩

theorem execute_cd (hk : cmd.kind = .cd) (hdir : changeDirExecute chdir sh.cwd cmd = some dir) :
    sh.execute chdir commandMaxArgs cmd ans = some ({ sh with cwd := dir }, .returned, []) := by
  rw [SmallShell.execute, SmallShell.redirected, if_neg (by simp [hk])]
  simp only [Option.bind_eq_bind, Option.bind_some, SmallShell.executeDirect, hk, hdir,
    Option.map_some]

/-- `executeCommand` on a line of `cd`. -/
theorem executeCommand_cd (hc : createCommand chdir commandMaxArgs sh t = some (cmd, sh'))
    (hk : cmd.kind = .cd) (hdir : changeDirExecute chdir sh'.cwd cmd = some dir) :
    ∃ s, State.executeCommand chdir commandMaxArgs sh t ans = some s ∧ s.phase = .prompt ∧
      s.shell.cwd = dir ∧ s.shell.lastD = sh'.lastD := by
  obtain ⟨arg0, args, ha, -, -⟩ := createCommand_cases hc
  obtain ⟨heq, hname⟩ := (createCommand_of_kind hc).1 hk
  rw [ha] at heq hname
  have hfields : cmd.builtInCmd = true ∧ cmd.args[0]? = some arg0 := by
    rw [show cmd = (createChangeDir chdir sh t (arg0 :: args)).1 from congrArg Prod.fst heq]
    exact createChangeDir_fields arg0 args
  have hquits : Command.quits { cmd with list := true } = some false := by
    simp only [List.head?_cons, Option.map_some, Option.some.injEq] at hname
    simp [Command.quits, hfields, hname]
  have hexec : sh'.execute chdir commandMaxArgs { cmd with list := true } ans =
      some ({ sh' with cwd := dir }, .returned, []) := execute_cd hk hdir
  have hstays : ¬ ((!cmd.builtInCmd) = true ∧ cmd.backgroundCmd = true) := by simp [hfields.1]
  refine ⟨⟨{ sh' with
    cwd := dir
    forCmd := none
    forPid := -1
    jobs := (sh'.jobs.removeFinishedJobs ans.reap).1 }, .prompt⟩, ?_, rfl, rfl, rfl⟩
  rw [State.executeCommand, hc]
  simp only [Option.bind_eq_bind, Option.bind_some, if_neg hstays, hexec, State.finish,
    SmallShell.finishCommand, hquits, Option.map_some, Bool.false_eq_true, if_false, if_true]

/-- Whether a line keeps the two directories in step. -/
theorem cdInStep_iff (hc : createCommand chdir commandMaxArgs sh t = some (cmd, sh'))
    (hk : cmd.kind = .cd) (dir : Line) (hdir : changeDirExecute chdir sh'.cwd cmd = some dir) :
    sh.CdInStep chdir t ans ↔
      requestedDir chdir sh.cwd sh.lastD (parseCommandLine t).tail = some dir ∧ sh'.lastD = sh.cwd ∨
        dir = sh.cwd ∧ sh'.lastD = sh.lastD := by
  obtain ⟨s, hs, hphase, rfl, hlast⟩ : ∃ s,
      State.executeCommand chdir commandMaxArgs sh t ans = some s ∧ s.phase = .prompt ∧
        s.shell.cwd = dir ∧ s.shell.lastD = sh'.lastD := executeCommand_cd hc hk hdir
  rw [← hlast]
  constructor
  · rintro ⟨s₁, hs₁, -, h⟩
    cases Option.some.inj (hs.symm.trans hs₁)
    exact h
  · exact fun h => ⟨s, hs, hphase, h⟩

theorem requestedDir_dash {cwd lastD : Line} (h : lastD ≠ []) :
    requestedDir chdir cwd lastD [['-']] = chdir cwd lastD := by
  simp [requestedDir, requestedPath, dropAmp, h]

section
variable (hc : createCommand chdir commandMaxArgs sh t = some (cmd, sh')) (hk : cmd.kind = .cd)
  {arg0 arg1 : Line} {rest : List Line}
include hc hk

/-- With the argument `-` the previous directory is moved if there is one. `execute` goes there if
it is the only argument. -/
theorem cd_dash (ha : parseCommandLine t = arg0 :: ['-'] :: rest) (hlast : sh.lastD ≠ []) :
    sh'.lastD = sh.cwd ∧ changeDirExecute chdir sh'.cwd cmd =
      some (if rest = [] then goTo chdir sh.cwd sh.lastD else sh.cwd) := by
  have heq := ((createCommand_of_kind hc).1 hk).1
  simp only [ha, createChangeDir, hlast] at heq
  cases heq
  cases rest with
  | nil => exact ⟨rfl, rfl⟩
  | cons arg2 rest => exact ⟨rfl, by simp [changeDirExecute]⟩

theorem cd_dash_unset (ha : parseCommandLine t = arg0 :: ['-'] :: rest) (hlast : sh.lastD = []) :
    sh'.lastD = sh.lastD ∧ changeDirExecute chdir sh'.cwd cmd = some sh.cwd := by
  have heq := ((createCommand_of_kind hc).1 hk).1
  simp only [ha, createChangeDir, hlast] at heq
  cases heq
  cases rest with
  | nil => exact ⟨rfl, rfl⟩
  | cons arg2 rest => exact ⟨rfl, by simp [changeDirExecute]⟩

/-- Another argument is tried as it is. `execute` goes to it without its `&` if it is the only
one. -/
theorem cd_path (ha : parseCommandLine t = arg0 :: arg1 :: rest) (hdash : arg1 ≠ ['-']) :
    sh' = (chdir sh.cwd arg1).elim sh
        (fun tried => { sh with lastD := sh.cwd, cwd := goTo chdir tried sh.cwd }) ∧
      changeDirExecute chdir sh'.cwd cmd =
        some (if rest = [] then goTo chdir sh'.cwd (eraseChar '&' arg1) else sh'.cwd) := by
  have heq := ((createCommand_of_kind hc).1 hk).1
  simp only [ha, createChangeDir, List.getElem?_cons_succ, List.getElem?_cons_zero,
    if_neg hdash] at heq
  cases htried : chdir sh.cwd arg1 with
  | none =>
    simp only [htried] at heq
    cases heq
    cases rest with
    | nil => exact ⟨rfl, by simp [changeDirExecute, hdash, goTo]⟩
    | cons arg2 rest => exact ⟨rfl, by simp [changeDirExecute]⟩
  | some tried =>
    simp only [htried] at heq
    cases heq
    cases rest with
    | nil => exact ⟨rfl, by simp [changeDirExecute, hdash, goTo]⟩
    | cons arg2 rest => exact ⟨rfl, by simp [changeDirExecute]⟩

theorem cdInStep_iff_dash (ha : parseCommandLine t = arg0 :: ['-'] :: rest) :
    sh.CdInStep chdir t ans ↔ CdAgrees chdir sh.cwd sh.lastD (['-'] :: rest) := by
  by_cases hlast : sh.lastD = []
  · obtain ⟨hsame, hdir⟩ := cd_dash_unset hc hk ha hlast
    rw [cdInStep_iff hc hk _ hdir]
    refine iff_of_true (.inr ⟨rfl, hsame⟩) ?_
    cases rest with
    | nil => exact .inl hlast
    | cons arg2 rest => exact .inl hlast
  · obtain ⟨hmoved, hdir⟩ := cd_dash hc hk ha hlast
    rw [cdInStep_iff hc hk _ hdir, hmoved, ha, List.tail_cons]
    cases rest with
    | nil =>
      rw [requestedDir_dash hlast]
      cases hback : chdir sh.cwd sh.lastD with
      | none => simp [CdAgrees, goTo, hback, hlast, eq_comm]
      | some dir => simp [CdAgrees, goTo, hback]
    | cons arg2 rest =>
      simp only [CdAgrees, if_true, hlast, false_or, reduceCtorEq, if_false, and_true, true_and,
        eq_comm (a := sh.cwd)]
      exact or_comm

theorem cdInStep_iff_path (ha : parseCommandLine t = arg0 :: arg1 :: rest) (hdash : arg1 ≠ ['-']) :
    sh.CdInStep chdir t ans ↔ CdAgrees chdir sh.cwd sh.lastD (arg1 :: rest) := by
  obtain ⟨rfl, hdir⟩ := cd_path hc hk ha hdash
  rw [cdInStep_iff hc hk _ hdir, ha, List.tail_cons]
  cases htried : chdir sh.cwd arg1 with
  | none =>
    cases rest with
    | nil =>
      simp only [CdAgrees, if_neg hdash, htried, Option.elim_none, if_true, and_true]
      exact or_comm.trans (or_congr_right and_comm)
    | cons arg2 rest => simp [CdAgrees, if_neg hdash, htried]
  | some tried =>
    cases rest with
    | nil =>
      simp only [CdAgrees, if_neg hdash, htried, Option.elim_some, if_true, and_true,
        eq_comm (a := sh.cwd)]
      exact or_congr_right and_comm
    | cons arg2 rest =>
      simp only [CdAgrees, if_neg hdash, htried, Option.elim_some, reduceCtorEq, if_false, and_true,
        eq_comm (a := sh.cwd)]
      exact or_congr_right and_comm

/-- A line of `cd` keeps the two directories in step exactly when the trial and the change agree. -/
theorem cdInStep_iff_agrees :
    sh.CdInStep chdir t ans ↔ CdAgrees chdir sh.cwd sh.lastD (parseCommandLine t).tail := by
  obtain ⟨arg0, args, ha, -, -⟩ := createCommand_cases hc
  cases args with
  | nil =>
    have heq := ((createCommand_of_kind hc).1 hk).1
    rw [ha] at heq
    cases heq
    rw [cdInStep_iff hc hk sh.cwd rfl, ha]
    exact iff_of_true (.inr ⟨rfl, rfl⟩) trivial
  | cons arg1 rest =>
    by_cases hdash : arg1 = ['-']
    · subst hdash
      rw [cdInStep_iff_dash hc hk ha, ha, List.tail_cons]
    · rw [cdInStep_iff_path hc hk ha hdash, ha, List.tail_cons]

end

/-! ### File systems where the way back works -/

/-- From every directory that `chdir` enters, the path of the working directory leads back. -/
def GoesBack (chdir : Line → Line → Option Line) (cwd : Line) : Prop :=
  ∀ path dir, chdir cwd path = some dir → chdir dir cwd = some cwd

/-- The one argument can be entered, or the first of several is refused already by the trial. -/
def CdSettled (chdir : Line → Line → Option Line) (cwd lastD : Line) : List Line → Prop
  | [] => True
  | [arg1] => arg1 = ['-'] → lastD = [] ∨ chdir cwd lastD ≠ none
  | arg1 :: _ => if arg1 = ['-'] then lastD = [] else chdir cwd arg1 = none

theorem dropAmp_eq_self {args : List Line} (h : ∀ arg ∈ args, '&' ∉ arg) : dropAmp args = args := by
  rw [dropAmp]
  cases hlast : args.getLast? with
  | none => exact (List.getLast?_eq_none_iff.mp hlast).symm
  | some last =>
    have hamp : '&' ∉ last := h last (List.mem_of_getLast? hlast)
    have hsign : last ≠ ['&'] := by
      rintro rfl
      simp at hamp
    have hend : last.getLast? ≠ some '&' := fun he => hamp (List.mem_of_getLast? he)
    simp only [if_neg hsign, if_neg hend]

theorem cdAgrees_iff_settled {cwd lastD : Line} {args : List Line} (hback : GoesBack chdir cwd)
    (hamp : ∀ arg ∈ args, '&' ∉ arg) :
    CdAgrees chdir cwd lastD args ↔ lastD = cwd ∨ CdSettled chdir cwd lastD args := by
  have hdrop : dropAmp args = args := dropAmp_eq_self hamp
  rcases args with _ | ⟨arg1, _ | ⟨arg2, rest⟩⟩
  · simp [CdAgrees, CdSettled]
  · by_cases hdash : arg1 = ['-']
    · simp only [CdAgrees, CdSettled, hdash, if_true, forall_const]
      exact or_left_comm
    · have herase : eraseChar '&' arg1 = arg1 := eraseChar_eq_self (hamp arg1 (by simp))
      refine iff_of_true ?_ (.inr fun h => absurd h hdash)
      simp only [CdAgrees, if_neg hdash, herase]
      cases htried : chdir cwd arg1 with
      | none => exact .inl (by simp [goTo, htried])
      | some tried =>
        -- the second `chdir` starts where the first did
        left
        simp [requestedDir, requestedPath, hdrop, hdash, goTo, htried, hback arg1 tried htried]
  · have hasks (dir : Line) : requestedDir chdir cwd lastD (arg1 :: arg2 :: rest) ≠ some dir := by
      simp [requestedDir, requestedPath, hdrop]
    by_cases hdash : arg1 = ['-']
    · simp only [CdAgrees, CdSettled, if_pos hdash, hasks, or_false]
      exact or_comm
    · simp only [CdAgrees, CdSettled, if_neg hdash]
      cases htried : chdir cwd arg1 with
      | none => simp
      | some tried => simp [goTo, hback arg1 tried htried, hasks]

/-- Where the way back works, a line without `&` goes wrong only if `LASTD` can no longer be
entered, or if there are too many arguments and the trial of the first has moved `LASTD`. -/
theorem cdInStep_iff_settled (hmakes : ∃ cmd sh', createCommand chdir commandMaxArgs sh t =
      some (cmd, sh') ∧ cmd.kind = .cd) (hback : GoesBack chdir sh.cwd)
    (hamp : ∀ arg ∈ (parseCommandLine t).tail, '&' ∉ arg) :
    sh.CdInStep chdir t ans ↔
      sh.lastD = sh.cwd ∨ CdSettled chdir sh.cwd sh.lastD (parseCommandLine t).tail := by
  obtain ⟨cmd, sh', hc, hk⟩ := hmakes
  rw [cdInStep_iff_agrees hc hk]
  exact cdAgrees_iff_settled hback hamp

/-! ### Lines in a row -/

/-- `CreateCommand` makes a command `cd` of the line. -/
def SmallShell.MakesCd (chdir : Line → Line → Option Line) (sh : SmallShell) (t : Line) : Prop :=
  ∃ cmd sh', createCommand chdir commandMaxArgs sh t = some (cmd, sh') ∧ cmd.kind = .cd

/-- The shell and the directory that the last successful `cd` has left. -/
structure CdHistory where
  shell : SmallShell
  left : Line

/-- Lines one after the other. A line has succeeded when it has changed something and the working
directory is the one it asks for. -/
def cdLines (chdir : Line → Line → Option Line) : TransitionSystem CdHistory (Line × Answers) where
  init s := s.left = s.shell.lastD
  next s l :=
    (State.executeCommand chdir commandMaxArgs s.shell l.1 l.2).map fun s' =>
      let asked := requestedDir chdir s.shell.cwd s.shell.lastD (parseCommandLine l.1).tail
      let changed := s'.shell.cwd ≠ s.shell.cwd ∨ s'.shell.lastD ≠ s.shell.lastD
      ⟨s'.shell, if asked = some s'.shell.cwd ∧ changed then s.shell.cwd else s.left⟩

/-- Only lines of `cd` whose trial and change agree. -/
def CdLine (chdir : Line → Line → Option Line) (s : CdHistory) (l : Line × Answers) : Prop :=
  s.shell.MakesCd chdir l.1 ∧
    CdAgrees chdir s.shell.cwd s.shell.lastD (parseCommandLine l.1).tail

/-- The previous directory is the one that the last successful `cd` has left. -/
theorem cdLines_lastD {s : CdHistory} (h : (cdLines chdir).Reachable (CdLine chdir) s) :
    s.shell.lastD = s.left := by
  refine h.invariant (I := fun s => s.shell.lastD = s.left) (fun s hs => Eq.symm hs) ?_
  rintro s ⟨t, ans⟩ s' hs ⟨⟨cmd, sh', hc, hk⟩, hagrees⟩ hnext
  obtain ⟨s₁, hs₁, rfl⟩ := Option.map_eq_some_iff.mp hnext
  obtain ⟨s₂, hs₂, -, hstep⟩ := (cdInStep_iff_agrees hc hk).mpr hagrees
  cases Option.some.inj (hs₁.symm.trans hs₂)
  rcases hstep with ⟨hdir, hlast⟩ | ⟨hdir, hlast⟩
  · dsimp only
    split_ifs with hsucceeds
    · exact hlast
    · have hsame : s₁.shell.lastD = s.shell.lastD := by
        by_contra hne
        exact hsucceeds ⟨hdir, .inr hne⟩
      exact hsame.trans hs
  · dsimp only
    rw [if_neg (by simp [hdir, hlast]), hlast]
    exact hs

/-- Every line of `cd` keeps the working directory and the previous one in step exactly when the
trial of its directory and the change agree. After lines for which they do, `cd -` goes to the
directory that the last successful one has left. -/
theorem cd_in_step_iff (chdir : Line → Line → Option Line) :
    (∀ sh t ans, SmallShell.MakesCd chdir sh t →
      (sh.CdInStep chdir t ans ↔ CdAgrees chdir sh.cwd sh.lastD (parseCommandLine t).tail)) ∧
    ∀ s, (cdLines chdir).Reachable (CdLine chdir) s →
      s.shell.lastD = s.left ∧
      ∀ t ans dir, s.shell.MakesCd chdir t → (parseCommandLine t).tail = [['-']] → s.left ≠ [] →
        chdir s.shell.cwd s.left = some dir →
        ∃ s', State.executeCommand chdir commandMaxArgs s.shell t ans = some s' ∧
          s'.phase = .prompt ∧ s'.shell.cwd = dir := by
  constructor
  · rintro sh t ans ⟨cmd, sh', hc, hk⟩
    exact cdInStep_iff_agrees hc hk
  · intro s h
    have hlast := cdLines_lastD h
    refine ⟨hlast, ?_⟩
    rintro t ans dir ⟨cmd, sh', hc, hk⟩ htail hne hdir
    rw [← hlast] at hne hdir
    obtain ⟨arg0, args, ha, -, -⟩ := createCommand_cases hc
    rw [ha, List.tail_cons] at htail
    subst htail
    have hexec := (cd_dash hc hk ha hne).2
    rw [if_pos rfl, goTo, hdir, Option.getD_some] at hexec
    obtain ⟨s', hs', hphase, hcwd, -⟩ := executeCommand_cd hc hk hexec
    exact ⟨s', hs', hphase, hcwd⟩

/-- Two directories. -/
def twoDirs (_cwd path : Line) : Option Line :=
  if path = "/".toList ∨ path = "/d".toList then some path else none

/-- After `cd /d` the line `cd -` is back in `/`. -/
theorem cd_in_step_iff_back : ∃ s, (cdLines twoDirs).Reachable (CdLine twoDirs) s ∧
    s.shell.cwd = "/d".toList ∧ s.shell.lastD = "/".toList ∧
    ∀ ans, ∃ s', State.executeCommand twoDirs commandMaxArgs s.shell "cd -".toList ans = some s' ∧
      s'.shell.cwd = "/".toList := by
  have hline : CdLine twoDirs ⟨.new "/".toList, []⟩
      ("cd /d".toList, ⟨-1, 0, fun _ => 0, fun _ => 0⟩) := ⟨⟨_, _, rfl, rfl⟩, .inl rfl⟩
  obtain ⟨s, hr, hp⟩ := TransitionSystem.exists_of_step (S := cdLines twoDirs)
    (s := ⟨.new "/".toList, []⟩)
    ("cd /d".toList, ⟨-1, 0, fun _ => 0, fun _ => 0⟩)
    (fun s => s.shell.cwd == "/d".toList && s.shell.lastD == "/".toList && s.left == "/".toList &&
      (createCommand twoDirs commandMaxArgs s.shell "cd -".toList).any (·.1.kind = .cd))
    rfl hline (by decide +kernel)
  simp only [Bool.and_eq_true, beq_iff_eq] at hp
  obtain ⟨⟨⟨hcwd, hlast⟩, hleft⟩, hc⟩ := hp
  obtain ⟨⟨cmd, sh'⟩, hc, hk⟩ := (Option.any_eq_true _ _).mp hc
  refine ⟨s, hr, hcwd, hlast, fun ans => ?_⟩
  obtain ⟨s', hs', -, hs''⟩ := ((cd_in_step_iff twoDirs).2 s hr).2 "cd -".toList ans "/".toList
    ⟨cmd, sh', hc, by simpa using hk⟩ rfl (by simp [hleft]) (by simp [hleft, twoDirs])
  exact ⟨s', hs', hs''⟩

/-- `cd /d x` is refused for its arguments and makes the working directory the previous one. -/
theorem cd_moves_previous : ¬ ∀ sh t ans, SmallShell.MakesCd twoDirs sh t →
    sh.CdInStep twoDirs t ans := by
  intro h
  have hmakes : SmallShell.MakesCd twoDirs (.new "/".toList) "cd /d x".toList := ⟨_, _, rfl, rfl⟩
  obtain ⟨s, hs, -, hstep⟩ :=
    h (.new "/".toList) "cd /d x".toList ⟨-1, 0, fun _ => 0, fun _ => 0⟩ hmakes
  have hmoved : (some s).any (·.shell.lastD = "/".toList) = true := by
    rw [← hs]
    decide +kernel
  have hnone : requestedDir twoDirs "/".toList [] ["/d".toList, "x".toList] = none := rfl
  rcases hstep with ⟨hasked, -⟩ | ⟨-, hlast⟩
  · exact absurd (hnone.symm.trans hasked) (by simp)
  · simp [hlast, SmallShell.new] at hmoved

end FtfSystems.Shell

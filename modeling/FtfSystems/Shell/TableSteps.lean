import FtfSystems.Shell.CommandLines
import FtfSystems.Shell.Smash

/-!
# What the shell does to its job table

Each command changes the table through one operation of `JobsList`, or not at all. The inversion
lemmas here are what the invariants of the table are proved from.
-/
namespace FtfSystems.Shell
open Foundation

variable {js js' : JobsList} {sh sh' sh₁ : SmallShell} {cmd curr : Command} {calls : List SysCall}
  {jobId now pid : ℤ} {progress : Progress} {ans : Answers} {chdir : Line → Line → Option Line}
  {maxArgs : ℕ} {cmdLine : Line}

theorem JobsList.getJobById_middle {job : JobEntry} (pre post : List JobEntry)
    (hl : js.nonBuiltInCmd = pre ++ job :: post) (hpre : ∀ b ∈ pre, b.jId ≠ jobId)
    (hid : job.jId = jobId) : js.getJobById jobId = some job := by
  rw [getJobById, hl, List.find?_append, List.find?_eq_none.mpr (by simpa using hpre),
    List.find?_cons_of_pos (by simpa using hid)]
  rfl

theorem JobsList.modifyJob_middle {job : JobEntry} (pre post : List JobEntry)
    (hl : js.nonBuiltInCmd = pre ++ job :: post) (hpre : ∀ b ∈ pre, b.jId ≠ jobId)
    (hid : job.jId = jobId) (f : JobEntry → JobEntry) :
    js.modifyJob jobId f = { js with nonBuiltInCmd := pre ++ f job :: post } := by
  rw [modifyJob, hl, modifyFirst_append_cons (fun b hb => by simpa using hpre b hb)
    (by simpa using hid)]

theorem killExecute_cases (h : killExecute js cmd = some (js', calls)) :
    js' = js ∨ ∃ jobId sigNum, js' = (js.sendSigToJob jobId sigNum).1 := by
  by_cases hi : cmd.invalidArg
  · rw [killExecute, if_pos hi] at h
    exact .inl (congrArg Prod.fst (Option.some.inj h)).symm
  rw [killExecute, if_neg hi] at h
  simp only [Option.bind_eq_bind, Option.bind_eq_some_iff] at h
  obtain ⟨-, -, jobId, -, h⟩ := h
  by_cases hj : !cmd.jobIdIn
  · rw [if_pos hj] at h
    exact .inl (congrArg Prod.fst (Option.some.inj h)).symm
  rw [if_neg hj] at h
  simp only [Option.bind_eq_some_iff] at h
  obtain ⟨-, -, sigNum, -, -, -, h⟩ := h
  exact .inr ⟨jobId, sigNum, (congrArg Prod.fst (Option.some.inj h)).symm⟩

theorem quitExecute_cases (h : quitExecute js cmd = some (js', calls)) :
    js' = js ∨ cmd.optionalArg = true ∧ js.killAllJobs true = some (js', calls) := by
  by_cases ho : cmd.optionalArg
  · rw [quitExecute, if_pos ho] at h
    simp only [Option.bind_eq_bind, Option.bind_eq_some_iff] at h
    obtain ⟨arg1, -, h⟩ := h
    split at h
    · exact .inr ⟨ho, h⟩
    · exact .inl (congrArg Prod.fst (Option.some.inj h)).symm
  · rw [quitExecute, if_neg ho] at h
    exact .inl (congrArg Prod.fst (Option.some.inj h)).symm

theorem backgroundExecute_cases (h : backgroundExecute js cmd = some (js', calls)) :
    js' = js ∨ ∃ jobId, js' = setBackground (js.sendSigToJob jobId sigCont).1 jobId := by
  by_cases ho : !cmd.optionalArg ∧ !cmd.invalidArg
  · rw [backgroundExecute, if_pos ho] at h
    cases hl : js.getLastStoppedJob with
    | none =>
      rw [hl] at h
      exact .inl (congrArg Prod.fst (Option.some.inj h)).symm
    | some found =>
      simp only [hl, Option.bind_eq_bind, Option.bind_eq_some_iff] at h
      obtain ⟨-, -, -, -, h⟩ := h
      exact .inr ⟨found.1, (congrArg Prod.fst (Option.some.inj h)).symm⟩
  rw [backgroundExecute, if_neg ho] at h
  by_cases hi : cmd.invalidArg
  · rw [if_pos hi] at h
    exact .inl (congrArg Prod.fst (Option.some.inj h)).symm
  rw [if_neg hi] at h
  simp only [Option.bind_eq_bind, Option.bind_eq_some_iff] at h
  obtain ⟨-, -, jobId, -, h⟩ := h
  by_cases hj : !cmd.jobIdIn
  · rw [if_pos hj] at h
    exact .inl (congrArg Prod.fst (Option.some.inj h)).symm
  rw [if_neg hj] at h
  cases hg : js.getJobById jobId with
  | none =>
    rw [hg] at h
    exact .inl (congrArg Prod.fst (Option.some.inj h)).symm
  | some job =>
    simp only [hg] at h
    split at h
    · exact .inl (congrArg Prod.fst (Option.some.inj h)).symm
    · obtain ⟨-, -, h⟩ := Option.bind_eq_some_iff.mp h
      exact .inr ⟨jobId, (congrArg Prod.fst (Option.some.inj h)).symm⟩

theorem foregroundResume_eq (h : foregroundResume js jobId = some (js', pid, calls)) :
    js' = (js.sendSigToJob jobId sigCont).1 ∧ ∃ job, js.getJobById jobId = some job ∧ job.pId = pid := by
  simp only [foregroundResume, Option.bind_eq_bind, Option.bind_eq_some_iff] at h
  obtain ⟨job, hjob, -, -, h⟩ := h
  obtain ⟨hjs, hpid, -⟩ : (js.sendSigToJob jobId sigCont).1 = js' ∧ job.pId = pid ∧ _ = calls := by
    simpa using h
  exact ⟨hjs.symm, job, hjob, hpid⟩

theorem foregroundFinish_cases (h : foregroundFinish js jobId now = some js') :
    ∃ js₁, (js₁ = js ∨ js₁ = js.removeJobById jobId) ∧
      (js' = js₁ ∨ js₁.setNewId jobId now = some js') := by
  rw [foregroundFinish] at h
  cases hg : js.getJobById jobId with
  | none =>
    rw [hg] at h
    exact ⟨js, .inl rfl, .inl (Option.some.inj h).symm⟩
  | some job =>
    simp only [hg] at h
    refine ⟨if job.jStatus ≠ .stopped then js.removeJobById jobId else js, ?_, ?_⟩
    · split_ifs
      · exact .inr rfl
      · exact .inl rfl
    · generalize (if job.jStatus ≠ .stopped then js.removeJobById jobId else js) = js₁ at h ⊢
      cases hg₁ : js₁.getJobById jobId with
      | none =>
        rw [hg₁] at h
        exact .inl (Option.some.inj h).symm
      | some job₁ =>
        simp only [hg₁] at h
        split at h
        · exact .inr h
        · exact .inl (Option.some.inj h).symm

/-- What a command that is neither a redirection nor external may do to the job table. -/
inductive Change (cmd : Command) (js : JobsList) : JobsList → Prop
  | same : Change cmd js js
  | reap (answers : ℕ → ℤ) : Change cmd js (js.removeFinishedJobs answers).1
  | signal (jobId sigNum : ℤ) : Change cmd js (js.sendSigToJob jobId sigNum).1
  | resume (jobId : ℤ) : Change cmd js (setBackground (js.sendSigToJob jobId sigCont).1 jobId)
  | killAll {js' : JobsList} {calls : List SysCall} (hk : cmd.kind = .quit)
      (ho : cmd.optionalArg = true) (h : js.killAllJobs true = some (js', calls)) : Change cmd js js'

theorem foregroundExecute_change
    (h : sh.foregroundExecute cmd = some (sh', progress, calls)) : Change cmd sh.jobs sh'.jobs := by
  obtain ⟨selected, -, h⟩ := Option.bind_eq_some_iff.mp h
  cases selected with
  | none =>
    cases Option.some.inj h
    exact .same
  | some jobId =>
    obtain ⟨⟨js, pid, calls'⟩, hr, h⟩ := Option.bind_eq_some_iff.mp h
    obtain ⟨rfl, -⟩ := foregroundResume_eq hr
    cases Option.some.inj h
    exact .signal jobId sigCont

theorem executeDirect_change (hne : cmd.kind ≠ .external)
    (h : sh.executeDirect chdir curr cmd ans = some (sh', progress, calls)) :
    Change cmd sh.jobs sh'.jobs := by
  have onJobs {r : Option (JobsList × List SysCall)}
      (h : (r.map fun x => ({ sh with jobs := x.1 }, Progress.returned, x.2)) =
        some (sh', progress, calls)) : r = some (sh'.jobs, calls) := by
    obtain ⟨⟨js, calls'⟩, hr, he⟩ := Option.map_eq_some_iff.mp h
    obtain ⟨rfl, -, rfl⟩ : { sh with jobs := js } = sh' ∧ _ = progress ∧ calls' = calls := by
      simpa using he
    exact hr
  cases hk : cmd.kind with
  | redirection => simp [SmallShell.executeDirect, hk] at h
  | pipe | pwd | chprompt | showpid | cat =>
    simp only [SmallShell.executeDirect, hk] at h
    cases Option.some.inj h
    exact .same
  | cd =>
    simp only [SmallShell.executeDirect, hk] at h
    obtain ⟨dir, -, h⟩ := Option.map_eq_some_iff.mp h
    cases h
    exact .same
  | jobs =>
    simp only [SmallShell.executeDirect, hk] at h
    have hj : sh'.jobs = _ := (congrArg Prod.fst (Option.some.inj (onJobs h))).symm
    exact hj ▸ .reap _
  | kill =>
    simp only [SmallShell.executeDirect, hk] at h
    rcases killExecute_cases (onJobs h) with hj | ⟨jobId, sigNum, hj⟩
    · exact hj ▸ .same
    · exact hj ▸ .signal jobId sigNum
  | quit =>
    simp only [SmallShell.executeDirect, hk] at h
    rcases quitExecute_cases (onJobs h) with hj | ⟨ho, hj⟩
    · exact hj ▸ .same
    · exact .killAll hk ho hj
  | bg =>
    simp only [SmallShell.executeDirect, hk] at h
    rcases backgroundExecute_cases (onJobs h) with hj | ⟨jobId, hj⟩
    · exact hj ▸ .same
    · exact hj ▸ .resume jobId
  | fg =>
    simp only [SmallShell.executeDirect, hk] at h
    exact foregroundExecute_change h
  | external => exact absurd hk hne

theorem executeDirect_external (hk : cmd.kind = .external)
    (h : sh.executeDirect chdir curr cmd ans = some (sh', progress, calls)) :
    sh'.jobs = sh.jobs ∨ cmd.backgroundCmd = true ∧ cmd.list = true ∧
      sh.jobs.setLastPid ans.fork = some sh'.jobs := by
  simp only [SmallShell.executeDirect, hk] at h
  obtain ⟨⟨sh₁, progress₁⟩, h₁, h⟩ := Option.map_eq_some_iff.mp h
  cases h
  rw [SmallShell.externalExecute] at h₁
  split_ifs at h₁ with hpid hb hl
  · cases Option.some.inj h₁
    exact .inl rfl
  · cases Option.some.inj h₁
    exact .inl rfl
  · obtain ⟨js, hjs, h₁⟩ := Option.bind_eq_some_iff.mp h₁
    cases Option.some.inj h₁
    exact .inr ⟨by simpa using hb, by simpa using hl, hjs⟩

/-- What the table relies on about a command that `CreateCommand` has made. -/
structure Command.Created (cmdLine : Line) (cmd : Command) : Prop where
  text : cmd.enteredCmd = cmdLine
  unlisted : cmd.kind = .external → cmd.list = false
  background : cmd.backgroundCmd = true → cmd.kind = .external ∧ cmd.builtInCmd = false
  quits : cmd.kind = .quit → cmd.builtInCmd = true ∧
    ∃ arg0, cmd.args[0]? = some arg0 ∧ eraseChar '&' arg0 = "quit".toList

theorem Command.Created.of_kind {k : CommandKind} (hk : cmd.kind = k)
    (hne : k ≠ .external ∧ k ≠ .quit) (ht : cmd.enteredCmd = cmdLine)
    (hb : cmd.backgroundCmd = false) : cmd.Created cmdLine where
  text := ht
  unlisted h := absurd (hk.symm.trans h) hne.1
  background h := by simp [hb] at h
  quits h := absurd (hk.symm.trans h) hne.2

theorem createKill_created (args : List Line) : (createKill js cmdLine args).Created cmdLine := by
  unfold createKill
  split
  · split_ifs <;> exact .of_kind (k := .kill) rfl (by decide) rfl rfl
  · exact .of_kind (k := .kill) rfl (by decide) rfl rfl

theorem createForeground_created (args : List Line) :
    (createForeground js cmdLine args).Created cmdLine := by
  unfold createForeground
  split
  · dsimp only
    split_ifs <;> exact .of_kind (k := .fg) rfl (by decide) rfl rfl
  · exact .of_kind (k := .fg) rfl (by decide) rfl rfl
  · exact .of_kind (k := .fg) rfl (by decide) rfl rfl

theorem createBackground_created (args : List Line) :
    (createBackground js cmdLine args).Created cmdLine := by
  unfold createBackground
  split
  · dsimp only
    split_ifs <;> exact .of_kind (k := .bg) rfl (by decide) rfl rfl
  · exact .of_kind (k := .bg) rfl (by decide) rfl rfl
  · exact .of_kind (k := .bg) rfl (by decide) rfl rfl

theorem createQuit_created {arg0 : Line} (rest : List Line)
    (h0 : eraseChar '&' arg0 = "quit".toList) :
    (createQuit cmdLine (arg0 :: rest)).Created cmdLine := by
  have hcmd (n : ℕ) (optionalArg : Bool) : Command.Created cmdLine
      { Command.builtIn .quit cmdLine with
        list := true, args := (arg0 :: rest).take (n + 1), optionalArg := optionalArg } :=
    { text := rfl
      unlisted := fun h => by cases h
      background := fun h => by simp [Command.builtIn] at h
      quits := fun _ => ⟨rfl, arg0, rfl, h0⟩ }
  rw [createQuit]
  split
  · split_ifs
    · exact hcmd 1 true
    · exact hcmd 0 false
  · exact hcmd 0 false

theorem createChangeDir_created (args : List Line) :
    (createChangeDir chdir sh cmdLine args).1.Created cmdLine ∧
      (createChangeDir chdir sh cmdLine args).2.jobs = sh.jobs := by
  unfold createChangeDir
  cases args[1]? with
  | none => exact ⟨.of_kind (k := .cd) rfl (by decide) rfl rfl, rfl⟩
  | some arg1 =>
    dsimp only
    cases chdir sh.cwd arg1 with
    | none => split_ifs <;> exact ⟨.of_kind (k := .cd) rfl (by decide) rfl rfl, rfl⟩
    | some dir => split_ifs <;> exact ⟨.of_kind (k := .cd) rfl (by decide) rfl rfl, rfl⟩

theorem createByName_created (arg0 : Line) (rest : List Line) :
    (createByName chdir sh cmdLine arg0 rest).1.Created cmdLine ∧
      (createByName chdir sh cmdLine arg0 rest).2.jobs = sh.jobs := by
  apply createByName_rule (P := fun r => r.1.Created cmdLine ∧ r.2.jobs = sh.jobs)
  · intro kind hkind list newlen
    refine ⟨.of_kind (k := kind) rfl ?_ rfl rfl, rfl⟩
    revert kind
    decide
  · exact fun _ => createChangeDir_created _
  · exact ⟨createKill_created _, rfl⟩
  · exact ⟨createForeground_created _, rfl⟩
  · exact ⟨createBackground_created _, rfl⟩
  · exact fun hquit => ⟨createQuit_created rest hquit, rfl⟩
  · exact fun _ => ⟨.of_kind (k := .cat) rfl (by decide) rfl rfl, rfl⟩
  · refine ⟨⟨rfl, fun _ => rfl, fun _ => ⟨rfl, rfl⟩, fun h => ?_⟩, rfl⟩
    cases h

theorem createCommand_created (h : createCommand chdir maxArgs sh cmdLine = some (cmd, sh')) :
    cmd.Created cmdLine ∧ sh'.jobs = sh.jobs := by
  obtain ⟨arg0, rest, -, -, ⟨-, rfl, args, optionalArg, rfl⟩ | ⟨-, rfl, rfl⟩ | ⟨-, -, hn⟩⟩ :=
    createCommand_cases h
  · exact ⟨.of_kind (k := .pipe) rfl (by decide) rfl rfl, rfl⟩
  · exact ⟨.of_kind (k := .redirection) rfl (by decide) rfl rfl, rfl⟩
  · have hc : (createByName chdir sh cmdLine arg0 rest).1.Created cmdLine ∧
        (createByName chdir sh cmdLine arg0 rest).2.jobs = sh.jobs := createByName_created arg0 rest
    rw [hn] at hc
    exact hc

theorem redirected_cases {n : ℕ}
    (h : SmallShell.redirected chdir maxArgs n sh curr = some (cmd, sh')) :
    sh'.jobs = sh.jobs ∧ (cmd = curr ∧ curr.kind ≠ .redirection ∨
      curr.kind = .redirection ∧ ∃ text, cmd.Created text) := by
  induction n generalizing sh curr with
  | zero => cases h
  | succ n ih =>
    rw [SmallShell.redirected] at h
    split_ifs at h with hk
    · obtain ⟨⟨inner, sh₁⟩, hc, h⟩ := Option.bind_eq_some_iff.mp h
      obtain ⟨hcreated, hjobs⟩ := createCommand_created hc
      obtain ⟨hjobs', hcmd⟩ := ih h
      refine ⟨hjobs'.trans hjobs, .inr ⟨hk, ?_⟩⟩
      rcases hcmd with ⟨rfl, -⟩ | ⟨-, hcmd⟩
      · exact ⟨_, hcreated⟩
      · exact hcmd
    · cases Option.some.inj h
      exact ⟨rfl, .inl ⟨rfl, hk⟩⟩

theorem finish_cases {s : State} {reap : ℕ → ℤ} (h : State.finish sh curr reap = some s) :
    s.phase = .exited ∨
      s.phase = .prompt ∧ s.shell.jobs = (sh.jobs.removeFinishedJobs reap).1 := by
  simp only [State.finish, SmallShell.finishCommand, Option.map_map, Option.map_eq_some_iff] at h
  obtain ⟨quits, -, rfl⟩ := h
  cases quits with
  | true => exact .inl rfl
  | false => exact .inr ⟨rfl, rfl⟩

/-- A `quit` that is not redirected ends the shell. -/
theorem finish_quit {s : State} {reap : ℕ → ℤ} (hc : curr.Created cmdLine) (hk : curr.kind = .quit)
    (h : State.finish sh { curr with list := true } reap = some s) : s.phase = .exited := by
  obtain ⟨hb, arg0, ha, he⟩ := hc.quits hk
  have hq : Command.quits { curr with list := true } = some true := by
    rw [Command.quits, if_pos hb, ha, Option.map_some, he, decide_eq_true rfl]
  rw [State.finish, SmallShell.finishCommand, hq] at h
  cases Option.some.inj h
  rfl

/-- The line is a redirected `quit kill`, after which the shell goes on. -/
def SmallShell.killsAndStays (chdir : Line → Line → Option Line) (maxArgs : ℕ) (sh : SmallShell)
    (cmdLine : Line) : Bool :=
  match createCommand chdir maxArgs sh cmdLine with
  | none => false
  | some (curr, sh) => curr.kind = .redirection ∧
      (redirected chdir maxArgs (curr.enteredCmd.length + 1) sh { curr with list := true }).any
        fun (cmd, _) => cmd.kind = .quit ∧ cmd.optionalArg

/-- The line starts an external command in the background. -/
def SmallShell.startsJob (chdir : Line → Line → Option Line) (maxArgs : ℕ) (sh : SmallShell)
    (cmdLine : Line) : Bool :=
  (createCommand chdir maxArgs sh cmdLine).any fun (curr, _) => !curr.builtInCmd ∧ curr.backgroundCmd

/-- What a line may do to the job table before the finished jobs are removed. -/
inductive LineChange (chdir : Line → Line → Option Line) (maxArgs : ℕ) (sh : SmallShell)
    (cmdLine : Line) : JobsList → Prop
  | same : LineChange chdir maxArgs sh cmdLine sh.jobs
  | reap (answers : ℕ → ℤ) : LineChange chdir maxArgs sh cmdLine (sh.jobs.removeFinishedJobs answers).1
  | signal (jobId sigNum : ℤ) : LineChange chdir maxArgs sh cmdLine (sh.jobs.sendSigToJob jobId sigNum).1
  | resume (jobId : ℤ) :
      LineChange chdir maxArgs sh cmdLine (setBackground (sh.jobs.sendSigToJob jobId sigCont).1 jobId)
  | killAll {js' : JobsList} {calls : List SysCall} (hs : sh.killsAndStays chdir maxArgs cmdLine = true)
      (h : sh.jobs.killAllJobs true = some (js', calls)) : LineChange chdir maxArgs sh cmdLine js'
  | add (now : ℤ) (hs : sh.startsJob chdir maxArgs cmdLine = true) :
      LineChange chdir maxArgs sh cmdLine (sh.jobs.addJob cmdLine false false now)
  | start {js' : JobsList} (now pid : ℤ) (hs : sh.startsJob chdir maxArgs cmdLine = true)
      (h : (sh.jobs.addJob cmdLine false false now).setLastPid pid = some js') :
      LineChange chdir maxArgs sh cmdLine js'

theorem Change.lineChange (h : Change cmd sh.jobs js')
    (hk : cmd.kind = .quit → cmd.optionalArg = true → sh.killsAndStays chdir maxArgs cmdLine = true) :
    LineChange chdir maxArgs sh cmdLine js' := by
  cases h with
  | same => exact .same
  | reap answers => exact .reap answers
  | signal jobId sigNum => exact .signal jobId sigNum
  | resume jobId => exact .resume jobId
  | killAll hq ho h => exact .killAll (hk hq ho) h

theorem executeDirect_quit (hk : cmd.kind = .quit)
    (h : sh.executeDirect chdir curr cmd ans = some (sh', progress, calls)) :
    progress = .returned := by
  simp only [SmallShell.executeDirect, hk] at h
  obtain ⟨effect, heffect, h⟩ := Option.map_eq_some_iff.mp h
  cases h
  rfl

theorem execute_cases (h : sh.execute chdir maxArgs curr ans = some (sh', progress, calls)) :
    sh'.jobs = sh.jobs ∨
    curr.kind = .external ∧ curr.backgroundCmd = true ∧
      sh.jobs.setLastPid ans.fork = some sh'.jobs ∨
    ∃ cmd sh₂, SmallShell.redirected chdir maxArgs (curr.enteredCmd.length + 1) sh curr =
        some (cmd, sh₂) ∧ Change cmd sh.jobs sh'.jobs ∧ curr.kind ≠ .external ∧
      (cmd.kind = .quit → progress = .returned) := by
  obtain ⟨⟨cmd, sh₂⟩, hr, he⟩ := Option.bind_eq_some_iff.mp h
  obtain ⟨hjobs, hcmd⟩ := redirected_cases hr
  by_cases hext : cmd.kind = .external
  · rcases executeDirect_external hext he with hsame | ⟨hbg, hlist, hpid⟩
    · exact .inl (hsame.trans hjobs)
    · -- the list of a redirected external command is not set
      rcases hcmd with ⟨rfl, -⟩ | ⟨-, text, hcreated⟩
      · exact .inr (.inl ⟨hext, hbg, hjobs ▸ hpid⟩)
      · simp [hcreated.unlisted hext] at hlist
  · refine .inr (.inr ⟨cmd, sh₂, hr, hjobs ▸ executeDirect_change hext he, ?_,
      fun hk => executeDirect_quit hk he⟩)
    rcases hcmd with ⟨rfl, -⟩ | ⟨hk, -⟩
    · exact hext
    · simp [hk]

/-- A line changes the table in one of the ways of `LineChange`, unless it ends the shell. -/
theorem executeCommand_cases {s : State}
    (h : State.executeCommand chdir maxArgs sh cmdLine ans = some s) :
    s.phase = .exited ∨ ∃ js', LineChange chdir maxArgs sh cmdLine js' ∧
      (s.shell.jobs = js' ∨ ∃ answers, s.shell.jobs = (js'.removeFinishedJobs answers).1) := by
  simp only [State.executeCommand, Option.bind_eq_bind, Option.bind_eq_some_iff] at h
  obtain ⟨⟨curr, sh₁⟩, hc, ⟨sh₃, progress, calls⟩, he, h⟩ := h
  obtain ⟨hcreated, hjobs⟩ := createCommand_created hc
  -- the wait, or the end of the command, comes after the change of the table
  have hend : s.phase = .exited ∨ s.shell.jobs = sh₃.jobs ∨
      ∃ answers, s.shell.jobs = (sh₃.jobs.removeFinishedJobs answers).1 := by
    cases progress with
    | returned =>
      rcases finish_cases h with h | ⟨-, h⟩
      · exact .inl h
      · exact .inr (.inr ⟨_, h⟩)
    | waitsExternal =>
      cases Option.some.inj h
      exact .inr (.inl rfl)
    | waitsForeground jobId =>
      cases Option.some.inj h
      exact .inr (.inl rfl)
  rcases hend with hend | hend
  · exact .inl hend
  suffices hl : s.phase = .exited ∨ LineChange chdir maxArgs sh cmdLine sh₃.jobs by
    exact hl.imp_right fun hl => ⟨_, hl, hend⟩
  dsimp only at he
  by_cases hb : !curr.builtInCmd ∧ curr.backgroundCmd
  · have hkind := (hcreated.background hb.2).1
    have hs : sh.startsJob chdir maxArgs cmdLine = true := by
      simp only [SmallShell.startsJob, hc, Option.any_some]
      simpa using hb
    rw [if_pos hb, hjobs] at he
    rcases execute_cases he with h₃ | ⟨-, -, h₃⟩ | ⟨-, -, -, -, hne, -⟩
    · rw [h₃]
      exact .inr (.add _ hs)
    · exact .inr (.start _ _ hs h₃)
    · exact absurd hkind hne
  · rw [if_neg hb] at he
    rcases execute_cases he with h₃ | ⟨-, hbg, -⟩ | ⟨cmd, sh₂, hr, hchange, -, hret⟩
    · rw [h₃, hjobs]
      exact .inr .same
    · exact absurd ⟨by simp [(hcreated.background hbg).2], hbg⟩ hb
    · rw [hjobs] at hchange
      rcases (redirected_cases hr).2 with ⟨rfl, hk⟩ | ⟨hk, -⟩
      · by_cases hq : curr.kind = .quit
        · rw [hret hq] at h
          exact .inl (finish_quit hcreated hq h)
        · exact .inr (hchange.lineChange fun hq' => absurd hq' hq)
      · refine .inr (hchange.lineChange fun hq ho => ?_)
        simp only [SmallShell.killsAndStays, hc]
        rw [hr]
        simpa [hq, ho] using hk

/-- What an event may do to the job table before the finished jobs are removed. -/
inductive TableChange (chdir : Line → Line → Option Line) (sh : SmallShell) : Event → JobsList → Prop
  | same {ev : Event} : TableChange chdir sh ev sh.jobs
  | line {cmdLine : Line} {ans : Answers} {js' : JobsList}
      (h : LineChange chdir commandMaxArgs sh cmdLine js') : TableChange chdir sh (.line cmdLine ans) js'
  | ctrlZ {now : ℤ} {js' : JobsList} (hpid : sh.forPid ≠ -1)
      (h : sh.jobs.ctrlZ sh.forPid sh.forCmd now = some js') : TableChange chdir sh (.ctrlZ now) js'
  | ctrlC (hpid : sh.forPid ≠ -1) : TableChange chdir sh .ctrlC (sh.jobs.ctrlC sh.forPid)
  | foreground {status : Option WaitStatus} {jobId now : ℤ} {reap : ℕ → ℤ} {js' : JobsList}
      (h : foregroundFinish sh.jobs jobId now = some js') :
      TableChange chdir sh (.waited status now reap) js'

/-- Every step of the shell is one of `TableChange`, unless it ends the shell. -/
theorem next_cases {s s' : State} {ev : Event} (h : State.next chdir s ev = some s') :
    s.phase ≠ .exited ∧ (s'.phase = .exited ∨ ∃ js', TableChange chdir s.shell ev js' ∧
      (s'.shell.jobs = js' ∨ ∃ answers, s'.shell.jobs = (js'.removeFinishedJobs answers).1)) := by
  obtain ⟨sh, phase⟩ := s
  cases ev with
  | line cmdLine ans =>
    obtain ⟨rfl, rfl | h⟩ := State.next_line h
    · exact ⟨by simp, .inr ⟨_, .same, .inl rfl⟩⟩
    · refine ⟨by simp, ?_⟩
      rcases executeCommand_cases h with h | ⟨js', hl, hj⟩
      · exact .inl h
      · exact .inr ⟨js', .line hl, hj⟩
  | ctrlZ now =>
    have hz (hm : (sh.ctrlZHandler now).map (fun x => (⟨x.1, phase⟩ : State)) = some s') :
        ∃ js', TableChange chdir sh (.ctrlZ now) js' ∧ s'.shell.jobs = js' := by
      obtain ⟨⟨sh', calls⟩, hh, rfl⟩ := Option.map_eq_some_iff.mp hm
      rw [SmallShell.ctrlZHandler] at hh
      split at hh
      · cases Option.some.inj hh
        exact ⟨_, .same, rfl⟩
      · rename_i hpid
        obtain ⟨js', hjs, hh⟩ := Option.bind_eq_some_iff.mp hh
        cases Option.some.inj hh
        exact ⟨js', .ctrlZ hpid hjs, rfl⟩
    cases phase with
    | exited => cases h
    | prompt | external | foreground =>
      obtain ⟨js', hc, hj⟩ := hz h
      exact ⟨by simp, .inr ⟨js', hc, .inl hj⟩⟩
  | ctrlC =>
    have hc : ∃ js', TableChange chdir sh .ctrlC js' ∧ sh.ctrlCHandler.1.jobs = js' := by
      rw [SmallShell.ctrlCHandler]
      split_ifs with hpid
      · exact ⟨_, .same, rfl⟩
      · exact ⟨_, .ctrlC hpid, rfl⟩
    obtain ⟨js', hc, hj⟩ := hc
    cases phase with
    | exited => cases h
    | prompt | external | foreground =>
      cases Option.some.inj h
      exact ⟨by simp, .inr ⟨js', hc, .inl hj⟩⟩
  | waited status now reap =>
    cases phase with
    | prompt | exited => cases h
    | external curr =>
      refine ⟨by simp, ?_⟩
      rcases finish_cases h with h | ⟨-, h⟩
      · exact .inl h
      · exact .inr ⟨_, .same, .inr ⟨_, h⟩⟩
    | foreground curr jobId =>
      obtain ⟨js', hf, h⟩ := Option.bind_eq_some_iff.mp h
      refine ⟨by simp, ?_⟩
      rcases finish_cases h with h | ⟨-, h⟩
      · exact .inl h
      · exact .inr ⟨js', .foreground hf, .inr ⟨_, h⟩⟩

/-- What the steps of the shell and the removal of finished jobs keep, holds of its job table as
long as the shell runs. -/
theorem smash_table_invariant {I : JobsList → Prop} {ok : State → Event → Prop} (hnew : I .new)
    (hreap : ∀ js answers, I js → I (js.removeFinishedJobs answers).1)
    (hstep : ∀ s ev js', I s.shell.jobs → ok s ev → TableChange chdir s.shell ev js' → I js')
    {s : State} (h : (smash chdir).Reachable ok s) (hrun : s.phase ≠ .exited) : I s.shell.jobs := by
  refine h.invariant (I := fun s => s.phase ≠ .exited → I s.shell.jobs) ?_ ?_ hrun
  · rintro s ⟨cwd, rfl⟩ -
    exact hnew
  · intro s ev s' ih hok hs hrun
    obtain ⟨hrun₀, hcases⟩ := next_cases hs
    obtain ⟨js', hc, hj⟩ := hcases.resolve_left hrun
    have hI := hstep s ev js' (ih hrun₀) hok hc
    rcases hj with hj | ⟨answers, hj⟩
    · exact hj ▸ hI
    · exact hj ▸ hreap js' answers hI

end FtfSystems.Shell

import FtfSystems.Shell.JobsList

/-!
# Commands: `CreateCommand` and the built-in commands of `Commands.cpp`

A command line becomes a `Command`; what the built-in commands do to the job table is a partial
function that has no result where the code dereferences a null pointer, indexes past the end of
a vector or lets an exception out. What is printed is left out.
-/
namespace FtfSystems.Shell

/-- The class of a command. -/
inductive CommandKind where
  | pipe
  | redirection
  | pwd
  | cd
  | chprompt
  | showpid
  | jobs
  | kill
  | fg
  | bg
  | quit
  | cat
  | external
  deriving DecidableEq

/-- `Command`; `list` tells whether the pointer to the job table is set. -/
structure Command where
  kind : CommandKind
  enteredCmd : Line
  args : List Line := []
  optionalArg : Bool := false
  builtInCmd : Bool := false
  backgroundCmd : Bool := false
  list : Bool := false
  lastD : Option Line := none
  invalidArg : Bool := false
  jobIdIn : Bool := true
  tooManyArgs : Bool := false
  oldPwdNull : Bool := false
  listEmpty : Bool := false

/-- `SmallShell` and the working directory of its process; `forCmd` is the text of `for_cmd`. -/
structure SmallShell where
  jobs : JobsList
  newlen : Line
  lastD : Line
  forPid : ℤ
  forCmd : Option Line
  cwd : Line

/-- The constructor. -/
def SmallShell.new (cwd : Line) : SmallShell :=
  ⟨.new, "smash".toList, [], -1, none, cwd⟩

/-- `COMMAND_MAX_ARGS`. -/
def commandMaxArgs : ℕ := 20

/-- A built-in command after its constructor. -/
def Command.builtIn (kind : CommandKind) (cmdLine : Line) : Command where
  kind := kind
  enteredCmd := cmdLine
  builtInCmd := true

/-- The branch of `CreateCommand` for `kill`. -/
def createKill (js : JobsList) (cmdLine : Line) (args : List Line) : Command :=
  let cmd := { Command.builtIn .kill cmdLine with list := true, args := args.take 1 }
  match args with
  | _ :: arg1 :: arg2 :: rest =>
    if arg1.head? ≠ some '-' ∨ !isNumber (eraseChar '&' arg2) ∨ !isNumber (eraseChar '-' arg1) then
      { cmd with invalidArg := true }
    else
      { cmd with
        args := args
        jobIdIn := js.isJobIdIn (toInt (strtol arg2))
        optionalArg := true
        invalidArg := rest.any (· ≠ ['&']) }
  | _ => { cmd with invalidArg := true }

/-- The branch of `CreateCommand` for `fg`. -/
def createForeground (js : JobsList) (cmdLine : Line) (args : List Line) : Command :=
  let cmd := { Command.builtIn .fg cmdLine with list := true, args := args.take 2 }
  match args with
  | [_, arg1] =>
    let str := eraseChar '&' arg1
    if !isNumber str then { cmd with optionalArg := true, invalidArg := true }
    else { cmd with optionalArg := true, jobIdIn := js.isJobIdIn (toInt (strtol str)) }
  | _ :: _ :: _ :: _ => { cmd with optionalArg := true, invalidArg := true }
  | _ => { cmd with listEmpty := js.isListEmpty }

/-- The branch of `CreateCommand` for `bg`: unlike `fg` it takes a lone `&` for no argument. -/
def createBackground (js : JobsList) (cmdLine : Line) (args : List Line) : Command :=
  let cmd := { Command.builtIn .bg cmdLine with list := true, args := args.take 2 }
  match args with
  | [_, arg1] =>
    let str := eraseChar '&' arg1
    if str = [] then cmd
    else if !isNumber str then { cmd with optionalArg := true, invalidArg := true }
    else { cmd with optionalArg := true, jobIdIn := js.isJobIdIn (toInt (strtol str)) }
  | _ :: _ :: _ :: _ => { cmd with optionalArg := true, invalidArg := true }
  | _ => cmd

/-- The branch of `CreateCommand` for `quit`. -/
def createQuit (cmdLine : Line) (args : List Line) : Command :=
  let cmd := { Command.builtIn .quit cmdLine with list := true, args := args.take 1 }
  match args[1]? with
  | some arg1 =>
    if eraseChar '&' arg1 = "kill".toList then { cmd with args := args.take 2, optionalArg := true }
    else cmd
  | none => cmd

/-- The branch of `CreateCommand` for `cat`. -/
def createCat (cmdLine : Line) (args : List Line) : Command :=
  let words := parseCat cmdLine
  { Command.builtIn .cat cmdLine with
    args := words, optionalArg := 2 ≤ words.length ∧ 2 ≤ args.length }

/-- The last branch of `CreateCommand`. -/
def createExternal (cmdLine : Line) (args : List Line) : Command where
  kind := .external
  enteredCmd := cmdLine
  args := args
  optionalArg := 2 ≤ args.length
  backgroundCmd := isBackgroundCommand cmdLine

section
variable (chdir : Line → Line → Option Line)

/-- The branch of `CreateCommand` for `cd`, which already tries the directory and moves `LASTD`;
`chdir` gives the directory a path leads to. -/
def createChangeDir (sh : SmallShell) (cmdLine : Line) (args : List Line) : Command × SmallShell :=
  let cmd := { Command.builtIn .cd cmdLine with
    lastD := if sh.lastD = [] then none else some sh.lastD
    args := args.take 2
    optionalArg := 2 ≤ args.length
    tooManyArgs := 3 ≤ args.length }
  match args[1]? with
  | none => (cmd, sh)
  | some arg1 =>
    if arg1 = ['-'] then
      if sh.lastD = [] then ({ cmd with oldPwdNull := true }, sh)
      else (cmd, { sh with lastD := sh.cwd })
    else match chdir sh.cwd arg1 with
      | none => (cmd, sh)
      | some dir => (cmd, { sh with lastD := sh.cwd, cwd := (chdir dir sh.cwd).getD dir })

/-- The end of `CreateCommand`, which goes by the first word. -/
def createByName (sh : SmallShell) (cmdLine arg0 : Line) (rest : List Line) :
    Command × SmallShell :=
  let firstWord := eraseChar '&' arg0
  let simple kind := { Command.builtIn kind cmdLine with args := [arg0] }
  if firstWord = "pwd".toList then (simple .pwd, sh)
  else if firstWord = "cd".toList then createChangeDir chdir sh cmdLine (arg0 :: rest)
  else if firstWord = "chprompt".toList then
    let prompt := (rest.head?.map (eraseChar '&')).getD "smash".toList
    (simple .chprompt, { sh with newlen := prompt })
  else if firstWord = "showpid".toList then (simple .showpid, sh)
  else if firstWord = "jobs".toList then ({ simple .jobs with list := true }, sh)
  else if firstWord = "kill".toList then (createKill sh.jobs cmdLine (arg0 :: rest), sh)
  else if firstWord = "fg".toList then (createForeground sh.jobs cmdLine (arg0 :: rest), sh)
  else if firstWord = "bg".toList then (createBackground sh.jobs cmdLine (arg0 :: rest), sh)
  else if firstWord = "quit".toList then (createQuit cmdLine (arg0 :: rest), sh)
  else if firstWord = "cat".toList then (createCat cmdLine (arg0 :: rest), sh)
  else (createExternal cmdLine (arg0 :: rest), sh)

/-- `CreateCommand` with room for `maxArgs` words; there is no result when the words and the
null pointer after them do not fit, or when there is no word. -/
def createCommand (maxArgs : ℕ) (sh : SmallShell) (cmdLine : Line) :
    Option (Command × SmallShell) :=
  let args := parseCommandLine cmdLine
  if maxArgs ≤ args.length then none
  else match args with
    | [] => none
    | arg0 :: rest =>
      if ['|'] ∈ args ∨ ['|', '&'] ∈ args then
        some ({ kind := .pipe, enteredCmd := cmdLine, args := args, optionalArg := true }, sh)
      else if contains ['>', '>'] cmdLine ∨ contains ['>'] cmdLine then
        some ({ kind := .redirection, enteredCmd := cmdLine }, sh)
      else if contains ['|'] cmdLine ∨ contains ['|', '&'] cmdLine then
        some ({ kind := .pipe, enteredCmd := cmdLine }, sh)
      else some (createByName chdir sh cmdLine arg0 rest)

/-- The directory after `ChangeDirCommand::execute`. -/
def changeDirExecute (cwd : Line) (cmd : Command) : Option Line :=
  if !cmd.optionalArg ∨ cmd.tooManyArgs then some cwd
  else do
    let arg1 ← cmd.args[1]?
    if arg1 ≠ ['-'] then return (chdir cwd (eraseChar '&' arg1)).getD cwd
    else if cmd.oldPwdNull then return cwd
    else match cmd.lastD with
      | none => return cwd
      | some dir => return (chdir cwd dir).getD cwd

end

theorem createKill_kind (js : JobsList) (cmdLine : Line) (args : List Line) :
    (createKill js cmdLine args).kind = .kill ∧ (createKill js cmdLine args).builtInCmd = true := by
  unfold createKill
  split
  · split_ifs <;> exact ⟨rfl, rfl⟩
  · exact ⟨rfl, rfl⟩

theorem createForeground_kind (js : JobsList) (cmdLine : Line) (args : List Line) :
    (createForeground js cmdLine args).kind = .fg ∧
      (createForeground js cmdLine args).builtInCmd = true := by
  unfold createForeground
  split
  · dsimp only
    split_ifs <;> exact ⟨rfl, rfl⟩
  · exact ⟨rfl, rfl⟩
  · exact ⟨rfl, rfl⟩

theorem createBackground_kind (js : JobsList) (cmdLine : Line) (args : List Line) :
    (createBackground js cmdLine args).kind = .bg ∧
      (createBackground js cmdLine args).builtInCmd = true := by
  unfold createBackground
  split
  · dsimp only
    split_ifs <;> exact ⟨rfl, rfl⟩
  · exact ⟨rfl, rfl⟩
  · exact ⟨rfl, rfl⟩

/-- What holds of the command of every branch, holds of the one that the first word selects. -/
theorem createByName_rule {chdir : Line → Line → Option Line} {sh : SmallShell}
    {cmdLine arg0 : Line} {rest : List Line} {P : Command × SmallShell → Prop}
    (hsimple : ∀ kind ∈ [CommandKind.pwd, .chprompt, .showpid, .jobs], ∀ list newlen,
      P ({ Command.builtIn kind cmdLine with args := [arg0], list := list },
        { sh with newlen := newlen }))
    (hcd : eraseChar '&' arg0 = "cd".toList → P (createChangeDir chdir sh cmdLine (arg0 :: rest)))
    (hkill : P (createKill sh.jobs cmdLine (arg0 :: rest), sh))
    (hfg : P (createForeground sh.jobs cmdLine (arg0 :: rest), sh))
    (hbg : P (createBackground sh.jobs cmdLine (arg0 :: rest), sh))
    (hquit : eraseChar '&' arg0 = "quit".toList → P (createQuit cmdLine (arg0 :: rest), sh))
    (hcat : eraseChar '&' arg0 = "cat".toList → P (createCat cmdLine (arg0 :: rest), sh))
    (hexternal : P (createExternal cmdLine (arg0 :: rest), sh)) :
    P (createByName chdir sh cmdLine arg0 rest) := by
  unfold createByName
  apply iteInduction
  · exact fun _ => hsimple .pwd (by decide) false sh.newlen
  intro _
  apply iteInduction
  · exact hcd
  intro _
  apply iteInduction
  · exact fun _ => hsimple .chprompt (by decide) false _
  intro _
  apply iteInduction
  · exact fun _ => hsimple .showpid (by decide) false sh.newlen
  intro _
  apply iteInduction
  · exact fun _ => hsimple .jobs (by decide) true sh.newlen
  intro _
  apply iteInduction
  · exact fun _ => hkill
  intro _
  apply iteInduction
  · exact fun _ => hfg
  intro _
  apply iteInduction
  · exact fun _ => hbg
  intro _
  apply iteInduction
  · exact hquit
  intro _
  apply iteInduction
  · exact hcat
  · exact fun _ => hexternal

/-- `print_job` reads the text of the job. -/
def printJob (js : JobsList) (jobId : ℤ) : Option Unit :=
  match js.getJobById jobId with
  | none => some ()
  | some job => job.cmd.map fun _ => ()

/-- `KillCommand::execute`: the job table afterwards and the system calls. -/
def killExecute (js : JobsList) (cmd : Command) : Option (JobsList × List SysCall) :=
  if cmd.invalidArg then some (js, [])
  else do
    let jobId ← stoi (← cmd.args[2]?)
    if !cmd.jobIdIn then return (js, [])
    let sigNum ← stoi (eraseChar '-' (← cmd.args[1]?))
    let _ ← js.getJobById jobId
    return js.sendSigToJob jobId sigNum

/-- `QuitCommand::execute`. -/
def quitExecute (js : JobsList) (cmd : Command) : Option (JobsList × List SysCall) :=
  if cmd.optionalArg then do
    let arg1 ← cmd.args[1]?
    if eraseChar '&' arg1 = "kill".toList then js.killAllJobs true else return (js, [])
  else some (js, [])

/-- The write `job->j_status = background` of `BackgroundCommand::execute`. -/
def setBackground (js : JobsList) (jobId : ℤ) : JobsList :=
  js.modifyJob jobId fun job => { job with jStatus := .background }

/-- `BackgroundCommand::execute`. -/
def backgroundExecute (js : JobsList) (cmd : Command) : Option (JobsList × List SysCall) :=
  if !cmd.optionalArg ∧ !cmd.invalidArg then
    match js.getLastStoppedJob with
    | none => some (js, [])
    | some (jobId, _) => do
      printJob js jobId
      let (js, calls) := js.sendSigToJob jobId sigCont
      let _ ← js.getJobById jobId
      return (setBackground js jobId, calls)
  else if cmd.invalidArg then some (js, [])
  else do
    let jobId ← stoi (eraseChar '&' (← cmd.args[1]?))
    if !cmd.jobIdIn then return (js, [])
    match js.getJobById jobId with
    | none => return (js, [])
    | some job =>
      if job.jStatus = .background then return (js, [])
      let (js, calls) := js.sendSigToJob jobId sigCont
      printJob js jobId
      return (setBackground js jobId, calls)

/-- The job that `ForegroundCommand::execute` selects, unless it reports an error. -/
def foregroundJob (js : JobsList) (cmd : Command) : Option (Option ℤ) :=
  if cmd.listEmpty ∧ !cmd.optionalArg ∧ !cmd.invalidArg then some none
  else if !cmd.optionalArg ∧ !cmd.invalidArg then some (some js.getMaxJobId)
  else if cmd.invalidArg then some none
  else do
    let jobId ← stoi (eraseChar '&' (← cmd.args[1]?))
    return if cmd.jobIdIn then some jobId else none

/-- `ForegroundCommand::execute` up to `waitpid`: the table, the process and the system calls. -/
def foregroundResume (js : JobsList) (jobId : ℤ) : Option (JobsList × ℤ × List SysCall) := do
  let job ← js.getJobById jobId
  printJob js jobId
  let (js, calls) := js.sendSigToJob jobId sigCont
  return (js, job.pId, calls)

/-- `ForegroundCommand::execute` after `waitpid`, whose status it does not look at. -/
def foregroundFinish (js : JobsList) (jobId now : ℤ) : Option JobsList :=
  match js.getJobById jobId with
  | none => some js
  | some job =>
    let js := if job.jStatus ≠ .stopped then js.removeJobById jobId else js
    match js.getJobById jobId with
    | none => some js
    | some job => if job.jStatus = .stopped then js.setNewId jobId now else some js

end FtfSystems.Shell

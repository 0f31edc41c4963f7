import FtfSystems.Foundation.TransitionSystem
import FtfSystems.Shell.Commands

/-!
# The shell: `executeCommand`, the signal handlers and the main loop

The shell is at its prompt, waits for a process it runs in the foreground, or has ended. Ctrl-Z
and Ctrl-C are taken at the prompt, where the handlers do nothing, and in the waits. The processes
that `fork` starts, the halves of a pipeline among them, have tables of their own and appear here
only through the answers of the system calls.
-/
namespace FtfSystems.Shell
open Foundation

def sigStop : ℤ := 19

/-- The answers of the operating system while a line is executed. -/
structure Answers where
  fork : ℤ
  now : ℤ
  jobsReap : ℕ → ℤ
  reap : ℕ → ℤ

/-- What `waitpid` with `WUNTRACED` reports. -/
inductive WaitStatus where
  | exited (code : ℤ)
  | signaled (sig : ℤ)
  | stopped (sig : ℤ)
  deriving DecidableEq

/-- How far `execute` gets before it returns or waits. -/
inductive Progress where
  | returned
  | waitsExternal
  | waitsForeground (jobId : ℤ)

namespace JobsList

/-- `ExternalCommand::execute` gives the job with the greatest id its process. -/
def setLastPid (js : JobsList) (pid : ℤ) : Option JobsList := do
  let _ ← js.getJobById js.getMaxJobId
  return js.modifyJob js.getMaxJobId fun job => { job with pId := pid }

/-- The loop of `ctrlZHandler` over the jobs. -/
def stopPid (js : JobsList) (pid : ℤ) : JobsList :=
  { js with
    nonBuiltInCmd := modifyFirst (·.pId = pid) (fun job => { job with jStatus := .stopped })
      js.nonBuiltInCmd
    stoppedd := js.stoppedd ++
      ((js.nonBuiltInCmd.find? (·.pId = pid)).map JobEntry.stoppedCopy).toList }

/-- The job table after `ctrlZHandler` with the process `pid` in the foreground. -/
def ctrlZ (js : JobsList) (pid : ℤ) (forCmd : Option Line) (now : ℤ) : Option JobsList :=
  if js.isJobPidIn pid then some (js.stopPid pid)
  else do
    let cmd ← forCmd
    let js := js.addJob cmd false true now
    js.setJobPid js.getMaxJobId pid cmd

/-- The job table after `ctrlCHandler` with the process `pid` in the foreground. -/
def ctrlC (js : JobsList) (pid : ℤ) : JobsList :=
  { js with nonBuiltInCmd := js.nonBuiltInCmd.map fun job =>
      if job.pId = pid then { job with jStatus := .finished } else job }

end JobsList

/-- The test for `quit` in `executeCommand`. -/
def Command.quits (curr : Command) : Option Bool :=
  if curr.builtInCmd then
    (curr.args[0]?).map fun firstWord => eraseChar '&' firstWord = "quit".toList
  else some false

namespace SmallShell

def ctrlZHandler (sh : SmallShell) (now : ℤ) : Option (SmallShell × List SysCall) :=
  if sh.forPid = -1 then some (sh, [])
  else do
    let js ← sh.jobs.ctrlZ sh.forPid sh.forCmd now
    return ({ sh with jobs := js, forPid := -1 }, [.kill sh.forPid sigStop])

def ctrlCHandler (sh : SmallShell) : SmallShell × List SysCall :=
  if sh.forPid = -1 then (sh, [])
  else ({ sh with jobs := sh.jobs.ctrlC sh.forPid, forPid := -1 }, [.kill sh.forPid sigKill])

/-- `ExternalCommand::execute` in the shell; `curr` is `curr_cmd`. -/
def externalExecute (sh : SmallShell) (curr cmd : Command) (pid : ℤ) :
    Option (SmallShell × Progress) :=
  if pid = -1 then some (sh, .returned)
  else if !cmd.backgroundCmd then
    some ({ sh with forPid := pid, forCmd := some curr.enteredCmd }, .waitsExternal)
  else if !cmd.list then none
  else do
    let js ← sh.jobs.setLastPid pid
    return ({ sh with jobs := js }, .returned)

/-- `ForegroundCommand::execute` up to `waitpid`. -/
def foregroundExecute (sh : SmallShell) (cmd : Command) :
    Option (SmallShell × Progress × List SysCall) := do
  match ← foregroundJob sh.jobs cmd with
  | none => return (sh, .returned, [])
  | some jobId =>
    let (js, pid, calls) ← foregroundResume sh.jobs jobId
    return ({ sh with jobs := js, forPid := pid, forCmd := some cmd.enteredCmd },
      .waitsForeground jobId, calls)

/-- The text that `RedirectionCommand::execute` runs. -/
def redirectedText (enteredCmd : Line) : Line :=
  let barrier := if contains ['>', '>'] enteredCmd then ['>', '>'] else ['>']
  ltrim (rtrim (((splitFirst barrier enteredCmd).map Prod.fst).getD enteredCmd))

/-- `execute` of a command that is no redirection, up to a wait for a process in the foreground;
`curr` is `curr_cmd`. -/
def executeDirect (chdir : Line → Line → Option Line) (sh : SmallShell) (curr cmd : Command)
    (ans : Answers) : Option (SmallShell × Progress × List SysCall) :=
  let onJobs (r : Option (JobsList × List SysCall)) :=
    r.map fun (js, calls) => ({ sh with jobs := js }, Progress.returned, calls)
  match cmd.kind with
  | .redirection => none
  | .pipe | .pwd | .chprompt | .showpid | .cat => some (sh, .returned, [])
  | .cd => (changeDirExecute chdir sh.cwd cmd).map fun dir => ({ sh with cwd := dir }, .returned, [])
  | .jobs => onJobs (some (sh.jobs.removeFinishedJobs ans.jobsReap))
  | .kill => onJobs (killExecute sh.jobs cmd)
  | .quit => onJobs (quitExecute sh.jobs cmd)
  | .bg => onJobs (backgroundExecute sh.jobs cmd)
  | .fg => sh.foregroundExecute cmd
  | .external => (sh.externalExecute curr cmd ans.fork).map fun (sh, progress) => (sh, progress, [])

/-- The command that a redirection runs. Redirections nest, `n` bounds how deep. -/
def redirected (chdir : Line → Line → Option Line) (maxArgs : ℕ) :
    ℕ → SmallShell → Command → Option (Command × SmallShell)
  | 0, _, _ => none
  | n + 1, sh, cmd =>
    if cmd.kind = .redirection then do
      let (inner, sh) ← createCommand chdir maxArgs sh (redirectedText cmd.enteredCmd)
      redirected chdir maxArgs n sh inner
    else some (cmd, sh)

/-- `execute`; the text that a redirection runs is shorter than its own. -/
def execute (chdir : Line → Line → Option Line) (maxArgs : ℕ) (sh : SmallShell) (curr : Command)
    (ans : Answers) : Option (SmallShell × Progress × List SysCall) := do
  let (cmd, sh) ← redirected chdir maxArgs (curr.enteredCmd.length + 1) sh curr
  executeDirect chdir sh curr cmd ans

/-- The end of `executeCommand`: whether the shell goes on. -/
def finishCommand (sh : SmallShell) (curr : Command) (reap : ℕ → ℤ) : Option (SmallShell × Bool) :=
  let sh := { sh with forCmd := none, forPid := -1 }
  curr.quits.map fun quits =>
    if quits then (sh, false)
    else ({ sh with jobs := (sh.jobs.removeFinishedJobs reap).1 }, true)

end SmallShell

/-- Where the shell is. -/
inductive Phase where
  | prompt
  | external (curr : Command)
  | foreground (curr : Command) (jobId : ℤ)
  | exited

structure State where
  shell : SmallShell
  phase : Phase

namespace State

/-- The state after `execute` has returned. -/
def finish (sh : SmallShell) (curr : Command) (reap : ℕ → ℤ) : Option State :=
  (sh.finishCommand curr reap).map fun (sh, goesOn) => ⟨sh, if goesOn then .prompt else .exited⟩

/-- `executeCommand` up to its first wait. -/
def executeCommand (chdir : Line → Line → Option Line) (maxArgs : ℕ) (sh : SmallShell)
    (cmdLine : Line) (ans : Answers) : Option State := do
  let (curr, sh) ← createCommand chdir maxArgs sh cmdLine
  let sh := if !curr.builtInCmd ∧ curr.backgroundCmd then
    { sh with jobs := sh.jobs.addJob cmdLine false false ans.now } else sh
  let curr := { curr with list := true }
  let (sh, progress, _) ← SmallShell.execute chdir maxArgs sh curr ans
  match progress with
  | .returned => finish sh curr ans.reap
  | .waitsExternal => return ⟨sh, .external curr⟩
  | .waitsForeground jobId => return ⟨sh, .foreground curr jobId⟩

end State

/-- What happens next: a line is entered, a signal arrives, the wait for the foreground process
ends (`waitpid` fails with `none`). -/
inductive Event where
  | line (cmdLine : Line) (ans : Answers)
  | ctrlZ (now : ℤ)
  | ctrlC
  | waited (status : Option WaitStatus) (now : ℤ) (reap : ℕ → ℤ)

/-- One step of the shell. `fork` answers `-1` or a process id. -/
def State.next (chdir : Line → Line → Option Line) (s : State) : Event → Option State
  | .line cmdLine ans =>
    match s.phase with
    | .prompt =>
      if ans.fork = -1 ∨ 0 < ans.fork then
        if cmdLine = [] then some s else executeCommand chdir commandMaxArgs s.shell cmdLine ans
      else none
    | _ => none
  | .ctrlZ now =>
    match s.phase with
    | .exited => none
    | phase => (s.shell.ctrlZHandler now).map fun (sh, _) => ⟨sh, phase⟩
  | .ctrlC =>
    match s.phase with
    | .exited => none
    | phase => some ⟨s.shell.ctrlCHandler.1, phase⟩
  | .waited _ now reap =>
    match s.phase with
    | .external curr => finish { s.shell with forPid := -1 } curr reap
    | .foreground curr jobId => do
      let js ← foregroundFinish s.shell.jobs jobId now
      finish { s.shell with jobs := js } curr reap
    | _ => none

/-- A line is read at the prompt and executed unless it is empty. -/
theorem State.next_line {chdir : Line → Line → Option Line} {s s' : State} {cmdLine : Line}
    {ans : Answers} (h : State.next chdir s (.line cmdLine ans) = some s') : s.phase = .prompt ∧
      (s' = s ∨ executeCommand chdir commandMaxArgs s.shell cmdLine ans = some s') := by
  obtain ⟨sh, phase⟩ := s
  cases phase with
  | external | foreground | exited => cases h
  | prompt =>
    simp only [State.next, Option.ite_none_right_eq_some] at h
    obtain ⟨-, h⟩ := h
    split at h
    · exact ⟨rfl, .inl (Option.some.inj h).symm⟩
    · exact ⟨rfl, .inr h⟩

/-- The shell from its start on; `chdir` is the file system's answer to a change of directory. -/
def smash (chdir : Line → Line → Option Line) : TransitionSystem State Event where
  init s := ∃ cwd, s = ⟨.new cwd, .prompt⟩
  next := State.next chdir

end FtfSystems.Shell

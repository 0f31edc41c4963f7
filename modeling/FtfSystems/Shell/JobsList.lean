import FtfSystems.Foundation.FirstMatch
import FtfSystems.Shell.Text

/-!
# The job table: `JobsList` of `Commands.h`

Two vectors of `JOBS_MAX_AMOUNT` slots for jobs and a vector of copies of the stopped ones.
A pointer that a search returns is used at once, so that a write through it goes to the first
slot that the search matches. An operation that dereferences a null pointer has no result.
Numbers are unbounded: `j_id` is an `int`, but an id is at most the number of operations before it
(`JobIds`), so that no sum overflows within `2 ^ 31 - 1` of them. The text of a command stands for
the `Command` object.
-/
namespace FtfSystems.Shell
open Foundation

/-- `JOBS_MAX_AMOUNT`. -/
def jobsMaxAmount : ℕ := 150

/-- `job_status`. -/
inductive JobStatus where
  | finished
  | stopped
  | background
  | empty
  deriving DecidableEq

/-- `JobEntry`; a null `cmd` is `none`. -/
structure JobEntry where
  jStatus : JobStatus
  jId : ℤ
  pId : ℤ
  cmd : Option Line
  time : ℤ
  deriving DecidableEq

/-- The default constructor of `JobEntry`. -/
def JobEntry.new : JobEntry := ⟨.empty, 0, 0, none, 0⟩

/-- The entry that `stoppedd` gets for a job. -/
def JobEntry.stoppedCopy (job : JobEntry) : JobEntry := { job with jStatus := .stopped }

/-- The job has neither ended nor been removed. -/
def JobEntry.live (job : JobEntry) : Bool := job.jStatus ≠ .finished ∧ job.jStatus ≠ .empty

structure JobsList where
  arr : List JobEntry
  nonBuiltInCmd : List JobEntry
  stoppedd : List JobEntry
  deriving DecidableEq

/-- A call of `kill` or `waitpid`. -/
inductive SysCall where
  | kill (pid sig : ℤ)
  | waitpid (pid : ℤ)
  deriving DecidableEq

def sigKill : ℤ := 9
def sigCont : ℤ := 18

namespace JobsList

/-- The constructor. -/
def new : JobsList where
  arr := List.replicate jobsMaxAmount .new
  nonBuiltInCmd := List.replicate jobsMaxAmount .new
  stoppedd := List.replicate jobsMaxAmount .new

/-- The index of the slot that `get_empty_place_in_list` returns. -/
def getEmptyPlaceInList (list : List JobEntry) : ℕ :=
  (list.findIdx? (·.jStatus = .empty)).getD 0

/-- The loop of `get_max_job_id`. -/
def maxJobId (list : List JobEntry) : ℤ :=
  list.foldl (fun result i => if i.jStatus ≠ .empty then max result i.jId else result) 0

def getMaxJobId (js : JobsList) : ℤ := maxJobId js.nonBuiltInCmd

/-- The new entry of `addJob`, before and after its id is known. -/
def claimSlot (list : List JobEntry) (stat : JobStatus) (cmd : Line) (now : ℤ) : List JobEntry :=
  list.modify (getEmptyPlaceInList list) fun tmp =>
    { tmp with jStatus := stat, cmd := some cmd, time := now }

def addJob (js : JobsList) (cmd : Line) (builtIn isStopped : Bool) (now : ℤ) : JobsList :=
  let stat := if isStopped then JobStatus.stopped else .background
  let list := if builtIn then js.arr else js.nonBuiltInCmd
  let i := getEmptyPlaceInList list
  let list := claimSlot list stat cmd now
  let js := if builtIn then { js with arr := list } else { js with nonBuiltInCmd := list }
  let list := list.modify i fun tmp => { tmp with jId := js.getMaxJobId + 1 }
  let js := if builtIn then { js with arr := list } else { js with nonBuiltInCmd := list }
  if isStopped then { js with stoppedd := js.stoppedd ++ (list[i]?.map JobEntry.stoppedCopy).toList }
  else js

def getJobById (js : JobsList) (jobId : ℤ) : Option JobEntry :=
  js.nonBuiltInCmd.find? (·.jId = jobId)

/-- `getJobById_SS`. -/
def getJobByIdSS (js : JobsList) (jobId : ℤ) : Option JobEntry :=
  js.stoppedd.find? (·.jId = jobId)

/-- Write to the slot that `getJobById` returns. -/
def modifyJob (js : JobsList) (jobId : ℤ) (f : JobEntry → JobEntry) : JobsList :=
  { js with nonBuiltInCmd := modifyFirst (·.jId = jobId) f js.nonBuiltInCmd }

/-- Write to the entry that `getJobById_SS` returns. -/
def modifyJobSS (js : JobsList) (jobId : ℤ) (f : JobEntry → JobEntry) : JobsList :=
  { js with stoppedd := modifyFirst (·.jId = jobId) f js.stoppedd }

/-- `set_job_pid`. -/
def setJobPid (js : JobsList) (jobId pid : ℤ) (enCmd : Line) : Option JobsList := do
  let job ← js.getJobById jobId
  let _ ← job.cmd
  let job1 ← js.getJobByIdSS jobId
  let _ ← job1.cmd
  let set (job : JobEntry) : JobEntry := { job with pId := pid, cmd := some enCmd }
  return (js.modifyJob jobId set).modifyJobSS jobId set

def isJobIdIn (js : JobsList) (jobId : ℤ) : Bool := js.nonBuiltInCmd.any (·.jId = jobId)

def isJobPidIn (js : JobsList) (jobPid : ℤ) : Bool := js.nonBuiltInCmd.any (·.pId = jobPid)

def isListEmpty (js : JobsList) : Bool :=
  js.nonBuiltInCmd.all fun job => !job.live

/-- The loops over `stoppedd` of `send_SIG_TO_JOB`. -/
def dropStopped (js : JobsList) (jobId : ℤ) : JobsList :=
  { js with stoppedd := js.stoppedd.map fun jobb =>
      if jobb.jStatus ≠ .empty ∧ jobId = jobb.jId then { jobb with jStatus := .empty, jId := 0 }
      else jobb }

/-- `send_SIG_TO_JOB`: the table afterwards and the call of `kill`. -/
def sendSigToJob (js : JobsList) (jobId sigNum : ℤ) : JobsList × List SysCall :=
  match js.getJobById jobId with
  | none => (js, [])
  | some job =>
    let js' :=
      if sigNum = 19 ∨ sigNum = 20 then
        let js := js.modifyJob jobId fun job => { job with jStatus := .stopped }
        { js with stoppedd := js.stoppedd ++ [job.stoppedCopy] }
      else if sigNum = sigCont then
        (js.dropStopped jobId).modifyJob jobId fun job => { job with jStatus := .background }
      else if sigNum = sigKill then
        (js.dropStopped jobId).modifyJob jobId fun job => { job with jStatus := .finished }
      else js
    (js', [.kill job.pId sigNum])

/-- `killAllJobs`; with a null `cmd` the listing has no result. -/
def killAllJobs (js : JobsList) (killWithPrint : Bool) : Option (JobsList × List SysCall) :=
  if killWithPrint ∧ ∃ job ∈ js.nonBuiltInCmd, job.live ∧ job.cmd = none then none
  else some
    ({ js with nonBuiltInCmd := js.nonBuiltInCmd.map fun job =>
        if job.live then { job with jStatus := .empty, jId := 0, pId := 0 } else job },
      (js.nonBuiltInCmd.filter JobEntry.live).map fun job => .kill job.pId sigKill)

def removeJobById (js : JobsList) (jobId : ℤ) : JobsList :=
  { js with
    nonBuiltInCmd := js.nonBuiltInCmd.map fun job =>
      if job.jId = jobId then { job with jStatus := .empty, jId := 0 } else job
    stoppedd := js.stoppedd.map fun job =>
      if job.jId = jobId then { job with jStatus := .empty, jId := 0, pId := 0 } else job }

/-- `removeFinishedJobs` waits for this job. -/
def reaps (job : JobEntry) : Bool := job.jStatus ≠ .empty ∧ job.jStatus ≠ .stopped

/-- The first loop of `removeFinishedJobs`; `waitpid` answers `answers i` for slot `i`. -/
def markFinished (answers : ℕ → ℤ) (list : List JobEntry) : List JobEntry :=
  list.mapIdx fun i job => if reaps job ∧ answers i ≠ 0 then { job with jStatus := .finished } else job

/-- The second loop of `removeFinishedJobs`, for the slots from `i` on. -/
def sweepFinished (js : JobsList) (i : ℕ) : ℕ → JobsList
  | 0 => js
  | n + 1 =>
    let js := match js.nonBuiltInCmd[i]? with
      | some job => if job.jStatus = .finished then js.removeJobById job.jId else js
      | none => js
    sweepFinished js (i + 1) n

def removeFinishedJobs (js : JobsList) (answers : ℕ → ℤ) : JobsList × List SysCall :=
  let js' := { js with nonBuiltInCmd := markFinished answers js.nonBuiltInCmd }
  (sweepFinished js' 0 js'.nonBuiltInCmd.length,
    (js.nonBuiltInCmd.filter reaps).map fun job => .waitpid job.pId)

def setNewId (js : JobsList) (jobId now : ℤ) : Option JobsList := do
  let _ ← js.getJobById jobId
  let js := js.modifyJob jobId fun job => { job with time := now }
  return { js with stoppedd := js.stoppedd.map fun jobb =>
    if jobb.jId = jobId then { jobb with time := now } else jobb }

/-- `getLastStoppedJob`: the id and the entry. -/
def getLastStoppedJob (js : JobsList) : Option (ℤ × JobEntry) :=
  let m := maxJobId js.stoppedd
  if m = 0 then none else (js.getJobByIdSS m).map (m, ·)

/-- The jobs that `printJobsList` prints, in order. -/
def printedJobs (js : JobsList) : List JobEntry :=
  (List.range' 1 (jobsMaxAmount * 2 - 1)).filterMap fun (i : ℕ) =>
    (js.getJobById i).filter JobEntry.live

end JobsList
end FtfSystems.Shell

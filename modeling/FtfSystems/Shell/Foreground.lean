import FtfSystems.Shell.TableSteps

/-!
# The foreground job

`fg` resumes a job, waits for its process and then decides by the status in the job table, not by
the status that `waitpid` reports. The table says that the job is stopped only if the Ctrl-Z
handler has found it.
-/
namespace FtfSystems.Shell
open Foundation

/-- A signal that arrives while the shell waits. -/
inductive Signal where
  | ctrlZ (now : ℤ)
  | ctrlC

def Signal.event : Signal → Event
  | .ctrlZ now => .ctrlZ now
  | .ctrlC => .ctrlC

/-- The process is gone. -/
def WaitStatus.terminated : WaitStatus → Bool
  | .exited _ | .signaled _ => true
  | .stopped _ => false

/-- The job is no longer in the table exactly if its process has terminated, and otherwise it is
stopped. -/
def ForegroundRight (js : JobsList) (jobId : ℤ) (status : WaitStatus) : Prop :=
  ((¬ ∃ job ∈ js.nonBuiltInCmd, job.jStatus ≠ .empty ∧ job.jId = jobId) ↔ status.terminated = true) ∧
    (status.terminated = false → ∃ job ∈ js.nonBuiltInCmd, job.jId = jobId ∧ job.jStatus = .stopped)

/-- The Ctrl-Z handler comes first and finds the job: no slot before it has its process. -/
def JobsList.MarksForeground (js : JobsList) (jobId : ℤ) (signals : List Signal) : Prop :=
  (∃ now rest, signals = .ctrlZ now :: rest) ∧ ∃ job, js.getJobById jobId = some job ∧
    job.pId ≠ -1 ∧
    js.nonBuiltInCmd.findIdx? (·.pId = job.pId) = js.nonBuiltInCmd.findIdx? (·.jId = jobId)

variable {js : JobsList} {jobId now : ℤ} {job : JobEntry} {pre post : List JobEntry}

theorem mem_removeJobById (h : job ∈ (js.removeJobById jobId).nonBuiltInCmd)
    (hid : job.jId = jobId) :
    job.jStatus = .empty := by
  obtain ⟨old, -, rfl⟩ := List.mem_map.mp h
  split_ifs at hid ⊢ with hold
  · rfl
  · exact absurd hid hold

/-- After the wait the job stays exactly if it is marked as stopped. -/
theorem foregroundFinish_spec (hg : js.getJobById jobId = some job) (now : ℤ) :
    ∃ js', foregroundFinish js jobId now = some js' ∧
      ((¬ ∃ job ∈ js'.nonBuiltInCmd, job.jStatus ≠ .empty ∧ job.jId = jobId) ↔ job.jStatus ≠ .stopped) ∧
      (job.jStatus = .stopped →
        ∃ job ∈ js'.nonBuiltInCmd, job.jId = jobId ∧ job.jStatus = .stopped) := by
  have hid : job.jId = jobId := by simpa using List.find?_some hg
  by_cases hst : job.jStatus = .stopped
  · obtain ⟨pre, found, post, hl, -, -, hsome, he⟩ :=
      (modifyFirst_cases (fun job : JobEntry => decide (job.jId = jobId))
        (fun job => { job with time := now }) js.nonBuiltInCmd).resolve_left fun h => by
          simp [JobsList.getJobById, h.1] at hg
    obtain rfl : found = job := Option.some.inj (hsome.symm.trans hg)
    obtain ⟨js', hset, htable⟩ : ∃ js', js.setNewId jobId now = some js' ∧
        js'.nonBuiltInCmd = pre ++ { found with time := now } :: post := by
      rw [JobsList.setNewId, hg, ← he]
      exact ⟨_, rfl, rfl⟩
    have hmem : { found with time := now } ∈ js'.nonBuiltInCmd := by simp [htable]
    refine ⟨js', ?_, ⟨fun h => absurd ⟨_, hmem, by simp [hst], hid⟩ h, fun h => absurd hst h⟩,
      fun _ => ⟨_, hmem, hid, hst⟩⟩
    simp only [foregroundFinish, hg, hst, ne_eq, not_true_eq_false, if_false, if_true, hset]
  · have hnone : ∀ b ∈ (js.removeJobById jobId).nonBuiltInCmd, b.jId = jobId → b.jStatus = .empty :=
      fun b hb hbid => mem_removeJobById hb hbid
    refine ⟨js.removeJobById jobId, ?_, ⟨fun _ => hst, fun _ h => ?_⟩, fun h => absurd h hst⟩
    · simp only [foregroundFinish, hg, ne_eq, hst, not_false_eq_true, if_true]
      cases hg' : (js.removeJobById jobId).getJobById jobId with
      | none => rfl
      | some left =>
        have hempty := hnone left (List.mem_of_find?_eq_some hg') (by simpa using List.find?_some hg')
        simp [hempty]
    · obtain ⟨b, hb, hne, hbid⟩ := h
      exact hne (hnone b hb hbid)

/-- The job table after the signals of a wait for `pid`: only the first one counts. -/
def JobsList.afterSignals (js : JobsList) (pid : ℤ) : List Signal → JobsList
  | [] => js
  | .ctrlZ _ :: _ => if pid = -1 then js else js.stopPid pid
  | .ctrlC :: _ => if pid = -1 then js else js.ctrlC pid

section
variable {sh : SmallShell} (chdir : Line → Line → Option Line) (curr : Command) (jobId : ℤ)

theorem run_signals_ignored (h : sh.forPid = -1) (signals : List Signal) :
    (smash chdir).run ⟨sh, .foreground curr jobId⟩ (signals.map Signal.event) =
      some ⟨sh, .foreground curr jobId⟩ := by
  induction signals with
  | nil => rfl
  | cons sig signals ih =>
    have hnext : (smash chdir).next ⟨sh, .foreground curr jobId⟩ sig.event =
        some ⟨sh, .foreground curr jobId⟩ := by
      cases sig <;> simp [smash, State.next, Signal.event, SmallShell.ctrlZHandler,
        SmallShell.ctrlCHandler, h]
    rw [List.map_cons, TransitionSystem.run, hnext]
    exact ih

theorem run_signals (hin : sh.jobs.isJobPidIn sh.forPid = true) (signals : List Signal) :
    ∃ sh', (smash chdir).run ⟨sh, .foreground curr jobId⟩ (signals.map Signal.event) =
      some ⟨sh', .foreground curr jobId⟩ ∧ sh'.jobs = sh.jobs.afterSignals sh.forPid signals := by
  by_cases hpid : sh.forPid = -1
  · refine ⟨sh, run_signals_ignored chdir curr jobId hpid signals, ?_⟩
    rcases signals with _ | ⟨_ | _, _⟩ <;> simp [JobsList.afterSignals, hpid]
  cases signals with
  | nil => exact ⟨sh, rfl, rfl⟩
  | cons sig signals =>
    obtain ⟨sh', hnext, hpid', hjobs⟩ : ∃ sh', (smash chdir).next ⟨sh, .foreground curr jobId⟩ sig.event =
        some ⟨sh', .foreground curr jobId⟩ ∧ sh'.forPid = -1 ∧
        sh'.jobs = sh.jobs.afterSignals sh.forPid (sig :: signals) := by
      cases sig with
      | ctrlZ now =>
        refine ⟨{ sh with jobs := sh.jobs.stopPid sh.forPid, forPid := -1 }, ?_, rfl, (if_neg hpid).symm⟩
        simp [smash, State.next, Signal.event, SmallShell.ctrlZHandler, hpid, JobsList.ctrlZ, hin]
      | ctrlC =>
        refine ⟨{ sh with jobs := sh.jobs.ctrlC sh.forPid, forPid := -1 }, ?_, rfl, (if_neg hpid).symm⟩
        simp [smash, State.next, Signal.event, SmallShell.ctrlCHandler, hpid]
    refine ⟨sh', ?_, hjobs⟩
    rw [List.map_cons, TransitionSystem.run, hnext]
    exact run_signals_ignored chdir curr jobId hpid' signals

end

theorem findIdx?_append_cons {q : JobEntry → Bool} (hpre : ∀ b ∈ pre, q b = false)
    (hq : q job = true) : (pre ++ job :: post).findIdx? q = some pre.length := by
  rw [List.findIdx?_append, List.findIdx?_eq_none_iff.mpr hpre, List.findIdx?_cons, hq]
  simp

/-- The slot of the resumed job after the signals: it is stopped exactly if Ctrl-Z has found it. -/
theorem getJobById_afterSignals {pid : ℤ} (signals : List Signal)
    (hl : js.nonBuiltInCmd = pre ++ job :: post) (hpre : ∀ b ∈ pre, b.jId ≠ jobId)
    (hid : job.jId = jobId) (hpid : job.pId = pid) (hst : job.jStatus = .background) :
    ∃ job', (js.afterSignals pid signals).getJobById jobId = some job' ∧
      (job'.jStatus = .stopped ↔ (∃ now rest, signals = .ctrlZ now :: rest) ∧ pid ≠ -1 ∧
        ∀ b ∈ pre, b.pId ≠ pid) := by
  have hsame : js.getJobById jobId = some job := JobsList.getJobById_middle pre post hl hpre hid
  rcases signals with _ | ⟨_ | _, signals⟩
  · exact ⟨job, hsame, by simp [hst]⟩
  · by_cases hp : pid = -1
    · exact ⟨job, by simpa [JobsList.afterSignals, hp] using hsame, by simp [hst, hp]⟩
    rw [JobsList.afterSignals, if_neg hp]
    by_cases hb : ∃ b ∈ pre, b.pId = pid
    · -- an earlier slot with the process takes the mark
      refine ⟨job, JobsList.getJobById_middle (modifyFirst (·.pId = pid) (fun job =>
        { job with jStatus := .stopped }) pre) post ?_ ?_ hid, ?_⟩
      · rw [JobsList.stopPid, hl, modifyFirst_append_left (by simpa using hb)]
      · intro b hb'
        rcases mem_modifyFirst hb' with hb' | ⟨a, ha, -, rfl⟩
        · exact hpre b hb'
        · exact hpre a ha
      · obtain ⟨b, hb, hbp⟩ := hb
        simp only [hst, reduceCtorEq, false_iff, not_and, not_forall]
        exact fun _ _ => ⟨b, hb, by simp [hbp]⟩
    · push Not at hb
      refine ⟨{ job with jStatus := .stopped }, JobsList.getJobById_middle pre post ?_ hpre hid,
        by simpa [hp] using hb⟩
      rw [JobsList.stopPid, hl]
      exact modifyFirst_append_cons (by simpa using hb) (by simpa using hpid)
  · by_cases hp : pid = -1
    · exact ⟨job, by simpa [JobsList.afterSignals, hp] using hsame, by simp [hst]⟩
    rw [JobsList.afterSignals, if_neg hp]
    refine ⟨{ job with jStatus := .finished }, JobsList.getJobById_middle
      (pre.map fun job => if job.pId = pid then { job with jStatus := .finished } else job)
      (post.map fun job => if job.pId = pid then { job with jStatus := .finished } else job)
      ?_ ?_ hid, by simp⟩
    · rw [JobsList.ctrlC, hl, List.map_append, List.map_cons, if_pos hpid]
    · intro b hb
      obtain ⟨a, ha, rfl⟩ := List.mem_map.mp hb
      split_ifs <;> exact hpre a ha

theorem marksForeground_iff {signals : List Signal} (hl : js.nonBuiltInCmd = pre ++ job :: post)
    (hpre : ∀ b ∈ pre, b.jId ≠ jobId) (hid : job.jId = jobId) :
    js.MarksForeground jobId signals ↔ (∃ now rest, signals = .ctrlZ now :: rest) ∧ job.pId ≠ -1 ∧
      ∀ b ∈ pre, b.pId ≠ job.pId := by
  have hget : js.getJobById jobId = some job := JobsList.getJobById_middle pre post hl hpre hid
  have hidx : js.nonBuiltInCmd.findIdx? (·.jId = jobId) = some pre.length := by
    rw [hl]
    exact findIdx?_append_cons (by simpa using hpre) (by simpa using hid)
  have hpid : js.nonBuiltInCmd.findIdx? (·.pId = job.pId) = some pre.length ↔
      ∀ b ∈ pre, b.pId ≠ job.pId := by
    rw [hl]
    constructor
    · intro h b hb
      obtain ⟨_, _, hbefore⟩ := List.findIdx?_eq_some_iff_getElem.mp h
      obtain ⟨i, hi, rfl⟩ := List.mem_iff_getElem.mp hb
      simpa [List.getElem_append_left hi] using hbefore i hi
    · intro h
      exact findIdx?_append_cons (by simpa using h) (by simp)
  simp [JobsList.MarksForeground, hget, hidx, hpid]

/-- Only `fg` waits for a job. -/
theorem executeDirect_foreground {chdir : Line → Line → Option Line} {sh sh' : SmallShell}
    {curr cmd : Command} {ans : Answers} {calls : List SysCall}
    (h : sh.executeDirect chdir curr cmd ans = some (sh', .waitsForeground jobId, calls)) :
    cmd.kind = .fg ∧ ∃ job, sh.jobs.getJobById jobId = some job ∧
      sh'.jobs = (sh.jobs.sendSigToJob jobId sigCont).1 ∧ sh'.forPid = job.pId := by
  have onJobs {r : Option (JobsList × List SysCall)} :
      (r.map fun x => ({ sh with jobs := x.1 }, Progress.returned, x.2)) ≠
        some (sh', .waitsForeground jobId, calls) := by
    intro h
    obtain ⟨effect, -, h⟩ := Option.map_eq_some_iff.mp h
    cases h
  cases hk : cmd.kind with
  | redirection => simp [SmallShell.executeDirect, hk] at h
  | pipe | pwd | chprompt | showpid | cat => simp [SmallShell.executeDirect, hk] at h
  | cd => simp [SmallShell.executeDirect, hk] at h
  | jobs | kill | quit | bg =>
    simp only [SmallShell.executeDirect, hk] at h
    exact absurd h onJobs
  | external =>
    simp only [SmallShell.executeDirect, hk] at h
    obtain ⟨⟨sh₁, progress⟩, h₁, h⟩ := Option.map_eq_some_iff.mp h
    cases h
    rw [SmallShell.externalExecute] at h₁
    split_ifs at h₁
    · cases Option.some.inj h₁
    · cases Option.some.inj h₁
    · obtain ⟨js, -, h₁⟩ := Option.bind_eq_some_iff.mp h₁
      cases Option.some.inj h₁
  | fg =>
    simp only [SmallShell.executeDirect, hk] at h
    obtain ⟨selected, -, h⟩ := Option.bind_eq_some_iff.mp h
    cases selected with
    | none => cases Option.some.inj h
    | some id =>
      obtain ⟨⟨js, pid, calls'⟩, hr, h⟩ := Option.bind_eq_some_iff.mp h
      obtain ⟨rfl, job, hjob, rfl⟩ := foregroundResume_eq hr
      cases Option.some.inj h
      exact ⟨rfl, job, hjob, rfl, rfl⟩

theorem next_foreground {chdir : Line → Line → Option Line} {s s₁ : State} {cmdLine : Line}
    {ans : Answers} {curr : Command} (h : State.next chdir s (.line cmdLine ans) = some s₁)
    (hf : s₁.phase = .foreground curr jobId) :
    ∃ job, s.shell.jobs.getJobById jobId = some job ∧
      s₁.shell.jobs = (s.shell.jobs.sendSigToJob jobId sigCont).1 ∧ s₁.shell.forPid = job.pId := by
  obtain ⟨hphase, rfl | h⟩ := State.next_line h
  · rw [hphase] at hf
    cases hf
  simp only [State.executeCommand, Option.bind_eq_bind, Option.bind_eq_some_iff] at h
  obtain ⟨⟨curr', sh₁⟩, hc, ⟨sh₃, progress, calls⟩, he, h⟩ := h
  obtain ⟨hcreated, hjobs⟩ := createCommand_created hc
  cases progress with
  | returned =>
    rcases finish_cases h with h | ⟨h, -⟩
    · rw [h] at hf
      cases hf
    · rw [h] at hf
      cases hf
  | waitsExternal =>
    cases Option.some.inj h
    cases hf
  | waitsForeground id =>
    cases Option.some.inj h
    cases hf
    obtain ⟨⟨cmd, sh₂⟩, hr, he⟩ := Option.bind_eq_some_iff.mp he
    obtain ⟨hkind, hjob⟩ := executeDirect_foreground he
    obtain ⟨hjobs₂, hcmd⟩ := redirected_cases hr
    by_cases hb : !curr'.builtInCmd ∧ curr'.backgroundCmd
    · have hext := (hcreated.background hb.2).1
      obtain ⟨rfl, -⟩ := hcmd.resolve_right (by simp [hext])
      simp [hext] at hkind
    · rw [if_neg hb, hjobs] at hjobs₂
      rw [hjobs₂] at hjob
      exact hjob

/-- `fg` keeps the job exactly while its process is alive, if and only if `waitpid` reports a stop
just when the Ctrl-Z handler has marked the job. -/
theorem fg_right_iff (chdir : Line → Line → Option Line) (s s₁ : State) (cmdLine : Line)
    (ans : Answers) (curr : Command) (jobId : ℤ)
    (h : State.next chdir s (.line cmdLine ans) = some s₁)
    (hf : s₁.phase = .foreground curr jobId) (signals : List Signal) (status : WaitStatus)
    (now : ℤ) :
    ∃ s₂ js', (smash chdir).run s₁ (signals.map Signal.event) = some s₂ ∧
      s₂.phase = .foreground curr jobId ∧ foregroundFinish s₂.shell.jobs jobId now = some js' ∧
      (ForegroundRight js' jobId status ↔
        (status.terminated = false ↔ s.shell.jobs.MarksForeground jobId signals)) := by
  obtain ⟨job, hjob, hjobs, hpid⟩ := next_foreground h hf
  obtain ⟨pre, found, post, hl, hpre, hid, hsome, he⟩ :=
    (modifyFirst_cases (fun job : JobEntry => decide (job.jId = jobId))
      (fun job => { job with jStatus := .background }) s.shell.jobs.nonBuiltInCmd).resolve_left
        fun h => by simp [JobsList.getJobById, h.1] at hjob
  obtain rfl : found = job := Option.some.inj (hsome.symm.trans hjob)
  have hpre' : ∀ b ∈ pre, b.jId ≠ jobId := by simpa using hpre
  have hid' : found.jId = jobId := by simpa using hid
  have htable : s₁.shell.jobs.nonBuiltInCmd = pre ++ { found with jStatus := .background } :: post := by
    rw [hjobs, JobsList.sendSigToJob, hjob]
    exact he
  obtain ⟨sh₁, phase₁⟩ := s₁
  subst hf
  have hin : sh₁.jobs.isJobPidIn sh₁.forPid = true := by
    rw [JobsList.isJobPidIn, htable, hpid]
    simp
  obtain ⟨sh₂, hrun, hjobs₂⟩ := run_signals chdir curr jobId hin signals
  obtain ⟨job', hget, hstopped⟩ := getJobById_afterSignals signals htable hpre' hid' hpid.symm rfl
  rw [← hjobs₂] at hget
  obtain ⟨js', hfinish, habsent, hpresent⟩ := foregroundFinish_spec hget now
  refine ⟨⟨sh₂, .foreground curr jobId⟩, js', hrun, rfl, hfinish, ?_⟩
  rw [marksForeground_iff hl hpre' hid', ForegroundRight, habsent, ← hpid, ← hstopped]
  cases status.terminated with
  | true => simp
  | false =>
    simp only [Bool.false_eq_true, iff_false, not_not, true_iff, forall_const]
    exact ⟨And.left, fun hst => ⟨hst, hpresent hst⟩⟩

/-- The shell waits for the job. -/
def State.waitsFor (s : State) (jobId : ℤ) : Bool :=
  match s.phase with
  | .foreground _ id => id = jobId
  | _ => false

theorem State.exists_of_waitsFor {s : State} (h : s.waitsFor jobId = true) :
    ∃ curr, s.phase = .foreground curr jobId := by
  obtain ⟨sh, phase⟩ := s
  cases phase with
  | foreground curr id =>
    obtain rfl : id = jobId := by simpa [waitsFor] using h
    exact ⟨curr, rfl⟩
  | prompt | external | exited => cases h

/-- The process in the foreground stops itself: `fg` removes its job. -/
theorem fg_loses_stopped_job : ∃ s s₁ curr js' ans,
    (smash fun _ _ => none).Reachable TransitionSystem.always s ∧
    State.next (fun _ _ => none) s (.line "fg".toList ans) = some s₁ ∧
    s₁.phase = .foreground curr 1 ∧ foregroundFinish s₁.shell.jobs 1 2 = some js' ∧
    ¬ ForegroundRight js' 1 (.stopped 19) := by
  let ans : Answers := ⟨8, 1, fun _ => 0, fun _ => 0⟩
  let absent (js : JobsList) : Bool := ¬ ∃ job ∈ js.nonBuiltInCmd, job.jStatus ≠ .empty ∧ job.jId = 1
  let lost (s₁ : State) : Bool :=
    s₁.waitsFor 1 && (foregroundFinish s₁.shell.jobs 1 2).any absent
  obtain ⟨s, -, hr, hp⟩ := TransitionSystem.exists_of_run (S := smash fun _ _ => none)
    TransitionSystem.always [.line "top &".toList ⟨7, 0, fun _ => 0, fun _ => 0⟩]
    (fun s => (State.next (fun _ _ => none) s (.line "fg".toList ans)).any lost)
    ⟨[], rfl⟩ (fun _ _ _ => trivial) (by decide +kernel)
  obtain ⟨s₁, hs₁, hp⟩ := (Option.any_eq_true _ _).mp hp
  rw [Bool.and_eq_true] at hp
  obtain ⟨curr, hcurr⟩ := State.exists_of_waitsFor hp.1
  obtain ⟨js', hjs', habsent⟩ := (Option.any_eq_true _ _).mp hp.2
  refine ⟨s, s₁, curr, js', ans, hr, hs₁, hcurr, hjs', fun hright => ?_⟩
  have hterm := hright.1.mp (by simpa [absent] using habsent)
  cases hterm

/-- Ctrl-Z stops the process in the foreground: `fg` keeps its job. -/
theorem fg_right_iff_ctrlZ : ∃ s s₁ s₂ js' ans,
    (smash fun _ _ => none).Reachable TransitionSystem.always s ∧
    State.next (fun _ _ => none) s (.line "fg".toList ans) = some s₁ ∧
    (smash fun _ _ => none).run s₁ [.ctrlZ 3] = some s₂ ∧
    foregroundFinish s₂.shell.jobs 1 4 = some js' ∧ ForegroundRight js' 1 (.stopped 19) := by
  let ans : Answers := ⟨8, 1, fun _ => 0, fun _ => 0⟩
  let firstWithPid (js : JobsList) (job : JobEntry) : Bool := job.pId ≠ -1 ∧
    js.nonBuiltInCmd.findIdx? (·.pId = job.pId) = js.nonBuiltInCmd.findIdx? (·.jId = 1)
  obtain ⟨s, -, hr, hp⟩ := TransitionSystem.exists_of_run (S := smash fun _ _ => none)
    TransitionSystem.always [.line "top &".toList ⟨7, 0, fun _ => 0, fun _ => 0⟩]
    (fun s => (State.next (fun _ _ => none) s (.line "fg".toList ans)).any (·.waitsFor 1) &&
      (s.shell.jobs.getJobById 1).any (firstWithPid s.shell.jobs))
    ⟨[], rfl⟩ (fun _ _ _ => trivial) (by decide +kernel)
  rw [Bool.and_eq_true] at hp
  obtain ⟨s₁, hs₁, hwait⟩ := (Option.any_eq_true _ _).mp hp.1
  obtain ⟨job, hjob, hmark⟩ := (Option.any_eq_true _ _).mp hp.2
  obtain ⟨curr, hcurr⟩ := State.exists_of_waitsFor hwait
  obtain ⟨s₂, js', hrun, -, hfinish, hright⟩ :=
    fg_right_iff _ s s₁ _ ans curr 1 hs₁ hcurr [.ctrlZ 3] (.stopped 19) 4
  refine ⟨s, s₁, s₂, js', ans, hr, hs₁, hrun, hfinish, hright.mpr ⟨fun _ => ?_, fun _ => rfl⟩⟩
  exact ⟨⟨3, [], rfl⟩, job, hjob, by simpa [firstWithPid] using hmark⟩

end FtfSystems.Shell

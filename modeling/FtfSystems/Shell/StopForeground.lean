import FtfSystems.Shell.KnownJobs

/-!
# Ctrl-Z and the job of the foreground process

The handler looks for the foreground process among the processes of all slots. A slot whose job
has been removed keeps the process of that job, and the system may have given its number to the
foreground process since.
-/
namespace FtfSystems.Shell
open Foundation

/-- After Ctrl-Z there is exactly one job for the foreground process; it is stopped and found by its
positive id. Its slot was empty or held this job, and the other slots have not changed. -/
def SmallShell.RecordsStop (sh : SmallShell) (now : ℤ) : Prop :=
  ∃ (sh' : SmallShell) (calls : List SysCall) (i : ℕ) (old job : JobEntry),
    sh.ctrlZHandler now = some (sh', calls) ∧ sh.jobs.nonBuiltInCmd[i]? = some old ∧
    (old.jStatus = .empty ∨ job = { old with jStatus := .stopped }) ∧
    sh'.jobs.nonBuiltInCmd[i]? = some job ∧ job.pId = sh.forPid ∧ job.jStatus = .stopped ∧
    0 < job.jId ∧ sh'.jobs.getJobById job.jId = some job ∧
    (∀ (j : ℕ) other, sh'.jobs.nonBuiltInCmd[j]? = some other → other.pId = sh.forPid →
      other.jStatus ≠ .empty → j = i) ∧
    ∀ j, j ≠ i → sh'.jobs.nonBuiltInCmd[j]? = sh.jobs.nonBuiltInCmd[j]?

/-- If a slot has the process, the first one that does has an id, and no other one a job. -/
def JobsList.KnowsPid (js : JobsList) (pid : ℤ) : Prop :=
  ∀ pre job post, js.nonBuiltInCmd = pre ++ job :: post → (∀ b ∈ pre, b.pId ≠ pid) →
    job.pId = pid → 0 < job.jId ∧ ∀ b ∈ post, b.pId = pid → b.jStatus = .empty

/-! ### The foreground process and its command -/

/-- The shell has a foreground process only while it waits, and then knows its command. -/
structure State.Waits (s : State) : Prop where
  exited : s.phase = .exited → s.shell.forPid = -1
  command : s.shell.forPid ≠ -1 → s.shell.forCmd ≠ none

variable {chdir : Line → Line → Option Line} {maxArgs : ℕ} {sh sh' : SmallShell}
  {cmd curr : Command} {t : Line} {ans : Answers} {progress : Progress} {calls : List SysCall}
  {js js' : JobsList} {pid now : ℤ}

/-- `CreateCommand` does not touch the foreground process. -/
theorem createCommand_forPid (h : createCommand chdir maxArgs sh t = some (cmd, sh')) :
    sh'.forPid = sh.forPid ∧ sh'.forCmd = sh.forCmd := by
  obtain ⟨arg0, rest, -, -, ⟨-, rfl, -⟩ | ⟨-, rfl, -⟩ | ⟨-, -, hn⟩⟩ := createCommand_cases h
  · exact ⟨rfl, rfl⟩
  · exact ⟨rfl, rfl⟩
  · have hrule : (createByName chdir sh t arg0 rest).2.forPid = sh.forPid ∧
        (createByName chdir sh t arg0 rest).2.forCmd = sh.forCmd := by
      apply createByName_rule (P := fun r => r.2.forPid = sh.forPid ∧ r.2.forCmd = sh.forCmd)
      · exact fun _ _ _ _ => ⟨rfl, rfl⟩
      · intro _
        unfold createChangeDir
        cases (arg0 :: rest)[1]? with
        | none => exact ⟨rfl, rfl⟩
        | some arg1 =>
          dsimp only
          cases chdir sh.cwd arg1 with
          | none => split_ifs <;> exact ⟨rfl, rfl⟩
          | some dir => split_ifs <;> exact ⟨rfl, rfl⟩
      · exact ⟨rfl, rfl⟩
      · exact ⟨rfl, rfl⟩
      · exact ⟨rfl, rfl⟩
      · exact fun _ => ⟨rfl, rfl⟩
      · exact fun _ => ⟨rfl, rfl⟩
      · exact ⟨rfl, rfl⟩
    rw [hn] at hrule
    exact hrule

theorem redirected_forPid {n : ℕ}
    (h : SmallShell.redirected chdir maxArgs n sh curr = some (cmd, sh')) :
    sh'.forPid = sh.forPid ∧ sh'.forCmd = sh.forCmd := by
  induction n generalizing sh curr with
  | zero => cases h
  | succ n ih =>
    rw [SmallShell.redirected] at h
    split_ifs at h
    · obtain ⟨⟨inner, sh₁⟩, hc, h⟩ := Option.bind_eq_some_iff.mp h
      obtain ⟨hpid, hcmd⟩ := createCommand_forPid hc
      obtain ⟨hpid', hcmd'⟩ := ih h
      exact ⟨hpid'.trans hpid, hcmd'.trans hcmd⟩
    · cases Option.some.inj h
      exact ⟨rfl, rfl⟩

/-- A command that starts or resumes a foreground process also sets its command. -/
theorem executeDirect_forPid
    (h : sh.executeDirect chdir curr cmd ans = some (sh', progress, calls)) :
    sh'.forPid = sh.forPid ∧ sh'.forCmd = sh.forCmd ∨ sh'.forCmd ≠ none := by
  have onJobs {r : Option (JobsList × List SysCall)}
      (h : (r.map fun x => ({ sh with jobs := x.1 }, Progress.returned, x.2)) =
        some (sh', progress, calls)) : sh'.forPid = sh.forPid ∧ sh'.forCmd = sh.forCmd := by
    obtain ⟨effect, -, h⟩ := Option.map_eq_some_iff.mp h
    cases h
    exact ⟨rfl, rfl⟩
  cases hk : cmd.kind with
  | redirection => simp [SmallShell.executeDirect, hk] at h
  | pipe | pwd | chprompt | showpid | cat =>
    simp only [SmallShell.executeDirect, hk] at h
    cases Option.some.inj h
    exact .inl ⟨rfl, rfl⟩
  | cd =>
    simp only [SmallShell.executeDirect, hk] at h
    obtain ⟨dir, -, h⟩ := Option.map_eq_some_iff.mp h
    cases h
    exact .inl ⟨rfl, rfl⟩
  | jobs | kill | quit | bg =>
    simp only [SmallShell.executeDirect, hk] at h
    exact .inl (onJobs h)
  | external =>
    simp only [SmallShell.executeDirect, hk] at h
    obtain ⟨⟨sh₁, progress₁⟩, h₁, h⟩ := Option.map_eq_some_iff.mp h
    cases h
    rw [SmallShell.externalExecute] at h₁
    split_ifs at h₁
    · cases Option.some.inj h₁
      exact .inl ⟨rfl, rfl⟩
    · cases Option.some.inj h₁
      exact .inr (by simp)
    · obtain ⟨js, -, h₁⟩ := Option.bind_eq_some_iff.mp h₁
      cases Option.some.inj h₁
      exact .inl ⟨rfl, rfl⟩
  | fg =>
    simp only [SmallShell.executeDirect, hk] at h
    obtain ⟨selected, -, h⟩ := Option.bind_eq_some_iff.mp h
    cases selected with
    | none =>
      cases Option.some.inj h
      exact .inl ⟨rfl, rfl⟩
    | some id =>
      obtain ⟨⟨js, pid, calls'⟩, -, h⟩ := Option.bind_eq_some_iff.mp h
      cases Option.some.inj h
      exact .inr (by simp)

theorem State.Waits.of_forPid {s : State} (h : s.shell.forPid = -1) : s.Waits :=
  ⟨fun _ => h, fun hne => absurd h hne⟩

theorem finish_waits {s : State} {reap : ℕ → ℤ} (h : State.finish sh curr reap = some s) :
    s.Waits := by
  have hpid : s.shell.forPid = -1 := by
    simp only [State.finish, SmallShell.finishCommand, Option.map_map, Option.map_eq_some_iff] at h
    obtain ⟨quits, -, rfl⟩ := h
    cases quits <;> rfl
  exact .of_forPid hpid

theorem executeCommand_waits {s : State} (hcmd : sh.forPid ≠ -1 → sh.forCmd ≠ none)
    (h : State.executeCommand chdir maxArgs sh t ans = some s) : s.Waits := by
  simp only [State.executeCommand, Option.bind_eq_bind, Option.bind_eq_some_iff] at h
  obtain ⟨⟨curr, sh₁⟩, hc, ⟨sh₃, progress, calls⟩, he, h⟩ := h
  have hwaits : sh₃.forPid ≠ -1 → sh₃.forCmd ≠ none := by
    obtain ⟨⟨cmd, sh₂⟩, hr, he⟩ := Option.bind_eq_some_iff.mp he
    obtain ⟨hpid₁, hcmd₁⟩ := createCommand_forPid hc
    obtain ⟨hpid₂, hcmd₂⟩ := redirected_forPid hr
    rcases executeDirect_forPid he with ⟨hpid₃, hcmd₃⟩ | hsome
    · rw [hpid₃, hcmd₃, hpid₂, hcmd₂]
      dsimp only
      split_ifs
      · simpa [hpid₁, hcmd₁] using hcmd
      · simpa [hpid₁, hcmd₁] using hcmd
    · exact fun _ => hsome
  cases progress with
  | returned => exact finish_waits h
  | waitsExternal =>
    cases Option.some.inj h
    exact ⟨by simp, hwaits⟩
  | waitsForeground jobId =>
    cases Option.some.inj h
    exact ⟨by simp, hwaits⟩

theorem ctrlZHandler_forPid (h : sh.ctrlZHandler now = some (sh', calls)) : sh'.forPid = -1 := by
  rw [SmallShell.ctrlZHandler] at h
  split_ifs at h with hpid
  · cases Option.some.inj h
    exact hpid
  · obtain ⟨js', -, h⟩ := Option.bind_eq_some_iff.mp h
    cases Option.some.inj h
    rfl

theorem ctrlCHandler_forPid (sh : SmallShell) : sh.ctrlCHandler.1.forPid = -1 := by
  rw [SmallShell.ctrlCHandler]
  split_ifs with hpid
  · exact hpid
  · rfl

theorem next_waits {s s' : State} {ev : Event} (hw : s.Waits)
    (h : State.next chdir s ev = some s') : s'.Waits := by
  obtain ⟨sh, phase⟩ := s
  cases ev with
  | line cmdLine ans =>
    obtain ⟨-, rfl | h⟩ := State.next_line h
    · exact hw
    · exact executeCommand_waits hw.command h
  | ctrlZ now =>
    cases phase with
    | exited => cases h
    | prompt | external | foreground =>
      obtain ⟨⟨sh', calls⟩, hz, rfl⟩ := Option.map_eq_some_iff.mp h
      exact .of_forPid (ctrlZHandler_forPid hz)
  | ctrlC =>
    cases phase with
    | exited => cases h
    | prompt | external | foreground =>
      cases Option.some.inj h
      exact .of_forPid (ctrlCHandler_forPid sh)
  | waited status now reap =>
    cases phase with
    | prompt | exited => cases h
    | external curr => exact finish_waits h
    | foreground curr jobId =>
      obtain ⟨js', -, h⟩ := Option.bind_eq_some_iff.mp h
      exact finish_waits h

theorem smash_waits {ok : State → Event → Prop} {s : State} (h : (smash chdir).Reachable ok s) :
    s.Waits := by
  refine h.invariant ?_ fun _ _ _ hw _ hs => next_waits hw hs
  rintro s ⟨cwd, rfl⟩
  exact ⟨by simp, by simp [SmallShell.new]⟩

/-! ### The handler -/

/-- The process is found in a slot: the handler stops the job there. -/
theorem ctrlZ_found {pre post : List JobEntry} {job : JobEntry}
    (hl : js.nonBuiltInCmd = pre ++ job :: post) (hpre : ∀ b ∈ pre, b.pId ≠ pid)
    (hjob : job.pId = pid) (forCmd : Option Line) (now : ℤ) :
    ∃ js', js.ctrlZ pid forCmd now = some js' ∧
      js'.nonBuiltInCmd = pre ++ { job with jStatus := .stopped } :: post := by
  have hin : js.isJobPidIn pid = true := by
    rw [JobsList.isJobPidIn, hl, List.any_append, List.any_cons, decide_eq_true hjob]
    simp
  refine ⟨js.stopPid pid, by rw [JobsList.ctrlZ, if_pos hin], ?_⟩
  rw [JobsList.stopPid, hl, modifyFirst_append_cons (fun b hb => by simpa using hpre b hb)
    (by simpa using hjob)]

/-- The copy that `set_job_pid` finds for a new stopped job has a command, also when it is an older
one with the same id. -/
theorem exists_copy_addJob (hids : js.Ids) (hknown : js.Known) {pre post : List JobEntry}
    {old : JobEntry} (hl : js.nonBuiltInCmd = pre ++ old :: post)
    (hi : JobsList.getEmptyPlaceInList js.nonBuiltInCmd = pre.length) (text : Line) (now : ℤ) :
    ∃ copy, (js.addJob text false true now).getJobByIdSS
        (JobsList.addedJob pre old post text true now).jId = some copy ∧ copy.cmd ≠ none := by
  set new := JobsList.addedJob pre old post text true now with hnew
  have hsome : ((js.addJob text false true now).getJobByIdSS new.jId).isSome := by
    rw [JobsList.addJob_eq hl hi, JobsList.getJobByIdSS, List.find?_isSome]
    exact ⟨new.stoppedCopy, by simp [hnew], by simp [JobEntry.stoppedCopy]⟩
  obtain ⟨copy, hcopy⟩ := Option.isSome_iff_exists.mp hsome
  have hid : copy.jId = new.jId := by simpa using List.find?_some hcopy
  refine ⟨copy, hcopy, ?_⟩
  rcases (hknown.addJob hids text true now).copies copy (List.mem_of_find?_eq_some hcopy) with h0 | h
  · exact absurd (hid.symm.trans h0) JobsList.addedJob_pos.ne'
  · exact h.2

/-- The process is found in no slot: the handler adds a job for it. -/
theorem ctrlZ_added (hids : js.Ids) (hknown : js.Known)
    (hfree : ∃ job ∈ js.nonBuiltInCmd, job.jStatus = .empty) (hin : js.isJobPidIn pid = false)
    (text : Line) (now : ℤ) :
    ∃ js' pre old post job, js.ctrlZ pid (some text) now = some js' ∧
      js.nonBuiltInCmd = pre ++ old :: post ∧ js'.nonBuiltInCmd = pre ++ job :: post ∧
      old.jStatus = .empty ∧ job.pId = pid ∧ job.jStatus = .stopped ∧ 0 < job.jId ∧
      ∀ b ∈ pre, b.jId ≠ job.jId := by
  obtain ⟨pre, old, post, hl, hi, hslot⟩ := hids.slot
  have hempty : old.jStatus = .empty := by
    obtain ⟨free, hmem, hfree⟩ := hfree
    exact hslot.resolve_right fun hfull => hfull.2 free hmem hfree
  set new := JobsList.addedJob pre old post text true now with hnew
  have hne : ∀ b ∈ pre, b.jId ≠ new.jId :=
    fun b hb => (hids.addJob_ne hl (List.mem_append_left _ hb)).symm
  have hadded : (js.addJob text false true now).nonBuiltInCmd = pre ++ new :: post := by
    rw [JobsList.addJob_eq hl hi]
  have hjob : (js.addJob text false true now).getJobById new.jId = some new :=
    JobsList.getJobById_middle pre post hadded hne rfl
  let set (job : JobEntry) : JobEntry := { job with pId := pid, cmd := some text }
  have hset : (js.addJob text false true now).setJobPid new.jId pid text =
      some (((js.addJob text false true now).modifyJob new.jId set).modifyJobSS new.jId set) :=
    JobsList.setJobPid_eq_some.mpr ⟨⟨new, hjob, by simp [hnew, JobsList.addedJob]⟩,
      exists_copy_addJob hids hknown hl hi text now, rfl⟩
  have hz : js.ctrlZ pid (some text) now =
      (js.addJob text false true now).setJobPid new.jId pid text := by
    rw [JobsList.ctrlZ, if_neg (by simp [hin]), hnew, ← JobsList.getMaxJobId_addJob hl hi]
    rfl
  refine ⟨_, pre, old, post, set new, hz.trans hset, hl, ?_, hempty, rfl, rfl,
    JobsList.addedJob_pos, hne⟩
  exact congrArg JobsList.nonBuiltInCmd (JobsList.modifyJob_middle pre post hadded hne rfl set)

theorem ctrlZHandler_eq (hpid : sh.forPid ≠ -1)
    (h : sh.jobs.ctrlZ sh.forPid sh.forCmd now = some js') :
    sh.ctrlZHandler now = some ({ sh with jobs := js', forPid := -1 }, [.kill sh.forPid sigStop]) := by
  rw [SmallShell.ctrlZHandler, if_neg hpid, h]
  rfl

/-- One slot of a table has been written to; it now holds the only job of the process. -/
theorem recordsStop_of_slot {pre post : List JobEntry} {old job : JobEntry} (hpid : sh.forPid ≠ -1)
    (hz : sh.jobs.ctrlZ sh.forPid sh.forCmd now = some js')
    (hl : sh.jobs.nonBuiltInCmd = pre ++ old :: post) (hl' : js'.nonBuiltInCmd = pre ++ job :: post)
    (hold : old.jStatus = .empty ∨ job = { old with jStatus := .stopped })
    (hjob : job.pId = sh.forPid) (hst : job.jStatus = .stopped) (hpos : 0 < job.jId)
    (hids : ∀ b ∈ pre, b.jId ≠ job.jId)
    (honly : ∀ b ∈ pre ++ post, b.pId = sh.forPid → b.jStatus = .empty) : sh.RecordsStop now := by
  refine ⟨_, _, pre.length, old, job, ctrlZHandler_eq hpid hz, by simp [hl], hold, by simp [hl'],
    hjob, hst, hpos, JobsList.getJobById_middle pre post hl' hids rfl,
    fun j other hj hother hne => ?_, fun j hj => ?_⟩
  · by_contra hij
    rw [hl'] at hj
    exact hne (honly other (JobsList.mem_of_getElem?_middle hj hij) hother)
  · rw [hl', hl]
    rcases Nat.lt_or_gt_of_ne hj with hlt | hgt
    · rw [List.getElem?_append_left hlt, List.getElem?_append_left hlt]
    · obtain ⟨k, rfl⟩ := Nat.exists_eq_add_of_lt hgt
      rw [List.getElem?_append_right (by omega), List.getElem?_append_right (by omega),
        show pre.length + k + 1 - pre.length = k + 1 by omega, List.getElem?_cons_succ,
        List.getElem?_cons_succ]

/-- A slot that the handler takes for the job of the process is one with an id. -/
theorem knowsPid_of_recordsStop (hpid : sh.forPid ≠ -1) (h : sh.RecordsStop now) :
    sh.jobs.KnowsPid sh.forPid := by
  obtain ⟨sh', calls, i, old, job, hz, -, -, hi, -, -, hpos, -, honly, -⟩ := h
  intro pre slot post hl hpre hslot
  obtain ⟨js', hz', hl'⟩ := ctrlZ_found hl hpre hslot sh.forCmd now
  obtain ⟨rfl, -⟩ := Prod.mk.inj (Option.some.inj (hz.symm.trans (ctrlZHandler_eq hpid hz')))
  -- the slot that the handler has written to is the one with the job
  have hat : js'.nonBuiltInCmd[pre.length]? = some { slot with jStatus := .stopped } := by
    simp [hl']
  obtain rfl := honly pre.length _ hat hslot (by simp)
  cases Option.some.inj (hi.symm.trans hat)
  refine ⟨hpos, fun b hb hbp => ?_⟩
  by_contra hne
  obtain ⟨k, hk⟩ := List.mem_iff_getElem?.mp hb
  have hlater : js'.nonBuiltInCmd[pre.length + (k + 1)]? = some b := by
    rw [hl', List.getElem?_append_right (by omega), Nat.add_sub_cancel_left,
      List.getElem?_cons_succ, hk]
  have := honly _ b hlater hbp hne
  omega

/-- The first slot with the process. -/
theorem exists_first_pid (hin : js.isJobPidIn pid = true) :
    ∃ pre job post, js.nonBuiltInCmd = pre ++ job :: post ∧ (∀ b ∈ pre, b.pId ≠ pid) ∧
      job.pId = pid := by
  obtain ⟨found, hfound, hp⟩ := List.any_eq_true.mp hin
  obtain ⟨job, hfirst⟩ : ∃ job, js.nonBuiltInCmd.find? (·.pId = pid) = some job :=
    Option.isSome_iff_exists.mp (List.find?_isSome.mpr ⟨found, hfound, hp⟩)
  obtain ⟨hjob, pre, post, hl, hpre⟩ := List.find?_eq_some_iff_append.mp hfirst
  exact ⟨pre, job, post, hl, fun b hb => by simpa using hpre b hb, by simpa using hjob⟩

/-- Ctrl-Z records the stopped process exactly when the table knows it. -/
theorem recordsStop_iff (hids : sh.jobs.Ids) (hknown : sh.jobs.Known) (hpid : sh.forPid ≠ -1)
    (hcmd : sh.forCmd ≠ none) (hfree : ∃ job ∈ sh.jobs.nonBuiltInCmd, job.jStatus = .empty) :
    sh.RecordsStop now ↔ sh.jobs.KnowsPid sh.forPid := by
  refine ⟨knowsPid_of_recordsStop hpid, fun hknows => ?_⟩
  cases hin : sh.jobs.isJobPidIn sh.forPid with
  | true =>
    obtain ⟨pre, job, post, hl, hpre, hjob⟩ := exists_first_pid hin
    obtain ⟨hpos, hpost⟩ := hknows pre job post hl hpre hjob
    obtain ⟨js', hz, hl'⟩ := ctrlZ_found hl hpre hjob sh.forCmd now
    have hdistinct : DistinctKeys JobEntry.jId (pre ++ job :: post) := hl ▸ hids.distinct
    refine recordsStop_of_slot hpid hz hl hl' (.inr rfl) hjob rfl hpos (fun b hb hid => ?_)
      fun b hb hbp => ?_
    · exact hpos.ne' ((distinctKeys_middle.mp hdistinct).1 b (by simp [hb]) hid.symm)
    · rcases List.mem_append.mp hb with hb | hb
      · exact absurd hbp (hpre b hb)
      · exact hpost b hb hbp
  | false =>
    obtain ⟨text, htext⟩ := Option.ne_none_iff_exists'.mp hcmd
    obtain ⟨js', pre, old, post, job, hz, hl, hl', hold, hp, hst, hpos, hne⟩ :=
      ctrlZ_added hids hknown hfree hin text now
    refine recordsStop_of_slot hpid (htext ▸ hz) hl hl' (.inl hold) hp hst hpos hne
      fun b hb hbp => absurd hbp ?_
    have hmem : b ∈ sh.jobs.nonBuiltInCmd := by
      rw [hl, List.mem_append, List.mem_cons]
      exact (List.mem_append.mp hb).imp_right .inr
    simpa using List.any_eq_false.mp hin b hmem

/-- In every reachable state with a free slot and a foreground process, Ctrl-Z records the stopped
process exactly when no slot has the process, or the first one that does has a job and no other
one. -/
theorem ctrlZ_records_iff (chdir : Line → Line → Option Line) {s : State}
    (h : (smash chdir).Reachable TransitionSystem.always s) (hpid : s.shell.forPid ≠ -1)
    (hfree : ∃ job ∈ s.shell.jobs.nonBuiltInCmd, job.jStatus = .empty) (now : ℤ) :
    s.shell.RecordsStop now ↔ s.shell.jobs.KnowsPid s.shell.forPid := by
  have hwaits := smash_waits h
  have hreach := smash_jobTable h fun he => hpid (hwaits.exited he)
  exact recordsStop_iff (jobTable_ids hreach) (jobTable_known hreach) hpid (hwaits.command hpid) hfree

/-- The process of `top` is in no slot; Ctrl-Z adds a job for it. -/
theorem ctrlZ_records_iff_top : ∃ s, (smash fun _ _ => none).Reachable TransitionSystem.always s ∧
    s.shell.forPid = 7 ∧ s.shell.RecordsStop 3 := by
  obtain ⟨s, -, hr, hp⟩ := TransitionSystem.exists_of_run (S := smash fun _ _ => none)
    TransitionSystem.always [.line "top".toList ⟨7, 0, fun _ => 0, fun _ => 0⟩]
    (fun s => s.shell.forPid == 7 && s.shell.jobs.nonBuiltInCmd.any (·.jStatus = .empty) &&
      !s.shell.jobs.isJobPidIn 7) ⟨[], rfl⟩ (fun _ _ _ => trivial) (by decide +kernel)
  simp only [Bool.and_eq_true, beq_iff_eq, List.any_eq_true, decide_eq_true_eq,
    Bool.not_eq_true'] at hp
  obtain ⟨⟨hpid, hfree⟩, hin⟩ := hp
  refine ⟨s, hr, hpid, (ctrlZ_records_iff _ hr (by simp [hpid]) hfree 3).mpr ?_⟩
  intro pre job post hl _ hj
  have hmem : job ∈ s.shell.jobs.nonBuiltInCmd := by simp [hl]
  exact absurd (hj.trans hpid) (by simpa using List.any_eq_false.mp hin job hmem)

/-- The job of `a` has ended and left its process in the first slot. Process 100 is now that of
`c`, and Ctrl-Z takes the empty slot for its job. -/
theorem ctrlZ_revives_slot : ¬ ∀ s, (smash fun _ _ => none).Reachable TransitionSystem.always s →
    s.shell.forPid ≠ -1 → (∃ job ∈ s.shell.jobs.nonBuiltInCmd, job.jStatus = .empty) →
    ∀ now, s.shell.RecordsStop now := by
  intro h
  obtain ⟨s, -, hr, hp⟩ := TransitionSystem.exists_of_run (S := smash fun _ _ => none)
    TransitionSystem.always [.line "a&".toList ⟨100, 0, fun _ => 0, fun _ => 100⟩,
      .line "c".toList ⟨100, 0, fun _ => 0, fun _ => 0⟩]
    (fun s => s.shell.forPid == 100 && s.shell.jobs.nonBuiltInCmd.any (·.jStatus = .empty) &&
      s.shell.jobs.nonBuiltInCmd.head?.any fun slot => slot.pId == 100 && slot.jId == 0)
    ⟨[], rfl⟩ (fun _ _ _ => trivial) (by decide +kernel)
  simp only [Bool.and_eq_true, beq_iff_eq, List.any_eq_true, decide_eq_true_eq] at hp
  obtain ⟨⟨hpid, hfree⟩, hhead⟩ := hp
  obtain ⟨slot, hslot, hstale⟩ := (Option.any_eq_true _ _).mp hhead
  simp only [Bool.and_eq_true, beq_iff_eq] at hstale
  have hne : s.shell.forPid ≠ -1 := by simp [hpid]
  have hwaits := smash_waits hr
  have hreach := smash_jobTable hr fun he => hne (hwaits.exited he)
  have hknows := (recordsStop_iff (jobTable_ids hreach) (jobTable_known hreach) hne
    (hwaits.command hne) hfree).mp (h s hr hne hfree 3)
  obtain ⟨post, hl⟩ := List.head?_eq_some_iff.mp hslot
  have hpos := (hknows [] slot post hl (by simp) (hstale.1.trans hpid.symm)).1
  omega

end FtfSystems.Shell

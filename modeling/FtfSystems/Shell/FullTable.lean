import FtfSystems.Shell.JobIds

/-!
# Adding a job to a full table

When no slot is empty, `get_empty_place_in_list` returns the first one, and `addJob` writes the new
job over the job there.
-/
namespace FtfSystems.Shell
open Foundation

/-- The jobs that have not ended. -/
def JobsList.liveJobs (js : JobsList) : List JobEntry := js.nonBuiltInCmd.filter JobEntry.live

/-- `addJob` adds one job with an id of its own and leaves the jobs that have not ended as they
are. -/
def JobsList.AddsOne (js : JobsList) (cmd : Line) (isStopped : Bool) (now : ℤ) : Prop :=
  ∃ new, (js.addJob cmd false isStopped now).liveJobs.Perm (new :: js.liveJobs) ∧
    new.cmd = some cmd ∧ new.jStatus = (if isStopped then .stopped else .background) ∧
    ∀ job ∈ js.liveJobs, job.jId < new.jId

/-- The slot that `addJob` writes to holds no job that has not ended. -/
def JobsList.HasRoom (js : JobsList) : Prop :=
  (∃ job ∈ js.nonBuiltInCmd, job.jStatus = .empty) ∨
    ∃ job, js.nonBuiltInCmd.head? = some job ∧ job.jStatus = .finished

variable {js : JobsList} {pre post : List JobEntry} {old job : JobEntry} {cmd : Line}
  {isStopped : Bool} {now : ℤ}

theorem addedJob_live : (JobsList.addedJob pre old post cmd isStopped now).live = true := by
  cases isStopped <;> rfl

theorem hasRoom_iff (hl : js.nonBuiltInCmd = pre ++ old :: post)
    (hslot : old.jStatus = .empty ∨ pre = [] ∧ ∀ job ∈ js.nonBuiltInCmd, job.jStatus ≠ .empty) :
    js.HasRoom ↔ old.live = false := by
  rcases hslot with hempty | ⟨rfl, hfull⟩
  · exact iff_of_true (.inl ⟨old, by simp [hl], hempty⟩) (by simp [JobEntry.live, hempty])
  · have hold : old.jStatus ≠ .empty := hfull old (by simp [hl])
    have hhead : js.nonBuiltInCmd.head? = some old := by rw [hl]; rfl
    simp only [JobsList.HasRoom, hhead, JobEntry.live]
    constructor
    · rintro (⟨job, hjob, he⟩ | ⟨job, hjob, he⟩)
      · exact absurd he (hfull job hjob)
      · cases Option.some.inj hjob
        simp [he]
    · intro h
      exact .inr ⟨old, rfl, by simpa [hold] using h⟩

theorem JobsList.Ids.addsOne_iff (h : js.Ids) : js.AddsOne cmd isStopped now ↔ js.HasRoom := by
  obtain ⟨pre, old, post, hl, hi, hslot⟩ := h.slot
  rw [hasRoom_iff hl hslot]
  have hnew : (js.addJob cmd false isStopped now).liveJobs = pre.filter JobEntry.live ++
      JobsList.addedJob pre old post cmd isStopped now :: post.filter JobEntry.live := by
    rw [JobsList.liveJobs, JobsList.addJob_eq hl hi, List.filter_append,
      List.filter_cons_of_pos addedJob_live]
  constructor
  · rintro ⟨new, hperm, -⟩
    by_contra hlive
    have hlive : old.live = true := by simpa using hlive
    have hlen := hperm.length_eq
    rw [hnew, JobsList.liveJobs, hl, List.filter_append, List.filter_cons_of_pos hlive] at hlen
    simp at hlen
  · intro hlive
    have hold : js.liveJobs = (pre ++ post).filter JobEntry.live := by
      rw [JobsList.liveJobs, hl, List.filter_append, List.filter_cons_of_neg (by simp [hlive]),
        List.filter_append]
    refine ⟨JobsList.addedJob pre old post cmd isStopped now, ?_, ?_, ?_, fun job hjob => ?_⟩
    · rw [hnew, hold, List.filter_append]
      exact List.perm_middle
    · cases isStopped <;> rfl
    · cases isStopped <;> rfl
    · rw [hold] at hjob
      obtain ⟨hmem, hjlive⟩ := List.mem_filter.mp hjob
      have hne : job.jStatus ≠ .empty := by simp_all [JobEntry.live]
      exact JobsList.lt_addedJob hmem hne

/-- In every reachable table, `addJob` adds one job and loses none exactly when a slot is empty or
the job in the first slot is finished. -/
theorem addJob_adds_one_iff {js : JobsList} (h : jobTable.Reachable TransitionSystem.always js)
    (cmd : Line) (isStopped : Bool) (now : ℤ) : js.AddsOne cmd isStopped now ↔ js.HasRoom :=
  (jobTable_ids h).addsOne_iff

/-- Three background jobs, the second of which is then stopped. -/
def threeJobs : List JobOp :=
  [.addJob ['a'] false false 0, .setLastPid 7, .addJob ['b'] false false 1, .setLastPid 8,
    .addJob ['c'] false false 2, .setLastPid 9, .sendSigToJob 2 sigStop]

/-- The answers of `waitpid` when the job in the first slot has ended. -/
def firstEnded : ℕ → ℤ := fun i => if i = 0 then 7 else 0

/-- The next job takes the slot of the job that has ended and leaves the other two. -/
theorem addJob_adds_one_iff_reused :
    ∃ js, jobTable.run .new (threeJobs ++ [.removeFinishedJobs firstEnded]) = some js ∧
      js.liveJobs.map (fun job => (job.jId, job.pId)) = [(2, 8), (3, 9)] ∧
      js.AddsOne ['d'] false 4 := by
  obtain ⟨js, hrun, hr, hp⟩ := TransitionSystem.exists_of_run (S := jobTable)
    TransitionSystem.always (threeJobs ++ [.removeFinishedJobs firstEnded])
    (fun js => js.liveJobs.map (fun job => (job.jId, job.pId)) = [(2, 8), (3, 9)] ∧
      js.nonBuiltInCmd.any (·.jStatus = .empty)) rfl (fun _ _ _ => trivial) (by decide +kernel)
  obtain ⟨hlive, hempty⟩ := of_decide_eq_true hp
  obtain ⟨slot, hslot, he⟩ := List.any_eq_true.mp hempty
  have hroom : js.HasRoom := .inl ⟨slot, hslot, by simpa using he⟩
  exact ⟨js, hrun, hlive, (addJob_adds_one_iff hr ['d'] false 4).mpr hroom⟩

/-- `addJob` raises the greatest id. -/
theorem maxJobId_lt_addedJob (hl : js.nonBuiltInCmd = pre ++ old :: post) :
    js.getMaxJobId < (JobsList.addedJob pre old post cmd isStopped now).jId := by
  refine Int.lt_add_one_iff.mpr (JobsList.maxJobId_le_iff.mpr
    ⟨JobsList.maxJobId_nonneg _, fun job hjob hne => ?_⟩)
  rw [hl] at hjob
  rcases List.mem_append.mp hjob with hjob | hjob
  · exact JobsList.le_maxJobId (List.mem_append_left _ hjob) hne
  rcases List.mem_cons.mp hjob with rfl | hjob
  · -- the overwritten job still has its id when the new one is computed
    have hmem : { job with jStatus := if isStopped then .stopped else .background, cmd := some cmd,
                           time := now } ∈ pre ++ { job with
        jStatus := if isStopped then .stopped else .background, cmd := some cmd, time := now } ::
        post := by simp
    have hle := JobsList.le_maxJobId hmem (by cases isStopped <;> simp)
    exact hle
  · exact JobsList.le_maxJobId (by simp [hjob]) hne

/-- Background jobs fill one slot each and have greater and greater ids. -/
theorem exists_reachable_background (n : ℕ) :
    ∃ js, jobTable.Reachable TransitionSystem.always js ∧
      js.nonBuiltInCmd.countP (·.jStatus = .empty) = jobsMaxAmount - n ∧
      (∀ job ∈ js.nonBuiltInCmd, job.jStatus = .empty ∨ job.jStatus = .background) ∧
      n ≤ js.getMaxJobId := by
  induction n with
  | zero =>
    refine ⟨.new, .init rfl, ?_, ?_, JobsList.maxJobId_nonneg _⟩
    · simp [JobsList.new, JobEntry.new, List.countP_replicate]
    · simp [JobsList.new, JobEntry.new]
  | succ n ih =>
    obtain ⟨js, hr, hcount, hall, hmax⟩ := ih
    obtain ⟨pre, old, post, hl, hi, hslot⟩ := (jobTable_ids hr).slot
    have hnext : js.addJob ['a'] false false 0 =
        { js with
          nonBuiltInCmd := pre ++ JobsList.addedJob pre old post ['a'] false 0 :: post
          stoppedd := js.stoppedd ++ [] } := JobsList.addJob_eq hl hi
    refine ⟨_, hr.step (l := .addJob ['a'] false false 0) trivial rfl, ?_, ?_, ?_⟩
    · rw [hnext]
      rcases hslot with hempty | ⟨-, hfull⟩
      · rw [hl, List.countP_append, List.countP_cons_of_pos (by simpa using hempty)] at hcount
        rw [List.countP_append, List.countP_cons_of_neg (by simp [JobsList.addedJob])]
        omega
      · have hzero : js.nonBuiltInCmd.countP (·.jStatus = .empty) = 0 :=
          List.countP_eq_zero.mpr fun job hjob => by simpa using hfull job hjob
        have hnew : (pre ++ JobsList.addedJob pre old post ['a'] false 0 :: post).countP
            (·.jStatus = .empty) = 0 := by
          rw [hl, List.countP_append, List.countP_cons] at hzero
          rw [List.countP_append, List.countP_cons_of_neg (by simp [JobsList.addedJob])]
          omega
        rw [hnew]
        omega
    · rw [hnext]
      intro job hjob
      rcases List.mem_append.mp hjob with hjob | hjob
      · exact hall job (by simp [hl, hjob])
      rcases List.mem_cons.mp hjob with rfl | hjob
      · exact .inr rfl
      · exact hall job (by simp [hl, hjob])
    · have hid : js.getMaxJobId < (JobsList.addedJob pre old post ['a'] false 0).jId :=
        maxJobId_lt_addedJob hl
      rw [JobsList.getMaxJobId_addJob hl hi]
      push_cast
      omega

/-- One more background command than there are slots takes the place of a running job. -/
theorem addJob_overwrites_job :
    ¬ ∀ js, jobTable.Reachable TransitionSystem.always js →
      ∀ cmd isStopped now, js.AddsOne cmd isStopped now := by
  intro h
  obtain ⟨js, hr, hcount, hall, -⟩ := exists_reachable_background jobsMaxAmount
  rw [Nat.sub_self, List.countP_eq_zero] at hcount
  rcases (jobTable_ids hr).addsOne_iff.mp (h js hr ['a'] false 0) with ⟨job, hjob, he⟩ | ⟨job, hjob, hf⟩
  · exact hcount job hjob (by simpa using he)
  · have := hall job (List.mem_of_mem_head? hjob)
    simp [hf] at this

end FtfSystems.Shell

import FtfSystems.Foundation.SlotTable
import FtfSystems.Shell.TableSteps

/-!
# Ids of jobs

Every operation on the job table either leaves each slot its id or takes it away, or it is
`addJob`, which hands out an id above all others.
-/
namespace FtfSystems.Shell
open Foundation

/-- A slot keeps its id, or loses it; it is not emptied without losing it. -/
def JobEntry.Keeps (old new : JobEntry) : Prop :=
  new.jId = 0 ∨ new.jId = old.jId ∧ (new.jStatus = .empty → old.jStatus = .empty)

theorem JobEntry.Keeps.refl (job : JobEntry) : job.Keeps job := .inr ⟨rfl, id⟩

theorem JobEntry.Keeps.trans {a b c : JobEntry} (hab : a.Keeps b) (hbc : b.Keeps c) :
    a.Keeps c := by
  rcases hbc with h | ⟨hid, hst⟩
  · exact .inl h
  rcases hab with h | ⟨hid', hst'⟩
  · exact .inl (hid.trans h)
  · exact .inr ⟨hid.trans hid', hst' ∘ hst⟩

namespace JobsList

/-- No slot gets an id, and none is emptied with its id left. -/
structure Keeps (js js' : JobsList) : Prop where
  arr : js'.arr = js.arr
  jobs : List.Forall₂ JobEntry.Keeps js.nonBuiltInCmd js'.nonBuiltInCmd

section
variable {js js' js'' : JobsList} {jobId sigNum pid now : ℤ} {f : JobEntry → JobEntry}

theorem Keeps.of_eq (harr : js'.arr = js.arr) (h : js'.nonBuiltInCmd = js.nonBuiltInCmd) :
    js.Keeps js' :=
  ⟨harr, h ▸ List.forall₂_same.mpr fun job _ => .refl job⟩

theorem Keeps.refl (js : JobsList) : js.Keeps js := .of_eq rfl rfl

theorem Keeps.trans (h : js.Keeps js') (h' : js'.Keeps js'') : js.Keeps js'' :=
  ⟨h'.arr.trans h.arr, forall₂_trans (fun _ _ _ hab hbc => hab.trans hbc) h.jobs h'.jobs⟩

theorem modifyJob_keeps (js : JobsList) (jobId : ℤ) (hf : ∀ job : JobEntry, job.Keeps (f job)) :
    js.Keeps (js.modifyJob jobId f) :=
  ⟨rfl, forall₂_modifyFirst .refl (fun job _ => hf job) _⟩

theorem map_keeps (js : JobsList) (hf : ∀ job : JobEntry, job.Keeps (f job))
    (stoppedd : List JobEntry) :
    js.Keeps { js with nonBuiltInCmd := js.nonBuiltInCmd.map f, stoppedd := stoppedd } :=
  ⟨rfl, forall₂_map hf _⟩

/-- A status other than `empty` may be written into any slot. -/
theorem setStatus_keeps (js : JobsList) (jobId : ℤ) {status : JobStatus} (h : status ≠ .empty) :
    js.Keeps (js.modifyJob jobId fun job => { job with jStatus := status }) :=
  modifyJob_keeps js jobId fun _ => .inr ⟨rfl, fun he => absurd he h⟩

/-- `set_job_pid` reads the commands of the job and of its copy before it writes to both. -/
theorem setJobPid_eq_some {enCmd : Line} : js.setJobPid jobId pid enCmd = some js' ↔
    (∃ job, js.getJobById jobId = some job ∧ job.cmd ≠ none) ∧
    (∃ copy, js.getJobByIdSS jobId = some copy ∧ copy.cmd ≠ none) ∧
    js' = (js.modifyJob jobId fun job => { job with pId := pid, cmd := some enCmd }).modifyJobSS
      jobId fun job => { job with pId := pid, cmd := some enCmd } := by
  simp only [setJobPid, Option.bind_eq_bind, Option.bind_eq_some_iff, Option.pure_def,
    Option.some.injEq, Option.ne_none_iff_exists']
  constructor
  · rintro ⟨job, hjob, c, hc, copy, hcopy, c', hc', rfl⟩
    exact ⟨⟨job, hjob, c, hc⟩, ⟨copy, hcopy, c', hc'⟩, rfl⟩
  · rintro ⟨⟨job, hjob, c, hc⟩, ⟨copy, hcopy, c', hc'⟩, rfl⟩
    exact ⟨job, hjob, c, hc, copy, hcopy, c', hc', rfl⟩

theorem setJobPid_keeps {enCmd : Line} (h : js.setJobPid jobId pid enCmd = some js') :
    js.Keeps js' := by
  obtain ⟨-, -, rfl⟩ := setJobPid_eq_some.mp h
  exact ⟨rfl, forall₂_modifyFirst .refl (fun _ _ => .inr ⟨rfl, id⟩) _⟩

theorem setLastPid_keeps (h : js.setLastPid pid = some js') : js.Keeps js' := by
  simp only [setLastPid, Option.bind_eq_bind, Option.bind_eq_some_iff, Option.pure_def,
    Option.some.injEq] at h
  obtain ⟨-, -, rfl⟩ := h
  exact modifyJob_keeps js _ fun _ => .inr ⟨rfl, id⟩

theorem sendSigToJob_keeps (js : JobsList) (jobId sigNum : ℤ) :
    js.Keeps (js.sendSigToJob jobId sigNum).1 := by
  rw [sendSigToJob]
  cases js.getJobById jobId with
  | none => exact .refl js
  | some job =>
    have hdrop : js.Keeps (js.dropStopped jobId) := .of_eq rfl rfl
    dsimp only
    split_ifs
    · exact (js.setStatus_keeps jobId (by decide)).trans (.of_eq rfl rfl)
    · exact hdrop.trans ((js.dropStopped jobId).setStatus_keeps jobId (by decide))
    · exact hdrop.trans ((js.dropStopped jobId).setStatus_keeps jobId (by decide))
    · exact .refl js

theorem removeJobById_keeps (js : JobsList) (jobId : ℤ) : js.Keeps (js.removeJobById jobId) := by
  refine map_keeps js (fun job => ?_) _
  split_ifs
  · exact .inl rfl
  · exact .refl job

theorem sweepFinished_keeps (js : JobsList) (i n : ℕ) : js.Keeps (js.sweepFinished i n) := by
  induction n generalizing js i with
  | zero => exact .refl js
  | succ n ih =>
    rw [sweepFinished]
    refine Keeps.trans ?_ (ih _ _)
    cases js.nonBuiltInCmd[i]? with
    | none => exact .refl js
    | some job =>
      dsimp only
      split_ifs
      · exact js.removeJobById_keeps job.jId
      · exact .refl js

theorem markFinished_keeps (answers : ℕ → ℤ) (list : List JobEntry) :
    List.Forall₂ JobEntry.Keeps list (markFinished answers list) := by
  rw [List.forall₂_iff_get]
  refine ⟨by simp [markFinished], fun i hi hi' => ?_⟩
  simp only [markFinished, List.get_eq_getElem, List.getElem_mapIdx]
  split_ifs
  · exact .inr ⟨rfl, by simp⟩
  · exact .refl _

theorem removeFinishedJobs_keeps (js : JobsList) (answers : ℕ → ℤ) :
    js.Keeps (js.removeFinishedJobs answers).1 := by
  have hmark : js.Keeps { js with nonBuiltInCmd := markFinished answers js.nonBuiltInCmd } :=
    ⟨rfl, markFinished_keeps answers _⟩
  exact hmark.trans (sweepFinished_keeps _ _ _)

theorem killAllJobs_keeps {killWithPrint : Bool} {calls : List SysCall}
    (h : js.killAllJobs killWithPrint = some (js', calls)) : js.Keeps js' := by
  simp only [killAllJobs, Option.ite_none_left_eq_some, Option.some.injEq, Prod.mk.injEq] at h
  obtain ⟨-, rfl, -⟩ := h
  refine map_keeps js (fun job => ?_) _
  split_ifs
  · exact .inl rfl
  · exact .refl job

theorem setNewId_keeps (h : js.setNewId jobId now = some js') : js.Keeps js' := by
  simp only [setNewId, Option.bind_eq_bind, Option.bind_eq_some_iff, Option.pure_def,
    Option.some.injEq] at h
  obtain ⟨-, -, rfl⟩ := h
  exact ⟨rfl, forall₂_modifyFirst .refl (fun _ _ => .inr ⟨rfl, id⟩) _⟩

theorem stopPid_keeps (js : JobsList) (pid : ℤ) : js.Keeps (js.stopPid pid) :=
  ⟨rfl, forall₂_modifyFirst .refl (fun _ _ => .inr ⟨rfl, by simp⟩) _⟩

theorem ctrlC_keeps (js : JobsList) (pid : ℤ) : js.Keeps (js.ctrlC pid) := by
  refine map_keeps js (fun job => ?_) _
  split_ifs
  · exact .inr ⟨rfl, by simp⟩
  · exact .refl job

theorem foregroundFinish_keeps (h : foregroundFinish js jobId now = some js') : js.Keeps js' := by
  obtain ⟨js₁, h₁, h₂⟩ := foregroundFinish_cases h
  have hk₁ : js.Keeps js₁ := by
    rcases h₁ with rfl | rfl
    · exact .refl _
    · exact js.removeJobById_keeps jobId
  rcases h₂ with rfl | h₂
  · exact hk₁
  · exact hk₁.trans (setNewId_keeps h₂)

theorem resume_keeps (js : JobsList) (jobId : ℤ) :
    js.Keeps (setBackground (js.sendSigToJob jobId sigCont).1 jobId) :=
  (js.sendSigToJob_keeps jobId sigCont).trans (setStatus_keeps _ jobId (by decide))

end

section
variable {list pre post : List JobEntry} {job : JobEntry}

theorem foldl_maxJobId_le (list : List JobEntry) (r m : ℤ) :
    list.foldl (fun result i => if i.jStatus ≠ .empty then max result i.jId else result) r ≤ m ↔
      r ≤ m ∧ ∀ job ∈ list, job.jStatus ≠ .empty → job.jId ≤ m := by
  induction list generalizing r with
  | nil => simp
  | cons a list ih =>
    rw [List.foldl_cons, ih, List.forall_mem_cons]
    split_ifs with hne
    · rw [max_le_iff]
      tauto
    · tauto

theorem maxJobId_le_iff {m : ℤ} :
    maxJobId list ≤ m ↔ 0 ≤ m ∧ ∀ job ∈ list, job.jStatus ≠ .empty → job.jId ≤ m :=
  foldl_maxJobId_le list 0 m

theorem maxJobId_nonneg (list : List JobEntry) : 0 ≤ maxJobId list :=
  (maxJobId_le_iff.mp le_rfl).1

theorem le_maxJobId (hjob : job ∈ list) (hne : job.jStatus ≠ .empty) : job.jId ≤ maxJobId list :=
  (maxJobId_le_iff.mp le_rfl).2 job hjob hne

theorem modify_length_append (f : JobEntry → JobEntry) (pre : List JobEntry) :
    (pre ++ job :: post).modify pre.length f = pre ++ f job :: post := by
  induction pre with
  | nil => rfl
  | cons a pre ih => simpa using ih

theorem mem_of_getElem?_middle {other : JobEntry} {j : ℕ}
    (h : (pre ++ job :: post)[j]? = some other) (hj : j ≠ pre.length) : other ∈ pre ++ post := by
  rcases Nat.lt_or_gt_of_ne hj with hlt | hgt
  · rw [List.getElem?_append_left hlt] at h
    exact List.mem_append_left _ (List.mem_of_getElem? h)
  · obtain ⟨k, rfl⟩ := Nat.exists_eq_add_of_lt hgt
    rw [List.getElem?_append_right (by omega), show pre.length + k + 1 - pre.length = k + 1 by omega,
      List.getElem?_cons_succ] at h
    exact List.mem_append_right _ (List.mem_of_getElem? h)

/-- `get_empty_place_in_list` finds an empty slot, or returns the first slot of a full table. -/
theorem getEmptyPlaceInList_split (h : list ≠ []) :
    ∃ pre old post, list = pre ++ old :: post ∧ getEmptyPlaceInList list = pre.length ∧
      (old.jStatus = .empty ∨ pre = [] ∧ ∀ job ∈ list, job.jStatus ≠ .empty) := by
  cases hf : list.findIdx? (·.jStatus = .empty) with
  | none =>
    obtain ⟨old, post, rfl⟩ := List.exists_cons_of_ne_nil h
    refine ⟨[], old, post, rfl, by rw [getEmptyPlaceInList, hf]; rfl, .inr ⟨rfl, ?_⟩⟩
    simpa using hf
  | some i =>
    obtain ⟨hi, hempty, -⟩ := List.findIdx?_eq_some_iff_getElem.mp hf
    refine ⟨list.take i, list[i], list.drop (i + 1), by simp, ?_, .inl (by simpa using hempty)⟩
    rw [getEmptyPlaceInList, hf, Option.getD_some, List.length_take, min_eq_left hi.le]

end

/-- The entry that `addJob` writes into the slot `old` between `pre` and `post`. -/
def addedJob (pre : List JobEntry) (old : JobEntry) (post : List JobEntry) (cmd : Line)
    (isStopped : Bool) (now : ℤ) : JobEntry :=
  let stat := if isStopped then JobStatus.stopped else .background
  let tmp := { old with jStatus := stat, cmd := some cmd, time := now }
  { tmp with jId := maxJobId (pre ++ tmp :: post) + 1 }

section
variable {js : JobsList} {pre post : List JobEntry} {old : JobEntry} {cmd : Line} {isStopped : Bool}
  {now : ℤ}

theorem addJob_eq (hl : js.nonBuiltInCmd = pre ++ old :: post)
    (hi : getEmptyPlaceInList js.nonBuiltInCmd = pre.length) :
    js.addJob cmd false isStopped now =
      { js with
        nonBuiltInCmd := pre ++ addedJob pre old post cmd isStopped now :: post
        stoppedd := js.stoppedd ++ if isStopped then
          [(addedJob pre old post cmd isStopped now).stoppedCopy] else [] } := by
  have hclaim : claimSlot js.nonBuiltInCmd (if isStopped then .stopped else .background) cmd now =
      pre ++ { old with jStatus := if isStopped then .stopped else .background, cmd := some cmd,
                        time := now } :: post := by
    rw [claimSlot, hi, hl, modify_length_append]
  cases isStopped with
  | false =>
    simp only [addJob, Bool.false_eq_true, if_false, List.append_nil] at hclaim ⊢
    rw [hclaim, hi, modify_length_append]
    rfl
  | true =>
    simp only [addJob, Bool.false_eq_true, if_false, if_true] at hclaim ⊢
    rw [hclaim, hi, modify_length_append]
    simp only [List.getElem?_append_right, le_refl, Nat.sub_self, List.getElem?_cons_zero]
    rfl

theorem lt_addedJob {job : JobEntry} (hjob : job ∈ pre ++ post) (hne : job.jStatus ≠ .empty) :
    job.jId < (addedJob pre old post cmd isStopped now).jId := by
  refine Int.lt_add_one_iff.mpr (le_maxJobId ?_ hne)
  simp only [List.mem_append, List.mem_cons] at hjob ⊢
  tauto

theorem addedJob_pos : 0 < (addedJob pre old post cmd isStopped now).jId :=
  Int.lt_add_one_iff.mpr (maxJobId_nonneg _)

/-- The new job has the greatest id. -/
theorem maxJobId_addedJob :
    maxJobId (pre ++ addedJob pre old post cmd isStopped now :: post) =
      (addedJob pre old post cmd isStopped now).jId := by
  refine le_antisymm (maxJobId_le_iff.mpr ⟨addedJob_pos.le, fun job hjob hne => ?_⟩)
    (le_maxJobId (by simp) ?_)
  · rcases List.mem_append.mp hjob with hjob | hjob
    · exact (lt_addedJob (List.mem_append_left _ hjob) hne).le
    rcases List.mem_cons.mp hjob with rfl | hjob
    · exact le_rfl
    · exact (lt_addedJob (List.mem_append_right _ hjob) hne).le
  · cases isStopped <;> simp [addedJob]

theorem getMaxJobId_addJob (hl : js.nonBuiltInCmd = pre ++ old :: post)
    (hi : getEmptyPlaceInList js.nonBuiltInCmd = pre.length) :
    (js.addJob cmd false isStopped now).getMaxJobId =
      (addedJob pre old post cmd isStopped now).jId := by
  rw [getMaxJobId, addJob_eq hl hi, maxJobId_addedJob]

end

/-- The ids of a table: an empty slot has none, and no two slots share one. -/
structure Ids (js : JobsList) : Prop where
  arr_length : js.arr.length = jobsMaxAmount
  length : js.nonBuiltInCmd.length = jobsMaxAmount
  empty_zero : ∀ job ∈ js.nonBuiltInCmd, job.jStatus = .empty → job.jId = 0
  distinct : DistinctKeys JobEntry.jId js.nonBuiltInCmd

theorem Ids.new : Ids .new where
  arr_length := by simp [JobsList.new]
  length := by simp [JobsList.new]
  empty_zero := by simp [JobsList.new, JobEntry.new]
  distinct := by simp [JobsList.new, JobEntry.new, DistinctKeys, List.pairwise_replicate]

section
variable {js js' : JobsList} {cmd : Line} {builtIn isStopped : Bool} {now : ℤ}

theorem Ids.keeps (h : Ids js) (hk : js.Keeps js') : Ids js' where
  arr_length := hk.arr ▸ h.arr_length
  length := hk.jobs.length_eq ▸ h.length
  empty_zero job hjob he := by
    obtain ⟨old, hold, hzero | ⟨hid, hst⟩⟩ := exists_of_mem_forall₂ hk.jobs hjob
    · exact hzero
    · exact hid.trans (h.empty_zero old hold (hst he))
  distinct := h.distinct.of_forall₂ (hk.jobs.imp fun _ _ h => h.imp_right And.left)

theorem Ids.ne_nil (h : Ids js) : js.nonBuiltInCmd ≠ [] :=
  List.ne_nil_of_length_pos (by simp [h.length, jobsMaxAmount])

/-- The slot that the next job gets. -/
theorem Ids.slot (h : Ids js) :
    ∃ pre old post, js.nonBuiltInCmd = pre ++ old :: post ∧
      getEmptyPlaceInList js.nonBuiltInCmd = pre.length ∧
      (old.jStatus = .empty ∨ pre = [] ∧ ∀ job ∈ js.nonBuiltInCmd, job.jStatus ≠ .empty) :=
  getEmptyPlaceInList_split h.ne_nil

theorem Ids.addJob_ne {pre post : List JobEntry} {old job : JobEntry} (h : Ids js)
    (hl : js.nonBuiltInCmd = pre ++ old :: post) (hjob : job ∈ pre ++ post) :
    (addedJob pre old post cmd isStopped now).jId ≠ job.jId := by
  by_cases hempty : job.jStatus = .empty
  · have hmem : job ∈ js.nonBuiltInCmd := by
      simp only [hl, List.mem_append, List.mem_cons] at hjob ⊢
      tauto
    rw [h.empty_zero job hmem hempty]
    exact addedJob_pos.ne'
  · exact (lt_addedJob hjob hempty).ne'

theorem addJob_builtIn_eq (js : JobsList) (cmd : Line) (isStopped : Bool) (now : ℤ) :
    (js.addJob cmd true isStopped now).nonBuiltInCmd = js.nonBuiltInCmd ∧
      (js.addJob cmd true isStopped now).arr.length = js.arr.length := by
  cases isStopped <;> simp [addJob, claimSlot]

theorem addJob_builtIn_arr {pre post : List JobEntry} {old : JobEntry}
    (hl : js.arr = pre ++ old :: post) (hi : getEmptyPlaceInList js.arr = pre.length) :
    (js.addJob cmd true isStopped now).arr = pre ++
      { jStatus := if isStopped then .stopped else .background, jId := js.getMaxJobId + 1,
        pId := old.pId, cmd := some cmd, time := now } :: post := by
  have hclaim (stat : JobStatus) : claimSlot js.arr stat cmd now =
      pre ++ { old with jStatus := stat, cmd := some cmd, time := now } :: post := by
    rw [claimSlot, hi, hl, modify_length_append]
  cases isStopped with
  | false =>
    simp only [addJob, if_true, Bool.false_eq_true, if_false]
    rw [hclaim, hi, modify_length_append]
    rfl
  | true =>
    simp only [addJob, if_true]
    rw [hclaim, hi, modify_length_append]
    rfl

theorem Ids.addJob (h : Ids js) (cmd : Line) (builtIn isStopped : Bool) (now : ℤ) :
    Ids (js.addJob cmd builtIn isStopped now) := by
  cases builtIn with
  | true =>
    obtain ⟨hjobs, harr⟩ := addJob_builtIn_eq js cmd isStopped now
    exact ⟨harr ▸ h.arr_length, hjobs ▸ h.length, hjobs ▸ h.empty_zero, hjobs ▸ h.distinct⟩
  | false =>
    obtain ⟨pre, old, post, hl, hi, -⟩ := h.slot
    rw [addJob_eq hl hi]
    refine ⟨h.arr_length, ?_, fun job hjob hempty => ?_, ?_⟩
    · have hlen := h.length
      simp only [hl, List.length_append, List.length_cons] at hlen ⊢
      exact hlen
    · rcases List.mem_append.mp hjob with hjob | hjob
      · exact h.empty_zero job (by simp [hl, hjob]) hempty
      rcases List.mem_cons.mp hjob with rfl | hjob
      · cases isStopped <;> cases hempty
      · exact h.empty_zero job (by simp [hl, hjob]) hempty
    · exact (hl ▸ h.distinct : DistinctKeys _ (pre ++ old :: post)).replace
        fun job hjob => h.addJob_ne hl hjob

theorem ctrlZ_cases {pid : ℤ} {forCmd : Option Line}
    (hz : js.ctrlZ pid forCmd now = some js') :
    js.Keeps js' ∨ ∃ cmd, (js.addJob cmd false true now).Keeps js' := by
  rw [JobsList.ctrlZ] at hz
  split_ifs at hz
  · cases Option.some.inj hz
    exact .inl (js.stopPid_keeps pid)
  · obtain ⟨cmd, -, hz⟩ := Option.bind_eq_some_iff.mp hz
    exact .inr ⟨cmd, setJobPid_keeps hz⟩

theorem Ids.maxJobId_le_of_keeps (h : Ids js) (hk : js.Keeps js') :
    js'.getMaxJobId ≤ js.getMaxJobId := by
  refine maxJobId_le_iff.mpr ⟨maxJobId_nonneg _, fun job hjob hne => ?_⟩
  obtain ⟨old, hold, hzero | ⟨hid, -⟩⟩ := exists_of_mem_forall₂ hk.jobs hjob
  · exact hzero ▸ maxJobId_nonneg _
  by_cases hempty : old.jStatus = .empty
  · rw [hid, h.empty_zero old hold hempty]
    exact maxJobId_nonneg _
  · exact hid ▸ le_maxJobId hold hempty

/-- A new job raises the greatest id by one at most. -/
theorem Ids.maxJobId_addJob_le (h : Ids js) (cmd : Line) (builtIn isStopped : Bool) (now : ℤ) :
    (js.addJob cmd builtIn isStopped now).getMaxJobId ≤ js.getMaxJobId + 1 := by
  cases builtIn with
  | true =>
    rw [getMaxJobId, (addJob_builtIn_eq js cmd isStopped now).1]
    exact (Int.lt_succ _).le
  | false =>
    obtain ⟨pre, old, post, hl, hi, -⟩ := h.slot
    have hnonneg : 0 ≤ js.getMaxJobId := maxJobId_nonneg _
    rw [getMaxJobId_addJob hl hi]
    refine Int.add_le_add_right (maxJobId_le_iff.mpr ⟨hnonneg, fun job hjob hne => ?_⟩) 1
    have hother (hjob : job ∈ js.nonBuiltInCmd) : job.jId ≤ js.getMaxJobId := le_maxJobId hjob hne
    rcases List.mem_append.mp hjob with hjob | hjob
    · exact hother (by simp [hl, hjob])
    rcases List.mem_cons.mp hjob with rfl | hjob
    · -- the slot still has the id of its last job
      have hold : old ∈ js.nonBuiltInCmd := by simp [hl]
      change old.jId ≤ js.getMaxJobId
      by_cases hempty : old.jStatus = .empty
      · exact (h.empty_zero old hold hempty).trans_le hnonneg
      · exact le_maxJobId hold hempty
    · exact hother (by simp [hl, hjob])

end

end JobsList

/-- The operations on a job table, with any arguments. `bg` and `fg` are what
`BackgroundCommand::execute` and the two halves of `ForegroundCommand::execute` do for a job. -/
inductive JobOp where
  | addJob (cmd : Line) (builtIn isStopped : Bool) (now : ℤ)
  | setJobPid (jobId pid : ℤ) (enCmd : Line)
  | setLastPid (pid : ℤ)
  | sendSigToJob (jobId sigNum : ℤ)
  | removeJobById (jobId : ℤ)
  | removeFinishedJobs (answers : ℕ → ℤ)
  | killAllJobs (killWithPrint : Bool)
  | setNewId (jobId now : ℤ)
  | bg (jobId : ℤ)
  | fg (jobId : ℤ)
  | fgReturns (jobId now : ℤ)
  | ctrlZ (pid : ℤ) (forCmd : Option Line) (now : ℤ)
  | ctrlC (pid : ℤ)

/-- One operation on a job table. -/
def JobOp.apply (js : JobsList) : JobOp → Option JobsList
  | .addJob cmd builtIn isStopped now => some (js.addJob cmd builtIn isStopped now)
  | .setJobPid jobId pid enCmd => js.setJobPid jobId pid enCmd
  | .setLastPid pid => js.setLastPid pid
  | .sendSigToJob jobId sigNum => some (js.sendSigToJob jobId sigNum).1
  | .removeJobById jobId => some (js.removeJobById jobId)
  | .removeFinishedJobs answers => some (js.removeFinishedJobs answers).1
  | .killAllJobs killWithPrint => (js.killAllJobs killWithPrint).map Prod.fst
  | .setNewId jobId now => js.setNewId jobId now
  | .bg jobId => some (setBackground (js.sendSigToJob jobId sigCont).1 jobId)
  | .fg jobId => (foregroundResume js jobId).map Prod.fst
  | .fgReturns jobId now => foregroundFinish js jobId now
  | .ctrlZ pid forCmd now => js.ctrlZ pid forCmd now
  | .ctrlC pid => some (js.ctrlC pid)

/-- The job table under any sequence of operations. -/
def jobTable : TransitionSystem JobsList JobOp where
  init js := js = .new
  next := JobOp.apply

/-- An operation takes ids away, or adds a job before that. -/
theorem JobOp.apply_cases {js js' : JobsList} {op : JobOp} (h : op.apply js = some js') :
    js.Keeps js' ∨ ∃ cmd builtIn isStopped now,
      (js.addJob cmd builtIn isStopped now).Keeps js' := by
  cases op with
  | addJob cmd builtIn isStopped now =>
    cases Option.some.inj h
    exact .inr ⟨cmd, builtIn, isStopped, now, .refl _⟩
  | setJobPid jobId pid enCmd => exact .inl (JobsList.setJobPid_keeps h)
  | setLastPid pid => exact .inl (JobsList.setLastPid_keeps h)
  | sendSigToJob jobId sigNum =>
    cases Option.some.inj h
    exact .inl (js.sendSigToJob_keeps jobId sigNum)
  | removeJobById jobId =>
    cases Option.some.inj h
    exact .inl (js.removeJobById_keeps jobId)
  | removeFinishedJobs answers =>
    cases Option.some.inj h
    exact .inl (js.removeFinishedJobs_keeps answers)
  | killAllJobs killWithPrint =>
    obtain ⟨⟨js₁, calls⟩, hk, rfl⟩ := Option.map_eq_some_iff.mp h
    exact .inl (JobsList.killAllJobs_keeps hk)
  | setNewId jobId now => exact .inl (JobsList.setNewId_keeps h)
  | bg jobId =>
    cases Option.some.inj h
    exact .inl (js.resume_keeps jobId)
  | fg jobId =>
    obtain ⟨⟨js₁, pid, calls⟩, hr, rfl⟩ := Option.map_eq_some_iff.mp h
    exact .inl ((foregroundResume_eq hr).1 ▸ js.sendSigToJob_keeps jobId sigCont)
  | fgReturns jobId now => exact .inl (JobsList.foregroundFinish_keeps h)
  | ctrlZ pid forCmd now =>
    rcases JobsList.ctrlZ_cases h with hk | ⟨cmd, hk⟩
    · exact .inl hk
    · exact .inr ⟨cmd, false, true, now, hk⟩
  | ctrlC pid =>
    cases Option.some.inj h
    exact .inl (js.ctrlC_keeps pid)

theorem JobOp.apply_ids {js js' : JobsList} {op : JobOp} (hi : js.Ids)
    (h : op.apply js = some js') : js'.Ids := by
  rcases JobOp.apply_cases h with hk | ⟨cmd, builtIn, isStopped, now, hk⟩
  · exact hi.keeps hk
  · exact (hi.addJob cmd builtIn isStopped now).keeps hk

theorem jobTable_ids {js : JobsList} {ok : JobsList → JobOp → Prop}
    (h : jobTable.Reachable ok js) : js.Ids := by
  refine h.invariant ?_ fun _ _ _ hi _ hs => JobOp.apply_ids hi hs
  rintro js rfl
  exact .new

theorem JobOp.apply_maxJobId_le {js js' : JobsList} {op : JobOp} (hi : js.Ids)
    (h : op.apply js = some js') : js'.getMaxJobId ≤ js.getMaxJobId + 1 := by
  rcases JobOp.apply_cases h with hk | ⟨cmd, builtIn, isStopped, now, hk⟩
  · exact (hi.maxJobId_le_of_keeps hk).trans (Int.lt_succ _).le
  · exact ((hi.addJob cmd builtIn isStopped now).maxJobId_le_of_keeps hk).trans
      (hi.maxJobId_addJob_le cmd builtIn isStopped now)

/-- A run of `n` operations raises the greatest id by `n` at most. From the empty table, ids fit an
`int` in every run of fewer than `2 ^ 31` operations. -/
theorem maxJobId_le_of_run {js js' : JobsList} {ops : List JobOp} (hi : js.Ids)
    (h : jobTable.run js ops = some js') : js'.getMaxJobId ≤ js.getMaxJobId + ops.length := by
  induction ops generalizing js with
  | nil =>
    obtain rfl := Option.some.inj h
    simp
  | cons op ops ih =>
    obtain ⟨js₁, hop, hrun⟩ := Option.bind_eq_some_iff.mp h
    have hfirst := JobOp.apply_maxJobId_le hi hop
    have hrest := ih (JobOp.apply_ids hi hop) hrun
    rw [List.length_cons]
    push_cast
    omega

/-- The slot that `addJob` writes: of `arr` for a built-in command, else of `non_built_in_cmd`. -/
def JobsList.addedAt (js : JobsList) (cmd : Line) (builtIn isStopped : Bool) (now : ℤ) :
    Option JobEntry :=
  let js' := js.addJob cmd builtIn isStopped now
  if builtIn then js'.arr[getEmptyPlaceInList js.arr]?
  else js'.nonBuiltInCmd[getEmptyPlaceInList js.nonBuiltInCmd]?

theorem JobsList.Ids.addedAt_lt {js : JobsList} (h : js.Ids) (cmd : Line) (builtIn isStopped : Bool)
    (now : ℤ) :
    ∃ job, js.addedAt cmd builtIn isStopped now = some job ∧
      ∀ (j : ℕ) other, (js.addJob cmd builtIn isStopped now).nonBuiltInCmd[j]? = some other →
        (builtIn = true ∨ j ≠ getEmptyPlaceInList js.nonBuiltInCmd) → other.jStatus ≠ .empty →
        other.jId < job.jId := by
  cases builtIn with
  | true =>
    have harr : js.arr ≠ [] := List.ne_nil_of_length_pos (by simp [h.arr_length, jobsMaxAmount])
    obtain ⟨pre, old, post, hl, hi, -⟩ := getEmptyPlaceInList_split harr
    have hadded : js.addedAt cmd true isStopped now = some
        { jStatus := if isStopped then .stopped else .background, jId := js.getMaxJobId + 1,
          pId := old.pId, cmd := some cmd, time := now } := by
      rw [addedAt, if_pos rfl, addJob_builtIn_arr hl hi, hi]
      simp
    refine ⟨_, hadded, fun j other hj _ hst => ?_⟩
    rw [(addJob_builtIn_eq js cmd isStopped now).1] at hj
    exact Int.lt_add_one_iff.mpr (le_maxJobId (List.mem_of_getElem? hj) hst)
  | false =>
    obtain ⟨pre, old, post, hl, hi, -⟩ := h.slot
    refine ⟨addedJob pre old post cmd isStopped now, ?_, fun j other hj hne hst => ?_⟩
    · simp only [addedAt, Bool.false_eq_true, if_false]
      rw [addJob_eq hl hi, hi]
      simp
    · rw [addJob_eq hl hi] at hj
      exact lt_addedJob (mem_of_getElem?_middle hj (hi ▸ hne.resolve_left nofun)) hst

/-- In every state of the job table, an empty slot has id `0`, no two slots share another id, and
the next job gets an id above those of all other jobs. -/
theorem job_ids_distinct {js : JobsList} (h : jobTable.Reachable TransitionSystem.always js) :
    (∀ job ∈ js.nonBuiltInCmd, job.jStatus = .empty → job.jId = 0) ∧
    (∀ (i j : ℕ) a b, js.nonBuiltInCmd[i]? = some a → js.nonBuiltInCmd[j]? = some b → i ≠ j →
      a.jId ≠ 0 → a.jId ≠ b.jId) ∧
    ∀ cmd builtIn isStopped now, ∃ job, js.addedAt cmd builtIn isStopped now = some job ∧
      ∀ (j : ℕ) other, (js.addJob cmd builtIn isStopped now).nonBuiltInCmd[j]? = some other →
        (builtIn = true ∨ j ≠ JobsList.getEmptyPlaceInList js.nonBuiltInCmd) →
        other.jStatus ≠ .empty → other.jId < job.jId := by
  have hids := jobTable_ids h
  refine ⟨hids.empty_zero, fun i j a b hi hj hij h0 he => ?_, hids.addedAt_lt⟩
  obtain ⟨hi', rfl⟩ := List.getElem?_eq_some_iff.mp hi
  obtain ⟨hj', rfl⟩ := List.getElem?_eq_some_iff.mp hj
  have hpair := List.pairwise_iff_getElem.mp hids.distinct
  rcases Nat.lt_or_gt_of_ne hij with hlt | hlt
  · exact h0 (hpair i j hi' hj' hlt he)
  · exact h0 (he.trans (hpair j i hj' hi' hlt he.symm))

theorem job_ids_distinct_twoJobs : ∃ js, jobTable.Reachable TransitionSystem.always js ∧
    js.getMaxJobId = 2 ∧ ∀ cmd builtIn isStopped now, ∃ job,
      js.addedAt cmd builtIn isStopped now = some job ∧
      ∀ (j : ℕ) other, (js.addJob cmd builtIn isStopped now).nonBuiltInCmd[j]? = some other →
        (builtIn = true ∨ j ≠ JobsList.getEmptyPlaceInList js.nonBuiltInCmd) →
        other.jStatus ≠ .empty → other.jId < job.jId := by
  obtain ⟨js, -, hr, hp⟩ := TransitionSystem.exists_of_run (S := jobTable) TransitionSystem.always
    [.addJob ['a'] false false 0, .ctrlZ 7 (some ['b']) 1] (·.getMaxJobId = 2) rfl
    (fun _ _ _ => trivial) (by decide +kernel)
  exact ⟨js, hr, by simpa using hp, (job_ids_distinct hr).2.2⟩

/-- The table of the running shell is one that its operations reach. -/
theorem smash_jobTable {chdir : Line → Line → Option Line} {ok : State → Event → Prop} {s : State}
    (h : (smash chdir).Reachable ok s) (hrun : s.phase ≠ .exited) :
    jobTable.Reachable TransitionSystem.always s.shell.jobs := by
  refine smash_table_invariant (.init rfl)
    (fun js answers hr => hr.step (l := .removeFinishedJobs answers) trivial rfl) ?_ h hrun
  intro s ev js' hr _ hc
  cases hc with
  | same => exact hr
  | line hl =>
    cases hl with
    | same => exact hr
    | reap answers => exact hr.step (l := .removeFinishedJobs answers) trivial rfl
    | signal jobId sigNum => exact hr.step (l := .sendSigToJob jobId sigNum) trivial rfl
    | resume jobId => exact hr.step (l := .bg jobId) trivial rfl
    | killAll _ hk =>
      exact hr.step (l := .killAllJobs true) trivial (congrArg (Option.map Prod.fst) hk)
    | add now => exact hr.step (l := .addJob _ false false now) trivial rfl
    | start now pid _ hp =>
      exact (hr.step (l := .addJob _ false false now) trivial rfl).step (l := .setLastPid pid)
        trivial hp
  | ctrlZ _ hz => exact hr.step (l := .ctrlZ _ _ _) trivial hz
  | ctrlC _ => exact hr.step (l := .ctrlC _) trivial rfl
  | foreground hf => exact hr.step (l := .fgReturns _ _) trivial hf

end FtfSystems.Shell

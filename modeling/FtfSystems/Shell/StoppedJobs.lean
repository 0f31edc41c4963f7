import FtfSystems.Shell.JobIds

/-!
# The two lists of stopped jobs

A stopped job stands in the job table with the status `stopped` and again in `stoppedd`. Read as
sets of ids and processes the two lists are equal, and every operation but three changes them
alike.
-/
namespace FtfSystems.Shell
open Foundation

variable {list list' pre post : List JobEntry} {job a : JobEntry} {k p jobId pid now : ℤ}

/-- The job `k` is stopped and runs the process `p`. -/
def JobEntry.StoppedAs (job : JobEntry) (k p : ℤ) : Prop :=
  job.jStatus = .stopped ∧ job.jId = k ∧ job.pId = p

/-- The list has the stopped job `k` with the process `p`. -/
def StoppedAs (list : List JobEntry) (k p : ℤ) : Prop := ∃ job ∈ list, job.StoppedAs k p

theorem stoppedAs_append :
    StoppedAs (list ++ list') k p ↔ StoppedAs list k p ∨ StoppedAs list' k p := by
  simp only [StoppedAs, List.mem_append, or_and_right, exists_or]

theorem stoppedAs_cons :
    StoppedAs (job :: list) k p ↔ job.StoppedAs k p ∨ StoppedAs list k p := by
  simp only [StoppedAs, List.mem_cons, or_and_right, exists_or, exists_eq_left]

theorem stoppedAs_copy : StoppedAs [job.stoppedCopy] k p ↔ job.jId = k ∧ job.pId = p := by
  simp [StoppedAs, JobEntry.StoppedAs, JobEntry.stoppedCopy]

theorem stoppedAs_congr
    (h : List.Forall₂ (fun a b => b.StoppedAs k p ↔ a.StoppedAs k p) list list') :
    StoppedAs list' k p ↔ StoppedAs list k p := by
  induction h with
  | nil => rfl
  | cons hab _ ih => rw [stoppedAs_cons, stoppedAs_cons, hab, ih]

/-- A write that empties or finishes the slots `q`, and no others. -/
theorem stoppedAs_map_drop {q : JobEntry → Prop} [DecidablePred q] {f : JobEntry → JobEntry}
    (hf : ∀ job ∈ list, q job → (f job).jStatus ≠ .stopped)
    (hq : ∀ job ∈ list, job.StoppedAs k p → (q job ↔ k = jobId)) :
    StoppedAs (list.map fun job => if q job then f job else job) k p ↔
      StoppedAs list k p ∧ k ≠ jobId := by
  constructor
  · rintro ⟨b, hb, hs⟩
    obtain ⟨job, hjob, rfl⟩ := List.mem_map.mp hb
    split_ifs at hs with hqj
    · exact absurd hs.1 (hf job hjob hqj)
    · exact ⟨⟨job, hjob, hs⟩, fun hk => hqj ((hq job hjob hs).mpr hk)⟩
  · rintro ⟨⟨job, hjob, hs⟩, hk⟩
    refine ⟨_, List.mem_map.mpr ⟨job, hjob, rfl⟩, ?_⟩
    rw [if_neg fun hqj => hk ((hq job hjob hs).mp hqj)]
    exact hs

/-- A write of the status `stopped` to the first slot with a property. -/
theorem stoppedAs_modifyFirst_stop (q : JobEntry → Bool) (hfind : list.find? q = some job) :
    StoppedAs (modifyFirst q (fun job => { job with jStatus := .stopped }) list) k p ↔
      StoppedAs list k p ∨ job.jId = k ∧ job.pId = p := by
  obtain ⟨hnone, -⟩ | ⟨pre, found, post, rfl, -, -, hsome, he⟩ :=
    modifyFirst_cases q (fun job : JobEntry => { job with jStatus := .stopped }) list
  · simp [hfind] at hnone
  · obtain rfl : found = job := Option.some.inj (hsome.symm.trans hfind)
    rw [he]
    simp only [stoppedAs_append, stoppedAs_cons, JobEntry.StoppedAs, true_and]
    tauto

/-- A write to the first slot with a property that changes nothing about stopped jobs. -/
theorem stoppedAs_modifyFirst {q : JobEntry → Bool} {f : JobEntry → JobEntry}
    (h : ∀ job ∈ list, q job = true → ((f job).StoppedAs k p ↔ job.StoppedAs k p)) :
    StoppedAs (modifyFirst q f list) k p ↔ StoppedAs list k p := by
  obtain ⟨-, he⟩ | ⟨pre, found, post, rfl, -, hfound, -, he⟩ := modifyFirst_cases q f list
  · rw [he]
  · rw [he]
    simp only [stoppedAs_append, stoppedAs_cons, h found (by simp) hfound]

namespace JobsList

/-- The ids are distinct and the two lists of stopped jobs agree. -/
structure Views (js : JobsList) : Prop where
  ids : js.Ids
  copies : ∀ job ∈ js.stoppedd, job.jStatus = .stopped ∨ job.jStatus = .empty ∧ job.jId = 0
  agree : ∀ k p, 1 ≤ k → (StoppedAs js.stoppedd k p ↔ StoppedAs js.nonBuiltInCmd k p)

variable {js js' : JobsList}

theorem Views.new : Views .new where
  ids := .new
  copies := by simp [JobsList.new, JobEntry.new]
  agree k p _ := Iff.rfl

/-- A write of a status other than `stopped` to a job. -/
theorem Ids.stoppedAs_setStatus (h : js.Ids) {status : JobStatus} (hst : status ≠ .stopped)
    (hk : 1 ≤ k) :
    StoppedAs (js.modifyJob jobId fun job => { job with jStatus := status }).nonBuiltInCmd k p ↔
      StoppedAs js.nonBuiltInCmd k p ∧ k ≠ jobId := by
  by_cases h0 : jobId = 0
  · have hsame : StoppedAs (js.modifyJob jobId fun job => { job with jStatus := status }).nonBuiltInCmd
        k p ↔ StoppedAs js.nonBuiltInCmd k p := by
      refine stoppedAs_modifyFirst fun job _ hj => ?_
      have hid : job.jId ≠ k := by
        have hj' : job.jId = jobId := by simpa using hj
        omega
      simp [JobEntry.StoppedAs, hid]
    rw [hsame, h0]
    exact ⟨fun hs => ⟨hs, by omega⟩, And.left⟩
  · rw [modifyJob, h.distinct.modifyFirst_eq_map _ h0]
    refine stoppedAs_map_drop (fun job _ _ => hst) fun job _ hs => ?_
    rw [hs.2.1]

theorem stoppedAs_dropStopped (js : JobsList) :
    StoppedAs (js.dropStopped jobId).stoppedd k p ↔ StoppedAs js.stoppedd k p ∧ k ≠ jobId := by
  refine stoppedAs_map_drop (fun _ _ _ => by simp) fun job _ hs => ?_
  rw [hs.1, hs.2.1]
  simp [eq_comm]

theorem Views.dropStopped_copies (h : js.Views) (jobId : ℤ) :
    ∀ job ∈ (js.dropStopped jobId).stoppedd,
      job.jStatus = .stopped ∨ job.jStatus = .empty ∧ job.jId = 0 := by
  intro b hb
  obtain ⟨job, hjob, rfl⟩ := List.mem_map.mp hb
  split_ifs
  · exact .inr ⟨rfl, rfl⟩
  · exact h.copies job hjob

theorem Views.push (h : js.Views) (job : JobEntry) :
    ∀ b ∈ js.stoppedd ++ [job.stoppedCopy],
      b.jStatus = .stopped ∨ b.jStatus = .empty ∧ b.jId = 0 := by
  intro b hb
  rcases List.mem_append.mp hb with hb | hb
  · exact h.copies b hb
  · rw [List.mem_singleton.mp hb]
    exact .inl rfl

/-- `SIGCONT` and `SIGKILL` take a job out of both lists. -/
theorem Views.unstop (h : js.Views) (jobId : ℤ) {status : JobStatus} (hst : status ≠ .stopped)
    (hne : status ≠ .empty) :
    ((js.dropStopped jobId).modifyJob jobId fun job => { job with jStatus := status }).Views where
  ids := by
    have hdrop : js.Keeps (js.dropStopped jobId) := .of_eq rfl rfl
    exact h.ids.keeps (hdrop.trans (setStatus_keeps _ jobId hne))
  copies := h.dropStopped_copies jobId
  agree k p hk := by
    rw [(h.ids.keeps (.of_eq rfl rfl) : (js.dropStopped jobId).Ids).stoppedAs_setStatus hst hk]
    change StoppedAs (js.dropStopped jobId).stoppedd k p ↔ _
    rw [stoppedAs_dropStopped, h.agree k p hk]
    rfl

theorem Views.sendSigToJob (h : js.Views) (jobId sigNum : ℤ) :
    (js.sendSigToJob jobId sigNum).1.Views := by
  have hids := h.ids.keeps (js.sendSigToJob_keeps jobId sigNum)
  rw [JobsList.sendSigToJob] at hids ⊢
  cases hg : js.getJobById jobId with
  | none => exact h
  | some job =>
    simp only [hg] at hids ⊢
    split_ifs at hids ⊢ with hstop hcont hkill
    · refine ⟨hids, h.push job, fun k p hk => ?_⟩
      dsimp only [modifyJob]
      rw [stoppedAs_append, stoppedAs_copy, h.agree k p hk,
        stoppedAs_modifyFirst_stop (fun job => job.jId = jobId) hg]
    · exact h.unstop jobId (by decide) (by decide)
    · exact h.unstop jobId (by decide) (by decide)
    · exact h

/-- After `SIGCONT` the job is not stopped. -/
theorem Views.not_stoppedAs_sigCont (h : js.Views) (hk : 1 ≤ jobId) :
    ¬ StoppedAs (js.sendSigToJob jobId sigCont).1.nonBuiltInCmd jobId p := by
  rw [JobsList.sendSigToJob]
  cases hg : js.getJobById jobId with
  | none =>
    rintro ⟨job, hjob, hs⟩
    simpa [hs.2.1] using List.find?_eq_none.mp hg job hjob
  | some job =>
    have hids : (js.dropStopped jobId).Ids := h.ids.keeps (.of_eq rfl rfl)
    dsimp only
    rw [if_neg (by decide), if_pos rfl, hids.stoppedAs_setStatus (by decide) hk]
    exact fun hs => hs.2 rfl

theorem Views.resume (h : js.Views) (jobId : ℤ) :
    (setBackground (js.sendSigToJob jobId sigCont).1 jobId).Views := by
  have hv := h.sendSigToJob jobId sigCont
  refine ⟨hv.ids.keeps (setStatus_keeps _ jobId (by decide)), hv.copies, fun k p hk => ?_⟩
  rw [setBackground, hv.ids.stoppedAs_setStatus (by decide) hk]
  change StoppedAs (js.sendSigToJob jobId sigCont).1.stoppedd k p ↔ _
  rw [hv.agree k p hk, iff_self_and]
  rintro hs rfl
  exact h.not_stoppedAs_sigCont hk hs

theorem Views.removeJobById (h : js.Views) (jobId : ℤ) : (js.removeJobById jobId).Views where
  ids := h.ids.keeps (js.removeJobById_keeps jobId)
  copies b hb := by
    obtain ⟨job, hjob, rfl⟩ := List.mem_map.mp hb
    split_ifs
    · exact .inr ⟨rfl, rfl⟩
    · exact h.copies job hjob
  agree k p hk := by
    have hdrop (f : JobEntry → JobEntry) (list : List JobEntry) (hf : ∀ job, (f job).jStatus = .empty) :
        StoppedAs (list.map fun job => if job.jId = jobId then f job else job) k p ↔
          StoppedAs list k p ∧ k ≠ jobId :=
      stoppedAs_map_drop (fun job _ _ => by simp [hf job]) fun job _ hs => by rw [hs.2.1]
    dsimp only [JobsList.removeJobById]
    rw [hdrop _ _ fun _ => rfl, hdrop _ _ fun _ => rfl, h.agree k p hk]

theorem Views.sweepFinished (h : js.Views) (i n : ℕ) : (js.sweepFinished i n).Views := by
  induction n generalizing js i with
  | zero => exact h
  | succ n ih =>
    rw [JobsList.sweepFinished]
    refine ih ?_ _
    cases js.nonBuiltInCmd[i]? with
    | none => exact h
    | some job =>
      dsimp only
      split_ifs
      · exact h.removeJobById job.jId
      · exact h

theorem stoppedAs_markFinished (answers : ℕ → ℤ) (list : List JobEntry) :
    StoppedAs (markFinished answers list) k p ↔ StoppedAs list k p := by
  refine stoppedAs_congr ?_
  rw [List.forall₂_iff_get]
  refine ⟨by simp [markFinished], fun i hi hi' => ?_⟩
  simp only [markFinished, List.get_eq_getElem, List.getElem_mapIdx]
  split_ifs with hr
  · have hns : (list[i]).jStatus ≠ .stopped := by
      have := hr.1
      simp only [reaps, decide_eq_true_eq] at this
      exact this.2
    simp [JobEntry.StoppedAs, hns]
  · rfl

theorem Views.removeFinishedJobs (h : js.Views) (answers : ℕ → ℤ) :
    (js.removeFinishedJobs answers).1.Views := by
  have hmark : Views { js with nonBuiltInCmd := markFinished answers js.nonBuiltInCmd } := by
    refine ⟨h.ids.keeps ⟨rfl, markFinished_keeps answers _⟩, h.copies, fun k p hk => ?_⟩
    rw [stoppedAs_markFinished, h.agree k p hk]
  exact hmark.sweepFinished _ _

theorem Views.setNewId (h : js.Views) (hs : js.setNewId jobId now = some js') : js'.Views := by
  have hids := h.ids.keeps (setNewId_keeps hs)
  simp only [JobsList.setNewId, Option.bind_eq_bind, Option.bind_eq_some_iff, Option.pure_def,
    Option.some.injEq] at hs
  obtain ⟨-, -, rfl⟩ := hs
  refine ⟨hids, fun b hb => ?_, fun k p hk => ?_⟩
  · obtain ⟨job, hjob, rfl⟩ := List.mem_map.mp hb
    split_ifs <;> exact h.copies job hjob
  · have hl : StoppedAs (js.stoppedd.map fun jobb =>
        if jobb.jId = jobId then { jobb with time := now } else jobb) k p ↔
          StoppedAs js.stoppedd k p := by
      refine stoppedAs_congr (forall₂_map (fun job => ?_) _)
      split_ifs <;> rfl
    have hr : StoppedAs (js.modifyJob jobId fun job => { job with time := now }).nonBuiltInCmd k p ↔
        StoppedAs js.nonBuiltInCmd k p := stoppedAs_modifyFirst fun job _ _ => Iff.rfl
    exact hl.trans ((h.agree k p hk).trans hr.symm)

theorem Views.foregroundFinish (h : js.Views) (hf : foregroundFinish js jobId now = some js') :
    js'.Views := by
  obtain ⟨js₁, h₁, h₂⟩ := foregroundFinish_cases hf
  have hv₁ : js₁.Views := by
    rcases h₁ with rfl | rfl
    · exact h
    · exact h.removeJobById jobId
  rcases h₂ with rfl | h₂
  · exact hv₁
  · exact hv₁.setNewId h₂

theorem Views.stopPid (h : js.Views) (pid : ℤ) : (js.stopPid pid).Views := by
  have hids := h.ids.keeps (js.stopPid_keeps pid)
  rw [JobsList.stopPid] at hids ⊢
  cases hf : js.nonBuiltInCmd.find? (·.pId = pid) with
  | none =>
    have hsame : modifyFirst (fun job : JobEntry => decide (job.pId = pid))
        (fun job => { job with jStatus := .stopped }) js.nonBuiltInCmd = js.nonBuiltInCmd :=
      modifyFirst_of_forall_not fun job hjob => by simpa using List.find?_eq_none.mp hf job hjob
    simpa [hsame] using h
  | some job =>
    simp only [hf] at hids
    refine ⟨hids, h.push job, fun k p hk => ?_⟩
    dsimp only [Option.map_some, Option.toList_some]
    rw [stoppedAs_append, stoppedAs_copy, h.agree k p hk, stoppedAs_modifyFirst_stop _ hf]

/-- `addJob` would write over a stopped job: the table is full and its first slot holds one. -/
def overwritesStopped (js : JobsList) : Bool :=
  (js.nonBuiltInCmd.all fun job => job.jStatus ≠ .empty) ∧
    js.nonBuiltInCmd.head?.any fun job => job.jStatus = .stopped ∧ 1 ≤ job.jId

section
variable {old : JobEntry} {cmd : Line} {isStopped : Bool}

/-- The slot that `addJob` writes holds no stopped job. -/
theorem slot_not_stopped (hno : js.overwritesStopped = false)
    (hl : js.nonBuiltInCmd = pre ++ old :: post)
    (hold : old.jStatus = .empty ∨ pre = [] ∧ ∀ job ∈ js.nonBuiltInCmd, job.jStatus ≠ .empty)
    (hk : 1 ≤ k) : ¬ old.StoppedAs k p := by
  rintro ⟨hst, hid, -⟩
  rcases hold with hempty | ⟨rfl, hfull⟩
  · simp [hst] at hempty
  · have hyes : js.overwritesStopped = true := by
      simp only [overwritesStopped, decide_eq_true_eq]
      refine ⟨by simpa using hfull, ?_⟩
      simp only [hl, List.nil_append, List.head?_cons, Option.any_some, decide_eq_true_eq]
      exact ⟨hst, by omega⟩
    simp [hno] at hyes

theorem addedJob_stoppedAs : (addedJob pre old post cmd false now).StoppedAs k p ↔ False := by
  simp [JobEntry.StoppedAs, addedJob]

theorem Views.addBackground (h : js.Views) (hno : js.overwritesStopped = false) (cmd : Line)
    (now : ℤ) :
    (js.addJob cmd false false now).Views := by
  obtain ⟨pre, old, post, hl, hi, hold⟩ := h.ids.slot
  refine ⟨h.ids.addJob cmd false false now, ?_, fun k p hk => ?_⟩
  · rw [addJob_eq hl hi]
    simpa using h.copies
  · have hslot := slot_not_stopped (p := p) hno hl hold hk
    rw [addJob_eq hl hi]
    simp only [Bool.false_eq_true, if_false, List.append_nil]
    rw [h.agree k p hk, hl]
    simp only [stoppedAs_append, stoppedAs_cons, addedJob_stoppedAs, hslot]

theorem Views.startBackground (h : js.Views) (hno : js.overwritesStopped = false)
    (hp : (js.addJob cmd false false now).setLastPid pid = some js') : js'.Views := by
  have hv := h.addBackground hno cmd now
  have hids := hv.ids.keeps (setLastPid_keeps hp)
  simp only [setLastPid, Option.bind_eq_bind, Option.bind_eq_some_iff, Option.pure_def,
    Option.some.injEq] at hp
  obtain ⟨-, -, rfl⟩ := hp
  refine ⟨hids, hv.copies, fun k p hk => ?_⟩
  change StoppedAs (js.addJob cmd false false now).stoppedd k p ↔ _
  rw [hv.agree k p hk]
  -- the job with the greatest id is the new one, which is not stopped
  refine (stoppedAs_modifyFirst fun job hjob hmax => ?_).symm
  obtain ⟨pre, old, post, hl, hi, -⟩ := h.ids.slot
  have hid : job.jId = (addedJob pre old post cmd false now).jId := by
    simpa [getMaxJobId_addJob hl hi] using hmax
  have hnew : job = addedJob pre old post cmd false now :=
    hv.ids.distinct.eq_of_key hjob (by simp [addJob_eq hl hi]) hid rfl addedJob_pos.ne'
  simp [hnew, JobEntry.StoppedAs, addedJob]

/-- The id of a new job is not yet in `stoppedd`. -/
theorem Views.new_id_not_stopped (h : js.Views) (hno : js.overwritesStopped = false)
    (hl : js.nonBuiltInCmd = pre ++ old :: post)
    (hold : old.jStatus = .empty ∨ pre = [] ∧ ∀ job ∈ js.nonBuiltInCmd, job.jStatus ≠ .empty)
    (hjob : job ∈ js.stoppedd) : job.jId ≠ (addedJob pre old post cmd isStopped now).jId := by
  intro hid
  have hpos : 0 < (addedJob pre old post cmd isStopped now).jId := addedJob_pos
  rcases h.copies job hjob with hst | ⟨-, hzero⟩
  · have hs : StoppedAs js.nonBuiltInCmd job.jId job.pId :=
      (h.agree _ _ (by omega)).mp ⟨job, hjob, hst, rfl, rfl⟩
    rw [hl, stoppedAs_append, stoppedAs_cons] at hs
    rcases hs with ⟨other, hmem, hs⟩ | hs | ⟨other, hmem, hs⟩
    · exact (lt_addedJob (List.mem_append_left _ hmem) (by simp [hs.1])).ne (hs.2.1.trans hid)
    · exact slot_not_stopped hno hl hold (by omega) hs
    · exact (lt_addedJob (List.mem_append_right _ hmem) (by simp [hs.1])).ne (hs.2.1.trans hid)
  · omega

/-- Ctrl-Z puts a process that is in no slot into both lists. -/
theorem Views.addStopped (h : js.Views) (hno : js.overwritesStopped = false)
    (hz : (js.addJob cmd false true now).setJobPid (js.addJob cmd false true now).getMaxJobId pid cmd =
      some js') : js'.Views := by
  obtain ⟨pre, old, post, hl, hi, hold⟩ := h.ids.slot
  have hids := (h.ids.addJob cmd false true now).keeps (setJobPid_keeps hz)
  rw [getMaxJobId_addJob hl hi] at hz
  obtain ⟨-, -, rfl⟩ := setJobPid_eq_some.mp hz
  rw [addJob_eq hl hi] at hids ⊢
  simp only [modifyJob, modifyJobSS, if_true] at hids ⊢
  have htable (f : JobEntry → JobEntry) :
      modifyFirst (·.jId = (addedJob pre old post cmd true now).jId) f
        (pre ++ addedJob pre old post cmd true now :: post) =
      pre ++ f (addedJob pre old post cmd true now) :: post := by
    refine modifyFirst_append_cons (fun b hb => ?_) (by simp)
    simpa using (h.ids.addJob_ne hl (List.mem_append_left _ hb)).symm
  have hcopies (f : JobEntry → JobEntry) :
      modifyFirst (·.jId = (addedJob pre old post cmd true now).jId) f
        (js.stoppedd ++ [(addedJob pre old post cmd true now).stoppedCopy]) =
      js.stoppedd ++ [f (addedJob pre old post cmd true now).stoppedCopy] := by
    refine modifyFirst_append_cons (fun b hb => ?_) (by simp [JobEntry.stoppedCopy])
    simpa using h.new_id_not_stopped hno hl hold hb
  rw [htable, hcopies] at hids ⊢
  refine ⟨hids, fun b hb => ?_, fun k p hk => ?_⟩
  · rcases List.mem_append.mp hb with hb | hb
    · exact h.copies b hb
    · rw [List.mem_singleton.mp hb]
      exact .inl rfl
  · have hslot := slot_not_stopped (p := p) hno hl hold hk
    have hnil : ¬ StoppedAs [] k p := by simp [StoppedAs]
    rw [stoppedAs_append, h.agree k p hk, hl]
    simp only [stoppedAs_append, stoppedAs_cons, hslot, hnil, false_or, or_false]
    exact or_assoc.trans (or_congr_right or_comm)

theorem Views.ctrlZ {forCmd : Option Line} (h : js.Views) (hz : js.ctrlZ pid forCmd now = some js')
    (hno : js.isJobPidIn pid = false → js.overwritesStopped = false) : js'.Views := by
  rw [JobsList.ctrlZ] at hz
  split_ifs at hz with hin
  · cases Option.some.inj hz
    exact h.stopPid pid
  · obtain ⟨cmd, -, hz⟩ := Option.bind_eq_some_iff.mp hz
    exact h.addStopped (hno (by simpa using hin)) hz

end

theorem Views.ctrlC (h : js.Views)
    (hno : ∀ job ∈ js.nonBuiltInCmd, job.jStatus = .stopped → 1 ≤ job.jId → job.pId ≠ pid) :
    (js.ctrlC pid).Views := by
  refine ⟨h.ids.keeps (js.ctrlC_keeps pid), h.copies, fun k p hk => ?_⟩
  change StoppedAs js.stoppedd k p ↔ _
  rw [h.agree k p hk]
  refine (stoppedAs_congr ?_).symm
  refine List.forall₂_map_right_iff.mpr (List.forall₂_same.mpr fun job hjob => ?_)
  split_ifs with hpid
  · have hns : ¬ job.StoppedAs k p := fun hs => hno job hjob hs.1 (hs.2.1 ▸ hk) hpid
    simpa [JobEntry.StoppedAs] using hns
  · rfl

theorem Views.killAllJobs {killWithPrint : Bool} {calls : List SysCall} (h : js.Views)
    (hno : ∀ job ∈ js.nonBuiltInCmd, job.jStatus = .stopped → ¬ 1 ≤ job.jId)
    (hk : js.killAllJobs killWithPrint = some (js', calls)) : js'.Views := by
  have hids := h.ids.keeps (killAllJobs_keeps hk)
  simp only [JobsList.killAllJobs, Option.ite_none_left_eq_some, Option.some.injEq,
    Prod.mk.injEq] at hk
  obtain ⟨-, rfl, -⟩ := hk
  refine ⟨hids, h.copies, fun k p hk => ?_⟩
  change StoppedAs js.stoppedd k p ↔ _
  rw [h.agree k p hk]
  refine (stoppedAs_congr ?_).symm
  refine List.forall₂_map_right_iff.mpr (List.forall₂_same.mpr fun job hjob => ?_)
  split_ifs with hlive
  · have hns : ¬ job.StoppedAs k p := fun hs => hno job hjob hs.1 (hs.2.1 ▸ hk)
    simpa [JobEntry.StoppedAs] using hns
  · rfl

end JobsList

/-- The events after which the two lists of stopped jobs disagree: a redirected `quit kill` while
a job is stopped, a new job in the slot of a stopped one, and Ctrl-C while a stopped job has the
process in the foreground. -/
def losesStopped (chdir : Line → Line → Option Line) (s : State) : Event → Bool
  | .line cmdLine _ =>
    s.shell.killsAndStays chdir commandMaxArgs cmdLine ∧
        (s.shell.jobs.nonBuiltInCmd.any fun job => job.jStatus = .stopped ∧ 1 ≤ job.jId) ∨
      s.shell.startsJob chdir commandMaxArgs cmdLine ∧ s.shell.jobs.overwritesStopped
  | .ctrlZ _ =>
    s.shell.forPid ≠ -1 ∧ !s.shell.jobs.isJobPidIn s.shell.forPid ∧ s.shell.jobs.overwritesStopped
  | .ctrlC =>
    s.shell.forPid ≠ -1 ∧ s.shell.jobs.nonBuiltInCmd.any fun job =>
      job.jStatus = .stopped ∧ 1 ≤ job.jId ∧ job.pId = s.shell.forPid
  | .waited .. => false

section
variable {chdir : Line → Line → Option Line} {s : State}

theorem LineChange.views {cmdLine : Line} {ans : Answers} {js' : JobsList} (h : s.shell.jobs.Views)
    (hok : losesStopped chdir s (.line cmdLine ans) = false)
    (hc : LineChange chdir commandMaxArgs s.shell cmdLine js') : js'.Views := by
  simp only [losesStopped, decide_eq_false_iff_not, not_or, not_and] at hok
  obtain ⟨hkill, hadd⟩ := hok
  cases hc with
  | same => exact h
  | reap answers => exact h.removeFinishedJobs answers
  | signal jobId sigNum => exact h.sendSigToJob jobId sigNum
  | resume jobId => exact h.resume jobId
  | killAll hs hk =>
    refine h.killAllJobs (fun job hjob hst hid => hkill hs ?_) hk
    exact List.any_eq_true.mpr ⟨job, hjob, by simp [hst, hid]⟩
  | add now hs => exact h.addBackground (by simpa using hadd hs) _ now
  | start now pid hs hp => exact h.startBackground (by simpa using hadd hs) hp

theorem TableChange.views {ev : Event} {js' : JobsList} (h : s.shell.jobs.Views)
    (hok : losesStopped chdir s ev = false) (hc : TableChange chdir s.shell ev js') :
    js'.Views := by
  cases hc with
  | same => exact h
  | line hl => exact hl.views h hok
  | ctrlZ hpid hz =>
    refine h.ctrlZ hz fun hin => ?_
    simp only [losesStopped, decide_eq_false_iff_not, not_and] at hok
    simpa using hok hpid (by simpa using hin)
  | ctrlC hpid =>
    refine h.ctrlC fun job hjob hst hid hp => ?_
    simp only [losesStopped, decide_eq_false_iff_not, not_and] at hok
    exact hok hpid (List.any_eq_true.mpr ⟨job, hjob, by simp [hst, hid, hp]⟩)
  | foreground hf => exact h.foregroundFinish hf

theorem smash_views {s : State}
    (h : (smash chdir).Reachable (fun s ev => losesStopped chdir s ev = false) s)
    (hrun : s.phase ≠ .exited) : s.shell.jobs.Views :=
  smash_table_invariant (I := JobsList.Views) .new (fun _ answers hv => hv.removeFinishedJobs answers)
    (fun _ _ _ hv hok hc => hc.views hv hok) h hrun

/-- As long as no event of a run loses a stopped job, `stoppedd` and the job table have the same
stopped jobs with the same processes. -/
theorem stopped_views_agree (chdir : Line → Line → Option Line) (s : State)
    (h : (smash chdir).Reachable (fun s ev => losesStopped chdir s ev = false) s)
    (hrun : s.phase ≠ .exited) (k : ℤ) (hk : 1 ≤ k) :
    ((∃ e ∈ s.shell.jobs.stoppedd, e.jStatus ≠ .empty ∧ e.jId = k) ↔
      ∃ job ∈ s.shell.jobs.nonBuiltInCmd, job.jStatus = .stopped ∧ job.jId = k) ∧
    ∀ e ∈ s.shell.jobs.stoppedd, ∀ job ∈ s.shell.jobs.nonBuiltInCmd, e.jStatus ≠ .empty →
      e.jId = k → job.jStatus = .stopped → job.jId = k → e.pId = job.pId := by
  have hv := smash_views h hrun
  have hstopped {e : JobEntry} (he : e ∈ s.shell.jobs.stoppedd) (hne : e.jStatus ≠ .empty)
      (hid : e.jId = k) : StoppedAs s.shell.jobs.nonBuiltInCmd k e.pId := by
    have hst := (hv.copies e he).resolve_right fun h => hne h.1
    exact (hv.agree k _ hk).mp ⟨e, he, hst, hid, rfl⟩
  refine ⟨⟨?_, ?_⟩, ?_⟩
  · rintro ⟨e, he, hne, hid⟩
    obtain ⟨job, hjob, hst, hid', -⟩ := hstopped he hne hid
    exact ⟨job, hjob, hst, hid'⟩
  · rintro ⟨job, hjob, hst, hid⟩
    obtain ⟨e, he, hst', hid', -⟩ := (hv.agree k _ hk).mpr ⟨job, hjob, hst, hid, rfl⟩
    exact ⟨e, he, by simp [hst'], hid'⟩
  · intro e he job hjob hne hid hst hid'
    obtain ⟨job', hjob', -, hid'', hpid⟩ := hstopped he hne hid
    rw [← hpid, hv.ids.distinct.eq_of_key hjob hjob' hid' hid'' (by omega)]

end

/-- A foreground command that Ctrl-Z stops. -/
def stopsJob : List Event :=
  [.line "top".toList ⟨7, 0, fun _ => 0, fun _ => 0⟩, .ctrlZ 1, .waited (some (.stopped 19)) 2 fun _ => 0]

def State.atPrompt (s : State) : Bool := s.phase matches .prompt

theorem State.atPrompt_running {s : State} (h : s.atPrompt = true) : s.phase ≠ .exited := by
  intro he
  simp [atPrompt, he] at h

/-- After a redirected `quit kill` the copy of a stopped job is left in `stoppedd`. -/
theorem redirected_quit_kill_leaves_copy :
    ∃ s, (smash fun _ _ => none).Reachable TransitionSystem.always s ∧ s.phase ≠ .exited ∧
      (∃ e ∈ s.shell.jobs.stoppedd, e.jStatus ≠ .empty ∧ e.jId = 1) ∧
      ¬ ∃ job ∈ s.shell.jobs.nonBuiltInCmd, job.jStatus = .stopped ∧ job.jId = 1 := by
  obtain ⟨s, -, hr, hp⟩ := TransitionSystem.exists_of_run (S := smash fun _ _ => none)
    TransitionSystem.always
    (stopsJob ++ [.line "quit kill > f".toList ⟨8, 3, fun _ => 0, fun _ => 0⟩])
    (fun s => s.atPrompt && decide ((∃ e ∈ s.shell.jobs.stoppedd, e.jStatus ≠ .empty ∧ e.jId = 1) ∧
      ¬ ∃ job ∈ s.shell.jobs.nonBuiltInCmd, job.jStatus = .stopped ∧ job.jId = 1))
    ⟨[], rfl⟩ (fun _ _ _ => trivial) (by decide +kernel)
  rw [Bool.and_eq_true, decide_eq_true_eq] at hp
  exact ⟨s, hr, State.atPrompt_running hp.1, hp.2⟩

/-- After Ctrl-Z the stopped job is in both lists. -/
theorem stopped_views_agree_one_job :
    ∃ s, (smash fun _ _ => none).Reachable (fun s ev => losesStopped (fun _ _ => none) s ev = false) s ∧
      s.phase ≠ .exited ∧ (∃ job ∈ s.shell.jobs.nonBuiltInCmd, job.jStatus = .stopped ∧ job.jId = 1) ∧
      ∃ e ∈ s.shell.jobs.stoppedd, e.jStatus ≠ .empty ∧ e.jId = 1 := by
  let stoppedOne (s : State) : Bool := s.atPrompt &&
    decide (∃ job ∈ s.shell.jobs.nonBuiltInCmd, job.jStatus = .stopped ∧ job.jId = 1)
  obtain ⟨s, hr, hp⟩ : ∃ s, (smash fun _ _ => none).Reachable
      (fun s ev => losesStopped (fun _ _ => none) s ev = false) s ∧ stoppedOne s = true :=
    TransitionSystem.exists_of_guardedRun stopsJob stoppedOne ⟨[], rfl⟩ (by decide +kernel)
  rw [Bool.and_eq_true, decide_eq_true_eq] at hp
  have hrun := State.atPrompt_running hp.1
  exact ⟨s, hr, hrun, hp.2, (stopped_views_agree _ s hr hrun 1 le_rfl).1.mpr hp.2⟩

end FtfSystems.Shell

import FtfSystems.Shell.JobIds
import FtfSystems.Shell.Reaping

/-!
# The commands of jobs

Only `addJob` gives out ids, together with a command, and no operation takes the command away. A
job that is found by a positive id can thus be printed.
-/
namespace FtfSystems.Shell
open Foundation

/-- The entry has no id, or a positive one and a command. -/
def JobEntry.Known (job : JobEntry) : Prop := job.jId = 0 ∨ 0 < job.jId ∧ job.cmd ≠ none

theorem JobEntry.Known.of_eq {a b : JobEntry} (h : a.Known) (hid : b.jId = a.jId)
    (hcmd : b.cmd = a.cmd) : b.Known := by
  rw [Known, hid, hcmd]
  exact h

namespace JobsList

/-- The entries of both lists are known. -/
structure Known (js : JobsList) : Prop where
  jobs : ∀ job ∈ js.nonBuiltInCmd, job.Known
  copies : ∀ job ∈ js.stoppedd, job.Known

variable {js js' : JobsList} {jobId pid sigNum now : ℤ} {f : JobEntry → JobEntry}
  {list : List JobEntry} {job : JobEntry}

theorem known_modifyFirst {p : JobEntry → Bool} (hf : ∀ job : JobEntry, job.Known → (f job).Known)
    (h : ∀ job ∈ list, job.Known) : ∀ job ∈ modifyFirst p f list, job.Known := by
  intro b hb
  rcases mem_modifyFirst hb with hb | ⟨a, ha, -, rfl⟩
  · exact h b hb
  · exact hf a (h a ha)

theorem known_map (hf : ∀ job : JobEntry, job.Known → (f job).Known)
    (h : ∀ job ∈ list, job.Known) : ∀ job ∈ list.map f, job.Known := by
  intro b hb
  obtain ⟨a, ha, rfl⟩ := List.mem_map.mp hb
  exact hf a (h a ha)

theorem known_concat (h : ∀ job ∈ list, job.Known) (hjob : job.Known) :
    ∀ b ∈ list ++ [job], b.Known := by
  intro b hb
  rcases List.mem_append.mp hb with hb | hb
  · exact h b hb
  · exact List.mem_singleton.mp hb ▸ hjob

theorem Known.new : Known .new where
  jobs job hjob := .inl (by rw [List.eq_of_mem_replicate hjob]; rfl)
  copies job hjob := .inl (by rw [List.eq_of_mem_replicate hjob]; rfl)

theorem Known.modifyJob (h : js.Known) (jobId : ℤ)
    (hf : ∀ job : JobEntry, job.Known → (f job).Known) : (js.modifyJob jobId f).Known :=
  ⟨known_modifyFirst hf h.jobs, h.copies⟩

theorem Known.setStatus (h : js.Known) (jobId : ℤ) (status : JobStatus) :
    (js.modifyJob jobId fun job => { job with jStatus := status }).Known :=
  h.modifyJob jobId fun _ hjob => hjob.of_eq rfl rfl

theorem Known.dropStopped (h : js.Known) (jobId : ℤ) : (js.dropStopped jobId).Known := by
  refine ⟨h.jobs, known_map (fun job hjob => ?_) h.copies⟩
  split_ifs
  · exact .inl rfl
  · exact hjob

theorem Known.removeIds (h : js.Known) (ids : List ℤ) : (js.removeIds ids).Known := by
  refine ⟨known_map (fun job hjob => ?_) h.jobs, known_map (fun job hjob => ?_) h.copies⟩
  · split_ifs
    · exact .inl rfl
    · exact hjob
  · split_ifs
    · exact .inl rfl
    · exact hjob

theorem Known.removeJobById (h : js.Known) (jobId : ℤ) : (js.removeJobById jobId).Known :=
  removeJobById_eq js jobId ▸ h.removeIds [jobId]

theorem Known.removeFinishedJobs (h : js.Known) (answers : ℕ → ℤ) :
    (js.removeFinishedJobs answers).1.Known :=
  removeFinishedJobs_eq js answers ▸ h.removeIds _

theorem Known.of_getJobById (h : js.Known) (hjob : js.getJobById jobId = some job) : job.Known :=
  h.jobs job (List.mem_of_find?_eq_some hjob)

theorem Known.sendSigToJob (h : js.Known) (jobId sigNum : ℤ) :
    (js.sendSigToJob jobId sigNum).1.Known := by
  rw [JobsList.sendSigToJob]
  cases hg : js.getJobById jobId with
  | none => exact h
  | some job =>
    dsimp only
    split_ifs
    · have hcopy : job.stoppedCopy.Known := (h.of_getJobById hg).of_eq rfl rfl
      exact ⟨(h.setStatus jobId .stopped).jobs, known_concat h.copies hcopy⟩
    · exact (h.dropStopped jobId).setStatus jobId .background
    · exact (h.dropStopped jobId).setStatus jobId .finished
    · exact h

theorem addedJob_known {pre post : List JobEntry} {old : JobEntry} {cmd : Line} {isStopped : Bool} :
    (addedJob pre old post cmd isStopped now).Known :=
  .inr ⟨addedJob_pos, by simp [addedJob]⟩

theorem Known.addJob (h : js.Known) (hids : js.Ids) (cmd : Line) (isStopped : Bool) (now : ℤ) :
    (js.addJob cmd false isStopped now).Known := by
  obtain ⟨pre, old, post, hl, hi, -⟩ := hids.slot
  rw [addJob_eq hl hi]
  have hnew : (addedJob pre old post cmd isStopped now).Known := addedJob_known
  constructor
  · intro job hjob
    rcases List.mem_append.mp hjob with hjob | hjob
    · exact h.jobs job (by simp [hl, hjob])
    rcases List.mem_cons.mp hjob with rfl | hjob
    · exact hnew
    · exact h.jobs job (by simp [hl, hjob])
  · cases isStopped with
    | false => simpa using h.copies
    | true => exact known_concat h.copies (hnew.of_eq rfl rfl)

theorem Known.setJobPid {enCmd : Line} (h : js.Known)
    (hs : js.setJobPid jobId pid enCmd = some js') : js'.Known := by
  obtain ⟨-, -, rfl⟩ := setJobPid_eq_some.mp hs
  have hset (job : JobEntry) (hjob : job.Known) :
      JobEntry.Known { job with pId := pid, cmd := some enCmd } :=
    hjob.imp id fun hpos => ⟨hpos.1, by simp⟩
  exact ⟨known_modifyFirst hset h.jobs, known_modifyFirst hset h.copies⟩

theorem Known.setNewId (h : js.Known) (hs : js.setNewId jobId now = some js') : js'.Known := by
  simp only [JobsList.setNewId, Option.bind_eq_bind, Option.bind_eq_some_iff, Option.pure_def,
    Option.some.injEq] at hs
  obtain ⟨-, -, rfl⟩ := hs
  refine ⟨known_modifyFirst (fun _ hjob => hjob.of_eq rfl rfl) h.jobs,
    known_map (fun job hjob => ?_) h.copies⟩
  split_ifs
  · exact hjob.of_eq rfl rfl
  · exact hjob

theorem Known.stopPid (h : js.Known) (pid : ℤ) : (js.stopPid pid).Known := by
  refine ⟨known_modifyFirst (fun _ hjob => hjob.of_eq rfl rfl) h.jobs, ?_⟩
  rw [JobsList.stopPid]
  cases hf : js.nonBuiltInCmd.find? (·.pId = pid) with
  | none => simpa using h.copies
  | some job => exact known_concat h.copies ((h.jobs job (List.mem_of_find?_eq_some hf)).of_eq rfl rfl)

theorem Known.ctrlZ {forCmd : Option Line} (h : js.Known) (hids : js.Ids)
    (hz : js.ctrlZ pid forCmd now = some js') : js'.Known := by
  rw [JobsList.ctrlZ] at hz
  split_ifs at hz
  · cases Option.some.inj hz
    exact h.stopPid pid
  · obtain ⟨cmd, -, hz⟩ := Option.bind_eq_some_iff.mp hz
    exact (h.addJob hids cmd true now).setJobPid hz

theorem Known.ctrlC (h : js.Known) (pid : ℤ) : (js.ctrlC pid).Known := by
  refine ⟨known_map (fun job hjob => ?_) h.jobs, h.copies⟩
  split_ifs
  · exact hjob.of_eq rfl rfl
  · exact hjob

theorem Known.killAllJobs {killWithPrint : Bool} {calls : List SysCall} (h : js.Known)
    (hk : js.killAllJobs killWithPrint = some (js', calls)) : js'.Known := by
  simp only [JobsList.killAllJobs, Option.ite_none_left_eq_some, Option.some.injEq, Prod.mk.injEq] at hk
  obtain ⟨-, rfl, -⟩ := hk
  refine ⟨known_map (fun job hjob => ?_) h.jobs, h.copies⟩
  split_ifs
  · exact .inl rfl
  · exact hjob

theorem Known.foregroundFinish (h : js.Known) (hf : foregroundFinish js jobId now = some js') :
    js'.Known := by
  obtain ⟨js₁, h₁, h₂⟩ := foregroundFinish_cases hf
  have hk₁ : js₁.Known := by
    rcases h₁ with rfl | rfl
    · exact h
    · exact h.removeJobById jobId
  rcases h₂ with rfl | h₂
  · exact hk₁
  · exact hk₁.setNewId h₂

theorem Known.addJob_builtIn (h : js.Known) (cmd : Line) (isStopped : Bool) (now : ℤ) :
    (js.addJob cmd true isStopped now).Known := by
  refine ⟨(addJob_builtIn_eq js cmd isStopped now).1 ▸ h.jobs, ?_⟩
  cases isStopped with
  | false => exact h.copies
  | true =>
    intro job hjob
    have hpos : 0 < js.getMaxJobId + 1 := Int.lt_add_one_iff.mpr (maxJobId_nonneg _)
    simp only [JobsList.addJob, claimSlot, if_true, List.getElem?_modify, Option.map_eq_map,
      Option.map_map] at hjob
    rcases List.mem_append.mp hjob with hjob | hjob
    · exact h.copies job hjob
    · obtain ⟨slot, -, rfl⟩ := Option.map_eq_some_iff.mp (Option.mem_toList.mp hjob)
      exact .inr ⟨hpos, by simp [JobEntry.stoppedCopy]⟩

end JobsList

theorem JobOp.apply_known {js js' : JobsList} {op : JobOp} (hids : js.Ids) (hk : js.Known)
    (h : op.apply js = some js') : js'.Known := by
  cases op with
  | addJob cmd builtIn isStopped now =>
    cases Option.some.inj h
    cases builtIn with
    | true => exact hk.addJob_builtIn cmd isStopped now
    | false => exact hk.addJob hids cmd isStopped now
  | setJobPid jobId pid enCmd => exact hk.setJobPid h
  | setLastPid pid =>
    simp only [JobOp.apply, JobsList.setLastPid, Option.bind_eq_bind, Option.bind_eq_some_iff,
      Option.pure_def, Option.some.injEq] at h
    obtain ⟨-, -, rfl⟩ := h
    exact hk.modifyJob _ fun _ hjob => hjob.of_eq rfl rfl
  | sendSigToJob jobId sigNum =>
    cases Option.some.inj h
    exact hk.sendSigToJob jobId sigNum
  | removeJobById jobId =>
    cases Option.some.inj h
    exact hk.removeJobById jobId
  | removeFinishedJobs answers =>
    cases Option.some.inj h
    exact hk.removeFinishedJobs answers
  | killAllJobs killWithPrint =>
    obtain ⟨⟨js₁, calls⟩, hkill, rfl⟩ := Option.map_eq_some_iff.mp h
    exact hk.killAllJobs hkill
  | setNewId jobId now => exact hk.setNewId h
  | bg jobId =>
    cases Option.some.inj h
    exact (hk.sendSigToJob jobId sigCont).setStatus jobId .background
  | fg jobId =>
    obtain ⟨⟨js₁, pid, calls⟩, hr, rfl⟩ := Option.map_eq_some_iff.mp h
    exact (foregroundResume_eq hr).1 ▸ hk.sendSigToJob jobId sigCont
  | fgReturns jobId now => exact hk.foregroundFinish h
  | ctrlZ pid forCmd now => exact hk.ctrlZ hids h
  | ctrlC pid =>
    cases Option.some.inj h
    exact hk.ctrlC pid

/-- In every reachable table the entries with an id are known. -/
theorem jobTable_known {js : JobsList} {ok : JobsList → JobOp → Prop}
    (h : jobTable.Reachable ok js) : js.Known := by
  refine h.invariant_of (fun _ hr => jobTable_ids hr) ?_ fun _ _ _ hids hk _ hs =>
    JobOp.apply_known hids hk hs
  rintro js rfl
  exact .new

end FtfSystems.Shell

import FtfSystems.Shell.FullTable
import FtfSystems.Shell.KnownJobs

/-!
# The listing of jobs

`printJobsList` looks up the ids from `1` to `2 * JOBS_MAX_AMOUNT - 1` one after the other. Ids
are never given out again while a greater one is in use, so that they grow beyond any bound.
-/
namespace FtfSystems.Shell
open Foundation

namespace JobsList

/-- After the finished jobs have been removed, `printJobsList` prints each job that is left once,
by increasing id, and finds its command. -/
def ListsAll (js : JobsList) (answers : ℕ → ℤ) : Prop :=
  let left := (js.removeFinishedJobs answers).1
  left.printedJobs.Perm left.liveJobs ∧ left.printedJobs.Pairwise (·.jId < ·.jId) ∧
    ∀ job ∈ left.printedJobs, job.cmd ≠ none

/-- The id is one of those that `printJobsList` looks up. -/
def Listed (k : ℤ) : Prop := 1 ≤ k ∧ k < jobsMaxAmount * 2

variable {js : JobsList} {job : JobEntry} {answers : ℕ → ℤ}

theorem mem_printedJobs_of_lookup (h : job ∈ js.printedJobs) :
    js.getJobById job.jId = some job ∧ job.live = true ∧ Listed job.jId := by
  obtain ⟨i, hi, hjob⟩ := List.mem_filterMap.mp h
  obtain ⟨hget, hlive⟩ := Option.filter_eq_some_iff.mp hjob
  have hid : job.jId = i := by simpa using List.find?_some hget
  have hrange := List.mem_range'_1.mp hi
  refine ⟨hid ▸ hget, hlive, ?_⟩
  rw [Listed, hid]
  simp only [jobsMaxAmount] at hrange ⊢
  omega

theorem Ids.mem_printedJobs_iff (h : js.Ids) :
    job ∈ js.printedJobs ↔ job ∈ js.liveJobs ∧ Listed job.jId := by
  constructor
  · intro hjob
    obtain ⟨hget, hlive, hlisted⟩ := mem_printedJobs_of_lookup hjob
    exact ⟨List.mem_filter.mpr ⟨List.mem_of_find?_eq_some hget, hlive⟩, hlisted⟩
  · rintro ⟨hjob, hlisted⟩
    obtain ⟨hmem, hlive⟩ := List.mem_filter.mp hjob
    have hpos : 1 ≤ job.jId := hlisted.1
    obtain ⟨found, hfound⟩ : ∃ found, js.getJobById job.jId = some found :=
      Option.isSome_iff_exists.mp (List.find?_isSome.mpr ⟨job, hmem, by simp⟩)
    have hid : found.jId = job.jId := by simpa using List.find?_some hfound
    obtain rfl : found = job :=
      h.distinct.eq_of_key (List.mem_of_find?_eq_some hfound) hmem hid rfl (by omega)
    refine List.mem_filterMap.mpr ⟨found.jId.toNat, List.mem_range'_1.mpr ?_, ?_⟩
    · have := hlisted.2
      simp only [jobsMaxAmount] at this ⊢
      omega
    · rw [Int.toNat_of_nonneg (by omega), hfound]
      exact Option.filter_eq_some_iff.mpr ⟨rfl, hlive⟩

theorem printedJobs_increasing (js : JobsList) : js.printedJobs.Pairwise (·.jId < ·.jId) := by
  refine List.Pairwise.filterMap _ (R := (· < ·)) (fun i j hij a ha b hb => ?_) List.pairwise_lt_range'
  have hid {i : ℕ} {a : JobEntry} (ha : a ∈ (js.getJobById i).filter JobEntry.live) :
      a.jId = i := by
    simpa using List.find?_some (Option.filter_eq_some_iff.mp ha).1
  rw [hid ha, hid hb]
  exact_mod_cast hij

theorem Ids.printedJobs_perm_iff (h : js.Ids) :
    js.printedJobs.Perm js.liveJobs ↔ ∀ job ∈ js.liveJobs, Listed job.jId := by
  constructor
  · exact fun hperm job hjob => (h.mem_printedJobs_iff.mp (hperm.mem_iff.mpr hjob)).2
  · intro hall
    have hprinted : js.printedJobs.Nodup :=
      (printedJobs_increasing js).imp fun hlt heq => hlt.ne (congrArg JobEntry.jId heq)
    have hlive : js.liveJobs.Nodup := by
      refine (h.distinct.filter JobEntry.live).imp_of_mem fun {a b} ha _ hkey heq => ?_
      have hpos : 1 ≤ a.jId := (hall a ha).1
      have hzero := hkey (congrArg JobEntry.jId heq)
      omega
    refine (List.perm_ext_iff_of_nodup hprinted hlive).mpr fun job => ?_
    rw [h.mem_printedJobs_iff]
    exact and_iff_left_of_imp (hall job)

/-- The jobs that `removeFinishedJobs` leaves. -/
theorem mem_liveJobs_removeFinishedJobs :
    job ∈ (js.removeFinishedJobs answers).1.liveJobs ↔
      job ∈ js.liveJobs ∧ job.jId ∉ js.goneIds answers := by
  rw [removeFinishedJobs_eq]
  simp only [liveJobs, removeIds, List.mem_filter, List.mem_map]
  constructor
  · rintro ⟨⟨old, hold, rfl⟩, hlive⟩
    split_ifs at hlive ⊢ with hk
    · simp [JobEntry.live, JobEntry.removed] at hlive
    · exact ⟨⟨hold, hlive⟩, hk⟩
  · rintro ⟨⟨hjob, hlive⟩, hk⟩
    exact ⟨⟨job, hjob, if_neg hk⟩, hlive⟩

/-- The lookups reach the jobs with a listed id and no others. -/
theorem listsAll_iff (hids : js.Ids) (hknown : js.Known) :
    js.ListsAll answers ↔
      ∀ job ∈ js.nonBuiltInCmd, job.live = true → job.jId ∉ js.goneIds answers → Listed job.jId := by
  have hids' : (js.removeFinishedJobs answers).1.Ids := hids.keeps (js.removeFinishedJobs_keeps answers)
  have hknown' := hknown.removeFinishedJobs answers
  have hiff : js.ListsAll answers ↔
      ∀ job ∈ (js.removeFinishedJobs answers).1.liveJobs, Listed job.jId := by
    rw [← hids'.printedJobs_perm_iff]
    refine ⟨And.left, fun hperm => ⟨hperm, printedJobs_increasing _, fun job hjob => ?_⟩⟩
    obtain ⟨hget, -, hlisted⟩ := mem_printedJobs_of_lookup hjob
    have hpos : 1 ≤ job.jId := hlisted.1
    rcases hknown'.of_getJobById hget with hzero | ⟨-, hcmd⟩
    · omega
    · exact hcmd
  rw [hiff]
  constructor
  · intro hall job hjob hlive hk
    exact hall job (mem_liveJobs_removeFinishedJobs.mpr ⟨List.mem_filter.mpr ⟨hjob, hlive⟩, hk⟩)
  · intro hall job hjob
    obtain ⟨hlive, hk⟩ := mem_liveJobs_removeFinishedJobs.mp hjob
    obtain ⟨hmem, hlive⟩ := List.mem_filter.mp hlive
    exact hall job hmem hlive hk

end JobsList

/-- In every reachable table `jobs` lists each job once and in order exactly when all jobs that are
left have ids from `1` to `299`. -/
theorem jobs_lists_all_iff {js : JobsList} (h : jobTable.Reachable TransitionSystem.always js)
    (answers : ℕ → ℤ) :
    js.ListsAll answers ↔ ∀ job ∈ js.nonBuiltInCmd, job.live = true →
      job.jId ∉ js.goneIds answers → JobsList.Listed job.jId :=
  JobsList.listsAll_iff (jobTable_ids h) (jobTable_known h)

/-- The job that has ended goes, the stopped one and the running one are listed. -/
theorem jobs_lists_all_iff_threeJobs : ∃ js, jobTable.run .new threeJobs = some js ∧
    (js.removeFinishedJobs firstEnded).1.liveJobs.map (fun job => (job.jId, job.jStatus)) =
      [(2, .stopped), (3, .background)] ∧ js.ListsAll firstEnded := by
  obtain ⟨js, hrun, hr, hp⟩ := TransitionSystem.exists_of_run (S := jobTable)
    TransitionSystem.always threeJobs
    (fun js => (js.removeFinishedJobs firstEnded).1.liveJobs.map
        (fun job => (job.jId, job.jStatus)) = [(2, .stopped), (3, .background)] ∧
      js.nonBuiltInCmd.all fun job => !job.live || (1 ≤ job.jId && job.jId < 300))
    rfl (fun _ _ _ => trivial) (by decide +kernel)
  obtain ⟨hleft, hids⟩ := of_decide_eq_true hp
  refine ⟨js, hrun, hleft, (jobs_lists_all_iff hr firstEnded).mpr fun job hjob hlive _ => ?_⟩
  simpa [hlive, JobsList.Listed, jobsMaxAmount] using List.all_eq_true.mp hids job hjob

/-- After three hundred background commands some job is not listed. -/
theorem jobs_misses_late_job :
    ¬ ∀ js, jobTable.Reachable TransitionSystem.always js → ∀ answers, js.ListsAll answers := by
  intro h
  obtain ⟨js, hr, -, hall, hmax⟩ := exists_reachable_background 300
  have hlisted := (JobsList.listsAll_iff (jobTable_ids hr) (jobTable_known hr)).mp (h js hr fun _ => 0)
  have hgone : js.goneIds (fun _ => 0) = [] := by
    refine List.eq_nil_iff_forall_not_mem.mpr fun k hk => ?_
    obtain ⟨i, job, hi, hg, -⟩ := JobsList.exists_of_mem_goneIds hk
    rcases hall job (List.mem_of_getElem? hi) with hs | hs <;> simp [gone, hs] at hg
  have hle : js.getMaxJobId ≤ 299 := by
    refine JobsList.maxJobId_le_iff.mpr ⟨by decide, fun job hjob hne => ?_⟩
    have hbg := (hall job hjob).resolve_left hne
    have := (hlisted job hjob (by simp [JobEntry.live, hbg]) (by simp [hgone])).2
    simp only [jobsMaxAmount] at this
    omega
  push_cast at hmax
  omega

end FtfSystems.Shell

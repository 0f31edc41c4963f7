import FtfSystems.Shell.JobsList

/-!
# Removing the finished jobs

`removeFinishedJobs` marks the jobs that have ended and then removes the marked ones by their ids,
one after the other, from the job table and from `stoppedd`. Together this removes a set of ids.
-/
namespace FtfSystems.Shell

/-- The slot that `removeJobById` leaves of a job. -/
def JobEntry.removed (job : JobEntry) : JobEntry := { job with jStatus := .empty, jId := 0 }

/-- The entry that `removeJobById` leaves of a copy in `stoppedd`. -/
def JobEntry.erased (job : JobEntry) :
    JobEntry := { job with jStatus := .empty, jId := 0, pId := 0 }

/-- The job in slot `i` was finished, or ran in the background and `waitpid` answers that it has
ended. -/
def gone (answers : ℕ → ℤ) (i : ℕ) (job : JobEntry) : Bool :=
  job.jStatus = .finished ∨ job.jStatus = .background ∧ answers i ≠ 0

namespace JobsList

/-- The ids of the jobs that are gone. -/
def goneIds (js : JobsList) (answers : ℕ → ℤ) : List ℤ :=
  (js.nonBuiltInCmd.zipIdx.filter fun slot => gone answers slot.2 slot.1).map fun slot => slot.1.jId

/-- The ids of the finished jobs of a list. -/
def finishedIds (list : List JobEntry) : List ℤ :=
  (list.filter (·.jStatus = .finished)).map (·.jId)

/-- `removeJobById` for several ids at once. -/
def removeIds (js : JobsList) (ids : List ℤ) : JobsList :=
  { js with
    nonBuiltInCmd := js.nonBuiltInCmd.map fun job => if job.jId ∈ ids then job.removed else job
    stoppedd := js.stoppedd.map fun job => if job.jId ∈ ids then job.erased else job }

variable {js : JobsList} {answers : ℕ → ℤ} {ids ids' : List ℤ} {list : List JobEntry} {k : ℤ}

theorem removeJobById_eq (js : JobsList) (k : ℤ) : js.removeJobById k = js.removeIds [k] := by
  simp only [removeJobById, removeIds, List.mem_singleton]
  rfl

theorem removeIds_nil (js : JobsList) : js.removeIds [] = js := by simp [removeIds]

theorem removeIds_congr (h : ∀ k, k ∈ ids ↔ k ∈ ids') : js.removeIds ids = js.removeIds ids' := by
  simp only [removeIds, h]

/-- A slot that has been removed stays so, also when the id `0` is removed. -/
theorem removeIds_removeIds (js : JobsList) (ids ids' : List ℤ) :
    (js.removeIds ids).removeIds ids' = js.removeIds (ids ++ ids') := by
  have hcomp (f : JobEntry → JobEntry) (hf : ∀ job, f (f job) = f job) (job : JobEntry)
      (hid : (f job).jId = 0) :
      (if (if job.jId ∈ ids then f job else job).jId ∈ ids' then f (if job.jId ∈ ids then f job else job)
        else if job.jId ∈ ids then f job else job) = if job.jId ∈ ids ++ ids' then f job else job := by
    by_cases h : job.jId ∈ ids
    · simp [h, hf]
    · simp [h]
  simp only [removeIds, List.map_map]
  congr 1
  · exact List.map_congr_left fun job _ => hcomp JobEntry.removed (fun _ => rfl) job rfl
  · exact List.map_congr_left fun job _ => hcomp JobEntry.erased (fun _ => rfl) job rfl

theorem finishedIds_cons (job : JobEntry) (list : List JobEntry) :
    finishedIds (job :: list) =
      if job.jStatus = .finished then job.jId :: finishedIds list else finishedIds list := by
  by_cases h : job.jStatus = .finished
  · simp [finishedIds, h]
  · simp [finishedIds, h]

/-- Removing an id takes it out of the ids of the finished jobs. -/
theorem mem_finishedIds_removeIds {k' : ℤ} (list : List JobEntry) :
    k' ∈ finishedIds (list.map fun job => if job.jId ∈ [k] then job.removed else job) ↔
      k' ∈ finishedIds list ∧ k' ≠ k := by
  simp only [finishedIds, List.mem_map, List.mem_filter, List.mem_singleton, decide_eq_true_eq]
  constructor
  · rintro ⟨_, ⟨⟨job, hjob, rfl⟩, hf⟩, rfl⟩
    split_ifs at hf ⊢ with hk
    · cases hf
    · exact ⟨⟨job, ⟨hjob, hf⟩, rfl⟩, hk⟩
  · rintro ⟨⟨job, ⟨hjob, hf⟩, rfl⟩, hk⟩
    exact ⟨job, ⟨⟨job, hjob, if_neg hk⟩, hf⟩, rfl⟩

/-- The second loop of `removeFinishedJobs` removes the ids of the finished jobs it still has to
visit. -/
theorem sweepFinished_eq (js : JobsList) (i n : ℕ) (h : i + n = js.nonBuiltInCmd.length) :
    js.sweepFinished i n = js.removeIds (finishedIds (js.nonBuiltInCmd.drop i)) := by
  induction n generalizing js i with
  | zero =>
    rw [List.drop_eq_nil_of_le (by omega), sweepFinished]
    exact (removeIds_nil js).symm
  | succ n ih =>
    have hi : i < js.nonBuiltInCmd.length := by omega
    rw [sweepFinished, List.getElem?_eq_getElem hi, List.drop_eq_getElem_cons hi]
    dsimp only
    by_cases hf : js.nonBuiltInCmd[i].jStatus = .finished
    · rw [if_pos hf, removeJobById_eq, ih _ _ (by simp [removeIds]; omega), removeIds_removeIds]
      refine removeIds_congr fun k => ?_
      have hids : k ∈ finishedIds ((js.removeIds [js.nonBuiltInCmd[i].jId]).nonBuiltInCmd.drop (i + 1)) ↔
          k ∈ finishedIds (js.nonBuiltInCmd.drop (i + 1)) ∧ k ≠ js.nonBuiltInCmd[i].jId := by
        rw [← mem_finishedIds_removeIds, List.map_drop]
        rfl
      rw [finishedIds_cons, if_pos hf]
      simp only [List.mem_append, hids, List.mem_cons]
      tauto
    · rw [if_neg hf, ih _ _ (by omega), finishedIds_cons, if_neg hf]

/-- The slot `i` after the first loop of `removeFinishedJobs`. -/
def marked (answers : ℕ → ℤ) (i : ℕ) (job : JobEntry) : JobEntry :=
  if reaps job ∧ answers i ≠ 0 then { job with jStatus := .finished } else job

theorem markFinished_eq (answers : ℕ → ℤ) (list : List JobEntry) :
    markFinished answers list = list.mapIdx (marked answers) := rfl

theorem marked_finished (answers : ℕ → ℤ) (i : ℕ) (job : JobEntry) :
    decide ((marked answers i job).jStatus = .finished) = gone answers i job := by
  rw [marked, gone, Bool.eq_iff_iff, decide_eq_true_iff, decide_eq_true_iff]
  cases hs : job.jStatus <;> by_cases ha : answers i = 0 <;> simp [reaps, hs, ha]

theorem marked_jId (answers : ℕ → ℤ) (i : ℕ) (job : JobEntry) :
    (marked answers i job).jId = job.jId := by
  rw [marked]
  split_ifs <;> rfl

theorem marked_removed (answers : ℕ → ℤ) (i : ℕ) (job : JobEntry) :
    (marked answers i job).removed = job.removed := by
  rw [marked]
  split_ifs <;> rfl

theorem marked_of_not_gone {i : ℕ} {job : JobEntry} (h : gone answers i job = false) :
    marked answers i job = job := by
  rw [marked, if_neg]
  rintro ⟨hr, ha⟩
  cases hs : job.jStatus <;> simp_all [gone, reaps]

theorem finishedIds_markFinished (answers : ℕ → ℤ) (js : JobsList) :
    finishedIds (markFinished answers js.nonBuiltInCmd) = js.goneIds answers := by
  rw [markFinished_eq, List.mapIdx_eq_zipIdx_map, finishedIds, List.filter_map, List.map_map, goneIds]
  simp only [Function.comp_def, marked_finished, marked_jId]

theorem mem_goneIds {i : ℕ} {job : JobEntry} (hi : js.nonBuiltInCmd[i]? = some job)
    (h : gone answers i job = true) : job.jId ∈ js.goneIds answers :=
  List.mem_map.mpr ⟨(job, i), List.mem_filter.mpr ⟨List.mem_zipIdx_iff_getElem?.mpr hi, h⟩, rfl⟩

theorem exists_of_mem_goneIds (h : k ∈ js.goneIds answers) :
    ∃ i job, js.nonBuiltInCmd[i]? = some job ∧ gone answers i job = true ∧ job.jId = k := by
  obtain ⟨⟨job, i⟩, hslot, rfl⟩ := List.mem_map.mp h
  obtain ⟨hmem, hgone⟩ := List.mem_filter.mp hslot
  exact ⟨i, job, List.mem_zipIdx_iff_getElem?.mp hmem, hgone, rfl⟩

/-- `removeFinishedJobs` removes the ids of the jobs that are gone. -/
theorem removeFinishedJobs_eq (js : JobsList) (answers : ℕ → ℤ) :
    (js.removeFinishedJobs answers).1 = js.removeIds (js.goneIds answers) := by
  have hsweep : (js.removeFinishedJobs answers).1 =
      { js with nonBuiltInCmd := markFinished answers js.nonBuiltInCmd }.removeIds
        (js.goneIds answers) := by
    rw [removeFinishedJobs, ← finishedIds_markFinished]
    exact sweepFinished_eq _ 0 _ (Nat.zero_add _)
  rw [hsweep]
  simp only [removeIds, mk.injEq, true_and, and_true]
  apply List.ext_getElem?
  intro i
  rw [List.getElem?_map, List.getElem?_map, markFinished_eq, List.getElem?_mapIdx, Option.map_map]
  cases hi : js.nonBuiltInCmd[i]? with
  | none => rfl
  | some job =>
    simp only [Option.map_some, Function.comp_apply, marked_jId, marked_removed]
    by_cases hk : job.jId ∈ js.goneIds answers
    · rw [if_pos hk, if_pos hk]
    · have hg : gone answers i job = false := Bool.eq_false_iff.mpr fun hg => hk (mem_goneIds hi hg)
      rw [if_neg hk, if_neg hk, marked_of_not_gone hg]

/-- No two slots that are not empty have the same id. -/
def DistinctIds (js : JobsList) : Prop :=
  ∀ (i j : ℕ) a b, js.nonBuiltInCmd[i]? = some a → js.nonBuiltInCmd[j]? = some b →
    a.jStatus ≠ .empty → b.jStatus ≠ .empty → a.jId = b.jId → i = j

theorem gone_ne_empty {i : ℕ} {job : JobEntry} (h : gone answers i job = true) :
    job.jStatus ≠ .empty := by
  intro he
  simp [gone, he] at h

theorem DistinctIds.mem_goneIds_iff (h : js.DistinctIds) {i : ℕ} {job : JobEntry}
    (hi : js.nonBuiltInCmd[i]? = some job) :
    job.jId ∈ js.goneIds answers ↔
      gone answers i job = true ∨ job.jStatus = .empty ∧ job.jId ∈ js.goneIds answers := by
  refine ⟨fun hk => ?_, fun hk => hk.elim (mem_goneIds hi) And.right⟩
  by_cases he : job.jStatus = .empty
  · exact .inr ⟨he, hk⟩
  · obtain ⟨j, other, hj, hg, hid⟩ := exists_of_mem_goneIds hk
    obtain rfl := h j i other job hj hi (gone_ne_empty hg) he hid
    cases Option.some.inj (hi.symm.trans hj)
    exact .inl hg

end JobsList

open JobsList in
/-- `removeFinishedJobs` empties exactly the slots of the jobs that are gone, takes their ids away
from empty slots and their copies out of `stoppedd`, and leaves all other slots as they are. It
waits for no stopped job. -/
theorem removeFinishedJobs_exact (js : JobsList) (answers : ℕ → ℤ) (h : js.DistinctIds) :
    (∀ (i : ℕ) job, js.nonBuiltInCmd[i]? = some job →
      (js.removeFinishedJobs answers).1.nonBuiltInCmd[i]? = some
        (if gone answers i job ∨ job.jStatus = .empty ∧ job.jId ∈ js.goneIds answers then job.removed
          else job)) ∧
    (js.removeFinishedJobs answers).1.nonBuiltInCmd.length = js.nonBuiltInCmd.length ∧
    (js.removeFinishedJobs answers).1.stoppedd =
      js.stoppedd.map (fun job => if job.jId ∈ js.goneIds answers then job.erased else job) ∧
    (js.removeFinishedJobs answers).1.arr = js.arr ∧
    (js.removeFinishedJobs answers).2 = (js.nonBuiltInCmd.filter fun job =>
      job.jStatus = .background ∨ job.jStatus = .finished).map fun job => .waitpid job.pId := by
  rw [removeFinishedJobs_eq]
  refine ⟨fun i job hi => ?_, by simp [removeIds], rfl, rfl, ?_⟩
  · simp only [removeIds, List.getElem?_map, hi, Option.map_some, ← h.mem_goneIds_iff hi]
  · refine congrArg _ (List.filter_congr fun job _ => ?_)
    cases hs : job.jStatus <;> simp [reaps, hs]

/-- The slots of a table whose first two slots have been used. -/
def usedSlots (first second : JobEntry) :
    List JobEntry := first :: second :: List.replicate 148 .new

theorem forall_mem_usedSlots {P : JobEntry → Prop} {first second : JobEntry} (hfirst : P first)
    (hsecond : P second) (hnew : P .new) : ∀ job ∈ usedSlots first second, P job := by
  simp [usedSlots, hfirst, hsecond, hnew]

theorem usedSlots_getElem? {first second job : JobEntry} {i : ℕ} (hfirst : first.jStatus = .empty)
    (hi : (usedSlots first second)[i]? = some job) (h : job.jStatus ≠ .empty) :
    i = 1 ∧ job = second := by
  rcases i with _ | _ | i
  · cases Option.some.inj hi
    exact absurd hfirst h
  · exact ⟨rfl, (Option.some.inj hi).symm⟩
  · simp only [usedSlots, List.getElem?_cons_succ, List.getElem?_replicate] at hi
    split_ifs at hi
    cases Option.some.inj hi
    exact absurd rfl h

theorem usedSlots_distinct {js : JobsList} {first second : JobEntry}
    (hfirst : first.jStatus = .empty)
    (hl : js.nonBuiltInCmd = usedSlots first second) : js.DistinctIds := by
  intro i j a b hi hj ha hb _
  rw [hl] at hi hj
  exact (usedSlots_getElem? hfirst hi ha).1.trans (usedSlots_getElem? hfirst hj hb).1.symm

/-- A table whose second job is finished and whose first slot is empty with the same id. -/
def staleId : JobsList :=
  { JobsList.new with
    nonBuiltInCmd := usedSlots ⟨.empty, 5, 0, none, 0⟩ ⟨.finished, 5, 7, some ['a'], 0⟩ }

theorem staleId_distinct : staleId.DistinctIds := usedSlots_distinct rfl rfl

theorem removeFinishedJobs_exact_stale :
    (staleId.removeFinishedJobs fun _ => 0).1.nonBuiltInCmd[1]? =
      some ⟨.empty, 0, 7, some ['a'], 0⟩ :=
  (removeFinishedJobs_exact staleId (fun _ => 0) staleId_distinct).1 1 _ rfl

/-- Also an empty slot loses its id. -/
theorem empty_slot_loses_id :
    ¬ ∀ (js : JobsList) (answers : ℕ → ℤ), js.DistinctIds →
      (∀ job ∈ js.nonBuiltInCmd, job.jStatus ≠ .empty → 0 < job.jId) →
      ∀ (i : ℕ) job, js.nonBuiltInCmd[i]? = some job →
        (js.removeFinishedJobs answers).1.nonBuiltInCmd[i]? = some
          (if gone answers i job then job.removed else job) := by
  intro h
  have hslot := h staleId (fun _ => 0) staleId_distinct ?_ 0 _ rfl
  · rw [JobsList.removeFinishedJobs_eq] at hslot
    revert hslot
    decide
  · intro job hjob hne
    obtain ⟨i, hi⟩ := List.mem_iff_getElem?.mp hjob
    rw [(usedSlots_getElem? rfl hi hne).2]
    decide

end FtfSystems.Shell

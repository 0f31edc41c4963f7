import FtfSystems.Shell.JobIds
import FtfSystems.Shell.Reaping

/-!
# `bg` without an argument

The job to resume is the one with the greatest id in `stoppedd`, and is then looked up in the job
table by that id.
-/
namespace FtfSystems.Shell
open Foundation

/-- What `BackgroundCommand::execute` writes to `cerr`. -/
def backgroundError (js : JobsList) (cmd : Command) : Option Line :=
  if !cmd.optionalArg ∧ !cmd.invalidArg then
    match js.getLastStoppedJob with
    | none => some "smash error: bg: there is no stopped jobs to resume\n".toList
    | some _ => none
  else if cmd.invalidArg then some "smash error: bg: invalid arguments\n".toList
  else do
    let jobId ← stoi (eraseChar '&' (← cmd.args[1]?))
    let report (text : String) := ("smash error: bg: job-id " ++ toString jobId ++ text).toList
    if !cmd.jobIdIn then return report " does not exist\n"
    let job ← js.getJobById jobId
    if job.jStatus = .background then return report " is already running in the background\n"
    none

namespace JobsList

/-- The ids of the copies in `stoppedd` are those of the stopped jobs. -/
def StoppedAgree (js : JobsList) : Prop :=
  ∀ k, (∃ copy ∈ js.stoppedd, copy.jStatus ≠ .empty ∧ copy.jId = k) ↔
    ∃ job ∈ js.nonBuiltInCmd, job.jStatus = .stopped ∧ job.jId = k

/-- The tables that `bg` is about: the jobs have distinct positive ids and the two lists of stopped
jobs agree. -/
structure Consistent (js : JobsList) : Prop where
  distinct : js.DistinctIds
  pos : ∀ job ∈ js.nonBuiltInCmd, job.jStatus ≠ .empty → 0 < job.jId
  agree : js.StoppedAgree

/-- The table after the job `job` in slot `i` has been resumed. -/
def resumed (js : JobsList) (i : ℕ) (job : JobEntry) : JobsList :=
  { js with
    nonBuiltInCmd := js.nonBuiltInCmd.set i { job with jStatus := .background }
    stoppedd := js.stoppedd.map fun copy =>
      if copy.jStatus ≠ .empty ∧ copy.jId = job.jId then copy.removed else copy }

/-- `bg` without an argument reports that no job is stopped, or resumes the stopped job with the
greatest id. -/
def ResumesLast (js : JobsList) (cmd : Command) : Prop :=
  ((∀ job ∈ js.nonBuiltInCmd, job.jStatus ≠ .stopped) →
    backgroundError js cmd = some "smash error: bg: there is no stopped jobs to resume\n".toList ∧
      backgroundExecute js cmd = some (js, [])) ∧
  ((∃ job ∈ js.nonBuiltInCmd, job.jStatus = .stopped) →
    ∃ (i : ℕ) (job : JobEntry), js.nonBuiltInCmd[i]? = some job ∧ job.jStatus = .stopped ∧
      (∀ other ∈ js.nonBuiltInCmd, other.jStatus = .stopped → other.jId ≤ job.jId) ∧
      backgroundError js cmd = none ∧
      backgroundExecute js cmd = some (js.resumed i job, [.kill job.pId sigCont]) ∧
      (js.resumed i job).StoppedAgree)

variable {js : JobsList} {cmd : Command} {i : ℕ} {job : JobEntry}

theorem Consistent.maxJobId_eq (h : js.Consistent) (hjob : job ∈ js.nonBuiltInCmd)
    (hst : job.jStatus = .stopped)
    (hmax : ∀ other ∈ js.nonBuiltInCmd, other.jStatus = .stopped → other.jId ≤ job.jId) :
    maxJobId js.stoppedd = job.jId := by
  apply le_antisymm
  · refine maxJobId_le_iff.mpr ⟨(h.pos job hjob (by simp [hst])).le, fun copy hcopy hne => ?_⟩
    obtain ⟨other, hother, hs, hid⟩ := (h.agree copy.jId).mp ⟨copy, hcopy, hne, rfl⟩
    exact hid ▸ hmax other hother hs
  · obtain ⟨copy, hcopy, hne, hid⟩ := (h.agree job.jId).mpr ⟨job, hjob, hst, rfl⟩
    exact hid ▸ le_maxJobId hcopy hne

theorem Consistent.getLastStoppedJob_none (h : js.Consistent)
    (hno : ∀ job ∈ js.nonBuiltInCmd, job.jStatus ≠ .stopped) : js.getLastStoppedJob = none := by
  have hzero : maxJobId js.stoppedd = 0 := by
    refine le_antisymm (maxJobId_le_iff.mpr ⟨le_rfl, fun copy hcopy hne => ?_⟩) (maxJobId_nonneg _)
    obtain ⟨job, hjob, hs, -⟩ := (h.agree copy.jId).mp ⟨copy, hcopy, hne, rfl⟩
    exact absurd hs (hno job hjob)
  rw [getLastStoppedJob, hzero]
  rfl

theorem Consistent.getLastStoppedJob_some (h : js.Consistent) (hjob : job ∈ js.nonBuiltInCmd)
    (hst : job.jStatus = .stopped)
    (hmax : ∀ other ∈ js.nonBuiltInCmd, other.jStatus = .stopped → other.jId ≤ job.jId) :
    ∃ copy, js.getLastStoppedJob = some (job.jId, copy) := by
  have hpos := h.pos job hjob (by simp [hst])
  obtain ⟨copy, hcopy, -, hid⟩ := (h.agree job.jId).mpr ⟨job, hjob, hst, rfl⟩
  obtain ⟨first, hfirst⟩ : ∃ first, js.getJobByIdSS job.jId = some first :=
    Option.isSome_iff_exists.mp (List.find?_isSome.mpr ⟨copy, hcopy, by simpa using hid⟩)
  refine ⟨first, ?_⟩
  simp only [getLastStoppedJob, h.maxJobId_eq hjob hst hmax, if_neg hpos.ne', hfirst, Option.map_some]

section
variable {pre post : List JobEntry} (hl : js.nonBuiltInCmd = pre ++ job :: post)
  (hpre : ∀ b ∈ pre, b.jId ≠ job.jId)
include hl hpre

theorem sendSigToJob_cont : js.sendSigToJob job.jId sigCont =
    ({ js.dropStopped job.jId with nonBuiltInCmd := pre ++ { job with jStatus := .background } :: post },
      [.kill job.pId sigCont]) := by
  have hmod := (js.dropStopped job.jId).modifyJob_middle pre post hl hpre rfl fun job =>
    { job with jStatus := .background }
  rw [sendSigToJob, getJobById_middle pre post hl hpre rfl, ← hmod]
  rfl

/-- The lookups of `bg` all find the job, and its second write of the status changes nothing. -/
theorem backgroundExecute_last {copy : JobEntry} {text : Line} (hopt : cmd.optionalArg = false)
    (hinv : cmd.invalidArg = false) (hlast : js.getLastStoppedJob = some (job.jId, copy))
    (hcmd : job.cmd = some text) :
    backgroundExecute js cmd = some ({ js.dropStopped job.jId with
      nonBuiltInCmd := pre ++ { job with jStatus := .background } :: post },
      [.kill job.pId sigCont]) := by
  have hprint : printJob js job.jId = some () := by
    rw [printJob, getJobById_middle pre post hl hpre rfl]
    simp [hcmd]
  have hagain : ({ js.dropStopped job.jId with
      nonBuiltInCmd := pre ++ { job with jStatus := .background } :: post } : JobsList).getJobById
        job.jId = some { job with jStatus := .background } :=
    getJobById_middle pre post rfl hpre rfl
  have hset : setBackground { js.dropStopped job.jId with
      nonBuiltInCmd := pre ++ { job with jStatus := .background } :: post } job.jId =
      { js.dropStopped job.jId with
        nonBuiltInCmd := pre ++ { job with jStatus := .background } :: post } := by
    rw [setBackground, modifyJob_middle pre post rfl hpre (by rfl)]
  rw [backgroundExecute, if_pos (by simp [hopt, hinv]), hlast]
  simp only [hprint, sendSigToJob_cont hl hpre, hagain, hset, Option.bind_eq_bind, Option.bind_some,
    Option.pure_def]

omit hpre in
theorem resumed_eq : js.resumed pre.length job =
    { js.dropStopped job.jId with
      nonBuiltInCmd := pre ++ { job with jStatus := .background } :: post } := by
  have hset : js.nonBuiltInCmd.set pre.length { job with jStatus := .background } =
      pre ++ { job with jStatus := .background } :: post := by
    rw [hl, List.set_append_right _ _ le_rfl, Nat.sub_self, List.set_cons_zero]
  rw [resumed, hset]
  simp only [dropStopped, eq_comm]
  rfl

end

theorem exists_last_stopped (h : ∃ job ∈ js.nonBuiltInCmd, job.jStatus = .stopped) :
    ∃ job ∈ js.nonBuiltInCmd, job.jStatus = .stopped ∧
      ∀ other ∈ js.nonBuiltInCmd, other.jStatus = .stopped → other.jId ≤ job.jId := by
  obtain ⟨job₀, hjob₀, hst₀⟩ := h
  have hmem₀ : job₀ ∈ js.nonBuiltInCmd.filter (·.jStatus = .stopped) := by simp [hjob₀, hst₀]
  obtain ⟨job, hjob⟩ : ∃ job, (js.nonBuiltInCmd.filter (·.jStatus = .stopped)).argmax JobEntry.jId =
      some job :=
    Option.ne_none_iff_exists'.mp fun hnone => by
      rw [List.argmax_eq_none.mp hnone] at hmem₀
      cases hmem₀
  obtain ⟨hmem, hst⟩ := List.mem_filter.mp (List.argmax_mem hjob)
  refine ⟨job, hmem, by simpa using hst, fun other hother hs => ?_⟩
  exact List.le_of_mem_argmax (by simp [hother, hs]) hjob

/-- The resumed job leaves both lists of stopped jobs. -/
theorem Consistent.stoppedAgree_resumed (h : js.Consistent) (hi : js.nonBuiltInCmd[i]? = some job)
    (hst : job.jStatus = .stopped) : (js.resumed i job).StoppedAgree := by
  intro k
  have hcopies : (∃ copy ∈ (js.resumed i job).stoppedd, copy.jStatus ≠ .empty ∧ copy.jId = k) ↔
      (∃ copy ∈ js.stoppedd, copy.jStatus ≠ .empty ∧ copy.jId = k) ∧ k ≠ job.jId := by
    simp only [resumed, List.mem_map]
    constructor
    · rintro ⟨_, ⟨copy, hcopy, rfl⟩, hne, rfl⟩
      split_ifs at hne ⊢ with hc
      · exact absurd rfl hne
      · exact ⟨⟨copy, hcopy, hne, rfl⟩, fun hid => hc ⟨hne, hid⟩⟩
    · rintro ⟨⟨copy, hcopy, hne, rfl⟩, hk⟩
      exact ⟨copy, ⟨copy, hcopy, if_neg fun hc => hk hc.2⟩, hne, rfl⟩
  have hjobs : (∃ other ∈ (js.resumed i job).nonBuiltInCmd, other.jStatus = .stopped ∧ other.jId = k) ↔
      (∃ other ∈ js.nonBuiltInCmd, other.jStatus = .stopped ∧ other.jId = k) ∧ k ≠ job.jId := by
    simp only [resumed, List.mem_iff_getElem?]
    constructor
    · rintro ⟨other, ⟨j, hj⟩, hs, rfl⟩
      by_cases hij : i = j
      · rw [← hij, List.getElem?_set_self (List.getElem?_eq_some_iff.mp hi).1] at hj
        cases Option.some.inj hj
        cases hs
      · rw [List.getElem?_set_ne hij] at hj
        refine ⟨⟨other, ⟨j, hj⟩, hs, rfl⟩, fun hid => hij ?_⟩
        exact h.distinct i j job other hi hj (by simp [hst]) (by simp [hs]) hid.symm
    · rintro ⟨⟨other, ⟨j, hj⟩, hs, rfl⟩, hk⟩
      have hij : i ≠ j := by
        rintro rfl
        exact hk (by rw [Option.some.inj (hi.symm.trans hj)])
      exact ⟨other, ⟨j, by rw [List.getElem?_set_ne hij, hj]⟩, hs, rfl⟩
  rw [hcopies, hjobs, h.agree k]

end JobsList

open JobsList in
/-- `bg` without an argument resumes the stopped job with the greatest id, in every consistent table
whose stopped jobs have a command and whose empty slots have none of their ids. -/
theorem bg_resumes_last (js : JobsList) (cmd : Command) (hopt : cmd.optionalArg = false)
    (hinv : cmd.invalidArg = false) (h : js.Consistent)
    (hcmd : ∀ job ∈ js.nonBuiltInCmd, job.jStatus = .stopped → job.cmd ≠ none)
    (hempty : ∀ slot ∈ js.nonBuiltInCmd, ∀ job ∈ js.nonBuiltInCmd, slot.jStatus = .empty →
      job.jStatus = .stopped → slot.jId ≠ job.jId) : js.ResumesLast cmd := by
  have herror : backgroundError js cmd = match js.getLastStoppedJob with
      | none => some "smash error: bg: there is no stopped jobs to resume\n".toList
      | some _ => none := if_pos (by simp [hopt, hinv])
  refine ⟨fun hno => ?_, fun hsome => ?_⟩
  · have hnone := h.getLastStoppedJob_none hno
    rw [herror, backgroundExecute, if_pos (by simp [hopt, hinv]), hnone]
    exact ⟨rfl, rfl⟩
  · obtain ⟨job, hjob, hst, hmax⟩ := exists_last_stopped hsome
    obtain ⟨pre, post, hl⟩ := List.append_of_mem hjob
    have hi : js.nonBuiltInCmd[pre.length]? = some job := by simp [hl]
    have hpre : ∀ b ∈ pre, b.jId ≠ job.jId := by
      intro b hb hid
      have hmem : b ∈ js.nonBuiltInCmd := by simp [hl, hb]
      by_cases he : b.jStatus = .empty
      · exact hempty b hmem job hjob he hst hid
      · obtain ⟨j, hj⟩ := List.mem_iff_getElem?.mp hb
        have hlt : j < pre.length := (List.getElem?_eq_some_iff.mp hj).1
        have hj' : js.nonBuiltInCmd[j]? = some b := by rw [hl, List.getElem?_append_left hlt, hj]
        have := h.distinct j pre.length b job hj' hi he (by simp [hst]) hid
        omega
    obtain ⟨copy, hlast⟩ := h.getLastStoppedJob_some hjob hst hmax
    obtain ⟨text, htext⟩ := Option.ne_none_iff_exists'.mp (hcmd job hjob hst)
    refine ⟨pre.length, job, hi, hst, hmax, by rw [herror, hlast], ?_, h.stoppedAgree_resumed hi hst⟩
    rw [resumed_eq hl, backgroundExecute_last hl hpre hopt hinv hlast htext]

/-- A table with a stopped job in its second slot. -/
def stoppedTable (first job : JobEntry) : JobsList :=
  { JobsList.new with
    nonBuiltInCmd := usedSlots first job
    stoppedd := JobsList.new.stoppedd ++ [job.stoppedCopy] }

theorem stoppedTable_consistent {first job : JobEntry} (hfirst : first.jStatus = .empty)
    (hst : job.jStatus = .stopped) (hpos : 0 < job.jId) : (stoppedTable first job).Consistent where
  distinct := usedSlots_distinct hfirst rfl
  pos other hother hne := by
    obtain ⟨i, hi⟩ := List.mem_iff_getElem?.mp hother
    rw [(usedSlots_getElem? hfirst hi hne).2]
    exact hpos
  agree k := by
    constructor
    · rintro ⟨copy, hcopy, hne, rfl⟩
      rcases List.mem_append.mp hcopy with hcopy | hcopy
      · rw [List.eq_of_mem_replicate hcopy] at hne
        exact absurd rfl hne
      · rw [List.mem_singleton.mp hcopy]
        exact ⟨job, by simp [stoppedTable, usedSlots], hst, rfl⟩
    · rintro ⟨other, hother, hs, rfl⟩
      obtain ⟨i, hi⟩ := List.mem_iff_getElem?.mp hother
      rw [(usedSlots_getElem? hfirst hi (by simp [hs])).2]
      exact ⟨job.stoppedCopy, by simp [stoppedTable], by simp [JobEntry.stoppedCopy], rfl⟩

/-- A running job between two stopped ones, of which the last has been stopped twice. -/
def twoStopped : JobsList :=
  { JobsList.new with
    nonBuiltInCmd := [⟨.stopped, 3, 7, some ['a'], 0⟩, ⟨.background, 4, 8, some ['b'], 0⟩,
      ⟨.stopped, 5, 9, some ['c'], 0⟩] ++ List.replicate 147 .new
    stoppedd := JobsList.new.stoppedd ++ [⟨.stopped, 5, 9, some ['c'], 0⟩,
      ⟨.stopped, 3, 7, some ['a'], 0⟩, ⟨.stopped, 5, 9, some ['c'], 0⟩] }

theorem mem_twoStopped {job : JobEntry} (h : job ∈ twoStopped.nonBuiltInCmd) :
    job = ⟨.stopped, 3, 7, some ['a'], 0⟩ ∨ job = ⟨.background, 4, 8, some ['b'], 0⟩ ∨
      job = ⟨.stopped, 5, 9, some ['c'], 0⟩ ∨ job = .new := by
  simpa [twoStopped] using h

theorem twoStopped_distinct : twoStopped.DistinctIds := by
  have hused {i : ℕ} {a : JobEntry} (hi : twoStopped.nonBuiltInCmd[i]? = some a)
      (ha : a.jStatus ≠ .empty) : a.jId = i + 3 := by
    rcases i with _ | _ | _ | i
    · exact congrArg JobEntry.jId (Option.some.inj hi).symm
    · exact congrArg JobEntry.jId (Option.some.inj hi).symm
    · exact congrArg JobEntry.jId (Option.some.inj hi).symm
    · have hnew : a = .new := by
        simp only [twoStopped, List.cons_append, List.nil_append, List.getElem?_cons_succ] at hi
        exact List.eq_of_mem_replicate (List.mem_of_getElem? hi)
      exact absurd (congrArg JobEntry.jStatus hnew) ha
  intro i j a b hi hj ha hb hid
  rw [hused hi ha, hused hj hb] at hid
  omega

theorem twoStopped_consistent : twoStopped.Consistent where
  distinct := twoStopped_distinct
  pos job hjob hne := by
    rcases mem_twoStopped hjob with rfl | rfl | rfl | rfl
    · decide
    · decide
    · decide
    · exact absurd rfl hne
  agree k := by
    constructor
    · rintro ⟨copy, hcopy, hne, rfl⟩
      rcases List.mem_append.mp hcopy with hcopy | hcopy
      · rw [List.eq_of_mem_replicate hcopy] at hne
        exact absurd rfl hne
      · refine ⟨copy, ?_, ?_, rfl⟩
        · simp only [List.mem_cons, List.not_mem_nil, or_false] at hcopy
          rcases hcopy with rfl | rfl | rfl <;> simp [twoStopped]
        · simp only [List.mem_cons, List.not_mem_nil, or_false] at hcopy
          rcases hcopy with rfl | rfl | rfl <;> rfl
    · rintro ⟨job, hjob, hst, rfl⟩
      refine ⟨job, List.mem_append_right _ ?_, by simp [hst], rfl⟩
      rcases mem_twoStopped hjob with rfl | rfl | rfl | rfl
      · simp
      · cases hst
      · simp
      · cases hst

/-- Of two stopped jobs, the one with the greater id is resumed. -/
theorem bg_resumes_last_of_two : ∃ js,
    backgroundExecute twoStopped (.builtIn .bg "bg".toList) = some (js, [.kill 9 sigCont]) ∧
    js.StoppedAgree := by
  have hresumes : twoStopped.ResumesLast (.builtIn .bg "bg".toList) := by
    refine bg_resumes_last _ _ rfl rfl twoStopped_consistent (fun job hjob hst => ?_)
      fun slot hslot job hjob he hst => ?_
    · rcases mem_twoStopped hjob with rfl | rfl | rfl | rfl
      · simp
      · simp
      · simp
      · cases hst
    · rcases mem_twoStopped hslot with rfl | rfl | rfl | rfl
      · cases he
      · cases he
      · cases he
      · exact (twoStopped_consistent.pos job hjob (by simp [hst])).ne
  obtain ⟨i, job, hi, hst, hmax, -, hrun, hagree⟩ :=
    hresumes.2 ⟨⟨.stopped, 3, 7, some ['a'], 0⟩, .head _, rfl⟩
  have hfive : 5 ≤ job.jId :=
    hmax ⟨.stopped, 5, 9, some ['c'], 0⟩ (.tail _ (.tail _ (.head _))) rfl
  have hpid : job.pId = 9 := by
    rcases mem_twoStopped (List.mem_of_getElem? hi) with rfl | rfl | rfl | rfl
    · simp at hfive
    · cases hst
    · rfl
    · cases hst
  exact ⟨_, hpid ▸ hrun, hagree⟩

/-- An empty slot with the id of the stopped job is resumed in its place, and a stopped job without
a command cannot be printed. -/
theorem bg_misses_job :
    (∃ js : JobsList, js.Consistent ∧ ¬ js.ResumesLast (.builtIn .bg "bg".toList) ∧
      ∀ job ∈ js.nonBuiltInCmd, job.jStatus = .stopped → job.cmd ≠ none) ∧
    ∃ js : JobsList, js.Consistent ∧ ¬ js.ResumesLast (.builtIn .bg "bg".toList) ∧
      ∀ slot ∈ js.nonBuiltInCmd, slot.jStatus = .empty → slot.jId = 0 := by
  constructor
  · refine ⟨stoppedTable ⟨.empty, 1, 5, some ['b'], 0⟩ ⟨.stopped, 1, 7, some ['a'], 0⟩,
      stoppedTable_consistent rfl rfl (by decide), ?_,
      forall_mem_usedSlots (by decide) (by decide) (by decide)⟩
    rintro ⟨-, h⟩
    obtain ⟨i, job, hi, hst, -, -, hrun, -⟩ := h ⟨⟨.stopped, 1, 7, some ['a'], 0⟩, .tail _ (.head _), rfl⟩
    obtain ⟨-, rfl⟩ := usedSlots_getElem? rfl hi (by simp [hst])
    have hcalls : some [SysCall.kill 5 18] = some [.kill 7 18] := congrArg (Option.map Prod.snd) hrun
    simp at hcalls
  · refine ⟨stoppedTable .new ⟨.stopped, 1, 7, none, 0⟩,
      stoppedTable_consistent rfl rfl (by decide), ?_,
      forall_mem_usedSlots (by decide) (by decide) (by decide)⟩
    rintro ⟨-, h⟩
    obtain ⟨i, job, -, -, -, -, hrun, -⟩ := h ⟨⟨.stopped, 1, 7, none, 0⟩, .tail _ (.head _), rfl⟩
    have hnone : false = true := congrArg Option.isSome hrun
    simp at hnone

end FtfSystems.Shell

import FtfSystems.Shell.CommandLines
import FtfSystems.Shell.JobIds

/-!
# The lookup of a job by its id

`is_job_id_in` and `getJobById` go by the id alone. An empty slot has id 0, so that 0 passes for
the id of a job, and a signal to job 0 goes to whatever process the slot was left with: at first
to process 0, which is the process group of the shell.
-/
namespace FtfSystems.Shell
open Foundation

/-- Some slot that is not empty has the id. -/
def JobsList.HasJob (js : JobsList) (k : ℤ) : Prop :=
  ∃ job ∈ js.nonBuiltInCmd, job.jStatus ≠ .empty ∧ job.jId = k

/-- Digits and minus signs. -/
def Numeric (arg : Line) : Prop := ∀ c ∈ arg, c.isDigit = true ∨ c = '-'

/-- The lines `kill -s k`, `fg k` and `bg k`. -/
inductive NamesJob (k : ℤ) (cmdLine : Line) : Prop
  | kill {sig arg : Line} (hsig : Numeric sig) (harg : Numeric arg)
      (hk : leadingNumber arg = some k)
      (h : parseCommandLine cmdLine = ["kill".toList, '-' :: sig, arg])
  | fg {arg : Line} (harg : Numeric arg) (hk : leadingNumber arg = some k)
      (h : parseCommandLine cmdLine = ["fg".toList, arg])
  | bg {arg : Line} (harg : Numeric arg) (hk : leadingNumber arg = some k)
      (h : parseCommandLine cmdLine = ["bg".toList, arg])

/-- A line makes no system call of its own and leaves the shell as it is. What follows is the
sweep that ends every line. -/
def SmallShell.Ignores (chdir : Line → Line → Option Line) (sh : SmallShell) (cmdLine : Line)
    (ans : Answers) : Prop :=
  ∃ curr : Command, createCommand chdir commandMaxArgs sh cmdLine = some (curr, sh) ∧
    sh.execute chdir commandMaxArgs { curr with list := true } ans = some (sh, .returned, []) ∧
    State.executeCommand chdir commandMaxArgs sh cmdLine ans =
      State.finish sh { curr with list := true } ans.reap

/-- The lookup of `k` is right: it finds what is a job, and nothing happens to what is none. -/
def SmallShell.LooksUp (chdir : Line → Line → Option Line) (sh : SmallShell) (k : ℤ) : Prop :=
  (sh.jobs.isJobIdIn k = true ↔ sh.jobs.HasJob k) ∧
    (¬ sh.jobs.HasJob k → ∀ cmdLine ans, NamesJob k cmdLine → sh.Ignores chdir cmdLine ans)

variable {chdir : Line → Line → Option Line} {sh : SmallShell} {js : JobsList} {k : ℤ}
  {cmdLine arg sig : Line} {ans : Answers}

/-! ### Arguments -/

theorem Numeric.eraseChar_amp (h : Numeric arg) : eraseChar '&' arg = arg := by
  rw [eraseChar, List.filter_eq_self]
  intro c hc
  rcases h c hc with hd | rfl
  · simp only [decide_eq_true_eq]
    rintro rfl
    simp [Char.isDigit] at hd
  · rfl

theorem Numeric.not_mem (h : Numeric arg) {c : Char} (hd : c.isDigit = false) (hm : c ≠ '-') :
    c ∉ arg := by
  intro hc
  rcases h c hc with h | h
  · simp [hd] at h
  · exact hm h

/-- The `int` that `strtol` is passed as is the number, when it is one. -/
theorem toInt_strtol (hk : leadingNumber arg = some k) (hint : toInt k = k) :
    toInt (strtol arg) = k := by
  rw [strtol, hk, Option.getD_some]
  simp only [toInt] at hint ⊢
  omega

theorem stoi_eq (hk : leadingNumber arg = some k) (hint : toInt k = k) : stoi arg = some k := by
  rw [stoi, hk, Option.filter_some, if_pos]
  simp only [toInt] at hint
  simp only [decide_eq_true_eq]
  omega

/-! ### The commands -/

/-- A line of few words without operators goes by its first word. -/
theorem createCommand_words {arg0 : Line} {rest : List Line}
    (h : parseCommandLine cmdLine = arg0 :: rest) (hlen : rest.length < 19)
    (hbar : ∀ w ∈ arg0 :: rest, '|' ∉ w) (hgt : ∀ w ∈ arg0 :: rest, '>' ∉ w) :
    createCommand chdir commandMaxArgs sh cmdLine =
      some (createByName chdir sh cmdLine arg0 rest) := by
  have hline {c : Char} (hsp : isSpace c = false) (hw : ∀ w ∈ arg0 :: rest, c ∉ w) :
      c ∉ cmdLine := by
    intro hc
    obtain ⟨w, hmem, hcw⟩ := exists_mem_word hc hsp
    rw [h] at hmem
    exact hw w hmem hcw
  have hlen' : (parseCommandLine cmdLine).length < commandMaxArgs := by
    rw [h, List.length_cons, commandMaxArgs]
    omega
  obtain ⟨cmd, sh', hc⟩ := createCommand_isSome_iff.mpr ⟨by simp [h], hlen'⟩
  obtain ⟨arg0', rest', ha, -, ⟨hp, -⟩ | ⟨hr, -⟩ | ⟨-, -, hn⟩⟩ := createCommand_cases hc
  · rw [IsPipeLine, h] at hp
    rcases hp with (hw | hw) | hw
    · exact absurd (by simp) (hbar _ hw)
    · exact absurd (by simp) (hbar _ hw)
    · exact absurd hw.2 (hline (by decide) hbar)
  · exact absurd hr.2 (hline (by decide) hgt)
  · obtain ⟨rfl, rfl⟩ := List.cons.inj (ha.symm.trans h)
    rw [hc, hn]

/-- A built-in command that does nothing to the job table. -/
theorem ignores_of_execute {curr : Command}
    (hc : createCommand chdir commandMaxArgs sh cmdLine = some (curr, sh))
    (hbuilt : curr.builtInCmd = true) (hkind : curr.kind ≠ .redirection)
    (he : sh.executeDirect chdir { curr with list := true } { curr with list := true } ans =
      some (sh, .returned, [])) : sh.Ignores chdir cmdLine ans := by
  have hexec : sh.execute chdir commandMaxArgs { curr with list := true } ans =
      some (sh, .returned, []) := by
    rw [SmallShell.execute, SmallShell.redirected, if_neg hkind]
    exact he
  refine ⟨curr, hc, hexec, ?_⟩
  have hstays : ¬ ((!curr.builtInCmd) = true ∧ curr.backgroundCmd = true) := by simp [hbuilt]
  rw [State.executeCommand, hc]
  simp only [Option.bind_eq_bind, Option.bind_some, if_neg hstays, hexec]

/-- A line whose words are a name and numbers. -/
theorem createCommand_numeric {name : Line} {rest : List Line}
    (h : parseCommandLine cmdLine = name :: rest) (hlen : rest.length < 19)
    (hname : '|' ∉ name ∧ '>' ∉ name) (hrest : ∀ w ∈ rest, Numeric w) :
    createCommand chdir commandMaxArgs sh cmdLine =
      some (createByName chdir sh cmdLine name rest) := by
  refine createCommand_words h hlen ?_ ?_
  · intro w hw
    rcases List.mem_cons.mp hw with rfl | hw
    · exact hname.1
    · exact (hrest w hw).not_mem rfl (by decide)
  · intro w hw
    rcases List.mem_cons.mp hw with rfl | hw
    · exact hname.2
    · exact (hrest w hw).not_mem rfl (by decide)

section
variable {curr cmd : Command}

theorem executeDirect_kill (hkind : cmd.kind = .kill)
    (h : killExecute sh.jobs cmd = some (sh.jobs, [])) :
    sh.executeDirect chdir curr cmd ans = some (sh, .returned, []) := by
  rw [SmallShell.executeDirect, hkind]
  dsimp only
  rw [h]
  rfl

theorem executeDirect_bg (hkind : cmd.kind = .bg)
    (h : backgroundExecute sh.jobs cmd = some (sh.jobs, [])) :
    sh.executeDirect chdir curr cmd ans = some (sh, .returned, []) := by
  rw [SmallShell.executeDirect, hkind]
  dsimp only
  rw [h]
  rfl

theorem executeDirect_fg (hkind : cmd.kind = .fg) (h : foregroundJob sh.jobs cmd = some none) :
    sh.executeDirect chdir curr cmd ans = some (sh, .returned, []) := by
  rw [SmallShell.executeDirect, hkind]
  dsimp only
  rw [SmallShell.foregroundExecute, h]
  rfl

end

section
variable (hin : sh.jobs.isJobIdIn k = false) (hint : toInt k = k) (hk : leadingNumber arg = some k)
include hin hint hk

theorem isJobIdIn_strtol : sh.jobs.isJobIdIn (toInt (strtol arg)) = false := by
  rwa [toInt_strtol hk hint]

/-- `kill` refuses a line that names no job. -/
theorem kill_ignores (hsig : Numeric sig) (harg : Numeric arg)
    (h : parseCommandLine cmdLine = ["kill".toList, '-' :: sig, arg]) :
    sh.Ignores chdir cmdLine ans := by
  have hrest : ∀ w ∈ ['-' :: sig, arg], Numeric w := by
    simp only [List.forall_mem_cons, List.not_mem_nil, false_implies, implies_true, and_true]
    refine ⟨?_, harg⟩
    intro c hc
    rcases List.mem_cons.mp hc with rfl | hc
    · exact .inr rfl
    · exact hsig c hc
  have hname : createByName chdir sh cmdLine "kill".toList ['-' :: sig, arg] =
      (createKill sh.jobs cmdLine ["kill".toList, '-' :: sig, arg], sh) := rfl
  have hc := (createCommand_numeric h (by simp) (by decide) hrest).trans (congrArg some hname)
  have hin' := isJobIdIn_strtol hin hint hk
  obtain ⟨hkind, hbuilt⟩ := createKill_kind sh.jobs cmdLine ["kill".toList, '-' :: sig, arg]
  refine ignores_of_execute hc hbuilt (hkind.trans_ne (by decide)) (executeDirect_kill hkind ?_)
  simp only [createKill]
  split_ifs
  · rfl
  · simp [killExecute, stoi_eq hk hint, hin']

/-- `fg` refuses a line that names no job. -/
theorem fg_ignores (harg : Numeric arg) (h : parseCommandLine cmdLine = ["fg".toList, arg]) :
    sh.Ignores chdir cmdLine ans := by
  have hname : createByName chdir sh cmdLine "fg".toList [arg] =
      (createForeground sh.jobs cmdLine ["fg".toList, arg], sh) := rfl
  have hc := (createCommand_numeric h (by simp) (by decide) (by simpa)).trans (congrArg some hname)
  have hin' := isJobIdIn_strtol hin hint hk
  have hamp := harg.eraseChar_amp
  obtain ⟨hkind, hbuilt⟩ := createForeground_kind sh.jobs cmdLine ["fg".toList, arg]
  refine ignores_of_execute hc hbuilt (hkind.trans_ne (by decide)) (executeDirect_fg hkind ?_)
  simp only [createForeground, hamp]
  split_ifs
  · simp [foregroundJob]
  · simp [foregroundJob, hamp, stoi_eq hk hint, hin']

/-- `bg` refuses a line that names no job. -/
theorem bg_ignores (harg : Numeric arg) (h : parseCommandLine cmdLine = ["bg".toList, arg]) :
    sh.Ignores chdir cmdLine ans := by
  have hname : createByName chdir sh cmdLine "bg".toList [arg] =
      (createBackground sh.jobs cmdLine ["bg".toList, arg], sh) := rfl
  have hc := (createCommand_numeric h (by simp) (by decide) (by simpa)).trans (congrArg some hname)
  have hin' := isJobIdIn_strtol hin hint hk
  have hamp := harg.eraseChar_amp
  have hne : arg ≠ [] := by
    rintro rfl
    cases hk
  obtain ⟨hkind, hbuilt⟩ := createBackground_kind sh.jobs cmdLine ["bg".toList, arg]
  refine ignores_of_execute hc hbuilt (hkind.trans_ne (by decide)) (executeDirect_bg hkind ?_)
  simp only [createBackground, hamp, if_neg hne]
  split_ifs
  · simp [backgroundExecute]
  · simp [backgroundExecute, hamp, stoi_eq hk hint, hin']

end

/-- What `is_job_id_in` misses, no command touches. -/
theorem ignores_of_not_isJobIdIn (hin : sh.jobs.isJobIdIn k = false) (hint : toInt k = k)
    (h : NamesJob k cmdLine) : sh.Ignores chdir cmdLine ans := by
  cases h with
  | kill hsig harg hk h => exact kill_ignores hin hint hk hsig harg h
  | fg harg hk h => exact fg_ignores hin hint hk harg h
  | bg harg hk h => exact bg_ignores hin hint hk harg h

/-! ### Ids and jobs -/

theorem isJobIdIn_iff : js.isJobIdIn k = true ↔ ∃ job ∈ js.nonBuiltInCmd, job.jId = k := by
  simp [JobsList.isJobIdIn]

/-- An id is that of a job or that of an empty slot. -/
theorem JobsList.Ids.isJobIdIn_iff_hasJob (h : js.Ids) :
    (js.isJobIdIn k = true ↔ js.HasJob k) ↔
      k ≠ 0 ∨ (∀ job ∈ js.nonBuiltInCmd, job.jStatus ≠ .empty) ∨
        ∃ job ∈ js.nonBuiltInCmd, job.jStatus ≠ .empty ∧ job.jId = 0 := by
  rw [isJobIdIn_iff]
  constructor
  · intro hiff
    by_cases hk : k = 0
    · subst hk
      by_cases hfull : ∀ job ∈ js.nonBuiltInCmd, job.jStatus ≠ .empty
      · exact .inr (.inl hfull)
      · push Not at hfull
        obtain ⟨job, hjob, hempty⟩ := hfull
        exact .inr (.inr (hiff.mp ⟨job, hjob, h.empty_zero job hjob hempty⟩))
    · exact .inl hk
  · intro hcond
    constructor
    · rintro ⟨job, hjob, hid⟩
      by_cases hempty : job.jStatus = .empty
      · have hzero := h.empty_zero job hjob hempty
        rcases hcond with hk | hfull | hex
        · exact absurd (hid.symm.trans hzero) hk
        · exact absurd hempty (hfull job hjob)
        · rw [JobsList.HasJob, ← hid, hzero]
          exact hex
      · exact ⟨job, hjob, hempty, hid⟩
    · rintro ⟨job, hjob, -, hid⟩
      exact ⟨job, hjob, hid⟩

/-- In every state of the shell, the lookup of an `int` is right unless it is that of 0, with a
slot empty and no job of id 0. -/
theorem job_lookup_iff (chdir : Line → Line → Option Line) {s : State}
    (h : (smash chdir).Reachable TransitionSystem.always s) (hrun : s.phase ≠ .exited) {k : ℤ}
    (hint : toInt k = k) :
    s.shell.LooksUp chdir k ↔
      k ≠ 0 ∨ (∀ job ∈ s.shell.jobs.nonBuiltInCmd, job.jStatus ≠ .empty) ∨
        ∃ job ∈ s.shell.jobs.nonBuiltInCmd, job.jStatus ≠ .empty ∧ job.jId = 0 := by
  have hids := jobTable_ids (smash_jobTable h hrun)
  rw [← hids.isJobIdIn_iff_hasJob]
  constructor
  · exact And.left
  · intro hiff
    refine ⟨hiff, fun hno cmdLine ans hname => ?_⟩
    have hin : s.shell.jobs.isJobIdIn k = false := by
      rw [← Bool.not_eq_true, hiff]
      exact hno
    exact ignores_of_not_isJobIdIn hin hint hname

theorem job_lookup_iff_one :
    toInt 1 = 1 ∧ (⟨.new ['/'], .prompt⟩ : State).shell.LooksUp (fun _ _ => none) 1 := by
  have hint : toInt 1 = 1 := by decide
  exact ⟨hint, (job_lookup_iff _ (.init ⟨['/'], rfl⟩) (by simp) hint).mpr (.inl (by decide))⟩

/-- At the start there is no job 0, and `kill -9 0` kills the process group of the shell. -/
theorem kill_zero_at_start :
    (smash fun _ _ => none).Reachable TransitionSystem.always ⟨.new ['/'], .prompt⟩ ∧
    ¬ (SmallShell.new ['/']).jobs.HasJob 0 ∧ NamesJob 0 "kill -9 0".toList ∧
    (createCommand (fun _ _ => none) commandMaxArgs (.new ['/']) "kill -9 0".toList).bind
      (fun r => (r.2.execute (fun _ _ => none) commandMaxArgs { r.1 with list := true }
        ⟨-1, 0, fun _ => 0, fun _ => 0⟩).map fun r => r.2.2) = some [.kill 0 sigKill] ∧
    ¬ (SmallShell.new ['/']).LooksUp (fun _ _ => none) 0 := by
  have hno : ¬ (SmallShell.new ['/']).jobs.HasJob 0 := by
    rintro ⟨job, hjob, hne, -⟩
    rw [List.eq_of_mem_replicate hjob] at hne
    exact hne rfl
  have hin : (SmallShell.new ['/']).jobs.isJobIdIn 0 = true := by decide +kernel
  refine ⟨.init ⟨['/'], rfl⟩, hno, ?_, by decide +kernel, fun h => hno (h.1.mp hin)⟩
  have hsig : Numeric ['9'] := by simp [Numeric]
  have harg : Numeric ['0'] := by simp [Numeric]
  exact .kill hsig harg (by decide) (by decide)

end FtfSystems.Shell

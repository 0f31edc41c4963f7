import FtfSystems.Foundation.Simulation
import FtfSystems.Shell.CatOutput

/-!
# Every run of the shell has its descriptors

The shell with its descriptors takes every step that the shell takes, as long as the files that
`cat` reads have an end: what holds of the descriptors in all its runs holds along all runs of the
shell.
-/
namespace FtfSystems.Shell
open Foundation DescriptorTable

/-- A file that can be opened has an end. -/
def Files.AllEnd (files : Files) : Prop := ∀ path, files.reading path = none ∨ files.Ends path

variable {chdir : Line → Line → Option Line} {maxArgs limit fuel fuel' n : ℕ} {files : Files}
  {sh sh' : SmallShell} {cmdLine : Line} {curr cmd : Command} {ans : Answers} {io io' : Io}

/-! ### More fuel -/

theorem catLoop_mono {s : Source} {c : UInt8} (hle : fuel ≤ fuel')
    (h : catLoop fuel s c io = some io') : catLoop fuel' s c io = some io' := by
  induction fuel generalizing fuel' s c io with
  | zero => cases h
  | succ fuel ih =>
    obtain ⟨k, rfl⟩ := Nat.exists_eq_add_of_le' hle
    rw [← Nat.add_assoc, catLoop]
    rw [catLoop] at h
    split at h
    · exact h
    · exact ih (Nat.le_add_left fuel k) h
    · exact ih (Nat.le_add_left fuel k) h

theorem catExecute_mono {paths : List Line} (hle : fuel ≤ fuel')
    (h : catExecute limit fuel files paths io = some io') :
    catExecute limit fuel' files paths io = some io' := by
  induction paths generalizing io with
  | nil => exact h
  | cons path paths ih =>
    rw [catExecute] at h ⊢
    split at h
    · exact h
    · split at h
      · exact h
      · obtain ⟨io₁, hloop, hrest⟩ := Option.bind_eq_some_iff.mp h
        exact Option.bind_eq_some_iff.mpr ⟨io₁, catLoop_mono hle hloop, ih hrest⟩

theorem executeIo_mono (hle : fuel ≤ fuel')
    (h : executeIo chdir maxArgs limit fuel files curr ans n sh cmd io = some io') :
    executeIo chdir maxArgs limit fuel' files curr ans n sh cmd io = some io' := by
  induction n generalizing sh cmd io io' with
  | zero => cases h
  | succ n ih =>
    cases hk : cmd.kind with
    | redirection =>
      rw [executeIo, hk] at h ⊢
      obtain ⟨⟨inner, sh'⟩, hinner, h⟩ := Option.bind_eq_some_iff.mp h
      obtain ⟨io₁, hrun, h⟩ := Option.bind_eq_some_iff.mp h
      exact Option.bind_eq_some_iff.mpr ⟨(inner, sh'), hinner,
        Option.bind_eq_some_iff.mpr ⟨io₁, ih hrun, h⟩⟩
    | cat =>
      rw [executeIo, hk] at h ⊢
      exact catExecute_mono hle h
    | _ =>
      rw [executeIo, hk] at h ⊢
      exact h

theorem lineIo_mono (hle : fuel ≤ fuel')
    (h : lineIo chdir maxArgs limit fuel files sh cmdLine ans io = some io') :
    lineIo chdir maxArgs limit fuel' files sh cmdLine ans io = some io' := by
  rw [lineIo] at h ⊢
  split_ifs at h ⊢ with hempty
  · exact h
  · obtain ⟨⟨curr, sh'⟩, hc, h⟩ := Option.bind_eq_some_iff.mp h
    exact Option.bind_eq_some_iff.mpr ⟨(curr, sh'), hc, executeIo_mono hle h⟩

/-! ### Enough fuel -/

theorem catExecute_returns (hends : files.AllEnd) (limit : ℕ) (paths : List Line) (io : Io) :
    ∃ fuel io', catExecute limit fuel files paths io = some io' := by
  apply catExecute_returns_iff.mpr
  intro path hpath
  obtain hnone | hend := hends path
  · have hopen := List.mem_takeWhile_imp (List.take_subset _ _ hpath)
    simp [hnone] at hopen
  · exact hend

/-- When the command inside all redirections returns, the descriptors are those of a run. -/
theorem executeIo_returns (hends : files.AllEnd) {inner : Command}
    (h : SmallShell.redirected chdir maxArgs n sh cmd = some (inner, sh'))
    (hdirect : (sh'.executeDirect chdir curr inner ans).isSome) (io : Io) :
    ∃ fuel io', executeIo chdir maxArgs limit fuel files curr ans n sh cmd io = some io' := by
  induction n generalizing sh cmd io with
  | zero => cases h
  | succ n ih =>
    rw [SmallShell.redirected] at h
    split_ifs at h with hk
    · obtain ⟨⟨next, sh₁⟩, hnext, h⟩ := Option.bind_eq_some_iff.mp h
      obtain ⟨fuel, io₁, hrun⟩ := ih h { io with
        table := (redirectStart limit files (outFile cmd.enteredCmd) io.table).2 }
      refine ⟨fuel, ?_⟩
      rw [executeIo, hk]
      simp only [hnext, Option.bind_eq_bind, Option.bind_some]
      exact ⟨_, Option.bind_eq_some_iff.mpr ⟨io₁, hrun, rfl⟩⟩
    · cases Option.some.inj h
      obtain ⟨r, hr⟩ := Option.isSome_iff_exists.mp hdirect
      cases hkind : inner.kind with
      | redirection => exact absurd hkind hk
      | cat =>
        obtain ⟨fuel, io', hcat⟩ := catExecute_returns hends limit (inner.args.drop 1) io
        exact ⟨fuel, io', by rw [executeIo, hkind]; exact hcat⟩
      | _ => exact ⟨0, io, by rw [executeIo, hkind]; exact Option.map_eq_some_iff.mpr ⟨r, hr, rfl⟩⟩

/-! ### Runs -/

theorem lineIo_returns (hends : files.AllEnd) (limit : ℕ) {s s' : State}
    (h : State.next chdir s (.line cmdLine ans) = some s') (io : Io) :
    ∃ fuel io', lineIo chdir commandMaxArgs limit fuel files s.shell cmdLine ans io = some io' := by
  by_cases hempty : cmdLine = []
  · exact ⟨0, io, by rw [lineIo, if_pos hempty]⟩
  obtain ⟨sh, phase⟩ := s
  cases phase with
  | external | foreground | exited => cases h
  | prompt =>
    simp only [State.next, Option.ite_none_right_eq_some, if_neg hempty] at h
    obtain ⟨⟨curr, sh₁⟩, hc, h⟩ := Option.bind_eq_some_iff.mp h.2
    obtain ⟨r, hexec, -⟩ := Option.bind_eq_some_iff.mp h
    obtain ⟨⟨inner, sh₂⟩, hinner, hdirect⟩ := Option.bind_eq_some_iff.mp hexec
    obtain ⟨fuel, io', hrun⟩ := executeIo_returns hends hinner
      (Option.isSome_iff_exists.mpr ⟨r, hdirect⟩) io
    refine ⟨fuel, io', ?_⟩
    rw [lineIo, if_neg hempty, hc]
    exact hrun

/-- A step of the shell is one of the shell with its descriptors. -/
theorem smashIo_next (hends : files.AllEnd) (limit : ℕ) {event : Event} {s s' : State}
    (h : State.next chdir s event = some s') (io : Io) :
    ∃ fuel io', (smashIo chdir limit fuel).next (s, io) (event, files) = some (s', io') := by
  cases event with
  | line cmdLine ans =>
    obtain ⟨fuel, io', hio⟩ := lineIo_returns hends limit h io
    refine ⟨fuel, io', ?_⟩
    simp only [smashIo, h, hio, Option.bind_eq_bind, Option.bind_some]
    rfl
  | _ => exact ⟨0, io, by simp only [smashIo, h, Option.bind_eq_bind, Option.bind_some]; rfl⟩

theorem smashIo_next_mono {s s' : State × Io} {l : Event × Files} (hle : fuel ≤ fuel')
    (h : (smashIo chdir limit fuel).next s l = some s') :
    (smashIo chdir limit fuel').next s l = some s' := by
  obtain ⟨event, files⟩ := l
  obtain ⟨state, hstate, h⟩ := Option.bind_eq_some_iff.mp h
  refine Option.bind_eq_some_iff.mpr ⟨state, hstate, ?_⟩
  cases event with
  | line cmdLine ans =>
    obtain ⟨io, hio, h⟩ := Option.bind_eq_some_iff.mp h
    exact Option.bind_eq_some_iff.mpr ⟨io, lineIo_mono hle hio, h⟩
  | _ => exact h

/-- Every run of the shell, whatever the descriptors are at its start, is a run of the shell with
its descriptors when all files that can be opened have an end. -/
theorem runs_have_descriptors (chdir : Line → Line → Option Line) (limit : ℕ)
    (steps : List (Event × Files)) (hends : ∀ step ∈ steps, step.2.AllEnd) (s s' : State) (io : Io)
    (hrun : (smash chdir).run s (steps.map Prod.fst) = some s') :
    ∃ fuel io', (smashIo chdir limit fuel).run (s, io) steps = some (s', io') := by
  induction steps generalizing s io with
  | nil =>
    cases Option.some.inj hrun
    exact ⟨0, io, rfl⟩
  | cons step steps ih =>
    obtain ⟨u, hu, hrest⟩ := Option.bind_eq_some_iff.mp hrun
    obtain ⟨fuel, io₁, hnext⟩ := smashIo_next (hends step (by simp)) limit hu io
    obtain ⟨fuel', io', hsteps⟩ := ih (fun l hl => hends l (by simp [hl])) u io₁ hrest
    exact ⟨max fuel fuel', io', Option.bind_eq_some_iff.mpr ⟨(u, io₁),
      smashIo_next_mono (le_max_left fuel fuel') hnext,
      TransitionSystem.run_mono (fun _ _ _ => smashIo_next_mono (le_max_right fuel fuel')) hsteps⟩⟩

theorem runs_have_descriptors_cat : ∃ s' fuel io',
    (smash fun _ _ => none).run ⟨.new [], .prompt⟩
      [.line "cat a>b".toList ⟨7, 0, fun _ => 0, fun _ => 0⟩, .ctrlC] = some s' ∧
    (smashIo (fun _ _ => none) 8 fuel).run (⟨.new [], .prompt⟩, ⟨standardStreams, [], []⟩)
      [(.line "cat a>b".toList ⟨7, 0, fun _ => 0, fun _ => 0⟩,
        ⟨fun _ => some (.data [65]), fun _ => true⟩),
        (.ctrlC, ⟨fun _ => none, fun _ => true⟩)] = some (s', io') := by
  obtain ⟨s', hs'⟩ : ∃ s', (smash fun _ _ => none).run ⟨.new [], .prompt⟩
      [.line "cat a>b".toList ⟨7, 0, fun _ => 0, fun _ => 0⟩, .ctrlC] = some s' :=
    Option.isSome_iff_exists.mp (by decide +kernel)
  obtain ⟨fuel, io', hio⟩ := runs_have_descriptors (fun _ _ => none) 8
    [(.line "cat a>b".toList ⟨7, 0, fun _ => 0, fun _ => 0⟩,
      ⟨fun _ => some (.data [65]), fun _ => true⟩), (.ctrlC, ⟨fun _ => none, fun _ => true⟩)]
    (by simp [Files.AllEnd, Files.Ends]) ⟨.new [], .prompt⟩ s' ⟨standardStreams, [], []⟩ hs'
  exact ⟨s', fuel, io', hs', hio⟩

end FtfSystems.Shell

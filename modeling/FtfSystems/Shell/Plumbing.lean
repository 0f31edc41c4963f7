import FtfSystems.Shell.Pipeline
import FtfSystems.Shell.Redirection

/-!
# The pipes of a pipeline

`PipeCommand::execute` makes its pipe in a process of its own. A child of that process runs the
left half with the write end in place of its standard output, or of its standard error for `|&`;
the process itself runs the right half with the read end in place of its standard input. Both
close the two descriptors of the pipe first. Halves that are pipelines do the same again.
-/
namespace FtfSystems.Shell
open Foundation DescriptorTable

/-- What the descriptors of a stage refer to: the files of the shell and the ends of pipes. The
name of a pipe is the way from the shell to the process that makes it. -/
inductive StageFile where
  | shell (file : OpenFile)
  | readEnd (name : List Bool)
  | writeEnd (name : List Bool)
  deriving DecidableEq

/-- The descriptor that an operator connects to the pipe. -/
def PipeOp.out : PipeOp → ℕ
  | .pipe => 1
  | .amp => 2

/-- The table of the child that runs `left_cmd`. -/
def leftTable (op : PipeOp) (pipefd : ℕ × ℕ) (table : DescriptorTable StageFile) :
    DescriptorTable StageFile :=
  ((table.dup2 pipefd.2 op.out).close pipefd.2).close pipefd.1

/-- The table of the process that runs `right_cmd`. -/
def rightTable (pipefd : ℕ × ℕ) (table : DescriptorTable StageFile) : DescriptorTable StageFile :=
  ((table.dup2 pipefd.1 0).close pipefd.1).close pipefd.2

/-- The commands that are executed for a line and the tables of the processes that execute them,
when all forks succeed. `n` bounds the depth. -/
def plumb (chdir : Line → Line → Option Line) (maxArgs : ℕ) (sh : SmallShell) (limit : ℕ) :
    ℕ → List Bool → DescriptorTable StageFile → Line →
      Option (List (Line × DescriptorTable StageFile))
  | 0, _, _, _ => none
  | n + 1, name, table, cmdLine => do
    let (cmd, _) ← createCommand chdir maxArgs sh cmdLine
    if cmd.kind = .pipe then
      let (pipefd, table) ← table.pipe limit (.readEnd name) (.writeEnd name)
      let (op, left, right) := pipeSplit cmd.enteredCmd
      let leftStages ← plumb chdir maxArgs sh limit n (true :: name) (leftTable op pipefd table) left
      let rightStages ← plumb chdir maxArgs sh limit n (false :: name) (rightTable pipefd table) right
      return leftStages ++ rightStages
    else return [(cmdLine, table)]

/-! ### What a pipeline is for -/

/-- A stage with the operator after it and the pipe between it and the next stage. -/
structure Joint where
  stage : Line
  op : PipeOp
  pipe : List Bool

/-- The outputs of a stage that is followed by `joints`: the standard output goes to the next
stage over `|`, the standard error goes over the next `|&`, also when that comes later. -/
def outputs (table : DescriptorTable StageFile) : List Joint → DescriptorTable StageFile
  | [] => table
  | joint :: joints =>
    let table := if joint.op = .pipe then
      Function.update table 1 (some (.writeEnd joint.pipe)) else table
    match (joint :: joints).find? (·.op = .amp) with
    | some amp => Function.update table 2 (some (.writeEnd amp.pipe))
    | none => table

/-- The stages of a pipeline with their tables; every stage but the first reads from the pipe
before it. -/
def wired : DescriptorTable StageFile → List Joint → Line →
    List (Line × DescriptorTable StageFile)
  | table, [], last => [(last, table)]
  | table, joint :: joints, last =>
    (joint.stage, outputs table (joint :: joints)) ::
      wired (Function.update table 0 (some (.readEnd joint.pipe))) joints last

/-- The stages as `expand` gives them. -/
def stageList (joints : List Joint) (last : Line) : List (Line × Option PipeOp) :=
  joints.map (fun joint => (joint.stage, some joint.op)) ++ [(last, none)]

variable {chdir : Line → Line → Option Line} {maxArgs limit n : ℕ} {sh : SmallShell}
  {s t : Line} {b : Line} {op : PipeOp} {name : List Bool} {last : Line}
  {joints joints' : List Joint} {joint : Joint} {stages : List (Line × Option PipeOp)}
  {table : DescriptorTable StageFile}

/-! ### Operators in the halves -/

theorem contains_iff_within (hb : b ≠ []) : contains b s = true ↔ b <:+: s := by
  constructor
  · intro h
    obtain ⟨⟨l, r⟩, hs⟩ := Option.isSome_iff_exists.mp h
    exact ⟨l, r, (splitFirst_eq hs).symm⟩
  · intro h
    rw [contains]
    induction s with
    | nil => exact absurd (List.infix_nil.mp h) hb
    | cons c s ih =>
      by_cases hp : b <+: c :: s
      · rw [splitFirst, if_pos hp]
        rfl
      · rw [splitFirst_cons_of_neg hp, Option.isSome_map]
        exact ih ((List.infix_cons_iff.mp h).resolve_left hp)

/-- The barrier is not found before its first occurrence. -/
theorem not_contains_left {l r : Line} (hb : b ≠ []) (h : splitFirst b s = some (l, r)) :
    contains b l = false := by
  induction s generalizing l with
  | nil => cases h
  | cons c s ih =>
    by_cases hp : b <+: c :: s
    · rw [splitFirst, if_pos hp] at h
      cases Option.some.inj h
      exact not_contains (List.head_mem hb) (by simp)
    · rw [splitFirst_cons_of_neg hp] at h
      obtain ⟨⟨l', r'⟩, hs, he⟩ := Option.map_eq_some_iff.mp h
      obtain ⟨rfl, rfl⟩ := Prod.mk.inj he
      have hrest := ih hs
      rw [Bool.eq_false_iff, Ne, contains_iff_within hb] at hrest ⊢
      rw [List.infix_cons_iff]
      rintro (hpre | hin)
      · refine hp (hpre.trans ?_)
        rw [splitFirst_eq hs, List.append_assoc]
        exact List.prefix_append (c :: l') _
      · exact hrest hin

theorem not_contains_within (hb : b ≠ []) (h : contains b t = false) (hs : s <:+: t) :
    contains b s = false := by
  rw [Bool.eq_false_iff, Ne, contains_iff_within hb] at h ⊢
  exact fun hin => h (hin.trans hs)

/-- The left half has no `|&`, and no operator at all when the line is split at a `|`. -/
theorem pipeSplit_left (hbar : '|' ∈ t) :
    (pipeSplit t).1 = .amp ∧ contains ['|', '&'] t = true ∧
        contains ['|', '&'] (pipeSplit t).2.1 = false ∨
      (pipeSplit t).1 = .pipe ∧ contains ['|', '&'] t = false ∧ '|' ∉ (pipeSplit t).2.1 := by
  cases hc : contains ['|', '&'] t with
  | true =>
    obtain ⟨⟨l, r⟩, hs⟩ := Option.isSome_iff_exists.mp hc
    refine .inl ⟨by simp [pipeSplit, hc], rfl, ?_⟩
    have hleft : (pipeSplit t).2.1 = trimmed l := by simp [pipeSplit, hc, hs, trimmed]
    rw [hleft]
    exact not_contains_within (by simp) (not_contains_left (by simp) hs) (trimmed_within l)
  | false =>
    obtain ⟨⟨l, r⟩, hs⟩ := Option.isSome_iff_exists.mp (contains_singleton.mpr hbar)
    refine .inr ⟨by simp [pipeSplit, hc], rfl, ?_⟩
    have hleft : (pipeSplit t).2.1 = trimmed l := by simp [pipeSplit, hc, hs, trimmed]
    rw [hleft, mem_trimmed (by decide)]
    intro hmem
    have hl := not_contains_left (by simp) hs
    rw [contains_singleton.mpr hmem] at hl
    cases hl

/-! ### The stages -/

/-- A line is a pipeline of two halves, or its command is executed. -/
theorem expand_cases (h : expand chdir maxArgs sh (n + 1) t = some stages) :
    ∃ cmd sh', createCommand chdir maxArgs sh t = some (cmd, sh') ∧
      (cmd.kind ≠ .pipe ∧ stages = [(t, none)] ∨
        cmd.kind = .pipe ∧ cmd.enteredCmd = t ∧ '|' ∈ t ∧ ∃ leftStages rightStages,
          expand chdir maxArgs sh n (pipeSplit t).2.1 = some leftStages ∧
          expand chdir maxArgs sh n (pipeSplit t).2.2 = some rightStages ∧
          stages = followedBy (pipeSplit t).1 leftStages ++ rightStages) := by
  rw [expand] at h
  obtain ⟨⟨cmd, sh'⟩, hc, h⟩ := Option.bind_eq_some_iff.mp h
  refine ⟨cmd, sh', hc, ?_⟩
  have ht : cmd.enteredCmd = t := (createCommand_created hc).1.text
  dsimp only at h
  split_ifs at h with hk
  · rw [ht] at h
    obtain ⟨leftStages, hleft, h⟩ := Option.bind_eq_some_iff.mp h
    obtain ⟨rightStages, hright, h⟩ := Option.bind_eq_some_iff.mp h
    refine .inr ⟨hk, ht, ?_, leftStages, rightStages, hleft, hright, (Option.some.inj h).symm⟩
    obtain (hw | hw) | hw := (createCommand_pipe_iff hc).mp hk
    · exact mem_of_mem_word hw (by simp)
    · exact mem_of_mem_word hw (by simp)
    · exact hw.2
  · exact .inl ⟨hk, (Option.some.inj h).symm⟩

theorem expand_of_no_bar (hbar : '|' ∉ t)
    (h : expand chdir maxArgs sh n t = some stages) : stages = [(t, none)] := by
  cases n with
  | zero => cases h
  | succ n =>
    obtain ⟨cmd, sh', -, ⟨-, hs⟩ | ⟨-, -, hmem, -⟩⟩ := expand_cases h
    · exact hs
    · exact absurd hmem hbar

theorem stageList_append : followedBy op (stageList joints last) ++ stageList joints' t =
    stageList (joints ++ ⟨last, op, name⟩ :: joints') t := by
  simp [stageList, followedBy]

/-- The stages of a line without `|&` are followed by `|`. -/
theorem expand_of_no_amp (hamp : contains ['|', '&'] t = false)
    (h : expand chdir maxArgs sh n t = some (stageList joints last)) :
    ∀ joint ∈ joints, joint.op = .pipe := by
  have hstages : ∀ stage ∈ stageList joints last, stage.2 ≠ some .amp := by
    generalize stageList joints last = stages at h
    induction n generalizing t stages with
    | zero => cases h
    | succ n ih =>
      obtain ⟨cmd, sh', -, ⟨-, rfl⟩ | ⟨-, -, hbar, leftStages, rightStages, hleft, hright, rfl⟩⟩ :=
        expand_cases h
      · simp
      · obtain ⟨-, hc, -⟩ | ⟨hop, -, -⟩ := pipeSplit_left hbar
        · rw [hamp] at hc
          cases hc
        have hl := ih (not_contains_within (by simp) hamp (pipeSplit_within t).1) leftStages hleft
        have hr := ih (not_contains_within (by simp) hamp (pipeSplit_within t).2) rightStages hright
        rintro stage hstage
        obtain hstage | hstage := List.mem_append.mp hstage
        · obtain hstage | hstage := List.mem_append.mp hstage
          · exact hl stage (List.mem_of_mem_dropLast hstage)
          · obtain ⟨stage', -, rfl⟩ := Option.map_eq_some_iff.mp (Option.mem_toList.mp hstage)
            simp [hop]
        · exact hr stage hstage
  intro joint hjoint
  have hne := hstages (joint.stage, some joint.op)
    (List.mem_append_left _ (List.mem_map_of_mem hjoint))
  cases hop : joint.op with
  | pipe => rfl
  | amp =>
    rw [hop] at hne
    exact absurd rfl hne

/-! ### The tables -/

/-- The standard streams are open and a pipe has room. -/
structure Ready (limit : ℕ) (table : DescriptorTable StageFile) : Prop where
  streams : ∀ d < 3, table d ≠ none
  room : 2 ≤ free limit table

theorem Ready.update (h : Ready limit table) {d : ℕ} (hd : d < 3) (file : StageFile) :
    Ready limit (Function.update table d (some file)) := by
  have hopen (e : ℕ) : Function.update table d (some file) e = none ↔ table e = none := by
    by_cases he : e = d
    · rw [he, Function.update_self]
      exact iff_of_false (Option.some_ne_none file) (h.streams d hd)
    · rw [Function.update_of_ne he]
  exact ⟨fun e he => (hopen e).not.mpr (h.streams e he), (free_congr hopen).symm ▸ h.room⟩

/-- Nothing of the pipe is left in the tables of the two halves but the descriptor it is meant
for. -/
theorem Ready.exists_pipe (h : Ready limit table) (name : List Bool) :
    ∃ pipefd table', table.pipe limit (.readEnd name) (.writeEnd name) = some (pipefd, table') ∧
      (∀ op : PipeOp, leftTable op pipefd table' =
        Function.update table op.out (some (.writeEnd name))) ∧
      rightTable pipefd table' = Function.update table 0 (some (.readEnd name)) := by
  obtain ⟨d, d', hne, hd, hd', hpipe⟩ :=
    DescriptorTable.exists_pipe h.room (StageFile.readEnd name) (.writeEnd name)
  have hlt {e : ℕ} (he : e < 3) : e ≠ d ∧ e ≠ d' := by
    constructor
    · rintro rfl
      exact h.streams e he hd
    · rintro rfl
      exact h.streams e he hd'
  have hout (op : PipeOp) : op.out < 3 := by cases op <;> decide
  have hfree : Function.update table d (some (StageFile.readEnd name)) d' = none := by
    rw [Function.update_of_ne hne.symm, hd']
  refine ⟨(d, d'), _, hpipe, fun op => ?_, ?_⟩
  · obtain ⟨hod, hod'⟩ := hlt (hout op)
    simp only [leftTable, dup2, Function.update_self]
    rw [close_update_of_ne hod', close_update hfree, close_update_of_ne hod, close_update hd]
  · obtain ⟨hod, hod'⟩ := hlt (by decide : 0 < 3)
    simp only [rightTable, dup2, Function.update_of_ne hne, Function.update_self]
    rw [close_update_of_ne hod, close_update_of_ne hne.symm, close_update hd,
      close_update_of_ne hod', close_update hd']

/-! ### The stages of two halves -/

theorem find_amp_eq_none (hamp : ∀ joint ∈ joints, joint.op = .pipe) :
    joints.find? (·.op = .amp) = none := by
  rw [List.find?_eq_none]
  intro joint hjoint
  simp [hamp joint hjoint]

theorem wired_pipe (hamp : ∀ joint ∈ joints, joint.op = .pipe) :
    wired table (⟨s, .pipe, name⟩ :: joints) last =
      (s, Function.update table 1 (some (.writeEnd name))) ::
        wired (Function.update table 0 (some (.readEnd name))) joints last := by
  have hnone : (⟨s, .pipe, name⟩ :: joints).find? (·.op = .amp) = none :=
    find_amp_eq_none (List.forall_mem_cons.mpr ⟨rfl, hamp⟩)
  simp only [wired, outputs, hnone, if_pos]

/-- All stages before the first `|&` write their errors to its pipe. -/
theorem wired_amp (hamp : ∀ joint ∈ joints, joint.op = .pipe) :
    wired table (joints ++ ⟨s, .amp, name⟩ :: joints') last =
      wired (Function.update table 2 (some (.writeEnd name))) joints s ++
        wired (Function.update table 0 (some (.readEnd name))) joints' last := by
  induction joints generalizing table with
  | nil => simp [wired, outputs]
  | cons joint joints ih =>
    have hhead := hamp joint (by simp)
    have hrest : ∀ joint ∈ joints, joint.op = .pipe := fun j hj => hamp j (by simp [hj])
    have hnone := find_amp_eq_none hamp
    have hfind : (joint :: (joints ++ ⟨s, .amp, name⟩ :: joints')).find? (·.op = .amp) =
        some ⟨s, .amp, name⟩ := by
      rw [← List.cons_append, List.find?_append, hnone]
      simp
    have hout : Function.update (Function.update table 1 (some (StageFile.writeEnd joint.pipe))) 2
        (some (.writeEnd name)) = Function.update (Function.update table 2 (some (.writeEnd name))) 1
          (some (.writeEnd joint.pipe)) := Function.update_comm (by decide) ..
    have hin : Function.update (Function.update table 0 (some (StageFile.readEnd joint.pipe))) 2
        (some (.writeEnd name)) = Function.update (Function.update table 2 (some (.writeEnd name))) 0
          (some (.readEnd joint.pipe)) := Function.update_comm (by decide) ..
    simp only [List.cons_append, wired, outputs, hfind, hnone, hhead, if_pos, ih hrest,
      Function.update_idem, hout, hin]

/-! ### Names -/

/-- The pipes that are made on a way through the processes. -/
structure Named (name : List Bool) (joints : List Joint) : Prop where
  nodup : (joints.map Joint.pipe).Nodup
  within : ∀ joint ∈ joints, name <:+ joint.pipe

theorem Named.append (hl : Named (true :: name) joints) (hr : Named (false :: name) joints') :
    Named name (joints ++ ⟨s, op, name⟩ :: joints') := by
  have hlonger {b : Bool} {p : List Bool} (h : b :: name <:+ p) : name.length < p.length :=
    h.length_le
  refine ⟨?_, fun joint hjoint => ?_⟩
  · rw [List.map_append, List.map_cons, List.nodup_append]
    refine ⟨hl.nodup, List.nodup_cons.mpr ⟨fun hmem => ?_, hr.nodup⟩, fun p hp q hq => ?_⟩
    · obtain ⟨joint, hjoint, hname⟩ := List.mem_map.mp hmem
      have hlt := hlonger (hr.within joint hjoint)
      rw [hname] at hlt
      exact lt_irrefl _ hlt
    · obtain ⟨joint, hjoint, rfl⟩ := List.mem_map.mp hp
      have hleft := hl.within joint hjoint
      rintro rfl
      obtain heq | hmem := List.mem_cons.mp hq
      · have hlt := hlonger hleft
        rw [heq] at hlt
        exact lt_irrefl _ hlt
      · obtain ⟨joint', hjoint', heq⟩ := List.mem_map.mp hmem
        have hright := hr.within joint' hjoint'
        rw [heq] at hright
        have hsame := List.IsSuffix.eq_of_length
          (List.suffix_of_suffix_length_le hleft hright le_rfl) rfl
        cases hsame
  · obtain hjoint | hjoint := List.mem_append.mp hjoint
    · exact (List.suffix_cons true name).trans (hl.within joint hjoint)
    · obtain rfl | hjoint := List.mem_cons.mp hjoint
      · exact List.suffix_rfl
      · exact (List.suffix_cons false name).trans (hr.within joint hjoint)

/-! ### The processes -/

/-- The stages of a line are executed with the tables of a pipeline. -/
theorem plumb_eq_wired (name : List Bool) (h : expand chdir maxArgs sh n t = some stages)
    (hready : Ready limit table) : ∃ joints last, stages = stageList joints last ∧
      Named name joints ∧
      plumb chdir maxArgs sh limit n name table t = some (wired table joints last) := by
  induction n generalizing t stages name table with
  | zero => cases h
  | succ n ih =>
    obtain ⟨cmd, sh', hc, ⟨hk, rfl⟩ | ⟨hk, ht, hbar, leftStages, rightStages, hleft, hright, rfl⟩⟩ :=
      expand_cases h
    · refine ⟨[], t, rfl, ⟨List.nodup_nil, by simp⟩, ?_⟩
      rw [plumb, hc]
      simp only [Option.bind_eq_bind, Option.bind_some, if_neg hk]
      rfl
    · obtain ⟨pipefd, table', hpipe, hlt, hrt⟩ := hready.exists_pipe name
      have hout : (pipeSplit t).1.out < 3 := by cases (pipeSplit t).1 <;> decide
      obtain ⟨jl, ll, rfl, hnl, hpl⟩ := ih (true :: name) hleft
        (hready.update hout (.writeEnd name))
      obtain ⟨jr, lr, rfl, hnr, hpr⟩ := ih (false :: name) hright
        (hready.update (by decide : 0 < 3) (.readEnd name))
      refine ⟨jl ++ ⟨ll, (pipeSplit t).1, name⟩ :: jr, lr, stageList_append, hnl.append hnr, ?_⟩
      have hrun : plumb chdir maxArgs sh limit (n + 1) name table t =
          some (wired (Function.update table (pipeSplit t).1.out (some (.writeEnd name))) jl ll ++
            wired (Function.update table 0 (some (.readEnd name))) jr lr) := by
        rw [plumb, hc]
        simp only [Option.bind_eq_bind, Option.bind_some, if_pos hk, ht, hpipe, hlt, hrt, hpl, hpr]
        rfl
      rw [hrun]
      obtain ⟨hop, -, hamp⟩ | ⟨hop, hamp, hnobar⟩ := pipeSplit_left hbar
      · rw [hop, wired_amp (expand_of_no_amp hamp hleft)]
        rfl
      · have hsingle := expand_of_no_bar hnobar hleft
        have hright' := expand_of_no_amp
          (not_contains_within (by simp) hamp (pipeSplit_within t).2) hright
        have hjl : jl = [] := by
          have hlen := congrArg List.length hsingle
          simpa [stageList] using hlen
        subst hjl
        rw [hop, List.nil_append, wired_pipe hright']
        rfl

theorem plumb_eq_none (h : expand chdir maxArgs sh n t = none) :
    plumb chdir maxArgs sh limit n name table t = none := by
  induction n generalizing t name table with
  | zero => rfl
  | succ n ih =>
    rw [expand] at h
    rw [plumb]
    cases hc : createCommand chdir maxArgs sh t with
    | none => rfl
    | some result =>
      obtain ⟨cmd, sh'⟩ := result
      simp only [hc, Option.bind_eq_bind, Option.bind_some] at h ⊢
      split_ifs at h ⊢ with hk
      cases hpipe : table.pipe limit (.readEnd name) (.writeEnd name) with
      | none => rfl
      | some ends =>
        cases hleft : expand chdir maxArgs sh n (pipeSplit cmd.enteredCmd).2.1 with
        | none => simp only [Option.bind_some, ih hleft, Option.bind_none]
        | some leftStages =>
          cases hright : expand chdir maxArgs sh n (pipeSplit cmd.enteredCmd).2.2 with
          | none => simp only [ih hright, Option.bind_none, Option.bind_fun_none]
          | some rightStages =>
            simp only [hleft, hright, Option.bind_some] at h
            cases h

/-- What the pipes of a line find open in the shell. -/
def shellTable (table : DescriptorTable OpenFile) : DescriptorTable StageFile :=
  fun d => (table d).map .shell

theorem ready_shellTable {table : DescriptorTable OpenFile} (hopen : ∀ d < 3, table d ≠ none)
    (hroom : 2 ≤ free limit table) : Ready limit (shellTable table) where
  streams d hd := by simpa [shellTable] using hopen d hd
  room := by
    rwa [show free limit (shellTable table) = free limit table by simp [free, shellTable]]

/-- With the standard streams open and room for one pipe, the stages of every line that is
expanded are executed with the tables of a pipeline; nothing else of the pipes is left open. -/
theorem pipeline_plumbing (chdir : Line → Line → Option Line) (maxArgs limit n : ℕ)
    (sh : SmallShell) (table : DescriptorTable OpenFile) (line : Line)
    (hopen : ∀ d < 3, table d ≠ none) (hroom : 2 ≤ free limit table) :
    (expand chdir maxArgs sh n line = none →
      plumb chdir maxArgs sh limit n [] (shellTable table) line = none) ∧
    ∀ stages, expand chdir maxArgs sh n line = some stages →
      ∃ joints last, stages = stageList joints last ∧ (joints.map Joint.pipe).Nodup ∧
        plumb chdir maxArgs sh limit n [] (shellTable table) line =
          some (wired (shellTable table) joints last) := by
  refine ⟨plumb_eq_none, fun stages h => ?_⟩
  obtain ⟨joints, last, hs, hnamed, hplumb⟩ :=
    plumb_eq_wired [] h (ready_shellTable hopen hroom)
  exact ⟨joints, last, hs, hnamed.nodup, hplumb⟩

/-- Stage `b` reads what `a` writes, and both write their errors to `c`. -/
theorem pipeline_plumbing_three : ∃ joints last, stageList joints last =
    [(['a'], some .pipe), (['b'], some .amp), (['c'], none)] ∧
      plumb (fun _ _ => none) commandMaxArgs (.new []) 8 12 [] (shellTable standardStreams)
        "a | b |& c".toList = some (wired (shellTable standardStreams) joints last) := by
  have h := pipeline_plumbing (fun _ _ => none) commandMaxArgs 8 12 (.new []) standardStreams
    "a | b |& c".toList (by decide) (by decide)
  obtain ⟨joints, last, hstages, -, hplumb⟩ := h.2
    [(['a'], some .pipe), (['b'], some .amp), (['c'], none)] (by decide +kernel)
  exact ⟨joints, last, hstages.symm, hplumb⟩

/-! ### The ends of the pipes -/

theorem outputs_of_ne {d : ℕ} (h1 : d ≠ 1) (h2 : d ≠ 2) : outputs table joints d = table d := by
  cases joints with
  | nil => rfl
  | cons joint joints =>
    cases hfind : (joint :: joints).find? (·.op = .amp) <;> simp only [outputs, hfind] <;>
      split_ifs <;> simp [h1, h2]

theorem outputs_new {d : ℕ} {file : StageFile} (h : outputs table joints d = some file) :
    table d = some file ∨ ∃ joint ∈ joints, file = .writeEnd joint.pipe := by
  cases joints with
  | nil => exact .inl h
  | cons joint joints =>
    have hstart {d : ℕ} (h : (if joint.op = .pipe then
        Function.update table 1 (some (.writeEnd joint.pipe)) else table) d = some file) :
        table d = some file ∨ file = .writeEnd joint.pipe := by
      split_ifs at h
      · rw [Function.update_apply] at h
        split_ifs at h
        · exact .inr (Option.some.inj h).symm
        · exact .inl h
      · exact .inl h
    cases hfind : (joint :: joints).find? (·.op = .amp) with
    | none =>
      simp only [outputs, hfind] at h
      exact (hstart h).imp_right fun he => ⟨joint, by simp, he⟩
    | some amp =>
      simp only [outputs, hfind] at h
      by_cases hd : d = 2
      · rw [hd, Function.update_self] at h
        exact .inr ⟨amp, List.mem_of_find?_eq_some hfind, (Option.some.inj h).symm⟩
      · rw [Function.update_of_ne hd] at h
        exact (hstart h).imp_right fun he => ⟨joint, by simp, he⟩

theorem outputs_cons : ∃ d, outputs table (joint :: joints) d = some (.writeEnd joint.pipe) := by
  cases hop : joint.op with
  | pipe =>
    refine ⟨1, ?_⟩
    cases hfind : (joint :: joints).find? (·.op = .amp) <;> simp [outputs, hfind, hop]
  | amp =>
    have hfind : (joint :: joints).find? (·.op = .amp) = some joint := by simp [hop]
    exact ⟨2, by simp [outputs, hfind]⟩

/-- The input of a stage. -/
def input (table : DescriptorTable StageFile) (joints : List Joint) : ℕ → DescriptorTable StageFile
  | 0 => table
  | k + 1 => match joints[k]? with
    | none => table
    | some joint => Function.update table 0 (some (.readEnd joint.pipe))

theorem length_wired : (wired table joints last).length = joints.length + 1 := by
  induction joints generalizing table with
  | nil => rfl
  | cons joint joints ih => rw [wired, List.length_cons, ih, List.length_cons]

theorem wired_getElem {k : ℕ} {stage : Line × DescriptorTable StageFile}
    (h : (wired table joints last)[k]? = some stage) :
    stage.2 = outputs (input table joints k) (joints.drop k) := by
  induction joints generalizing table k with
  | nil =>
    obtain ⟨rfl, rfl⟩ : k = 0 ∧ (last, table) = stage := by
      simpa [wired, List.getElem?_singleton] using h
    rfl
  | cons joint joints ih =>
    cases k with
    | zero =>
      cases Option.some.inj h
      rfl
    | succ k =>
      rw [wired, List.getElem?_cons_succ] at h
      rw [ih h, List.drop_succ_cons]
      congr 1
      cases k with
      | zero => rfl
      | succ k =>
        have hlt : k < joints.length := by
          have hle := (List.getElem?_eq_some_iff.mp h).1
          rw [length_wired] at hle
          omega
        simp only [input, List.getElem?_cons_succ, List.getElem?_eq_getElem hlt,
          Function.update_idem]

/-- Each pipe has one reader, the stage after it, which has it as its standard input. The stage
before it writes to it, and no stage after that keeps a write end, so that its reader finds the end
of the input when the stages before have ended. -/
theorem pipeline_ends (chdir : Line → Line → Option Line) (maxArgs limit n : ℕ)
    (sh : SmallShell) (table : DescriptorTable OpenFile) (line : Line)
    (hopen : ∀ d < 3, table d ≠ none) (hroom : 2 ≤ free limit table)
    (out : List (Line × DescriptorTable StageFile))
    (h : plumb chdir maxArgs sh limit n [] (shellTable table) line = some out) :
    ∃ pipes : List (List Bool), pipes.Nodup ∧ pipes.length + 1 = out.length ∧
      ∀ (k : ℕ) (stage : Line × DescriptorTable StageFile), out[k]? = some stage →
        (∀ d name, stage.2 d = some (.readEnd name) ↔ d = 0 ∧ ∃ i, k = i + 1 ∧ pipes[i]? = some name) ∧
        (∀ name, pipes[k]? = some name → ∃ d, stage.2 d = some (.writeEnd name)) ∧
        (∀ d name, stage.2 d = some (.writeEnd name) → ∃ i, k ≤ i ∧ pipes[i]? = some name) := by
  cases hexpand : expand chdir maxArgs sh n line with
  | none =>
    rw [plumb_eq_none hexpand] at h
    cases h
  | some stages =>
    obtain ⟨joints, last, -, hnamed, hplumb⟩ :=
      plumb_eq_wired [] hexpand (ready_shellTable hopen hroom)
    obtain rfl : wired (shellTable table) joints last = out := by
      rw [hplumb] at h
      exact Option.some.inj h
    refine ⟨joints.map Joint.pipe, hnamed.nodup, by rw [List.length_map, length_wired],
      fun k stage hstage => ?_⟩
    rw [wired_getElem hstage]
    -- a pipe end is there because of the stage's own position
    have hshell (d : ℕ) (file : StageFile) (hd : shellTable table d = some file) :
        ∃ file', file = .shell file' := by
      obtain ⟨file', -, hf⟩ := Option.map_eq_some_iff.mp hd
      exact ⟨file', hf.symm⟩
    have hinput (d : ℕ) (file : StageFile) (hd : input (shellTable table) joints k d = some file) :
        (∃ file', file = .shell file') ∨
          d = 0 ∧ ∃ i joint, k = i + 1 ∧ joints[i]? = some joint ∧ file = .readEnd joint.pipe := by
      cases k with
      | zero => exact .inl (hshell d file hd)
      | succ i =>
        cases hj : joints[i]? with
        | none =>
          simp only [input, hj] at hd
          exact .inl (hshell d file hd)
        | some joint =>
          simp only [input, hj, Function.update_apply] at hd
          split_ifs at hd with hzero
          · exact .inr ⟨hzero, i, joint, rfl, hj, (Option.some.inj hd).symm⟩
          · exact .inl (hshell d file hd)
    refine ⟨fun d name => ⟨fun hd => ?_, ?_⟩, fun name hname => ?_, fun d name hd => ?_⟩
    · obtain hd | ⟨joint, -, hfile⟩ := outputs_new hd
      · obtain ⟨file', hfile⟩ | ⟨hzero, i, joint, hi, hj, hfile⟩ := hinput d _ hd
        · cases hfile
        · cases hfile
          exact ⟨hzero, i, hi, by rw [List.getElem?_map, hj, Option.map_some]⟩
      · cases hfile
    · rintro ⟨rfl, i, rfl, hi⟩
      obtain ⟨joint, hj, rfl⟩ := Option.map_eq_some_iff.mp (List.getElem?_map .. ▸ hi)
      rw [outputs_of_ne (by decide) (by decide)]
      simp [input, hj]
    · obtain ⟨joint, hj, rfl⟩ := Option.map_eq_some_iff.mp (List.getElem?_map .. ▸ hname)
      obtain ⟨hlt, hget⟩ := List.getElem?_eq_some_iff.mp hj
      rw [List.drop_eq_getElem_cons hlt, hget]
      exact outputs_cons
    · obtain hd | ⟨joint, hmem, hfile⟩ := outputs_new hd
      · obtain ⟨file', hfile⟩ | ⟨-, i, joint, -, -, hfile⟩ := hinput d _ hd
        · cases hfile
        · cases hfile
      · cases hfile
        obtain ⟨i, hi⟩ := List.mem_iff_getElem?.mp hmem
        rw [List.getElem?_drop] at hi
        exact ⟨k + i, Nat.le_add_right k i, by rw [List.getElem?_map, hi, Option.map_some]⟩

theorem pipeline_ends_two : ∃ stages : List (Line × DescriptorTable StageFile),
    plumb (fun _ _ => none) commandMaxArgs (.new []) 8 6 [] (shellTable standardStreams)
      "a | b".toList = some stages ∧ ∃ pipes : List (List Bool),
        pipes.Nodup ∧ pipes.length + 1 = stages.length := by
  obtain ⟨stages, hstages⟩ : ∃ stages, plumb (fun _ _ => none) commandMaxArgs (.new []) 8 6 []
      (shellTable standardStreams) "a | b".toList = some stages :=
    Option.isSome_iff_exists.mp (by decide +kernel)
  obtain ⟨pipes, hnodup, hlen, -⟩ := pipeline_ends (fun _ _ => none) commandMaxArgs 8 6 (.new [])
    standardStreams "a | b".toList (by decide) (by decide) stages hstages
  exact ⟨stages, hstages, pipes, hnodup, hlen⟩

end FtfSystems.Shell

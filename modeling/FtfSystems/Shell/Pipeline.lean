import FtfSystems.Shell.CommandLines

/-!
# Pipelines

`PipeCommand::execute` splits its line at the first `|&`, or at the first `|` if there is none, and
has both halves parsed again. From the right half it erases everything from the last `&` on, to
remove a background sign. A later `|&` has an `&` as well.
-/
namespace FtfSystems.Shell

/-- The operators between the stages. -/
inductive PipeOp where
  | pipe
  | amp
  deriving DecidableEq

/-- An operator with the spaces around it. -/
def PipeOp.text : PipeOp → Line
  | .pipe => [' ', '|', ' ']
  | .amp => [' ', '|', '&', ' ']

/-- `right_cmd` of `PipeCommand::execute`, from the text after the operator. -/
def pipeRight (right : Line) : Line :=
  let right := ltrim (rtrim right)
  if '&' ∈ right then ltrim (rtrim (eraseFromLast '&' right)) else right

/-- The operator, `left_cmd` and `right_cmd` of `PipeCommand::execute`. -/
def pipeSplit (enteredCmd : Line) : PipeOp × Line × Line :=
  let withAmperc := contains ['|', '&'] enteredCmd
  let barrier := if withAmperc then ['|', '&'] else ['|']
  let (left, right) := (splitFirst barrier enteredCmd).getD (enteredCmd, enteredCmd)
  (if withAmperc then .amp else .pipe, ltrim (rtrim left), pipeRight right)

/-- The last stage of a left half is followed by the operator. -/
def followedBy (op : PipeOp) (stages : List (Line × Option PipeOp)) : List (Line × Option PipeOp) :=
  stages.dropLast ++ (stages.getLast?.map fun stage => (stage.1, some op)).toList

section
variable (chdir : Line → Line → Option Line) (maxArgs : ℕ) (sh : SmallShell)

/-- The stages that a line is expanded to by `CreateCommand` and `PipeCommand::execute`, each with
the operator after it. `n` bounds the depth. -/
def expand : ℕ → Line → Option (List (Line × Option PipeOp))
  | 0, _ => none
  | n + 1, cmdLine => do
    let (cmd, _) ← createCommand chdir maxArgs sh cmdLine
    if cmd.kind = .pipe then
      let (op, left, right) := pipeSplit cmd.enteredCmd
      let leftStages ← expand n left
      let rightStages ← expand n right
      return followedBy op leftStages ++ rightStages
    else return [(cmdLine, none)]

end

/-- The line of a pipeline: stages with the operators after them, and the last stage. -/
def render : List (Line × PipeOp) → Line → Line
  | [], last => last
  | (stage, op) :: stages, last => stage ++ op.text ++ render stages last

/-- What the expansion of a pipeline should be. -/
def pipelineStages (stages : List (Line × PipeOp)) (last : Line) : List (Line × Option PipeOp) :=
  stages.map (fun stage => (trim stage.1, some stage.2)) ++ [(trim last, none)]

/-- A stage holds no operator, no background sign and no redirection. -/
def CleanStage (s : Line) : Prop := '|' ∉ s ∧ '&' ∉ s ∧ '>' ∉ s

/-- A stage holds a word. -/
def HasWord (s : Line) : Prop := ∃ c ∈ s, isSpace c = false

/-- The line of a pipeline, possibly with a background sign at its end. -/
def pipelineLine (stages : List (Line × PipeOp)) (last : Line) (final : Bool) : Line :=
  render stages last ++ if final then ['&'] else []

/-- How many of the operators are `|&`. -/
def amps (stages : List (Line × PipeOp)) : ℕ := stages.countP (·.2 = .amp)

variable {chdir : Line → Line → Option Line} {maxArgs n : ℕ} {sh : SmallShell} {t pre post last s : Line}
  {stages before after : List (Line × PipeOp)} {op : PipeOp}

/-! ### One split -/

theorem pipeRight_of_not_mem (h : '&' ∉ post) : pipeRight post = trimmed post := by
  rw [pipeRight, if_neg]
  · rfl
  · exact fun hm => h ((mem_trimmed (by decide)).mp hm)

theorem pipeRight_append (h : '&' ∉ post) : pipeRight (pre ++ '&' :: post) = trimmed pre := by
  have hpost : '&' ∉ rtrim post := fun hm => h ((mem_rtrim (by decide)).mp hm)
  have htrim : ltrim (rtrim (pre ++ '&' :: post)) = ltrim pre ++ '&' :: rtrim post :=
    trimmed_append (by decide)
  rw [pipeRight, htrim, if_pos (by simp), eraseFromLast_append hpost]
  exact trimmed_ltrim pre

theorem pipeRight_rtrim (post : Line) : pipeRight (rtrim post) = pipeRight post := by
  rw [pipeRight, pipeRight, rtrim_rtrim]

theorem pipeRight_space (post : Line) : pipeRight (' ' :: post) = pipeRight post := by
  have h : ltrim (rtrim (' ' :: post)) = ltrim (rtrim post) := trimmed_space post
  rw [pipeRight, pipeRight, h]

theorem pipeSplit_amp (h : '&' ∉ pre) :
    pipeSplit (pre ++ '|' :: '&' :: post) = (.amp, trimmed pre, pipeRight post) := by
  have hs := splitFirst_barAmp (r := post) h
  have hc : contains ['|', '&'] (pre ++ '|' :: '&' :: post) = true := by rw [contains, hs]; rfl
  rw [pipeSplit, hc, if_pos rfl, if_pos rfl, hs]
  rfl

theorem pipeSplit_pipe (h : '|' ∉ pre) (hc : contains ['|', '&'] (pre ++ '|' :: post) = false) :
    pipeSplit (pre ++ '|' :: post) = (.pipe, trimmed pre, pipeRight post) := by
  rw [pipeSplit, hc, if_neg (by simp), if_neg (by simp), splitFirst_bar h]
  rfl

/-- Spaces around a line do not change its split. -/
theorem pipeSplit_trimmed_amp (h : '&' ∉ pre) :
    pipeSplit (trimmed (pre ++ '|' :: '&' :: post)) = (.amp, trimmed pre, pipeRight post) := by
  have hpre : '&' ∉ ltrim pre := fun hm => h ((mem_ltrim (by decide)).mp hm)
  have hpost : rtrim ('&' :: post) = '&' :: rtrim post := rtrim_append (l := []) (by decide)
  rw [trimmed_append (by decide), hpost, pipeSplit_amp hpre, trimmed_ltrim, pipeRight_rtrim]

theorem pipeSplit_trimmed_pipe (h : '|' ∉ pre) (hpre : '&' ∉ pre) (hpost : '&' ∉ post) :
    pipeSplit (trimmed (pre ++ '|' :: post)) = (.pipe, trimmed pre, pipeRight post) := by
  have hbar : '|' ∉ ltrim pre := fun hm => h ((mem_ltrim (by decide)).mp hm)
  have hamp : '&' ∉ trimmed (pre ++ '|' :: post) := by
    rw [mem_trimmed (by decide)]
    simp [hpre, hpost]
  have hc : contains ['|', '&'] (trimmed (pre ++ '|' :: post)) = false :=
    not_contains (by simp) hamp
  rw [trimmed_append (by decide)] at hc ⊢
  rw [pipeSplit_pipe hbar hc, trimmed_ltrim, pipeRight_rtrim]

/-! ### `CreateCommand` -/

/-- A line with an operator becomes a pipe, unless it is not parsed at all. -/
theorem createCommand_bar (hbar : '|' ∈ t) (hgt : '>' ∉ t) {cmd : Command} {sh' : SmallShell}
    (h : createCommand chdir maxArgs sh t = some (cmd, sh')) :
    cmd.kind = .pipe ∧ cmd.enteredCmd = t := by
  obtain ⟨arg0, rest, -, -, ⟨-, -, args, optionalArg, rfl⟩ | ⟨hr, -⟩ | ⟨hb, -⟩⟩ :=
    createCommand_cases h
  · exact ⟨rfl, rfl⟩
  · exact absurd hr.2 hgt
  · exact absurd hbar hb

theorem createCommand_isSome (hlen : t.length < maxArgs) (hword : HasWord t) :
    ∃ cmd sh', createCommand chdir maxArgs sh t = some (cmd, sh') :=
  createCommand_isSome_iff.mpr ⟨parseCommandLine_ne_nil_iff.mpr hword,
    (length_parseCommandLine_le t).trans_lt hlen⟩

/-- A line without an operator becomes no pipe. -/
theorem createCommand_no_bar (hbar : '|' ∉ t) {cmd : Command} {sh' : SmallShell}
    (h : createCommand chdir maxArgs sh t = some (cmd, sh')) : cmd.kind ≠ .pipe := by
  rw [Ne, createCommand_pipe_iff h]
  rintro ((hw | hw) | hw)
  · exact hbar (mem_of_mem_word hw (by simp))
  · exact hbar (mem_of_mem_word hw (by simp))
  · exact hbar hw.2

theorem createCommand_blank (h : ¬ HasWord t) : createCommand chdir maxArgs sh t = none := by
  have hnil : parseCommandLine t = [] := by
    by_contra hne
    exact h (parseCommandLine_ne_nil_iff.mp hne)
  rw [createCommand, hnil]
  simp

/-! ### One step of the expansion -/

theorem expand_bar (hbar : '|' ∈ t) (hgt : '>' ∉ t) (hlen : t.length < maxArgs) :
    expand chdir maxArgs sh (n + 1) t = (do
      let leftStages ← expand chdir maxArgs sh n (pipeSplit t).2.1
      let rightStages ← expand chdir maxArgs sh n (pipeSplit t).2.2
      return followedBy (pipeSplit t).1 leftStages ++ rightStages) := by
  obtain ⟨cmd, sh', hc⟩ : ∃ cmd sh', createCommand chdir maxArgs sh t = some (cmd, sh') :=
    createCommand_isSome hlen ⟨'|', hbar, by decide⟩
  obtain ⟨hk, ht⟩ := createCommand_bar hbar hgt hc
  rw [expand, hc]
  simp only [Option.bind_eq_bind, Option.bind_some, hk, if_true, ht]

theorem expand_no_bar (hbar : '|' ∉ t) (hlen : t.length < maxArgs) (hword : HasWord t) :
    expand chdir maxArgs sh (n + 1) t = some [(t, none)] := by
  obtain ⟨cmd, sh', hc⟩ : ∃ cmd sh', createCommand chdir maxArgs sh t = some (cmd, sh') :=
    createCommand_isSome hlen hword
  rw [expand, hc]
  simp only [Option.bind_eq_bind, Option.bind_some]
  rw [if_neg (createCommand_no_bar hbar hc)]
  rfl

theorem expand_blank (h : ¬ HasWord t) : expand chdir maxArgs sh n t = none := by
  cases n with
  | zero => rfl
  | succ n =>
    rw [expand, createCommand_blank h]
    rfl

/-- An expansion fails with its right half. -/
theorem expand_eq_none (hbar : '|' ∈ t) (hgt : '>' ∉ t)
    (h : expand chdir maxArgs sh n (pipeSplit t).2.2 = none) :
    expand chdir maxArgs sh (n + 1) t = none := by
  rw [expand]
  cases hc : createCommand chdir maxArgs sh t with
  | none => rfl
  | some x =>
    obtain ⟨cmd, sh'⟩ := x
    obtain ⟨hk, ht⟩ := createCommand_bar hbar hgt hc
    simp only [Option.bind_eq_bind, Option.bind_some, hk, if_true, ht, h, Option.bind_none,
      Option.bind_fun_none]

/-! ### The text of a pipeline -/

/-- All stages of a pipeline are clean. -/
def CleanStages (stages : List (Line × PipeOp)) (last : Line) : Prop :=
  (∀ stage ∈ stages, CleanStage stage.1) ∧ CleanStage last

theorem render_append (before : List (Line × PipeOp)) :
    render (before ++ (s, op) :: after) last = render before s ++ op.text ++ render after last := by
  induction before with
  | nil => rfl
  | cons stage before ih =>
    obtain ⟨stage, op'⟩ := stage
    simp only [List.cons_append, render, ih, List.append_assoc]

@[simp] theorem amps_nil : amps [] = 0 := rfl

@[simp] theorem amps_cons : amps ((s, op) :: after) = amps after + if op = .amp then 1 else 0 := by
  simp [amps, List.countP_cons]

theorem amps_append : amps (before ++ (s, op) :: after) =
    amps before + amps after + if op = .amp then 1 else 0 := by
  simp only [amps, List.countP_append, List.countP_cons, decide_eq_true_eq]
  omega

theorem CleanStages.left (h : CleanStages (before ++ (s, op) :: after) last) :
    CleanStages before s :=
  ⟨fun stage hstage => h.1 stage (by simp [hstage]), h.1 (s, op) (by simp)⟩

theorem CleanStages.right (h : CleanStages (before ++ (s, op) :: after) last) :
    CleanStages after last :=
  ⟨fun stage hstage => h.1 stage (by simp [hstage]), h.2⟩

theorem CleanStages.tail {stage : Line × PipeOp} (h : CleanStages (stage :: stages) last) :
    CleanStages stages last :=
  ⟨fun stage hstage => h.1 stage (by simp [hstage]), h.2⟩

theorem not_mem_render_gt (h : CleanStages stages last) : '>' ∉ render stages last := by
  induction stages with
  | nil => exact h.2.2.2
  | cons stage stages ih =>
    obtain ⟨stage, op⟩ := stage
    have hstage := (h.1 (stage, op) (by simp)).2.2
    have hrest := ih h.tail
    cases op <;> simp [render, PipeOp.text, hstage, hrest]

theorem not_mem_render_amp (h : CleanStages stages last) (ha : amps stages = 0) :
    '&' ∉ render stages last := by
  induction stages with
  | nil => exact h.2.2.1
  | cons stage stages ih =>
    obtain ⟨stage, op⟩ := stage
    rw [amps_cons] at ha
    have hstage := (h.1 (stage, op) (by simp)).2.1
    have hrest := ih h.tail (by omega)
    cases op with
    | pipe => simp [render, PipeOp.text, hstage, hrest]
    | amp => simp at ha

/-- Where `PipeCommand::execute` splits a pipeline: at the first `|&`, else at the first `|`. -/
theorem exists_first_split (h : stages ≠ []) :
    ∃ before s op after, stages = before ++ (s, op) :: after ∧ amps before = 0 ∧
      (op = .amp ∨ op = .pipe ∧ before = [] ∧ amps stages = 0) := by
  cases hf : stages.find? (·.2 = .amp) with
  | none =>
    have hall : amps stages = 0 := by
      rw [amps, List.countP_eq_zero]
      simpa using hf
    obtain ⟨⟨s, op⟩, after, rfl⟩ := List.exists_cons_of_ne_nil h
    refine ⟨[], s, op, after, rfl, rfl, .inr ⟨?_, rfl, hall⟩⟩
    cases op with
    | pipe => rfl
    | amp => simp at hf
  | some stage =>
    obtain ⟨s, op⟩ := stage
    obtain ⟨hop, before, after, rfl, hbefore⟩ := List.find?_eq_some_iff_append.mp hf
    refine ⟨before, s, op, after, rfl, ?_, .inl (by simpa using hop)⟩
    rw [amps, List.countP_eq_zero]
    simpa using hbefore

theorem exists_last_amp (h : 0 < amps stages) :
    ∃ before s after, stages = before ++ (s, .amp) :: after ∧ amps after = 0 := by
  induction stages with
  | nil => simp [amps] at h
  | cons stage stages ih =>
    obtain ⟨s, op⟩ := stage
    by_cases hrest : 0 < amps stages
    · obtain ⟨before, s', after, rfl, hafter⟩ := ih hrest
      exact ⟨(s, op) :: before, s', after, rfl, hafter⟩
    · cases op with
      | pipe => exact absurd (by simpa using h) hrest
      | amp => exact ⟨[], s, stages, rfl, by omega⟩

/-! ### The split of a pipeline -/

section
variable {u : Line}

theorem render_amp_eq : render (before ++ (s, .amp) :: after) last ++ u =
    (render before s ++ [' ']) ++ '|' :: '&' :: ' ' :: (render after last ++ u) := by
  rw [render_append]
  simp [PipeOp.text]

theorem render_pipe_eq : render ((s, .pipe) :: after) last ++ u =
    (s ++ [' ']) ++ '|' :: ' ' :: (render after last ++ u) := by
  simp [render, PipeOp.text]

theorem not_mem_append_space {c : Char} (h : c ∉ s) (hc : c ≠ ' ') : c ∉ s ++ [' '] := by
  simp [h, hc]

/-- The split of a pipeline with some text after it. -/
theorem pipeSplit_render (hclean : CleanStages (before ++ (s, op) :: after) last)
    (hbefore : amps before = 0)
    (hop : op = .amp ∨ op = .pipe ∧ before = [] ∧
      contains ['|', '&'] (render (before ++ (s, op) :: after) last ++ u) = false) :
    pipeSplit (render (before ++ (s, op) :: after) last ++ u) =
      (op, trimmed (render before s), pipeRight (render after last ++ u)) := by
  rcases hop with rfl | ⟨rfl, rfl, hc⟩
  · have hamp := not_mem_append_space (not_mem_render_amp hclean.left hbefore) (by decide)
    rw [render_amp_eq, pipeSplit_amp hamp, trimmed_space', pipeRight_space]
  · have hbar := not_mem_append_space hclean.left.2.1 (by decide)
    rw [List.nil_append, render_pipe_eq] at hc ⊢
    rw [pipeSplit_pipe hbar hc, trimmed_space', pipeRight_space]
    rfl

/-- The same for the line without the spaces around it. -/
theorem pipeSplit_trimmed_render (hclean : CleanStages (before ++ (s, op) :: after) last)
    (hbefore : amps before = 0)
    (hop : op = .amp ∨ op = .pipe ∧ before = [] ∧ '&' ∉ render after last ++ u) :
    pipeSplit (trimmed (render (before ++ (s, op) :: after) last ++ u)) =
      (op, trimmed (render before s), pipeRight (render after last ++ u)) := by
  rcases hop with rfl | ⟨rfl, rfl, hpost⟩
  · have hamp := not_mem_append_space (not_mem_render_amp hclean.left hbefore) (by decide)
    rw [render_amp_eq, pipeSplit_trimmed_amp hamp, trimmed_space', pipeRight_space]
  · have hbar := not_mem_append_space hclean.left.2.1 (by decide)
    have hamp := not_mem_append_space hclean.left.2.2.1 (by decide)
    rw [List.nil_append, render_pipe_eq, pipeSplit_trimmed_pipe hbar hamp (by simpa using hpost),
      trimmed_space', pipeRight_space]
    rfl

theorem bar_mem_render : '|' ∈ render (before ++ (s, op) :: after) last ++ u := by
  rw [render_append]
  cases op <;> simp [PipeOp.text]

theorem length_render_left :
    (render before s).length < (render (before ++ (s, op) :: after) last).length := by
  rw [render_append]
  cases op <;> simp [PipeOp.text]

theorem length_render_right :
    (render after last).length < (render (before ++ (s, op) :: after) last).length := by
  rw [render_append]
  cases op <;> simp [PipeOp.text] <;> omega

end

theorem pipelineStages_append :
    followedBy op (pipelineStages before s) ++ pipelineStages after last =
      pipelineStages (before ++ (s, op) :: after) last := by
  simp [pipelineStages, followedBy]

theorem hasWord_trimmed : HasWord (trimmed s) ↔ HasWord s := by
  have hne {c : Char} (h : isSpace c = false) : c ≠ ' ' := by
    rintro rfl
    simp [isSpace] at h
  constructor
  · rintro ⟨c, hc, h⟩
    exact ⟨c, (mem_trimmed (hne h)).mp hc, h⟩
  · rintro ⟨c, hc, h⟩
    exact ⟨c, (mem_trimmed (hne h)).mpr hc, h⟩

/-! ### The expansion -/

/-- A pipeline is expanded to its stages when both halves of its first split are. -/
theorem expand_split {m : ℕ} {t : Line} (hbar : '|' ∈ t) (hgt : '>' ∉ t) (hlen : t.length < maxArgs)
    (hsplit : pipeSplit t = (op, trimmed (render before s), trimmed (render after last)))
    (hleft : expand chdir maxArgs sh m (trimmed (render before s)) = some (pipelineStages before s))
    (hright : expand chdir maxArgs sh m (trimmed (render after last)) =
      some (pipelineStages after last)) :
    expand chdir maxArgs sh (m + 1) t = some (pipelineStages (before ++ (s, op) :: after) last) := by
  rw [expand_bar hbar hgt hlen, hsplit]
  dsimp only
  rw [hleft, hright, ← pipelineStages_append]
  rfl

/-- A pipeline with at most one `|&` and no background sign is expanded to its stages. -/
theorem expand_trimmed_render (hclean : CleanStages stages last)
    (hword : ∀ stage ∈ stages, HasWord stage.1) (hlast : HasWord last) (hamps : amps stages ≤ 1)
    (hlen : (render stages last).length < maxArgs) (hn : (render stages last).length < n) :
    expand chdir maxArgs sh n (trimmed (render stages last)) = some (pipelineStages stages last) := by
  induction n generalizing stages last with
  | zero => omega
  | succ n ih =>
    have hlen' := (length_trimmed_le (render stages last)).trans_lt hlen
    by_cases hnil : stages = []
    · subst hnil
      have hbar : '|' ∉ trimmed last := fun h => hclean.2.1 ((mem_trimmed (by decide)).mp h)
      rw [render, expand_no_bar hbar hlen' (hasWord_trimmed.mpr hlast), pipelineStages, trim_eq_trimmed]
      rfl
    obtain ⟨before, s, op, after, rfl, hbefore, hop⟩ := exists_first_split hnil
    -- the text after the first operator holds no `&`, so that nothing is erased from it
    have hafter : amps after = 0 := by
      rw [amps_append, hbefore] at hamps
      rcases hop with rfl | ⟨rfl, -, h0⟩
      · simp at hamps
        omega
      · rw [amps_append] at h0
        omega
    have hamp := not_mem_render_amp hclean.right hafter
    have hsplit := pipeSplit_trimmed_render (u := []) hclean hbefore
      (hop.imp_right fun h => ⟨h.1, h.2.1, by simpa using hamp⟩)
    rw [List.append_nil, List.append_nil, pipeRight_of_not_mem hamp] at hsplit
    have hl : (render before s).length < (render (before ++ (s, op) :: after) last).length :=
      length_render_left
    have hr : (render after last).length < (render (before ++ (s, op) :: after) last).length :=
      length_render_right
    refine expand_split ?_ ?_ hlen' hsplit ?_ ?_
    · rw [mem_trimmed (by decide), ← List.append_nil (render _ _)]
      exact bar_mem_render
    · rw [mem_trimmed (by decide)]
      exact not_mem_render_gt hclean
    · exact ih hclean.left (fun stage h => hword stage (by simp [h])) (hword (s, op) (by simp))
        (by omega) (by omega) (by omega)
    · exact ih hclean.right (fun stage h => hword stage (by simp [h])) hlast (by omega) (by omega)
        (by omega)

/-- The last `&` of a right half is the one of its last `|&`, and what is left ends in `|`. -/
theorem exists_pipeRight_eq {u : Line} (hclean : CleanStages stages last)
    (hamps : 0 < amps stages) (htail : '&' ∉ u) :
    ∃ before s, CleanStages before s ∧
      pipeRight (render stages last ++ u) = trimmed (render before s ++ [' ', '|']) := by
  obtain ⟨before, s, after, rfl, hafter⟩ := exists_last_amp hamps
  have hamp : '&' ∉ ' ' :: (render after last ++ u) := by
    simp [not_mem_render_amp hclean.right hafter, htail]
  refine ⟨before, s, hclean.left, ?_⟩
  rw [render_amp_eq, ← pipeRight_append hamp]
  simp

/-- A text that ends in an operator is not expanded: its last stage is empty. -/
theorem expand_dangling (hclean : CleanStages stages last) :
    expand chdir maxArgs sh n (trimmed (render stages last ++ [' ', '|'])) = none := by
  induction n generalizing stages last with
  | zero => rfl
  | succ n ih =>
    have hbar : '|' ∈ trimmed (render stages last ++ [' ', '|']) := by
      simp [mem_trimmed]
    have hgt : '>' ∉ trimmed (render stages last ++ [' ', '|']) := by
      rw [mem_trimmed (by decide)]
      simpa using not_mem_render_gt hclean
    refine expand_eq_none hbar hgt ?_
    by_cases hnil : stages = []
    · subst hnil
      have hlast : last ++ [' ', '|'] = (last ++ [' ']) ++ '|' :: [] := by simp
      have hpre := not_mem_append_space hclean.2.1 (by decide)
      have hamp := not_mem_append_space hclean.2.2.1 (by decide)
      rw [render, hlast, pipeSplit_trimmed_pipe hpre hamp (by simp)]
      exact expand_blank (by simp [HasWord, pipeRight, ltrim, rtrim])
    obtain ⟨before, s, op, after, rfl, hbefore, hop⟩ := exists_first_split hnil
    have hafter (h0 : amps after = 0) : '&' ∉ render after last ++ [' ', '|'] := by
      simpa using not_mem_render_amp hclean.right h0
    have hop' : op = .amp ∨ op = .pipe ∧ before = [] ∧ '&' ∉ render after last ++ [' ', '|'] := by
      rcases hop with hop | ⟨hpipe, hb, h0⟩
      · exact .inl hop
      · rw [amps_append] at h0
        exact .inr ⟨hpipe, hb, hafter (by omega)⟩
    rw [pipeSplit_trimmed_render hclean hbefore hop']
    -- either the right half still ends in the operator, or an earlier one is left at its end
    by_cases h0 : amps after = 0
    · rw [pipeRight_of_not_mem (hafter h0)]
      exact ih hclean.right
    · obtain ⟨before', s', hclean', heq⟩ :=
        exists_pipeRight_eq hclean.right (by omega) (u := [' ', '|']) (by simp)
      rw [heq]
      exact ih hclean'

/-- With a second `|&` and no background sign the expansion fails. -/
theorem expand_two_amps (hclean : CleanStages stages last) (hamps : 2 ≤ amps stages)
    (ht : t = render stages last ∨ t = trimmed (render stages last)) :
    expand chdir maxArgs sh n t = none := by
  cases n with
  | zero => rfl
  | succ n =>
    have hnil : stages ≠ [] := by
      rintro rfl
      simp at hamps
    obtain ⟨before, s, op, after, rfl, hbefore, hop⟩ := exists_first_split hnil
    have hop' : op = .amp := by
      rcases hop with hop | ⟨-, -, h0⟩
      · exact hop
      · omega
    subst hop'
    have hafter : 0 < amps after := by
      rw [amps_append, hbefore] at hamps
      simp at hamps
      omega
    obtain ⟨before', s', hclean', heq⟩ :=
      exists_pipeRight_eq hclean.right hafter (u := []) (by simp)
    have hsplit : (pipeSplit t).2.2 = trimmed (render before' s' ++ [' ', '|']) := by
      rw [← heq]
      rcases ht with rfl | rfl
      · rw [← List.append_nil (render _ _), pipeSplit_render hclean hbefore (.inl rfl)]
      · rw [← List.append_nil (render _ _), pipeSplit_trimmed_render hclean hbefore (.inl rfl)]
    have hmem {c : Char} (hc : c ≠ ' ') :
        c ∈ t ↔ c ∈ render (before ++ (s, .amp) :: after) last := by
      rcases ht with rfl | rfl
      · rfl
      · exact mem_trimmed hc
    refine expand_eq_none ?_ ?_ ?_
    · rw [hmem (by decide), ← List.append_nil (render _ _)]
      exact bar_mem_render
    · rw [hmem (by decide)]
      exact not_mem_render_gt hclean
    · rw [hsplit]
      exact expand_dangling hclean'

/-! ### The line of a pipeline -/

theorem getLast_render (h : CleanStages stages last) :
    (render stages last).getLast? ≠ some '|' := by
  induction stages with
  | nil => exact fun hlast => h.2.1 (List.mem_of_mem_getLast? hlast)
  | cons stage stages ih =>
    obtain ⟨stage, op⟩ := stage
    have hrest := ih h.tail
    cases hr : (render stages last).getLast? with
    | none =>
      have hnil := List.getLast?_eq_none_iff.mp hr
      cases op <;> simp [render, PipeOp.text, hnil]
    | some c =>
      rw [hr] at hrest
      simpa [render, List.getLast?_append, hr] using hrest

/-- No `|&` is found in a line without one, also when there is a background sign. -/
theorem not_contains_barAmp {final : Bool} (hclean : CleanStages stages last)
    (hamps : amps stages = 0) : contains ['|', '&'] (pipelineLine stages last final) = false := by
  have hamp := not_mem_render_amp hclean hamps
  cases final with
  | true => exact not_contains_final hamp (getLast_render hclean)
  | false => exact not_contains (c := '&') (by simp) (by simpa [pipelineLine] using hamp)

/-- The first split of a line; the background sign is erased, or there was nothing to erase. -/
theorem pipeSplit_pipelineLine {final : Bool}
    (hclean : CleanStages (before ++ (s, op) :: after) last)
    (hbefore : amps before = 0)
    (hop : op = .amp ∨ op = .pipe ∧ before = [] ∧ amps (before ++ (s, op) :: after) = 0)
    (hafter : final = true ∨ amps after = 0) :
    pipeSplit (pipelineLine (before ++ (s, op) :: after) last final) =
      (op, trimmed (render before s), trimmed (render after last)) := by
  have hright : pipeRight (pipelineLine after last final) = trimmed (render after last) := by
    cases final with
    | true => exact pipeRight_append (by simp)
    | false =>
      rw [pipelineLine, if_neg (by simp), List.append_nil]
      exact pipeRight_of_not_mem (not_mem_render_amp hclean.right (hafter.resolve_left nofun))
  rw [← hright]
  refine pipeSplit_render hclean hbefore ?_
  rcases hop with hop | ⟨hpipe, hb, h0⟩
  · exact .inl hop
  · exact .inr ⟨hpipe, hb, not_contains_barAmp hclean h0⟩

/-- One `|&` is expanded well, and a second one when the line ends in a background sign. -/
theorem expand_pipelineLine {final : Bool} (hne : stages ≠ []) (hclean : CleanStages stages last)
    (hword : ∀ stage ∈ stages, HasWord stage.1) (hlast : HasWord last)
    (hamps : amps stages ≤ 1 ∨ amps stages = 2 ∧ final = true)
    (hlen : (pipelineLine stages last final).length < maxArgs)
    (hn : (pipelineLine stages last final).length < n) :
    expand chdir maxArgs sh n (pipelineLine stages last final) =
      some (pipelineStages stages last) := by
  cases n with
  | zero => omega
  | succ n =>
    obtain ⟨before, s, op, after, rfl, hbefore, hop⟩ := exists_first_split hne
    have hafter : amps after ≤ 1 ∧ (final = true ∨ amps after = 0) := by
      rcases hop with rfl | ⟨rfl, -, h0⟩
      · rw [amps_append, hbefore, if_pos rfl] at hamps
        rcases hamps with hamps | ⟨hamps, hfinal⟩
        · exact ⟨by omega, .inr (by omega)⟩
        · exact ⟨by omega, .inl hfinal⟩
      · rw [amps_append] at h0
        exact ⟨by omega, .inr (by omega)⟩
    have hsplit := pipeSplit_pipelineLine hclean hbefore hop hafter.2
    have hl : (render before s).length < (render (before ++ (s, op) :: after) last).length :=
      length_render_left
    have hr : (render after last).length < (render (before ++ (s, op) :: after) last).length :=
      length_render_right
    have hle : (render (before ++ (s, op) :: after) last).length ≤
        (pipelineLine (before ++ (s, op) :: after) last final).length := by simp [pipelineLine]
    refine expand_split bar_mem_render ?_ hlen hsplit ?_ ?_
    · have := not_mem_render_gt hclean
      cases final <;> simpa [pipelineLine] using this
    · exact expand_trimmed_render hclean.left (fun stage h => hword stage (by simp [h]))
        (hword (s, op) (by simp)) (by omega) (by omega) (by omega)
    · exact expand_trimmed_render hclean.right (fun stage h => hword stage (by simp [h])) hlast
        hafter.1 (by omega) (by omega)

/-- A later `|&` loses its `&` instead of the background sign, and the last stage is empty. -/
theorem expand_pipelineLine_eq_none {final : Bool} (hclean : CleanStages stages last)
    (hamps : ¬ (amps stages ≤ 1 ∨ amps stages = 2 ∧ final = true)) :
    expand chdir maxArgs sh n (pipelineLine stages last final) = none := by
  cases final with
  | false =>
    refine expand_two_amps hclean ?_ (.inl (by simp [pipelineLine]))
    omega
  | true =>
    cases n with
    | zero => rfl
    | succ n =>
      have hne : stages ≠ [] := by
        rintro rfl
        simp at hamps
      obtain ⟨before, s, op, after, rfl, hbefore, hop⟩ := exists_first_split hne
      have hafter : 2 ≤ amps after := by
        rw [amps_append, hbefore] at hamps
        simp only [and_true] at hamps
        split_ifs at hamps <;> omega
      refine expand_eq_none bar_mem_render ?_ ?_
      · simpa [pipelineLine] using not_mem_render_gt hclean
      · rw [pipeSplit_pipelineLine hclean hbefore hop (.inl rfl)]
        exact expand_two_amps hclean.right hafter (.inr rfl)

/-- Every stage of an expansion holds a word. -/
theorem expand_hasWord {out : List (Line × Option PipeOp)}
    (h : expand chdir maxArgs sh n t = some out) : ∀ stage ∈ out, HasWord stage.1 := by
  induction n generalizing t out with
  | zero => cases h
  | succ n ih =>
    have hword : HasWord t := by
      by_contra hblank
      rw [expand_blank hblank] at h
      cases h
    rw [expand] at h
    obtain ⟨⟨cmd, sh'⟩, -, h⟩ := Option.bind_eq_some_iff.mp h
    dsimp only at h
    split at h
    · obtain ⟨leftStages, hleft, h⟩ := Option.bind_eq_some_iff.mp h
      obtain ⟨rightStages, hright, h⟩ := Option.bind_eq_some_iff.mp h
      cases h
      intro stage hstage
      rcases List.mem_append.mp hstage with hstage | hstage
      · rcases List.mem_append.mp hstage with hstage | hstage
        · exact ih hleft stage (List.mem_of_mem_dropLast hstage)
        · simp only [Option.mem_toList, Option.map_eq_some_iff] at hstage
          obtain ⟨stage', hlast, rfl⟩ := hstage
          exact ih hleft stage' (List.mem_of_mem_getLast? hlast)
      · exact ih hright stage hstage
    · cases h
      simpa using hword

theorem mem_pipelineStages {stage : Line × Option PipeOp} :
    stage ∈ pipelineStages stages last ↔
      (∃ x ∈ stages, stage = (trim x.1, some x.2)) ∨ stage = (trim last, none) := by
  simp [pipelineStages, eq_comm]

theorem hasWord_pipelineStages :
    (∀ stage ∈ pipelineStages stages last, HasWord stage.1) ↔
      (∀ stage ∈ stages, HasWord stage.1) ∧ HasWord last := by
  have htrim (s : Line) : HasWord (trim s) ↔ HasWord s := by
    rw [trim_eq_trimmed]
    exact hasWord_trimmed
  constructor
  · intro h
    refine ⟨fun stage hstage => ?_, ?_⟩
    · exact (htrim _).mp (h _ (mem_pipelineStages.mpr (.inl ⟨stage, hstage, rfl⟩)))
    · exact (htrim _).mp (h _ (mem_pipelineStages.mpr (.inr rfl)))
  · rintro ⟨hstages, hlast⟩ stage hstage
    rcases mem_pipelineStages.mp hstage with ⟨x, hx, rfl⟩ | rfl
    · exact (htrim _).mpr (hstages x hx)
    · exact (htrim _).mpr hlast

/-- A pipeline is expanded to its stages, none of them empty, exactly when each stage holds a word
and there is at most one `|&`, or two of them and a background sign. -/
theorem pipeline_expand_iff (chdir : Line → Line → Option Line) (maxArgs : ℕ) (sh : SmallShell)
    (stages : List (Line × PipeOp)) (last : Line) (final : Bool) (n : ℕ)
    (hne : stages ≠ []) (hclean : CleanStages stages last)
    (hlen : (pipelineLine stages last final).length < maxArgs)
    (hn : (pipelineLine stages last final).length < n) :
    (expand chdir maxArgs sh n (pipelineLine stages last final) =
        some (pipelineStages stages last) ∧
      ∀ stage ∈ pipelineStages stages last, stage.1 ≠ []) ↔
    ((∀ stage ∈ stages, HasWord stage.1) ∧ HasWord last) ∧
      (amps stages ≤ 1 ∨ amps stages = 2 ∧ final = true) := by
  constructor
  · rintro ⟨hexpand, -⟩
    refine ⟨hasWord_pipelineStages.mp (expand_hasWord hexpand), ?_⟩
    by_contra hamps
    rw [expand_pipelineLine_eq_none hclean hamps] at hexpand
    cases hexpand
  · rintro ⟨hword, hamps⟩
    refine ⟨expand_pipelineLine hne hclean hword.1 hword.2 hamps hlen hn, ?_⟩
    rintro stage hstage hnil
    obtain ⟨c, hc, -⟩ := hasWord_pipelineStages.mpr hword stage hstage
    simp [hnil] at hc

/-- The background sign is erased in place of the `&` of the second `|&`. -/
theorem pipeline_expand_iff_background :
    expand (fun _ _ => none) commandMaxArgs (.new []) 18 "a | b |& c |& d &".toList =
      some [(['a'], some .pipe), (['b'], some .amp), (['c'], some .amp), (['d'], none)] := by
  have hclean : CleanStages [(['a'], .pipe), (['b'], .amp), (['c'], .amp)] ['d', ' '] := by
    simp [CleanStages, CleanStage]
  have h := pipeline_expand_iff (fun _ _ => none) commandMaxArgs (.new [])
    [(['a'], .pipe), (['b'], .amp), (['c'], .amp)] ['d', ' '] true 18 (by simp) hclean
    (by decide) (by decide)
  exact (h.mpr ⟨by simp [HasWord, isSpace], by decide⟩).1

/-- Without the background sign the second `|&` loses its `&`; the command after the `|` that is
left is empty. -/
theorem pipeline_second_amp_lost :
    CleanStages [(['a'], .amp), (['b'], .amp)] ['c'] ∧
    pipelineLine [(['a'], .amp), (['b'], .amp)] ['c'] false = "a |& b |& c".toList ∧
    (pipeSplit "a |& b |& c".toList).2.2 = "b |".toList ∧
    (pipeSplit "b |".toList).2.2 = [] ∧ ∀ n, expand (fun _ _ => none) commandMaxArgs (.new []) n
      "a |& b |& c".toList ≠ some (pipelineStages [(['a'], .amp), (['b'], .amp)] ['c']) := by
  have hclean : CleanStages [(['a'], .amp), (['b'], .amp)] ['c'] := by
    simp [CleanStages, CleanStage]
  refine ⟨hclean, by decide, by decide, by decide, fun n => ?_⟩
  have hnone : expand (fun _ _ => none) commandMaxArgs (.new []) n
      (pipelineLine [(['a'], .amp), (['b'], .amp)] ['c'] false) = none :=
    expand_pipelineLine_eq_none hclean (by decide)
  intro h
  cases hnone.symm.trans h

end FtfSystems.Shell

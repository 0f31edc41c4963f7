import FtfSystems.Shell.Plumbing

/-!
# Waiting for a pipeline

The process that runs the right half of a pipeline waits for the command there and then for the
process of the left half, with the read end of the pipe as its standard input all the time. So the
command on the left is never told that nobody reads any more: what the right command has not read
has to fit into the pipe.
-/
namespace FtfSystems.Shell
open Foundation DescriptorTable

/-- The processes of a pipeline of two external commands besides the shell: the two that
`PipeCommand::execute` forks and the commands that these wait for. -/
inductive Party where
  | leftCommand
  | left
  | rightCommand
  | right
  deriving DecidableEq

def Party.all : List Party := [.leftCommand, .left, .rightCommand, .right]

/-- What the pipe is made of: the operator, the two descriptors, and the table of the process that
has made it. -/
structure Plumbing where
  op : PipeOp
  pipefd : ℕ × ℕ
  table : DescriptorTable StageFile
  limit : ℕ
  capacity : ℕ

/-- A command has the table of the process that forks it. -/
def Plumbing.tableOf (pl : Plumbing) : Party → DescriptorTable StageFile
  | .leftCommand | .left => leftTable pl.op pl.pipefd pl.table
  | .rightCommand | .right => rightTable pl.pipefd pl.table

/-- `toWrite` is what the left command has still to write, `toRead` is what the right one reads
before it ends, if there is that much; `killed` tells that the left one was ended by `SIGPIPE`, and
`waits` that the right process has come to its second `waitpid`. -/
structure PipeRun where
  alive : Party → Bool
  buffer : ℕ
  toWrite : ℕ
  toRead : ℕ
  killed : Bool
  waits : Bool

namespace PipeRun

/-- Some process has the file open. -/
def isOpen (pl : Plumbing) (s : PipeRun) (file : StageFile) : Prop :=
  ∃ p ∈ Party.all, s.alive p = true ∧ ∃ d < pl.limit, pl.tableOf p d = some file

instance (pl : Plumbing) (s : PipeRun) (file : StageFile) : Decidable (s.isOpen pl file) := by
  unfold isOpen
  infer_instance

def ends (s : PipeRun) (p : Party) : PipeRun := { s with alive := Function.update s.alive p false }

end PipeRun

/-- The steps of the processes. -/
inductive PipeStep where
  | write
  | leftCommandEnds
  | leftEnds
  | read
  | rightCommandEnds
  | rightWaits
  | rightEnds
  deriving DecidableEq

/-- One step of a process. A write blocks while the pipe is full and kills its process when nobody
has the read end; a read blocks while the pipe is empty and finds the end of the input when nobody
has the write end. -/
def PipeRun.next (pl : Plumbing) (s : PipeRun) : PipeStep → Option PipeRun
  | .write =>
    if s.alive .leftCommand = true ∧ 0 < s.toWrite then
      if ¬ s.isOpen pl (.readEnd []) then some { s.ends .leftCommand with killed := true }
      else if s.buffer < pl.capacity then
        some { s with buffer := s.buffer + 1, toWrite := s.toWrite - 1 }
      else none
    else none
  | .leftCommandEnds =>
    if s.alive .leftCommand = true ∧ s.toWrite = 0 then some (s.ends .leftCommand) else none
  | .leftEnds =>
    if s.alive .left = true ∧ s.alive .leftCommand = false then some (s.ends .left) else none
  | .read =>
    if s.alive .rightCommand = true ∧ 0 < s.toRead ∧ 0 < s.buffer then
      some { s with buffer := s.buffer - 1, toRead := s.toRead - 1 }
    else none
  | .rightCommandEnds =>
    if s.alive .rightCommand = true ∧
        (s.toRead = 0 ∨ s.buffer = 0 ∧ ¬ s.isOpen pl (.writeEnd [])) then
      some (s.ends .rightCommand)
    else none
  | .rightWaits =>
    if s.alive .right = true ∧ s.waits = false ∧ s.alive .rightCommand = false then
      some { s with waits := true }
    else none
  | .rightEnds =>
    if s.alive .right = true ∧ s.waits = true ∧ s.alive .left = false then some (s.ends .right)
    else none

/-- The processes once the two commands have been started; the shell waits until `right` has
ended. -/
def pipeRun (pl : Plumbing) (toWrite toRead : ℕ) : TransitionSystem PipeRun PipeStep where
  init s := s = ⟨fun _ => true, 0, toWrite, toRead, false, false⟩
  next := PipeRun.next pl

variable {pl : Plumbing} {s s' : PipeRun} {w r : ℕ} {p : Party}

/-! ### Who has the ends -/

/-- The pipe was made with the standard streams open. -/
structure Plumbing.Made (pl : Plumbing) : Prop where
  made : ∃ shell : DescriptorTable OpenFile, (∀ d < 3, shell d ≠ none) ∧
    2 ≤ free pl.limit shell ∧
    (shellTable shell).pipe pl.limit (.readEnd []) (.writeEnd []) = some (pl.pipefd, pl.table)

theorem Plumbing.Made.tables (h : pl.Made) : ∃ shell : DescriptorTable OpenFile, 2 < pl.limit ∧
    leftTable pl.op pl.pipefd pl.table =
      Function.update (shellTable shell) pl.op.out (some (.writeEnd [])) ∧
    rightTable pl.pipefd pl.table = Function.update (shellTable shell) 0 (some (.readEnd [])) := by
  obtain ⟨shell, hopen, hroom, hpipe⟩ := h.made
  obtain ⟨pipefd, table, hpipe', hleft, hright⟩ := (ready_shellTable hopen hroom).exists_pipe []
  rw [hpipe, Option.some.injEq, Prod.mk.injEq] at hpipe'
  obtain ⟨rfl, rfl⟩ := hpipe'
  refine ⟨shell, ?_, hleft pl.op, hright⟩
  by_contra hle
  have hzero : free pl.limit shell = 0 := by
    rw [free_eq_zero, lowest_eq_none]
    exact fun d hd => hopen d (by omega)
  omega

theorem shellTable_ne {shell : DescriptorTable OpenFile} {d : ℕ} {file : StageFile}
    (h : ∀ f, file ≠ .shell f) : shellTable shell d ≠ some file := by
  intro hd
  obtain ⟨f, -, hf⟩ := Option.map_eq_some_iff.mp hd
  exact h f hf.symm

/-- The read end is open until both processes on the right have ended. -/
theorem Plumbing.Made.readEnd_iff (h : pl.Made) (s : PipeRun) :
    s.isOpen pl (.readEnd []) ↔ s.alive .rightCommand = true ∨ s.alive .right = true := by
  obtain ⟨shell, hlimit, hleft, hright⟩ := h.tables
  have hl (d : ℕ) : leftTable pl.op pl.pipefd pl.table d ≠ some (.readEnd []) := by
    rw [hleft, Function.update_apply]
    split_ifs
    · simp
    · exact shellTable_ne (by simp)
  have hr : ∃ d < pl.limit, rightTable pl.pipefd pl.table d = some (.readEnd []) :=
    ⟨0, by omega, by rw [hright, Function.update_self]⟩
  simp [PipeRun.isOpen, Party.all, Plumbing.tableOf, hl, hr]

/-- The write end is open until both processes on the left have ended. -/
theorem Plumbing.Made.writeEnd_iff (h : pl.Made) (s : PipeRun) :
    s.isOpen pl (.writeEnd []) ↔ s.alive .leftCommand = true ∨ s.alive .left = true := by
  obtain ⟨shell, hlimit, hleft, hright⟩ := h.tables
  have hr (d : ℕ) : rightTable pl.pipefd pl.table d ≠ some (.writeEnd []) := by
    rw [hright, Function.update_apply]
    split_ifs
    · simp
    · exact shellTable_ne (by simp)
  have hout : pl.op.out < 3 := by cases pl.op <;> decide
  have hl : ∃ d < pl.limit, leftTable pl.op pl.pipefd pl.table d = some (.writeEnd []) :=
    ⟨pl.op.out, by omega, by rw [hleft, Function.update_self]⟩
  simp [PipeRun.isOpen, Party.all, Plumbing.tableOf, hl, hr]

/-! ### Every run -/

/-- What holds in every run: the bytes that have been written are read or in the pipe, the left
command ends when it has written everything, and the processes end in their order. -/
structure PipeRun.Ok (pl : Plumbing) (w r : ℕ) (s : PipeRun) : Prop where
  room : s.buffer ≤ pl.capacity
  bytes : s.toWrite + s.buffer + r = w + s.toRead
  notKilled : s.killed = false
  written : s.alive .leftCommand = false → s.toWrite = 0
  left : s.alive .left = false → s.alive .leftCommand = false
  rightCommand : s.alive .rightCommand = false → s.toRead = 0 ∨ s.alive .leftCommand = false
  right : s.alive .right = false → s.waits = true ∧ s.alive .left = false

/-- Somebody has the read end as long as the left command is alive. -/
theorem PipeRun.Ok.readEnd_open (h : s.Ok pl w r) (hmade : pl.Made)
    (halive : s.alive .leftCommand = true) : s.isOpen pl (.readEnd []) := by
  rw [hmade.readEnd_iff]
  cases hright : s.alive .right with
  | true => exact .inr rfl
  | false =>
    rw [h.left (h.right hright).2] at halive
    cases halive

theorem PipeRun.Ok.next {step : PipeStep} (h : s.Ok pl w r) (hmade : pl.Made)
    (hs : PipeRun.next pl s step = some s') : s'.Ok pl w r := by
  obtain ⟨hroom, hbytes, hkilled, hwritten, hleft, hrightCommand, hright⟩ := h
  cases step with
  | write =>
    simp only [PipeRun.next, Option.ite_none_right_eq_some] at hs
    obtain ⟨⟨halive, hpos⟩, hs⟩ := hs
    rw [if_neg (not_not.mpr (PipeRun.Ok.readEnd_open ⟨hroom, hbytes, hkilled, hwritten, hleft,
      hrightCommand, hright⟩ hmade halive)), Option.ite_none_right_eq_some] at hs
    obtain ⟨hlt, hs⟩ := hs
    obtain rfl := Option.some.inj hs
    refine ⟨hlt, by simp only; omega, hkilled, fun hdead => ?_, hleft, hrightCommand, hright⟩
    rw [halive] at hdead
    cases hdead
  | leftCommandEnds =>
    simp only [PipeRun.next, Option.ite_none_right_eq_some] at hs
    obtain ⟨⟨halive, hzero⟩, hs⟩ := hs
    obtain rfl := Option.some.inj hs
    constructor <;> simp_all [PipeRun.ends]
  | leftEnds =>
    simp only [PipeRun.next, Option.ite_none_right_eq_some] at hs
    obtain ⟨⟨halive, hdead⟩, hs⟩ := hs
    obtain rfl := Option.some.inj hs
    constructor <;> simp_all [PipeRun.ends]
  | read =>
    simp only [PipeRun.next, Option.ite_none_right_eq_some] at hs
    obtain ⟨⟨halive, hpos, hbuffer⟩, hs⟩ := hs
    obtain rfl := Option.some.inj hs
    refine ⟨by simp only; omega, by simp only; omega, hkilled, hwritten, hleft, fun hdead => ?_,
      hright⟩
    rw [halive] at hdead
    cases hdead
  | rightCommandEnds =>
    simp only [PipeRun.next, Option.ite_none_right_eq_some, hmade.writeEnd_iff] at hs
    obtain ⟨⟨halive, hend⟩, hs⟩ := hs
    obtain rfl := Option.some.inj hs
    constructor <;> simp_all [PipeRun.ends]
    exact hend.imp_right fun hdead => hdead.2.1
  | rightWaits =>
    simp only [PipeRun.next, Option.ite_none_right_eq_some] at hs
    obtain ⟨⟨halive, hnot, hdead⟩, hs⟩ := hs
    obtain rfl := Option.some.inj hs
    constructor <;> simp_all
  | rightEnds =>
    simp only [PipeRun.next, Option.ite_none_right_eq_some] at hs
    obtain ⟨⟨halive, hwaits, hdead⟩, hs⟩ := hs
    obtain rfl := Option.some.inj hs
    constructor <;> simp_all [PipeRun.ends]

/-- What the processes have still to do. -/
def PipeRun.cost (s : PipeRun) : ℕ :=
  2 * s.toWrite + s.buffer + Party.all.countP s.alive + (!s.waits).toNat

theorem PipeRun.ends_count (h : s.alive p = true) :
    Party.all.countP (s.ends p).alive + 1 = Party.all.countP s.alive := by
  cases p <;> simp [PipeRun.ends, Party.all, List.countP_cons, h] <;> omega

theorem PipeRun.cost_next {step : PipeStep} (hs : PipeRun.next pl s step = some s') :
    s'.cost < s.cost := by
  have hends {p : Party} (h : s.alive p = true) : (s.ends p).cost < s.cost := by
    have hcount := PipeRun.ends_count h
    simp only [PipeRun.cost, PipeRun.ends] at hcount ⊢
    omega
  cases step with
  | write =>
    simp only [PipeRun.next, Option.ite_none_right_eq_some] at hs
    obtain ⟨⟨halive, hpos⟩, hs⟩ := hs
    split_ifs at hs with hopen hlt
    · obtain rfl := Option.some.inj hs
      simp only [PipeRun.cost]
      omega
    · obtain rfl := Option.some.inj hs
      exact hends halive
  | leftCommandEnds | leftEnds | rightCommandEnds | rightEnds =>
    simp only [PipeRun.next, Option.ite_none_right_eq_some] at hs
    exact Option.some.inj hs.2 ▸ hends hs.1.1
  | read =>
    simp only [PipeRun.next, Option.ite_none_right_eq_some] at hs
    obtain ⟨⟨-, -, hbuffer⟩, hs⟩ := hs
    obtain rfl := Option.some.inj hs
    simp only [PipeRun.cost]
    omega
  | rightWaits =>
    simp only [PipeRun.next, Option.ite_none_right_eq_some] at hs
    obtain ⟨⟨-, hnot, -⟩, hs⟩ := hs
    obtain rfl := Option.some.inj hs
    simp [PipeRun.cost, hnot]

/-- When no process can go on, all have ended, or the left command has more to write than the pipe
holds. -/
theorem PipeRun.Ok.at_rest (h : s.Ok pl w r) (hmade : pl.Made) (hcapacity : 0 < pl.capacity)
    (hrest : ∀ step, PipeRun.next pl s step = none) :
    s.alive .right = false ∨ r + pl.capacity < w := by
  have hbytes := h.bytes
  have hroom := h.room
  have hstep {c : Prop} [Decidable c] {u : PipeRun} (step : PipeStep)
      (hn : PipeRun.next pl s step = if c then some u else none) : ¬ c := by
    intro hc
    have hnone := hrest step
    rw [hn, if_pos hc] at hnone
    cases hnone
  have hread := hstep .read rfl
  have hends := hstep .rightCommandEnds rfl
  rw [hmade.writeEnd_iff] at hends
  cases hlc : s.alive .leftCommand with
  | true =>
    -- the left command is blocked, so the pipe is full
    have hpos : 0 < s.toWrite := by
      by_contra hzero
      exact hstep .leftCommandEnds rfl ⟨hlc, by omega⟩
    have hfull : pl.capacity ≤ s.buffer := by
      by_contra hlt
      have hnone := hrest .write
      rw [PipeRun.next, if_pos ⟨hlc, hpos⟩, if_neg (not_not.mpr (h.readEnd_open hmade hlc)),
        if_pos (not_le.mp hlt)] at hnone
      cases hnone
    right
    cases hrc : s.alive .rightCommand with
    | true =>
      have hpos' : 0 < s.toRead := by
        by_contra hzero
        exact hends ⟨hrc, .inl (by omega)⟩
      exact absurd ⟨hrc, hpos', by omega⟩ hread
    | false =>
      have hzero : s.toRead = 0 := (h.rightCommand hrc).resolve_right (by simp [hlc])
      omega
  | false =>
    left
    have hl : s.alive .left = false := by
      by_contra hne
      exact hstep .leftEnds rfl ⟨by simpa using hne, hlc⟩
    have hrc : s.alive .rightCommand = false := by
      by_contra hne
      have hrc : s.alive .rightCommand = true := by simpa using hne
      by_cases hzero : s.toRead = 0 ∨ s.buffer = 0
      · exact hends ⟨hrc, hzero.imp_right fun hb => ⟨hb, by simp [hlc, hl]⟩⟩
      · exact hread ⟨hrc, by omega, by omega⟩
    by_contra hne
    have hr : s.alive .right = true := by simpa using hne
    cases hw : s.waits with
    | false => exact hstep .rightWaits rfl ⟨hr, hw, hrc⟩
    | true => exact hstep .rightEnds rfl ⟨hr, hw, hl⟩

/-- Every run of a pipeline of two commands comes to an end, and no `SIGPIPE` is sent in it. The
shell gets to its prompt again exactly when the left command writes no more than the right one
reads and the pipe holds. -/
theorem pipeline_returns_iff (pl : Plumbing) (hmade : pl.Made) (hcapacity : 0 < pl.capacity)
    (w r : ℕ) (steps : List PipeStep) (s : PipeRun)
    (hrun : (pipeRun pl w r).run ⟨fun _ => true, 0, w, r, false, false⟩ steps = some s) :
    steps.length ≤ 2 * w + 5 ∧ s.killed = false ∧
      (s.alive .right = false → w ≤ r + pl.capacity) ∧
      ((∀ step, PipeRun.next pl s step = none) →
        (s.alive .right = false ↔ w ≤ r + pl.capacity)) := by
  have hdec (s : PipeRun) (l : PipeStep) (t : PipeRun) (_ : True)
      (hs : (pipeRun pl w r).next s l = some t) : t.cost < s.cost := PipeRun.cost_next hs
  have hlen := TransitionSystem.length_add_le_of_run hdec (fun _ _ => trivial) hrun
  have hok : s.Ok pl w r := by
    have hreach : (pipeRun pl w r).Reachable TransitionSystem.always s :=
      .of_run (.init rfl) (fun _ _ _ => trivial) hrun
    refine hreach.invariant (fun s hs => ?_) fun s l t hok _ hs => hok.next hmade hs
    subst hs
    constructor <;> simp
  have hfits (hright : s.alive .right = false) : w ≤ r + pl.capacity := by
    have hbytes := hok.bytes
    have hroom := hok.room
    have hwritten := hok.written (hok.left (hok.right hright).2)
    omega
  refine ⟨?_, hok.notKilled, hfits, fun hrest => ⟨hfits, fun hle => ?_⟩⟩
  · simp [PipeRun.cost, Party.all] at hlen
    omega
  · exact (hok.at_rest hmade hcapacity hrest).resolve_right (not_lt.mpr hle)

/-- The left command writes two bytes, the right one reads one, and the other stays in the pipe. -/
theorem pipeline_returns_iff_head : ∃ pl : Plumbing, ∃ s, pl.capacity = 1 ∧
    (pipeRun pl 2 1).run ⟨fun _ => true, 0, 2, 1, false, false⟩ [.write, .read, .rightCommandEnds,
      .write, .leftCommandEnds, .leftEnds, .rightWaits, .rightEnds] = some s ∧
    s.alive .right = false := by
  let table := Function.update (Function.update (shellTable standardStreams) 3
    (some (.readEnd []))) 4 (some (.writeEnd []))
  let pl : Plumbing := ⟨.pipe, (3, 4), table, 8, 1⟩
  have hmade : pl.Made := ⟨standardStreams, by decide, by decide, rfl⟩
  obtain ⟨s, hs, hnone⟩ := (Option.any_eq_true (fun s => decide (∀ step ∈ [PipeStep.write,
    .leftCommandEnds, .leftEnds, .read, .rightCommandEnds, .rightWaits, .rightEnds],
      (PipeRun.next pl s step).isNone = true)) ((pipeRun pl 2 1).run
        ⟨fun _ => true, 0, 2, 1, false, false⟩ [.write, .read, .rightCommandEnds, .write,
          .leftCommandEnds, .leftEnds, .rightWaits, .rightEnds])).mp (by decide +kernel)
  have hrest (step : PipeStep) : PipeRun.next pl s step = none :=
    Option.isNone_iff_eq_none.mp (of_decide_eq_true hnone step (by cases step <;> decide))
  have h := pipeline_returns_iff pl hmade Nat.one_pos 2 1 _ s hs
  exact ⟨pl, s, rfl, hs, (h.2.2.2 hrest).mpr le_rfl⟩

end FtfSystems.Shell

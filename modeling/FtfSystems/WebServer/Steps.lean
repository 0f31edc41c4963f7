import FtfSystems.Foundation.Counting
import FtfSystems.WebServer.Server

/-!
# The steps of the server

`Step` lists what a step can do and when; `step_of_next` shows that the list is complete.
Invariants are proved case by case over it.
-/
namespace FtfSystems.WebServer
open Foundation

variable {n : ℕ} {cfg : Config} {s t : State n} {l : Label n}

/-- About to take the mutex and test the queue. -/
def WorkerPc.Ready (pc : WorkerPc) : Prop := pc = .top ∨ pc = .woken

/-- The master is about to take the mutex in `handle_overload`. -/
def MasterPc.Retries (pc : MasterPc) (r : Request) : Prop := pc = .overload r ∨ pc = .woken r

/-- The state after the completion section of worker `i`, but for its broadcast. -/
def State.completed (s : State n) (i : Fin n) (r : Request) : State n :=
  { s with
    currentlyHandled := s.currentlyHandled - 1
    worker := Function.update s.worker i .top
    closed := .fd r.fd :: s.closed }

/-- The state after a request has been queued under the mutex, but for the broadcast. -/
def State.queued (s : State n) (r : Request) : State n :=
  { s with queue := enqueue s.queue r, queueSize := s.queueSize + 1, master := .accept }

/-- What the completion of a request and a broadcast keep, `finish` keeps. -/
theorem State.finish_rule {P : State n → Prop} {i : Fin n} {r : Request}
    (hb : ∀ u : State n, P u → P u.broadcast) (h : P (s.completed i r)) : P (s.finish cfg i r) := by
  show P (if _ then (s.completed i r).broadcast else s.completed i r)
  split
  · exact hb _ h
  · exact h

inductive Step (cfg : Config) (s : State n) : Label n → State n → Prop
  /-- A worker takes the oldest request. -/
  | take {i : Fin n} {r : Request} {rest : List Request} (hpc : (s.worker i).Ready)
      (hm : s.mutex = none) (hq : s.queue = r :: rest) :
      Step cfg s (.worker i) { s with
        queue := rest, queueSize := s.queueSize - 1, currentlyHandled := s.currentlyHandled + 1
        worker := Function.update s.worker i (.service r) }
  /-- A worker finds the queue empty. -/
  | miss {i : Fin n} (hpc : (s.worker i).Ready) (hm : s.mutex = none) (hq : s.queue = []) :
      Step cfg s (.worker i)
        { s with mutex := some (.worker i), worker := Function.update s.worker i .window }
  | sleep {i : Fin n} (hpc : s.worker i = .window) :
      Step cfg s (.worker i)
        { s with mutex := none, worker := Function.update s.worker i .asleep }
  | finish {i : Fin n} {r : Request} (hpc : s.worker i = .service r) (hm : s.mutex = none) :
      Step cfg s (.worker i) (s.finish cfg i r)
  | wakeWorker {i : Fin n} (hpc : s.worker i = .asleep) :
      Step cfg s (.wakeWorker i) { s with worker := Function.update s.worker i .woken }
  | accept {r : Request} (hpc : s.master = .accept) :
      Step cfg s (.accept r) { s with master := .received r }
  /-- A connection is closed without service. -/
  | reject {r : Request} {rands : List ℕ} (hpc : s.master = .received r) (hm : s.mutex = none)
      (hp : cfg.policy ≠ .block) :
      Step cfg s (.master rands) { s with master := .accept, closed := .fd r.fd :: s.closed }
  | overload {r : Request} {rands : List ℕ} (hpc : s.master = .received r) (hm : s.mutex = none)
      (hp : cfg.policy ≠ .dt) : Step cfg s (.master rands) { s with master := .overload r }
  /-- A connection is queued under the mutex; the workers are woken up if it is the only one. -/
  | admission {r : Request} {rands : List ℕ} (hpc : s.master = .received r) (hm : s.mutex = none)
      (hopen : ¬ (s.currentlyHandled = cfg.qmaxSize ∧ cfg.policy ≠ .block))
      (hroom : s.queueSize + s.currentlyHandled ≠ cfg.qmaxSize) :
      Step cfg s (.master rands)
        (if s.queueSize + 1 + s.currentlyHandled = 1 then (s.queued r).broadcast else s.queued r)
  /-- Under `block` the master finds the server full. -/
  | full {r : Request} {rands : List ℕ} (hpc : s.master.Retries r) (hm : s.mutex = none)
      (hp : cfg.policy = .block) :
      Step cfg s (.master rands) { s with mutex := some .master, master := .window r }
  /-- Under `block` the master finds a place. -/
  | pass {r : Request} {rands : List ℕ} (hpc : s.master.Retries r) (hm : s.mutex = none)
      (hp : cfg.policy = .block) (hroom : s.queueSize + s.currentlyHandled ≠ cfg.qmaxSize) :
      Step cfg s (.master rands) { s with master := .enqueue r }
  /-- The other policies make a place. -/
  | discard {r : Request} {rands : List ℕ} (hpc : s.master.Retries r) (hm : s.mutex = none)
      (hp : cfg.policy ≠ .block) : Step cfg s (.master rands) (s.handleOverload cfg r rands)
  | masterSleep {r : Request} {rands : List ℕ} (hpc : s.master = .window r) :
      Step cfg s (.master rands) { s with mutex := none, master := .asleep r }
  | wakeMaster {r : Request} (hpc : s.master = .asleep r) :
      Step cfg s .wakeMaster { s with master := .woken r }
  | enqueue {r : Request} {rands : List ℕ} (hpc : s.master = .enqueue r) :
      Step cfg s (.master rands)
        { s with queue := WebServer.enqueue s.queue r, master := .increment }
  | increment {rands : List ℕ} (hpc : s.master = .increment) :
      Step cfg s (.master rands) { s with
        queueSize := s.queueSize + 1
        master := if s.queueSize + 1 + s.currentlyHandled = 1 then .broadcast else .unlock }
  | broadcast {rands : List ℕ} (hpc : s.master = .broadcast) :
      Step cfg s (.master rands) { s.broadcast with master := .unlock }
  | unlock {rands : List ℕ} (hpc : s.master = .unlock) :
      Step cfg s (.master rands) { s with mutex := none, master := .accept }

theorem step_of_test {i : Fin n} (hpc : (s.worker i).Ready) (hm : s.mutex = none) :
    Step cfg s (.worker i) (s.test i) := by
  cases hq : s.queue with
  | nil =>
    have ht : s.test i =
        { s with mutex := some (.worker i), worker := Function.update s.worker i .window } := by
      unfold State.test
      rw [hq]
      rfl
    exact ht ▸ .miss hpc hm hq
  | cons r rest =>
    have ht : s.test i = { s with
        queue := rest, queueSize := s.queueSize - 1, currentlyHandled := s.currentlyHandled + 1
        worker := Function.update s.worker i (.service r) } := by
      unfold State.test
      rw [hq]
      rfl
    exact ht ▸ .take hpc hm hq

theorem step_of_workerStep {i : Fin n} (h : s.workerStep cfg i = some t) :
    Step cfg s (.worker i) t := by
  unfold State.workerStep at h
  cases hpc : s.worker i with
  | top =>
    rw [hpc] at h
    obtain ⟨hm, ht⟩ := Option.ite_none_right_eq_some.mp h
    exact Option.some.inj ht ▸ step_of_test (.inl hpc) hm
  | woken =>
    rw [hpc] at h
    obtain ⟨hm, ht⟩ := Option.ite_none_right_eq_some.mp h
    exact Option.some.inj ht ▸ step_of_test (.inr hpc) hm
  | window =>
    rw [hpc] at h
    exact Option.some.inj h ▸ .sleep hpc
  | asleep =>
    rw [hpc] at h
    cases h
  | service r =>
    rw [hpc] at h
    obtain ⟨hm, ht⟩ := Option.ite_none_right_eq_some.mp h
    exact Option.some.inj ht ▸ .finish hpc hm

theorem step_of_admission {r : Request} {rands : List ℕ} (hpc : s.master = .received r)
    (hm : s.mutex = none) : Step cfg s (.master rands) (s.admission cfg r) := by
  unfold State.admission
  split
  · exact .reject hpc hm (by tauto)
  · split
    · split
      · exact .reject hpc hm (by simp_all)
      · exact .overload hpc hm ‹_›
    · exact .admission hpc hm ‹_› ‹_›

theorem step_of_overload {r : Request} {rands : List ℕ} (hpc : s.master.Retries r)
    (hm : s.mutex = none) : Step cfg s (.master rands) (s.handleOverload cfg r rands) := by
  by_cases hp : cfg.policy = .block
  · simp only [State.handleOverload, hp]
    split
    · exact .full hpc hm hp
    · exact .pass hpc hm hp ‹_›
  · exact .discard hpc hm hp

theorem step_of_masterStep {rands : List ℕ} (h : s.masterStep cfg rands = some t) :
    Step cfg s (.master rands) t := by
  unfold State.masterStep at h
  cases hpc : s.master with
  | received r =>
    rw [hpc] at h
    obtain ⟨hm, ht⟩ := Option.ite_none_right_eq_some.mp h
    exact Option.some.inj ht ▸ step_of_admission hpc hm
  | overload r =>
    rw [hpc] at h
    obtain ⟨hm, ht⟩ := Option.ite_none_right_eq_some.mp h
    exact Option.some.inj ht ▸ step_of_overload (.inl hpc) hm
  | woken r =>
    rw [hpc] at h
    obtain ⟨hm, ht⟩ := Option.ite_none_right_eq_some.mp h
    exact Option.some.inj ht ▸ step_of_overload (.inr hpc) hm
  | window r =>
    rw [hpc] at h
    exact Option.some.inj h ▸ .masterSleep hpc
  | enqueue r =>
    rw [hpc] at h
    exact Option.some.inj h ▸ .enqueue hpc
  | increment =>
    rw [hpc] at h
    exact Option.some.inj h ▸ .increment hpc
  | broadcast =>
    rw [hpc] at h
    exact Option.some.inj h ▸ .broadcast hpc
  | unlock =>
    rw [hpc] at h
    exact Option.some.inj h ▸ .unlock hpc
  | accept | asleep r | crashed =>
    rw [hpc] at h
    cases h

/-- Every step of the server is one of the list. -/
theorem step_of_next (h : next cfg s l = some t) : Step cfg s l t := by
  cases l with
  | accept r =>
    obtain ⟨hpc, ht⟩ := Option.ite_none_right_eq_some.mp h
    exact Option.some.inj ht ▸ .accept hpc
  | master rands => exact step_of_masterStep h
  | worker i => exact step_of_workerStep h
  | wakeWorker i =>
    obtain ⟨hpc, ht⟩ := Option.ite_none_right_eq_some.mp h
    exact Option.some.inj ht ▸ .wakeWorker hpc
  | wakeMaster =>
    unfold next at h
    cases hpc : s.master with
    | asleep r =>
      rw [hpc] at h
      exact Option.some.inj h ▸ .wakeMaster hpc
    | _ => simp [hpc] at h

end FtfSystems.WebServer

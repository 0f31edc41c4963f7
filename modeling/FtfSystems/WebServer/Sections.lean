import FtfSystems.Foundation.Simulation
import FtfSystems.WebServer.LockDiscipline
import FtfSystems.WebServer.Steps

/-!
# Sections as single steps

The program of `Statements` is seen through a function to the states of `Server`: a section
that has begun counts as finished, with what it will have done to the shared variables and
to the threads that it wakes up. A section under `random` begins for this purpose with the
call of `random_drop`. As long as `handle_overload` does not return, every statement is then
a step of `Server` or no step at all.
-/
namespace FtfSystems.WebServer.Statements
open Foundation

attribute [ext] WebServer.State

variable {n : ℕ} {cfg : Config} {s t : State n} {l : Label n}

/-- How a section leaves the shared variables and its thread, and whether it has still to
wake up the waiting threads. -/
structure Outcome (Pc : Type) where
  queue : List Request
  queueSize : ℤ
  currentlyHandled : ℤ
  closed : List CloseArg
  pc : Pc
  broadcasts : Bool := false
  /-- The thread ends in a wait, or has crashed, with the mutex. -/
  keeps : Bool := false

namespace State

/-- A section that has nothing left to do. -/
def done {Pc : Type} (s : State n) (pc : Pc) : Outcome Pc where
  queue := s.queue
  queueSize := s.queueSize
  currentlyHandled := s.currentlyHandled
  closed := s.closed
  pc := pc

/-- The test after a completed request. -/
def loadTest (cfg : Config) (handled queueSize : ℤ) : Bool :=
  handled + queueSize = cfg.qmaxSize ∨ handled + queueSize = cfg.qmaxSize - 1

/-- What is left of the section of a worker that is about to execute `pc`. -/
def workerOutcome (cfg : Config) (s : State n) : WorkerPc → Outcome WebServer.WorkerPc
  | .dequeue =>
    match WebServer.dequeue s.queue with
    | none => { s.done .window with keeps := true }
    | some (r, rest) =>
      { s.done (.service r) with
        queue := rest, queueSize := s.queueSize - 1, currentlyHandled := s.currentlyHandled + 1 }
  | .wait => { s.done .window with keeps := true }
  | .decrementQueue r =>
    { s.done (.service r) with
      queueSize := s.queueSize - 1, currentlyHandled := s.currentlyHandled + 1 }
  | .incrementHandled r =>
    { s.done (.service r) with currentlyHandled := s.currentlyHandled + 1 }
  | .unlockTaken r => s.done (.service r)
  | .decrementHandled r =>
    { s.done .top with
      currentlyHandled := s.currentlyHandled - 1, closed := .fd r.fd :: s.closed
      broadcasts := loadTest cfg (s.currentlyHandled - 1) s.queueSize }
  | .testLoad r =>
    { s.done .top with
      closed := .fd r.fd :: s.closed
      broadcasts := loadTest cfg s.currentlyHandled s.queueSize }
  | .broadcast r => { s.done .top with closed := .fd r.fd :: s.closed, broadcasts := true }
  | .close r => { s.done .top with closed := .fd r.fd :: s.closed }
  | .unlockDone | .lock | .handle _ | .relock _ | .asleep | .woken => s.done .top

/-- The request is closed without service. -/
def refused (s : State n) (r : Request) : Outcome WebServer.MasterPc :=
  { s.done .accept with closed := .fd r.fd :: s.closed }

/-- The request is queued, under the mutex. -/
def queuedOutcome (s : State n) (r : Request) : Outcome WebServer.MasterPc :=
  { s.done .accept with
    queue := WebServer.enqueue s.queue r, queueSize := s.queueSize + 1
    broadcasts := decide (s.queueSize + 1 + s.currentlyHandled = 1) }

/-- What follows the first admission test. -/
def fullOutcome (cfg : Config) (s : State n) (r : Request) : Outcome WebServer.MasterPc :=
  if s.queueSize + s.currentlyHandled = cfg.qmaxSize then
    if cfg.policy = .dt then s.refused r else s.done (.overload r)
  else s.queuedOutcome r

/-- The oldest request has been closed, or `NULL` is dereferenced. -/
def headOutcome (s : State n) (r : Request) : Option Request → Outcome WebServer.MasterPc
  | none => { s.done .crashed with keeps := true }
  | some tmp => { s.done (.enqueue r) with closed := .fd tmp.fd :: s.closed }

/-- What is left of the section of the master that is about to execute `pc`. -/
def masterOutcome (cfg : Config) (s : State n) : MasterPc → Outcome WebServer.MasterPc
  | .testHandled r =>
    if s.currentlyHandled = cfg.qmaxSize ∧ cfg.policy ≠ .block then s.refused r
    else fullOutcome cfg s r
  | .refuse r | .dropTail r => s.refused r
  | .testFull r => fullOutcome cfg s r
  | .unlockFull r => s.done (if cfg.policy = .dt then .enqueue r else .overload r)
  | .enqueue r => s.queuedOutcome r
  | .count =>
    { s.done .accept with
      queueSize := s.queueSize + 1
      broadcasts := decide (s.queueSize + 1 + s.currentlyHandled = 1) }
  | .broadcast => { s.done .accept with broadcasts := true }
  | .blockTest r =>
    if s.queueSize + s.currentlyHandled = cfg.qmaxSize then
      { s.done (.window r) with keeps := true }
    else s.done (.enqueue r)
  | .blockWait r => { s.done (.window r) with keeps := true }
  | .headDequeue r =>
    match WebServer.dequeue s.queue with
    | none => { headOutcome s r none with queueSize := s.queueSize - 1 }
    | some (tmp, rest) =>
      { headOutcome s r (some tmp) with queue := rest, queueSize := s.queueSize - 1 }
  | .headDecrement r tmp => { headOutcome s r tmp with queueSize := s.queueSize - 1 }
  | .headClose r tmp => headOutcome s r tmp
  | .randomTest r | .randomDrop r => s.done (.overload r)
  | .randomCount r =>
    { s.done (.enqueue r) with
      queueSize := if s.queueSize.tmod 4 = 0 then 3 * s.queueSize.tdiv 4
        else s.queueSize - s.queueSize.tdiv 4 + 1 }
  | .overloadUnlock r => s.done (.enqueue r)
  | .crashed => { s.done .crashed with keeps := true }
  | .unlockRefused | .unlock | .accept | .lock _ | .overloadLock _ | .asleep _ | .woken _
  | .overloadReturn _ => s.done .accept

end State

/-- Where a worker outside its sections is in `Server`. -/
def WorkerPc.outside : WorkerPc → WebServer.WorkerPc
  | .asleep => .asleep
  | .woken => .woken
  | .handle r | .relock r => .service r
  | _ => .top

def MasterPc.outside : MasterPc → WebServer.MasterPc
  | .lock r => .received r
  | .overloadLock r => .overload r
  | .asleep r => .asleep r
  | .woken r => .woken r
  | .overloadReturn r => .enqueue r
  | _ => .accept

/-- The state of `Server` that the section of worker `i` leads to. -/
def Outcome.ofWorker (o : Outcome WebServer.WorkerPc) (i : Fin n) (master : WebServer.MasterPc)
    (worker : Fin n → WebServer.WorkerPc) : WebServer.State n where
  mutex := if o.keeps then some (.worker i) else none
  queue := o.queue
  queueSize := o.queueSize
  currentlyHandled := o.currentlyHandled
  master := if o.broadcasts then master.signal else master
  worker := Function.update (fun j => if o.broadcasts then (worker j).signal else worker j) i o.pc
  closed := o.closed

/-- The state of `Server` that the section of the master leads to. -/
def Outcome.ofMaster (o : Outcome WebServer.MasterPc) (worker : Fin n → WebServer.WorkerPc) :
    WebServer.State n where
  mutex := if o.keeps then some .master else none
  queue := o.queue
  queueSize := o.queueSize
  currentlyHandled := o.currentlyHandled
  master := o.pc
  worker := fun j => if o.broadcasts then (worker j).signal else worker j
  closed := o.closed

namespace State

def places (s : State n) (j : Fin n) : WebServer.WorkerPc := (s.worker j).outside

/-- The state in `Server`, the section of the thread with the mutex being counted as finished. -/
def sections (cfg : Config) (s : State n) : WebServer.State n :=
  match s.mutex with
  | none => (s.done s.master.outside).ofMaster s.places
  | some .master => (s.masterOutcome cfg s.master).ofMaster s.places
  | some (.worker i) => (s.workerOutcome cfg (s.worker i)).ofWorker i s.master.outside s.places

end State

/-- The policies under which the master reaches a statement, and the test before `random_drop`. -/
def State.Suits (cfg : Config) (s : State n) : Prop :=
  match s.master with
  | .blockTest _ | .blockWait _ | .asleep _ | .woken _ => cfg.policy = .block
  | .randomTest _ => cfg.policy = .random
  | .randomDrop _ => cfg.policy = .random ∧ s.queueSize + s.currentlyHandled = cfg.qmaxSize
  | _ => True

/-- What is known of the states before `handle_overload` returns. -/
structure Tidy (cfg : Config) (s : State n) : Prop where
  owned : Owned s
  suits : s.Suits cfg

/-- A worker outside its sections that cannot take the mutex has only its request to handle. -/
theorem workerStep_outside {i : Fin n} (h : s.workerStep cfg i = some t) (hm : s.mutex ≠ none)
    (hout : (s.worker i).inside = false) :
    ∃ r, s.worker i = .handle r ∧ t = s.atWorker i (.relock r) := by
  unfold State.workerStep at h
  cases hpc : s.worker i with
  | lock | woken | relock r =>
    rw [hpc] at h
    exact absurd (lock_map_eq_some h).1 hm
  | handle r =>
    rw [hpc] at h
    exact ⟨r, rfl, (Option.some.inj h).symm⟩
  | asleep =>
    rw [hpc] at h
    cases h
  | _ => simp [hpc, WorkerPc.inside] at hout

theorem master_of_workerStep {i : Fin n} (h : s.workerStep cfg i = some t) :
    t.master = s.master ∨ t.master = s.master.signal := by
  unfold State.workerStep at h
  cases hpc : s.worker i with
  | lock | woken | relock r =>
    rw [hpc] at h
    obtain ⟨-, rfl⟩ := lock_map_eq_some h
    exact .inl rfl
  | dequeue | testLoad r =>
    simp only [hpc] at h
    split at h <;> exact .inl (Option.some.inj h ▸ rfl)
  | broadcast r =>
    rw [hpc] at h
    exact .inr (Option.some.inj h ▸ rfl)
  | asleep =>
    rw [hpc] at h
    cases h
  | _ =>
    rw [hpc] at h
    exact .inl (Option.some.inj h ▸ rfl)

theorem Tidy.suits_worker {i : Fin n} (hs : Tidy cfg s) (h : s.workerStep cfg i = some t) :
    t.Suits cfg := by
  have hsuits := hs.suits
  by_cases hpc : ∃ r, s.master = .randomDrop r
  · obtain ⟨r, hpc⟩ := hpc
    have howner : s.mutex = some .master :=
      (hs.owned .master).mp (by simp [State.inside, hpc, MasterPc.inside])
    have hout : (s.worker i).inside = false := by
      have := hs.owned (.worker i)
      simpa [State.inside, howner] using this
    obtain ⟨r', -, rfl⟩ := workerStep_outside h (by simp [howner]) hout
    exact hsuits
  · have hmaster := master_of_workerStep h
    unfold State.Suits at hsuits ⊢
    obtain he | he := hmaster <;> rw [he] <;> cases hm : s.master <;>
      simp_all [MasterPc.signal]

theorem suits_master {rands : List ℕ} (hs : s.Suits cfg) (h : s.masterStep cfg rands = some t) :
    t.Suits cfg := by
  unfold State.masterStep at h
  unfold State.Suits at hs
  cases hpc : s.master with
  | lock r | woken r =>
    rw [hpc] at h hs
    obtain ⟨-, rfl⟩ := lock_map_eq_some h
    exact hs
  | overloadLock r =>
    rw [hpc] at h
    obtain ⟨-, rfl⟩ := lock_map_eq_some h
    cases hp : cfg.policy <;> simp [State.Suits, State.atMaster, State.overloadBody, hp]
  | testHandled r | testFull r | blockTest r | randomTest r | count | unlockFull r =>
    simp only [hpc] at h hs
    repeat' split at h
    all_goals
      obtain rfl := Option.some.inj h
      simp_all [State.Suits, State.atMaster, State.unlock]
  | headDequeue r | randomDrop r =>
    simp only [hpc] at h
    split at h <;> exact Option.some.inj h ▸ trivial
  | headClose r tmp =>
    rw [hpc] at h
    cases tmp <;> exact Option.some.inj h ▸ trivial
  | accept | asleep r | crashed =>
    rw [hpc] at h
    cases h
  | _ =>
    rw [hpc] at h hs
    obtain rfl := Option.some.inj h
    exact hs

theorem next_wakeMaster (cfg : Config) (h : next cfg s .wakeMaster = some t) :
    ∃ r, s.master = .asleep r ∧ t = s.atMaster (.woken r) := by
  unfold next at h
  cases hpc : s.master with
  | asleep r =>
    rw [hpc] at h
    exact ⟨r, rfl, (Option.some.inj h).symm⟩
  | _ => simp [hpc] at h

/-- As long as `handle_overload` has not returned, the mutex is kept to and every statement
is reached under its policy. -/
theorem Tidy.of_reachable (h : (server n cfg).Reachable noReturn s) : Tidy cfg s := by
  refine h.invariant ?_ ?_
  · rintro _ rfl
    refine ⟨fun θ => ?_, trivial⟩
    cases θ <;> simp [initial, State.inside, MasterPc.inside, WorkerPc.inside]
  · intro u l v hu hok hs
    obtain ⟨θ, hm⟩ := moves_of_next hok hs
    refine ⟨hu.owned.moves hm, ?_⟩
    cases l with
    | accept r =>
      obtain ⟨-, ht⟩ := Option.ite_none_right_eq_some.mp hs
      exact Option.some.inj ht ▸ trivial
    | master rands => exact suits_master hu.suits hs
    | worker i => exact hu.suits_worker hs
    | wakeWorker i =>
      obtain ⟨-, ht⟩ := Option.ite_none_right_eq_some.mp hs
      exact Option.some.inj ht ▸ hu.suits
    | wakeMaster =>
      obtain ⟨r, hpc, rfl⟩ := next_wakeMaster cfg hs
      have hsuits := hu.suits
      unfold State.Suits at hsuits
      rw [hpc] at hsuits
      exact hsuits

section Outside
variable {i : Fin n}

theorem places_atWorker (s : State n) (i : Fin n) (pc : WorkerPc) :
    (s.atWorker i pc).places = Function.update s.places i pc.outside := by
  funext j
  by_cases hj : j = i
  · subst hj
    simp [State.places, State.atWorker]
  · simp [State.places, State.atWorker, hj]

theorem places_broadcast (s : State n) : s.broadcast.places = fun j => (s.places j).signal := by
  funext j
  show (s.worker j).signal.outside = (s.worker j).outside.signal
  cases s.worker j <;> rfl

theorem worker_atWorker_ne {k : Fin n} {pc : WorkerPc} (h : k ≠ i) :
    (s.atWorker i pc).worker k = s.worker k := by
  simp [State.atWorker, h]

/-- A statement of a thread that has not the mutex, seen from outside as no statement. -/
theorem sections_atWorker {pc : WorkerPc} (hm : s.mutex ≠ some (.worker i))
    (hpc : pc.outside = (s.worker i).outside) :
    (s.atWorker i pc).sections cfg = s.sections cfg := by
  have hplaces : (s.atWorker i pc).places = s.places := by
    rw [places_atWorker, hpc]
    exact Function.update_eq_self i s.places
  have hmutex : (s.atWorker i pc).mutex = s.mutex := rfl
  unfold State.sections
  rw [hmutex, hplaces]
  rcases hθ : s.mutex with _ | _ | k
  · rfl
  · rfl
  · dsimp only
    rw [worker_atWorker_ne fun he => hm (by rw [hθ, he])]
    rfl

theorem signal_wake {w : Fin n → WebServer.WorkerPc} (hw : w i = .asleep) :
    (fun j => (Function.update w i WebServer.WorkerPc.woken j).signal) = fun j => (w j).signal := by
  funext j
  by_cases hj : j = i
  · subst hj
    simp [hw, WebServer.WorkerPc.signal]
  · simp [hj]

/-- A waiting worker wakes up, unless the section that has begun wakes it up as well. -/
theorem Outcome.ofWorker_wake {o : Outcome WebServer.WorkerPc} {k : Fin n}
    {m : WebServer.MasterPc} {w : Fin n → WebServer.WorkerPc} (hk : k ≠ i) (hw : w i = .asleep) :
    o.ofWorker k m (Function.update w i .woken) = o.ofWorker k m w ∨
      WebServer.next cfg (o.ofWorker k m w) (.wakeWorker i) =
        some (o.ofWorker k m (Function.update w i .woken)) := by
  cases hb : o.broadcasts with
  | true =>
    left
    simp [Outcome.ofWorker, hb, signal_wake hw]
  | false =>
    right
    simp [WebServer.next, Outcome.ofWorker, hb, hw, Ne.symm hk, Function.update_comm hk]

theorem Outcome.ofMaster_wake {o : Outcome WebServer.MasterPc} {w : Fin n → WebServer.WorkerPc}
    (hw : w i = .asleep) :
    o.ofMaster (Function.update w i .woken) = o.ofMaster w ∨
      WebServer.next cfg (o.ofMaster w) (.wakeWorker i) =
        some (o.ofMaster (Function.update w i .woken)) := by
  cases hb : o.broadcasts with
  | true =>
    left
    simp [Outcome.ofMaster, hb, signal_wake hw]
  | false =>
    right
    simp [WebServer.next, Outcome.ofMaster, hb, hw]

theorem sections_wakeWorker (cfg : Config) (hm : s.mutex ≠ some (.worker i))
    (hpc : s.worker i = .asleep) :
    (s.atWorker i .woken).sections cfg = s.sections cfg ∨
      WebServer.next cfg (s.sections cfg) (.wakeWorker i) =
        some ((s.atWorker i .woken).sections cfg) := by
  have hmutex : (s.atWorker i .woken).mutex = s.mutex := rfl
  have hplace : s.places i = .asleep := by
    rw [State.places, hpc]
    rfl
  unfold State.sections
  rw [hmutex, places_atWorker]
  rcases hθ : s.mutex with _ | _ | k
  · exact Outcome.ofMaster_wake hplace
  · exact Outcome.ofMaster_wake hplace
  · have hk : k ≠ i := fun he => hm (by rw [hθ, he])
    dsimp only
    rw [worker_atWorker_ne hk]
    exact Outcome.ofWorker_wake hk hplace

theorem workerOutcome_atMaster (pc : MasterPc) (w : WorkerPc) :
    (s.atMaster pc).workerOutcome cfg w = s.workerOutcome cfg w := by
  cases w <;> rfl

theorem sections_accept {r : Request} (hm : s.mutex ≠ some .master) (hpc : s.master = .accept) :
    WebServer.next cfg (s.sections cfg) (.accept r) =
      some ((s.atMaster (.lock r)).sections cfg) := by
  have hmutex : (s.atMaster (.lock r)).mutex = s.mutex := rfl
  have hplaces : (s.atMaster (.lock r)).places = s.places := rfl
  unfold State.sections
  rw [hmutex, hplaces]
  rcases hθ : s.mutex with _ | _ | k
  · simp only [hpc]
    rfl
  · exact absurd hθ hm
  · dsimp only
    rw [workerOutcome_atMaster, hpc]
    show WebServer.next cfg (Outcome.ofWorker (s.workerOutcome cfg (s.worker k)) k .accept s.places)
      _ = some (Outcome.ofWorker (s.workerOutcome cfg (s.worker k)) k (.received r) s.places)
    cases hb : (s.workerOutcome cfg (s.worker k)).broadcasts <;>
      simp [WebServer.next, Outcome.ofWorker, hb, WebServer.MasterPc.signal]

/-- The waiting master wakes up, unless the section that has begun wakes it up as well. -/
theorem sections_wakeMaster (cfg : Config) {r : Request} (hm : s.mutex ≠ some .master)
    (hpc : s.master = .asleep r) :
    (s.atMaster (.woken r)).sections cfg = s.sections cfg ∨
      WebServer.next cfg (s.sections cfg) .wakeMaster =
        some ((s.atMaster (.woken r)).sections cfg) := by
  have hmutex : (s.atMaster (.woken r)).mutex = s.mutex := rfl
  have hplaces : (s.atMaster (.woken r)).places = s.places := rfl
  unfold State.sections
  rw [hmutex, hplaces]
  rcases hθ : s.mutex with _ | _ | k
  · right
    simp only [hpc]
    rfl
  · exact absurd hθ hm
  · dsimp only
    rw [workerOutcome_atMaster, hpc]
    show Outcome.ofWorker (s.workerOutcome cfg (s.worker k)) k (.woken r) s.places =
        Outcome.ofWorker (s.workerOutcome cfg (s.worker k)) k (.asleep r) s.places ∨
      WebServer.next cfg (Outcome.ofWorker (s.workerOutcome cfg (s.worker k)) k (.asleep r) s.places)
        _ = some (Outcome.ofWorker (s.workerOutcome cfg (s.worker k)) k (.woken r) s.places)
    cases hb : (s.workerOutcome cfg (s.worker k)).broadcasts with
    | true =>
      left
      simp [Outcome.ofWorker, hb, WebServer.MasterPc.signal]
    | false =>
      right
      simp [WebServer.next, Outcome.ofWorker, hb]

end Outside

end FtfSystems.WebServer.Statements

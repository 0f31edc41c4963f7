import FtfSystems.WebServer.Server

/-!
# The web server, statement by statement

The same program as in `Server`, with every statement a step of its own. Taking the mutex,
giving it up and waiting are steps like any other, and nothing ties them to the statements
that use what the mutex protects. Giving up the mutex frees it whoever has it. Which
statements use `head`, `tail`, `queue_size` and `currently_handled` is stated beside them.
-/
namespace FtfSystems.WebServer.Statements
open Foundation

/-- The next statement of a worker in `thread_function`. -/
inductive WorkerPc where
  | lock
  | dequeue
  | wait
  | asleep
  /-- Woken up, about to take the mutex again. -/
  | woken
  | decrementQueue (r : Request)
  | incrementHandled (r : Request)
  | unlockTaken (r : Request)
  | handle (r : Request)
  | relock (r : Request)
  | decrementHandled (r : Request)
  | testLoad (r : Request)
  | broadcast (r : Request)
  | close (r : Request)
  | unlockDone
  deriving DecidableEq

/-- The next statement of the master in `main` and in `handle_overload`. -/
inductive MasterPc where
  | accept
  | lock (r : Request)
  | testHandled (r : Request)
  | refuse (r : Request)
  | testFull (r : Request)
  | dropTail (r : Request)
  | unlockRefused
  | unlockFull (r : Request)
  | overloadLock (r : Request)
  | blockTest (r : Request)
  | blockWait (r : Request)
  | asleep (r : Request)
  | woken (r : Request)
  | headDequeue (r : Request)
  | headDecrement (r : Request) (tmp : Option Request)
  | headClose (r : Request) (tmp : Option Request)
  | randomTest (r : Request)
  | randomDrop (r : Request)
  | randomCount (r : Request)
  | overloadUnlock (r : Request)
  /-- `handle_overload` returns to `main`. -/
  | overloadReturn (r : Request)
  | enqueue (r : Request)
  | count
  | broadcast
  | unlock
  | crashed
  deriving DecidableEq

structure State (n : ℕ) where
  mutex : Option (Thread n)
  queue : List Request
  queueSize : ℤ
  currentlyHandled : ℤ
  master : MasterPc
  worker : Fin n → WorkerPc
  closed : List CloseArg

def WorkerPc.signal : WorkerPc → WorkerPc
  | .asleep => .woken
  | pc => pc

def MasterPc.signal : MasterPc → MasterPc
  | .asleep r => .woken r
  | pc => pc

namespace State
variable {n : ℕ}

def atWorker (s : State n) (i : Fin n) (pc : WorkerPc) : State n :=
  { s with worker := Function.update s.worker i pc }

def atMaster (s : State n) (pc : MasterPc) : State n := { s with master := pc }

/-- `pthread_cond_broadcast`. -/
def broadcast (s : State n) : State n :=
  { s with worker := fun i => (s.worker i).signal, master := s.master.signal }

/-- `pthread_mutex_lock`: possible when nobody has the mutex. -/
def lock (s : State n) (θ : Thread n) : Option (State n) :=
  if s.mutex = none then some { s with mutex := some θ } else none

def unlock (s : State n) : State n := { s with mutex := none }

def workerStep (cfg : Config) (s : State n) (i : Fin n) : Option (State n) :=
  match s.worker i with
  | .lock | .woken => (s.lock (.worker i)).map (·.atWorker i .dequeue)
  | .dequeue =>
    match WebServer.dequeue s.queue with
    | none => some (s.atWorker i .wait)
    | some (r, rest) => some ({ s with queue := rest }.atWorker i (.decrementQueue r))
  | .wait => some (s.unlock.atWorker i .asleep)
  | .asleep => none
  | .decrementQueue r =>
    some ({ s with queueSize := s.queueSize - 1 }.atWorker i (.incrementHandled r))
  | .incrementHandled r =>
    some ({ s with currentlyHandled := s.currentlyHandled + 1 }.atWorker i (.unlockTaken r))
  | .unlockTaken r => some (s.unlock.atWorker i (.handle r))
  | .handle r => some (s.atWorker i (.relock r))
  | .relock r => (s.lock (.worker i)).map (·.atWorker i (.decrementHandled r))
  | .decrementHandled r =>
    some ({ s with currentlyHandled := s.currentlyHandled - 1 }.atWorker i (.testLoad r))
  | .testLoad r =>
    if s.currentlyHandled + s.queueSize = cfg.qmaxSize ∨
        s.currentlyHandled + s.queueSize = cfg.qmaxSize - 1 then
      some (s.atWorker i (.broadcast r))
    else some (s.atWorker i (.close r))
  | .broadcast r => some (s.broadcast.atWorker i (.close r))
  | .close r => some ({ s with closed := .fd r.fd :: s.closed }.atWorker i .unlockDone)
  | .unlockDone => some (s.unlock.atWorker i .lock)

/-- The statement of `handle_overload` after it has taken the mutex; under `dt` it takes none. -/
def overloadBody (policy : Policy) (r : Request) : MasterPc :=
  match policy with
  | .block => .blockTest r
  | .dh => .headDequeue r
  | .random => .randomTest r
  | .dt => .overloadUnlock r

def masterStep (cfg : Config) (s : State n) (rands : List ℕ) : Option (State n) :=
  match s.master with
  | .accept => none
  | .lock r => (s.lock .master).map (·.atMaster (.testHandled r))
  | .testHandled r =>
    if s.currentlyHandled = cfg.qmaxSize ∧ cfg.policy ≠ .block then some (s.atMaster (.refuse r))
    else some (s.atMaster (.testFull r))
  | .refuse r => some ({ s with closed := .fd r.fd :: s.closed }.atMaster .unlockRefused)
  | .testFull r =>
    if s.queueSize + s.currentlyHandled = cfg.qmaxSize then
      if cfg.policy = .dt then some (s.atMaster (.dropTail r))
      else some (s.atMaster (.unlockFull r))
    else some (s.atMaster (.enqueue r))
  | .dropTail r => some ({ s with closed := .fd r.fd :: s.closed }.atMaster .unlockRefused)
  | .unlockRefused => some (s.unlock.atMaster .accept)
  | .unlockFull r =>
    if cfg.policy = .dt then some (s.unlock.atMaster (.overloadReturn r))
    else some (s.unlock.atMaster (.overloadLock r))
  | .overloadLock r => (s.lock .master).map (·.atMaster (overloadBody cfg.policy r))
  | .blockTest r =>
    if s.queueSize + s.currentlyHandled = cfg.qmaxSize then some (s.atMaster (.blockWait r))
    else some (s.atMaster (.overloadUnlock r))
  | .blockWait r => some (s.unlock.atMaster (.asleep r))
  | .asleep _ => none
  | .woken r => (s.lock .master).map (·.atMaster (.blockTest r))
  | .headDequeue r =>
    match WebServer.dequeue s.queue with
    | none => some (s.atMaster (.headDecrement r none))
    | some (tmp, rest) => some ({ s with queue := rest }.atMaster (.headDecrement r (some tmp)))
  | .headDecrement r tmp =>
    some ({ s with queueSize := s.queueSize - 1 }.atMaster (.headClose r tmp))
  | .headClose _ none => some (s.atMaster .crashed)
  | .headClose r (some tmp) =>
    some ({ s with closed := .fd tmp.fd :: s.closed }.atMaster (.overloadUnlock r))
  | .randomTest r =>
    if s.queueSize + s.currentlyHandled = cfg.qmaxSize then some (s.atMaster (.randomDrop r))
    else some (s.atMaster (.overloadUnlock r))
  | .randomDrop r =>
    match WebServer.randomDrop s.queue s.queueSize rands with
    | none => some (s.atMaster .crashed)
    | some (rest, closed) =>
      some ({ s with queue := rest, closed := closed ++ s.closed }.atMaster (.randomCount r))
  | .randomCount r =>
    some ({ s with
      queueSize := if s.queueSize.tmod 4 = 0 then 3 * s.queueSize.tdiv 4
        else s.queueSize - s.queueSize.tdiv 4 + 1 }.atMaster (.overloadUnlock r))
  | .overloadUnlock r => some (s.unlock.atMaster (.overloadReturn r))
  | .overloadReturn r => some (s.atMaster (.enqueue r))
  | .enqueue r => some ({ s with queue := WebServer.enqueue s.queue r }.atMaster .count)
  | .count =>
    if s.queueSize + 1 + s.currentlyHandled = 1 then
      some ({ s with queueSize := s.queueSize + 1 }.atMaster .broadcast)
    else some ({ s with queueSize := s.queueSize + 1 }.atMaster .unlock)
  | .broadcast => some (s.broadcast.atMaster .unlock)
  | .unlock => some (s.unlock.atMaster .accept)
  | .crashed => none

end State

variable {n : ℕ}

def next (cfg : Config) (s : State n) : Label n → Option (State n)
  | .accept r => if s.master = .accept then some (s.atMaster (.lock r)) else none
  | .master rands => s.masterStep cfg rands
  | .worker i => s.workerStep cfg i
  | .wakeWorker i => if s.worker i = .asleep then some (s.atWorker i .woken) else none
  | .wakeMaster =>
    match s.master with
    | .asleep r => some (s.atMaster (.woken r))
    | _ => none

def initial (n : ℕ) : State n where
  mutex := none
  queue := []
  queueSize := 0
  currentlyHandled := 0
  master := .accept
  worker := fun _ => .lock
  closed := []

/-- All interleavings of the statements of the master and of `n` workers. -/
def server (n : ℕ) (cfg : Config) : TransitionSystem (State n) (Label n) where
  init s := s = initial n
  next := next cfg

end FtfSystems.WebServer.Statements

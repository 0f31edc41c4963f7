import FtfSystems.Foundation.TransitionSystem
import FtfSystems.WebServer.Queue

/-!
# The web server: `server.c`

One master and a pool of `n` workers share the queue, two counters, a mutex and one
condition variable. What a thread does between taking the mutex and giving it up again is
one step, except that a worker whose `dequeue` has failed, and a master that has found the
server full, hold the mutex until they wait. After `handle_overload` the master goes on
without the mutex, each statement being a step of its own, and then gives up a mutex that
it does not own, which frees it whoever holds it. Waiting threads may wake up for no reason.
-/
namespace FtfSystems.WebServer
open Foundation

/-- The overload policies, the fourth argument of the program. -/
inductive Policy where
  | block
  | dt
  | dh
  | random
  deriving DecidableEq

structure Config where
  policy : Policy
  qmaxSize : ℤ

/-- Where a worker is in `thread_function`. -/
inductive WorkerPc where
  /-- About to take the mutex and call `dequeue`. -/
  | top
  /-- `dequeue` has returned `NULL`; about to wait. -/
  | window
  /-- In `pthread_cond_wait`. -/
  | asleep
  /-- Woken up, about to take the mutex again and call `dequeue`. -/
  | woken
  /-- Between `dequeue` and the completion section. -/
  | service (r : Request)
  deriving DecidableEq

/-- Where the master is in `main`, with the connection it holds. -/
inductive MasterPc where
  | accept
  /-- About to take the mutex for the admission tests. -/
  | received (r : Request)
  /-- In `handle_overload`, about to take the mutex. -/
  | overload (r : Request)
  /-- The server is full; about to wait. -/
  | window (r : Request)
  | asleep (r : Request)
  | woken (r : Request)
  /-- `handle_overload` has returned; the four statements that follow it. -/
  | enqueue (r : Request)
  | increment
  | broadcast
  | unlock
  /-- `NULL` was dereferenced or 0 divided by, with the mutex held. -/
  | crashed
  deriving DecidableEq

inductive Thread (n : ℕ) where
  | master
  | worker (i : Fin n)
  deriving DecidableEq

structure State (n : ℕ) where
  mutex : Option (Thread n)
  queue : List Request
  queueSize : ℤ
  currentlyHandled : ℤ
  master : MasterPc
  worker : Fin n → WorkerPc
  closed : List CloseArg
  deriving DecidableEq

def WorkerPc.signal : WorkerPc → WorkerPc
  | .asleep => .woken
  | pc => pc

def MasterPc.signal : MasterPc → MasterPc
  | .asleep r => .woken r
  | pc => pc

namespace State
variable {n : ℕ}

/-- `pthread_cond_broadcast`. -/
def broadcast (s : State n) : State n :=
  { s with worker := fun i => (s.worker i).signal, master := s.master.signal }

/-- Worker `i`, with the mutex, calls `dequeue`. -/
def test (s : State n) (i : Fin n) : State n :=
  match dequeue s.queue with
  | none => { s with mutex := some (.worker i), worker := Function.update s.worker i .window }
  | some (r, rest) =>
    { s with
      queue := rest
      queueSize := s.queueSize - 1
      currentlyHandled := s.currentlyHandled + 1
      worker := Function.update s.worker i (.service r) }

/-- The completion section of worker `i`. -/
def finish (cfg : Config) (s : State n) (i : Fin n) (r : Request) : State n :=
  let t := { s with
    currentlyHandled := s.currentlyHandled - 1
    worker := Function.update s.worker i .top
    closed := .fd r.fd :: s.closed }
  if t.currentlyHandled + t.queueSize = cfg.qmaxSize ∨
      t.currentlyHandled + t.queueSize = cfg.qmaxSize - 1 then t.broadcast
  else t

def workerStep (cfg : Config) (s : State n) (i : Fin n) : Option (State n) :=
  match s.worker i with
  | .top | .woken => if s.mutex = none then some (s.test i) else none
  | .window => some { s with mutex := none, worker := Function.update s.worker i .asleep }
  | .asleep => none
  | .service r => if s.mutex = none then some (finish cfg s i r) else none

/-- The master, with the mutex, decides what to do with a new connection. -/
def admission (cfg : Config) (s : State n) (r : Request) : State n :=
  if s.currentlyHandled = cfg.qmaxSize ∧ cfg.policy ≠ .block then
    { s with master := .accept, closed := .fd r.fd :: s.closed }
  else if s.queueSize + s.currentlyHandled = cfg.qmaxSize then
    if cfg.policy = .dt then { s with master := .accept, closed := .fd r.fd :: s.closed }
    else { s with master := .overload r }
  else
    let t := { s with
      queue := enqueue s.queue r, queueSize := s.queueSize + 1, master := .accept }
    if s.queueSize + 1 + s.currentlyHandled = 1 then t.broadcast else t

/-- The master, with the mutex, in `handle_overload`. -/
def handleOverload (cfg : Config) (s : State n) (r : Request) (rands : List ℕ) : State n :=
  match cfg.policy with
  | .block =>
    if s.queueSize + s.currentlyHandled = cfg.qmaxSize then
      { s with mutex := some .master, master := .window r }
    else { s with master := .enqueue r }
  | .dh =>
    match dequeue s.queue with
    | none =>
      { s with queueSize := s.queueSize - 1, mutex := some .master, master := .crashed }
    | some (tmp, rest) =>
      { s with
        queue := rest, queueSize := s.queueSize - 1, closed := .fd tmp.fd :: s.closed
        master := .enqueue r }
  | .random =>
    if s.queueSize + s.currentlyHandled = cfg.qmaxSize then
      match randomDrop s.queue s.queueSize rands with
      | none => { s with mutex := some .master, master := .crashed }
      | some (rest, closed) =>
        { s with
          queue := rest
          queueSize := if s.queueSize.tmod 4 = 0 then 3 * s.queueSize.tdiv 4
            else s.queueSize - s.queueSize.tdiv 4 + 1
          closed := closed ++ s.closed
          master := .enqueue r }
    else { s with master := .enqueue r }
  | .dt => { s with master := .enqueue r }

def masterStep (cfg : Config) (s : State n) (rands : List ℕ) : Option (State n) :=
  match s.master with
  | .accept => none
  | .received r => if s.mutex = none then some (admission cfg s r) else none
  | .overload r | .woken r =>
    if s.mutex = none then some (handleOverload cfg s r rands) else none
  | .window r => some { s with mutex := none, master := .asleep r }
  | .asleep _ => none
  | .enqueue r => some { s with queue := enqueue s.queue r, master := .increment }
  | .increment => some { s with
      queueSize := s.queueSize + 1
      master := if s.queueSize + 1 + s.currentlyHandled = 1 then .broadcast else .unlock }
  | .broadcast => some { s.broadcast with master := .unlock }
  | .unlock => some { s with mutex := none, master := .accept }
  | .crashed => none

end State

/-- What happens next. A step of the master comes with what `rand()` returns in it. -/
inductive Label (n : ℕ) where
  | accept (r : Request)
  | master (rands : List ℕ)
  | worker (i : Fin n)
  /-- A waiting worker wakes up unasked. -/
  | wakeWorker (i : Fin n)
  /-- The waiting master wakes up unasked. -/
  | wakeMaster

variable {n : ℕ}

def next (cfg : Config) (s : State n) : Label n → Option (State n)
  | .accept r => if s.master = .accept then some { s with master := .received r } else none
  | .master rands => s.masterStep cfg rands
  | .worker i => s.workerStep cfg i
  | .wakeWorker i =>
    if s.worker i = .asleep then some { s with worker := Function.update s.worker i .woken }
    else none
  | .wakeMaster =>
    match s.master with
    | .asleep r => some { s with master := .woken r }
    | _ => none

/-- The server before the first connection. -/
def initial (n : ℕ) : State n where
  mutex := none
  queue := []
  queueSize := 0
  currentlyHandled := 0
  master := .accept
  worker := fun _ => .top
  closed := []

/-- All interleavings of the master and a pool of `n` workers. -/
def server (n : ℕ) (cfg : Config) : TransitionSystem (State n) (Label n) where
  init s := s = initial n
  next := next cfg

end FtfSystems.WebServer

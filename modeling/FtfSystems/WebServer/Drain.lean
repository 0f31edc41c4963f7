import FtfSystems.WebServer.SectionSteps
import FtfSystems.WebServer.ServiceOrder
import FtfSystems.WebServer.WakeUps

/-!
# The server runs dry

Once no more connections arrive, and as long as no thread wakes up unasked, the threads have
only so many statements to execute, whatever the policy and the order: a broadcast sends a
waiting thread through three more of them. What is left when no thread can go on depends on
the policy. Under `dt` it is nothing: every connection has been closed, as often as it was
accepted.
-/
namespace FtfSystems.WebServer.Statements
open Foundation

variable {n : ℕ} {cfg : Config} {s t : State n} {l : Label n}

/-- A statement of the master or of a worker, and no arrival or spurious wake-up. -/
def Quiet : Label n → Prop
  | .master _ | .worker _ => True
  | _ => False

/-- How many statements a worker has still to execute, `b` being what a broadcast may add. -/
def WorkerPc.cost (b : ℕ) : WorkerPc → ℕ
  | .asleep => 0
  | .wait => 1
  | .dequeue => 2
  | .lock | .woken => 3
  | .unlockDone => 4
  | .close _ => 5
  | .broadcast _ => b + 6
  | .testLoad _ => b + 7
  | .decrementHandled _ => b + 8
  | .relock _ => b + 9
  | .handle _ => b + 10
  | .unlockTaken _ => b + 11
  | .incrementHandled _ => b + 12
  | .decrementQueue _ => b + 13

/-- What a node in the queue will make a worker execute. -/
def nodeCost (b : ℕ) : ℕ := b + 12

def MasterPc.cost (b : ℕ) : MasterPc → ℕ
  | .accept | .crashed => 0
  | .unlock | .unlockRefused => 1
  | .refuse _ | .dropTail _ => 2
  | .broadcast => b + 2
  | .count => b + 3
  | .enqueue _ => nodeCost b + b + 4
  | .overloadReturn _ => nodeCost b + b + 5
  | .overloadUnlock _ => nodeCost b + b + 6
  | .asleep _ | .headClose _ _ | .randomCount _ => nodeCost b + b + 7
  | .blockWait _ | .headDecrement _ _ | .randomDrop _ => nodeCost b + b + 8
  | .blockTest _ | .headDequeue _ | .randomTest _ => nodeCost b + b + 9
  | .woken _ | .overloadLock _ => nodeCost b + b + 10
  | .unlockFull _ => nodeCost b + b + 11
  | .testFull _ => nodeCost b + b + 12
  | .testHandled _ => nodeCost b + b + 13
  | .lock _ => nodeCost b + b + 14

namespace State

/-- Three statements for each of the `n` workers and the master. -/
def broadcastCost (n : ℕ) : ℕ := 3 * n + 3

/-- A bound on the statements that the threads will execute. -/
def cost (s : State n) : ℕ :=
  s.master.cost (broadcastCost n) + ∑ i, (s.worker i).cost (broadcastCost n) +
    nodeCost (broadcastCost n) * s.queue.length

end State

theorem WorkerPc.cost_signal (b : ℕ) (pc : WorkerPc) : pc.signal.cost b ≤ pc.cost b + 3 := by
  cases pc <;> simp [WorkerPc.signal, WorkerPc.cost]

theorem MasterPc.cost_signal (b : ℕ) (pc : MasterPc) : pc.signal.cost b ≤ pc.cost b + 3 := by
  cases pc <;> simp [MasterPc.signal, MasterPc.cost]

theorem State.cost_broadcast (s : State n) : s.broadcast.cost ≤ s.cost + broadcastCost n := by
  have hworkers : ∑ i, (s.worker i).signal.cost (broadcastCost n) ≤
      ∑ i, (s.worker i).cost (broadcastCost n) + n * 3 := by
    calc ∑ i, (s.worker i).signal.cost (broadcastCost n)
        ≤ ∑ i, ((s.worker i).cost (broadcastCost n) + 3) :=
          Finset.sum_le_sum fun i _ => WorkerPc.cost_signal _ (s.worker i)
      _ = ∑ i, (s.worker i).cost (broadcastCost n) + n * 3 := by
          simp [Finset.sum_add_distrib]
  have hmaster := MasterPc.cost_signal (broadcastCost n) s.master
  simp only [State.cost, State.broadcast, State.broadcastCost] at hworkers hmaster ⊢
  omega

/-- Worker `i` goes on to `pc`. -/
theorem State.cost_atWorker (s : State n) (i : Fin n) (pc : WorkerPc) :
    (s.atWorker i pc).cost + (s.worker i).cost (broadcastCost n) =
      s.cost + pc.cost (broadcastCost n) := by
  have hsum := sum_update_add (WorkerPc.cost (broadcastCost n)) s.worker i pc
  simp only [State.cost, State.atWorker]
  omega

theorem State.cost_atMaster (s : State n) (pc : MasterPc) :
    (s.atMaster pc).cost + s.master.cost (broadcastCost n) =
      s.cost + pc.cost (broadcastCost n) := by
  simp only [State.cost, State.atMaster]
  omega

/-- A worker goes on with less to do than it had. -/
theorem State.cost_worker_lt {u : State n} {i : Fin n} {pc : WorkerPc} (hu : u.cost = s.cost)
    (hworker : u.worker = s.worker)
    (hlt : pc.cost (broadcastCost n) < (s.worker i).cost (broadcastCost n)) :
    (u.atWorker i pc).cost < s.cost := by
  have hmove := u.cost_atWorker i pc
  rw [hworker] at hmove
  omega

/-- The master, which was at `old`, goes on with less to do than it had. -/
theorem State.cost_master_lt {u : State n} {old pc : MasterPc} (hold : s.master = old)
    (hworker : u.worker = s.worker) (hqueue : u.queue.length ≤ s.queue.length)
    (hlt : pc.cost (broadcastCost n) < old.cost (broadcastCost n)) :
    (u.atMaster pc).cost < s.cost := by
  have hnodes := Nat.mul_le_mul_left (nodeCost (broadcastCost n)) hqueue
  simp only [State.cost, State.atMaster, hold, hworker]
  omega

theorem cost_of_workerStep {i : Fin n} (h : s.workerStep cfg i = some t) : t.cost < s.cost := by
  unfold State.workerStep at h
  cases hpc : s.worker i with
  | lock | woken | relock r =>
    rw [hpc] at h
    obtain ⟨-, rfl⟩ := lock_map_eq_some h
    exact State.cost_worker_lt rfl rfl (by simp [hpc, WorkerPc.cost])
  | dequeue =>
    simp only [hpc] at h
    cases hq : s.queue with
    | nil =>
      rw [hq] at h
      exact Option.some.inj h ▸ State.cost_worker_lt rfl rfl (by simp [hpc, WorkerPc.cost])
    | cons r rest =>
      rw [hq] at h
      obtain rfl := Option.some.inj h
      have hmove := State.cost_atWorker { s with queue := rest } i (.decrementQueue r)
      have hcost : State.cost { s with queue := rest } + nodeCost (State.broadcastCost n) =
          s.cost := by
        simp only [State.cost, hq, List.length_cons]
        ring
      simp only [hpc, WorkerPc.cost] at hmove
      unfold nodeCost at hcost
      omega
  | testLoad r =>
    simp only [hpc] at h
    split at h <;>
      exact Option.some.inj h ▸ State.cost_worker_lt rfl rfl (by simp [hpc, WorkerPc.cost]; try omega)
  | broadcast r =>
    rw [hpc] at h
    obtain rfl := Option.some.inj h
    have hmove := s.broadcast.cost_atWorker i (.close r)
    have hself : s.broadcast.worker i = .broadcast r := by
      simp [State.broadcast, hpc, WorkerPc.signal]
    have hcost := s.cost_broadcast
    simp only [hself, WorkerPc.cost] at hmove
    omega
  | asleep =>
    rw [hpc] at h
    cases h
  | _ =>
    rw [hpc] at h
    exact Option.some.inj h ▸ State.cost_worker_lt rfl rfl (by simp [hpc, WorkerPc.cost])

theorem cost_of_masterStep {rands : List ℕ} (h : s.masterStep cfg rands = some t) :
    t.cost < s.cost := by
  unfold State.masterStep at h
  cases hpc : s.master with
  | lock r | woken r =>
    rw [hpc] at h
    obtain ⟨-, rfl⟩ := lock_map_eq_some h
    exact State.cost_master_lt hpc rfl le_rfl (by simp [MasterPc.cost])
  | overloadLock r =>
    rw [hpc] at h
    obtain ⟨-, rfl⟩ := lock_map_eq_some h
    refine State.cost_master_lt hpc rfl le_rfl ?_
    cases cfg.policy <;> simp [MasterPc.cost, State.overloadBody]
  | testHandled r | testFull r | blockTest r | randomTest r | unlockFull r =>
    simp only [hpc] at h
    repeat' split at h
    all_goals
      exact Option.some.inj h ▸ State.cost_master_lt hpc rfl le_rfl (by simp [MasterPc.cost]; try omega)
  | count =>
    simp only [hpc] at h
    split at h <;>
      exact Option.some.inj h ▸ State.cost_master_lt hpc rfl le_rfl (by simp [MasterPc.cost]; try omega)
  | headDequeue r =>
    simp only [hpc] at h
    cases hq : s.queue with
    | nil =>
      rw [hq] at h
      exact Option.some.inj h ▸ State.cost_master_lt hpc rfl le_rfl (by simp [MasterPc.cost])
    | cons tmp rest =>
      rw [hq] at h
      refine Option.some.inj h ▸ State.cost_master_lt hpc rfl ?_ (by simp [MasterPc.cost])
      simp [hq]
  | headClose r tmp =>
    rw [hpc] at h
    cases tmp <;>
      exact Option.some.inj h ▸ State.cost_master_lt hpc rfl le_rfl (by simp [MasterPc.cost]; try omega)
  | randomDrop r =>
    simp only [hpc] at h
    cases hdrop : WebServer.randomDrop s.queue s.queueSize rands with
    | none =>
      rw [hdrop] at h
      exact Option.some.inj h ▸ State.cost_master_lt hpc rfl le_rfl (by simp [MasterPc.cost])
    | some result =>
      rw [hdrop] at h
      refine Option.some.inj h ▸ State.cost_master_lt hpc rfl ?_ (by simp [MasterPc.cost])
      exact (randomDrop_sublist hdrop).length_le
  | enqueue r =>
    rw [hpc] at h
    obtain rfl := Option.some.inj h
    let u : State n := { s with queue := WebServer.enqueue s.queue r, master := .enqueue r }
    have hmove := u.cost_atMaster .count
    have hcost : u.cost = s.cost + nodeCost (State.broadcastCost n) := by
      simp only [u, State.cost, hpc, WebServer.enqueue, List.length_append, List.length_singleton]
      ring
    simp only [u, MasterPc.cost] at hmove hcost
    omega
  | broadcast =>
    rw [hpc] at h
    obtain rfl := Option.some.inj h
    have hmove := s.broadcast.cost_atMaster .unlock
    have hself : s.broadcast.master = .broadcast := by simp [State.broadcast, hpc, MasterPc.signal]
    have hcost := s.cost_broadcast
    simp only [hself, MasterPc.cost] at hmove
    omega
  | accept | asleep r | crashed =>
    rw [hpc] at h
    cases h
  | _ =>
    rw [hpc] at h
    exact Option.some.inj h ▸ State.cost_master_lt hpc rfl le_rfl (by simp [MasterPc.cost])

/-- Every statement of a thread brings the end nearer. -/
theorem cost_of_next (hquiet : Quiet l) (h : next cfg s l = some t) : t.cost < s.cost := by
  cases l with
  | master rands => exact cost_of_masterStep h
  | worker i => exact cost_of_workerStep h
  | _ => exact hquiet.elim

/-! ## What becomes of the connections -/

/-- The request that a worker has taken and not yet closed. -/
def WorkerPc.request : WorkerPc → List Request
  | .decrementQueue r | .incrementHandled r | .unlockTaken r | .handle r | .relock r
  | .decrementHandled r | .testLoad r | .broadcast r | .close r => [r]
  | _ => []

/-- How often `x` is the descriptor of a request. -/
def fdCount (x : ℕ) (requests : List Request) : ℕ := (requests.map Request.fd).count x

/-- How often `x` is open in the server. -/
def State.open (s : State n) (x : ℕ) : ℕ :=
  fdCount x s.queue + fdCount x s.master.inHand + ∑ i, fdCount x (s.worker i).request

def State.closes (s : State n) (x : ℕ) : ℕ := s.closed.count (.fd x)

@[simp] theorem fdCount_nil (x : ℕ) : fdCount x [] = 0 := rfl

@[simp] theorem fdCount_cons (x : ℕ) (r : Request) (rs : List Request) :
    fdCount x (r :: rs) = fdCount x rs + if r.fd = x then 1 else 0 := by
  simp [fdCount, List.count_cons]

@[simp] theorem fdCount_append (x : ℕ) (rs qs : List Request) :
    fdCount x (rs ++ qs) = fdCount x rs + fdCount x qs := by
  simp [fdCount]

theorem State.open_atWorker (s : State n) (i : Fin n) (pc : WorkerPc) (x : ℕ) :
    (s.atWorker i pc).open x + fdCount x (s.worker i).request =
      s.open x + fdCount x pc.request := by
  have hsum := sum_update_add (fun pc : WorkerPc => fdCount x pc.request) s.worker i pc
  simp only [State.open, State.atWorker]
  omega

theorem State.open_broadcast (s : State n) (x : ℕ) : s.broadcast.open x = s.open x := by
  have hworker : ∀ i, (s.worker i).signal.request = (s.worker i).request := by
    intro i
    cases s.worker i <;> rfl
  simp [State.open, State.broadcast, hworker, MasterPc.inHand_signal]

/-- A worker goes on with the request it has, if any. -/
theorem balance_atWorker {u : State n} {i : Fin n} {pc : WorkerPc} {x : ℕ}
    (hu : u.closes x + u.open x = s.closes x + s.open x)
    (hrequest : pc.request = (u.worker i).request) :
    (u.atWorker i pc).closes x + (u.atWorker i pc).open x = s.closes x + s.open x := by
  have hopen := u.open_atWorker i pc x
  have hcloses : (u.atWorker i pc).closes x = u.closes x := rfl
  rw [hrequest] at hopen
  omega

/-- What a worker no longer holds, it has closed. -/
theorem balance_of_workerStep {i : Fin n} (h : s.workerStep cfg i = some t) (x : ℕ) :
    t.closes x + t.open x = s.closes x + s.open x := by
  unfold State.workerStep at h
  cases hpc : s.worker i with
  | lock | woken | relock r =>
    rw [hpc] at h
    obtain ⟨-, rfl⟩ := lock_map_eq_some h
    exact balance_atWorker rfl (by simp [hpc, WorkerPc.request])
  | dequeue =>
    simp only [hpc] at h
    cases hq : s.queue with
    | nil =>
      rw [hq] at h
      exact Option.some.inj h ▸ balance_atWorker rfl (by simp [hpc, WorkerPc.request])
    | cons r rest =>
      rw [hq] at h
      obtain rfl := Option.some.inj h
      have hopen := State.open_atWorker { s with queue := rest } i (.decrementQueue r) x
      have htaken : State.open { s with queue := rest } x + fdCount x [r] = s.open x := by
        simp only [State.open, hq, fdCount_cons, fdCount_nil]
        omega
      have hcloses : State.closes ({ s with queue := rest }.atWorker i (.decrementQueue r)) x =
          s.closes x := rfl
      simp only [hpc, WorkerPc.request, fdCount_nil] at hopen
      omega
  | testLoad r =>
    simp only [hpc] at h
    split at h <;>
      exact Option.some.inj h ▸ balance_atWorker rfl (by simp [hpc, WorkerPc.request])
  | broadcast r =>
    rw [hpc] at h
    refine Option.some.inj h ▸ balance_atWorker ?_ ?_
    · rw [s.open_broadcast]
      rfl
    · simp [State.broadcast, hpc, WorkerPc.signal, WorkerPc.request]
  | close r =>
    rw [hpc] at h
    obtain rfl := Option.some.inj h
    have hopen := State.open_atWorker { s with closed := .fd r.fd :: s.closed } i .unlockDone x
    have hcloses : State.closes ({ s with closed := .fd r.fd :: s.closed }.atWorker i .unlockDone) x =
        s.closes x + fdCount x [r] := by
      simp [State.closes, State.atWorker, List.count_cons]
    have hsame : State.open { s with closed := .fd r.fd :: s.closed } x = s.open x := rfl
    simp only [hpc, WorkerPc.request, fdCount_nil] at hopen
    omega
  | asleep =>
    rw [hpc] at h
    cases h
  | _ =>
    rw [hpc] at h
    exact Option.some.inj h ▸ balance_atWorker rfl (by simp [hpc, State.unlock, WorkerPc.request])

/-- Under `dt` the master closes or queues what it has in hand. -/
theorem balance_of_masterStep {rands : List ℕ} (hdt : cfg.policy = .dt)
    (hs : s.master.underDt = true) (h : s.masterStep cfg rands = some t) (x : ℕ) :
    t.closes x + t.open x = s.closes x + s.open x := by
  unfold State.masterStep at h
  cases hpc : s.master with
  | lock r =>
    rw [hpc] at h
    obtain ⟨-, rfl⟩ := lock_map_eq_some h
    simp [State.closes, State.open, State.atMaster, hpc, MasterPc.inHand]
  | testHandled r | testFull r | count =>
    simp only [hpc, hdt, if_true] at h
    repeat' split at h
    all_goals
      obtain rfl := Option.some.inj h
      simp [State.closes, State.open, State.atMaster, hpc, MasterPc.inHand]
  | refuse r | dropTail r =>
    rw [hpc] at h
    obtain rfl := Option.some.inj h
    simp only [State.closes, State.open, State.atMaster, hpc, MasterPc.inHand, List.count_cons,
      fdCount_cons, fdCount_nil, beq_iff_eq, CloseArg.fd.injEq]
    omega
  | enqueue r =>
    rw [hpc] at h
    obtain rfl := Option.some.inj h
    simp only [State.closes, State.open, State.atMaster, hpc, MasterPc.inHand, WebServer.enqueue,
      fdCount_append, fdCount_nil]
    omega
  | unlockRefused | unlock =>
    rw [hpc] at h
    obtain rfl := Option.some.inj h
    simp [State.closes, State.open, State.atMaster, State.unlock, hpc, MasterPc.inHand]
  | broadcast =>
    rw [hpc] at h
    obtain rfl := Option.some.inj h
    have hopen := s.open_broadcast x
    have hcloses : s.broadcast.closes x = s.closes x := rfl
    simp_all [State.closes, State.open, State.atMaster, State.broadcast, MasterPc.inHand,
      MasterPc.signal]
  | accept =>
    rw [hpc] at h
    cases h
  | _ => simp [hpc, MasterPc.underDt] at hs

theorem balance_of_next (hdt : cfg.policy = .dt) (hs : s.master.underDt = true)
    (h : next cfg s l = some t) (x : ℕ) :
    t.closes x + t.open x = s.closes x + s.open x + fdCount x (arrived (event s l)) := by
  cases l with
  | accept r =>
    obtain ⟨hpc, ht⟩ := Option.ite_none_right_eq_some.mp h
    obtain rfl := Option.some.inj ht
    simp [State.closes, State.open, State.atMaster, hpc, MasterPc.inHand, event, arrived]
    omega
  | master rands =>
    have hnone : arrived (event s (.master rands)) = [] := by
      cases hpc : s.master <;> simp [event, hpc, arrived]
    rw [hnone]
    exact balance_of_masterStep hdt hs h x
  | worker i =>
    have hnone : arrived (event s (.worker i)) = [] := by
      cases hpc : s.worker i <;> cases hq : s.queue <;> simp [event, hpc, hq, arrived]
    rw [hnone]
    exact balance_of_workerStep h x
  | wakeWorker i =>
    obtain ⟨hpc, ht⟩ := Option.ite_none_right_eq_some.mp h
    exact Option.some.inj ht ▸ balance_atWorker rfl (by simp [hpc, WorkerPc.request])
  | wakeMaster =>
    obtain ⟨r, hpc, -⟩ := next_wakeMaster cfg h
    simp [hpc, MasterPc.underDt] at hs

/-- Under `dt` every connection that has arrived is open in the server or closed. -/
theorem balance_of_reachable (hdt : cfg.policy = .dt) {s : State n × List Event}
    (h : ((server n cfg).logged event).Reachable TransitionSystem.always s) (x : ℕ) :
    s.1.closes x + s.1.open x = fdCount x (arrived s.2) := by
  refine (h.invariant (I := fun s => s.1.master.underDt = true ∧
    s.1.closes x + s.1.open x = fdCount x (arrived s.2)) ?_ ?_).2
  · rintro ⟨s, log⟩ ⟨hs, rfl⟩
    obtain rfl : s = initial n := hs
    refine ⟨rfl, ?_⟩
    simp [State.closes, State.open, initial, arrived, MasterPc.inHand, WorkerPc.request]
  · rintro ⟨u, log⟩ l ⟨v, log'⟩ ⟨hu, hbal⟩ - hs
    obtain ⟨hnext, hlog⟩ := TransitionSystem.next_logged hs
    dsimp only at hu hbal hnext hlog
    subst hlog
    refine ⟨underDt_of_next hdt hu hnext, ?_⟩
    rw [arrived_append, fdCount_append, ← hbal]
    exact balance_of_next hdt hu hnext x

/-! ## Where the threads come to rest -/

/-- A thread with the mutex can go on, unless the master has crashed. -/
theorem masterStep_of_inside (rands : List ℕ) (hdt : s.master.underDt = true)
    (h : s.master.inside = true) : s.masterStep cfg rands ≠ none := by
  unfold State.masterStep
  cases hpc : s.master with
  | testHandled r | testFull r | count =>
    dsimp only
    repeat' split
    all_goals simp
  | accept | lock r => simp [hpc, MasterPc.inside] at h
  | refuse r | dropTail r | unlockRefused | enqueue r | broadcast | unlock => simp
  | _ => simp [hpc, MasterPc.underDt] at hdt

theorem workerStep_of_inside {i : Fin n} (h : (s.worker i).inside = true) :
    s.workerStep cfg i ≠ none := by
  unfold State.workerStep
  cases hpc : s.worker i with
  | dequeue | testLoad r =>
    dsimp only
    split <;> simp
  | lock | asleep | woken | handle r | relock r => simp [hpc, WorkerPc.inside] at h
  | _ => simp

/-- No thread can go on. -/
def Stuck (cfg : Config) (s : State n) : Prop := ∀ l, Quiet l → next cfg s l = none

/-- Under `dt` the threads come to rest with the master in `accept` and the workers asleep. -/
theorem Stuck.asleep (h : Stuck cfg s) (howned : Owned s) (hdt : s.master.underDt = true) :
    s.mutex = none ∧ s.master = .accept ∧ ∀ i, s.worker i = .asleep := by
  have hmaster : s.masterStep cfg [] = none := h (.master []) trivial
  have hworker : ∀ i, s.workerStep cfg i = none := fun i => h (.worker i) trivial
  have hm : s.mutex = none := by
    rcases hθ : s.mutex with _ | _ | i
    · rfl
    · exact absurd hmaster (masterStep_of_inside [] hdt ((howned .master).mpr hθ))
    · exact absurd (hworker i) (workerStep_of_inside ((howned (.worker i)).mpr hθ))
  refine ⟨hm, ?_, fun i => ?_⟩
  · have hout : s.master.inside = false := by
      have howner := howned .master
      simpa [State.inside, hm] using howner
    cases hpc : s.master with
    | accept => rfl
    | lock r => simp [State.masterStep, hpc, State.lock, hm] at hmaster
    | _ => simp_all [MasterPc.inside, MasterPc.underDt]
  · have hout : (s.worker i).inside = false := by
      have howner := howned (.worker i)
      simpa [State.inside, hm] using howner
    have hstep := hworker i
    unfold State.workerStep at hstep
    cases hpc : s.worker i with
    | asleep => rfl
    | lock | woken | relock r => simp [hpc, State.lock, hm] at hstep
    | handle r => simp [hpc] at hstep
    | _ => simp [hpc, WorkerPc.inside] at hout

/-- Whatever the policy, once no more connections arrive the threads execute at most
`State.cost` statements before they come to rest. -/
theorem quiet_runs_end {ls : List (Label n)} (hquiet : ∀ l ∈ ls, Quiet l)
    (h : (server n cfg).run s ls = some t) : ls.length + t.cost ≤ s.cost :=
  TransitionSystem.length_add_le_of_run (fun _ _ _ => cost_of_next) hquiet h

/-- Under `dt` the threads come to rest with an empty queue and every connection closed as often
as it was accepted. -/
theorem dt_comes_to_rest (hn : 1 ≤ n) (hdt : cfg.policy = .dt) (hq : 1 ≤ cfg.qmaxSize)
    {s : State n × List Event}
    (h : ((server n cfg).logged event).Reachable TransitionSystem.always s)
    (hstuck : Stuck cfg s.1) :
    s.1.queue = [] ∧ s.1.queueSize = 0 ∧ s.1.currentlyHandled = 0 ∧
      ∀ x, s.1.closed.count (.fd x) = ((arrived s.2).map Request.fd).count x := by
  have hrun : (server n cfg).Reachable TransitionSystem.always s.1 := h.of_logged
  obtain ⟨hr, hunder⟩ := noReturn_of_reachable hdt hrun
  obtain ⟨hm, hmaster, hworker⟩ := hstuck.asleep (Tidy.of_reachable hr).owned hunder
  have hsec := sections_reachable hr
  have hasleep : ¬ (s.1.sections cfg).Attended := by
    refine not_attended_of_asleep fun i => ?_
    rw [sections_of_free hm]
    simp [Outcome.ofMaster, State.done, State.places, hworker, WorkerPc.outside]
  have hqueue : (s.1.sections cfg).queue = s.1.queue := by
    rw [sections_of_free hm]
    rfl
  have hempty : s.1.queue = [] := by
    by_contra hne
    exact hasleep (attended_of_reachable hn hdt hq hsec (by rwa [hqueue]))
  have hidle := (counters_of_reachable (.inl hdt) hq hsec).idle
    (by rw [sections_of_free hm, hmaster]; rfl) hasleep (by rw [hqueue, hempty])
  rw [sections_of_free hm] at hidle
  refine ⟨hempty, hidle.1, hidle.2, fun x => ?_⟩
  have hbal := balance_of_reachable hdt h x
  have hopen : s.1.open x = 0 := by
    simp [State.open, hempty, hmaster, hworker, MasterPc.inHand, WorkerPc.request]
  rw [hopen, Nat.add_zero] at hbal
  exact hbal

/-- The master queues the only connection. -/
theorem quiet_runs_end_accepted : ∃ s t : State 1, s = (initial 1).atMaster (.lock ⟨4, 0, 0⟩) ∧
    (server 1 ⟨.block, 1⟩).run s (List.replicate 7 (.master [])) = some t ∧
      (List.replicate 7 (Label.master (n := 1) [])).length + t.cost ≤ s.cost := by
  refine ⟨_, _, rfl, rfl, @quiet_runs_end 1 ⟨.block, 1⟩ _ _ _ (fun l hl => ?_) rfl⟩
  rw [(List.mem_replicate.mp hl).2]
  trivial

/-- The only worker has served the only connection and sleeps. -/
theorem dt_comes_to_rest_served : ∃ s : State 1 × List Event, arrived s.2 = [⟨4, 0, 0⟩] ∧
    s.1.queue = [] ∧ s.1.queueSize = 0 ∧ s.1.currentlyHandled = 0 ∧
      ∀ x, s.1.closed.count (.fd x) = ((arrived s.2).map Request.fd).count x := by
  obtain ⟨s, -, hs, hp⟩ := TransitionSystem.exists_of_run (S := (server 1 ⟨.dt, 1⟩).logged event)
    (s := (initial 1, [])) TransitionSystem.always
    ([.accept ⟨4, 0, 0⟩] ++ List.replicate 7 (.master []) ++ List.replicate 15 (.worker 0))
    (fun s => arrived s.2 = [⟨4, 0, 0⟩] ∧ s.1.master = .accept ∧ s.1.worker 0 = .asleep)
    ⟨rfl, rfl⟩ (fun _ _ _ => trivial) (by decide +kernel)
  obtain ⟨harrived, hmaster, hworker⟩ := of_decide_eq_true hp
  refine ⟨s, harrived, dt_comes_to_rest le_rfl rfl le_rfl hs fun l hl => ?_⟩
  cases l with
  | master rands => simp [next, State.masterStep, hmaster]
  | worker i =>
    obtain rfl : i = 0 := Subsingleton.elim i 0
    simp [next, State.workerStep, hworker]
  | _ => exact hl.elim

end FtfSystems.WebServer.Statements

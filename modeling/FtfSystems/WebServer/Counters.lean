import FtfSystems.WebServer.Steps

/-!
# The counters under `dt` and `block`

Both policies only ever add a request when there is room. The master is the one producer, so
the room it has seen is still there when it adds the request, also without the mutex; what
lags behind the queue in between is `queue_size`, by the one node that is not yet counted.
-/
namespace FtfSystems.WebServer
open Foundation

variable {n : ℕ} {cfg : Config} {s t : State n} {l : Label n}

def WorkerPc.inService : WorkerPc → Bool
  | .service _ => true
  | _ => false

/-- The number of workers between a successful `dequeue` and their completion section. -/
def State.inService (s : State n) : ℕ := countOf WorkerPc.inService s.worker

/-- Nodes that are in the queue but not yet in `queue_size`. -/
def MasterPc.uncounted : MasterPc → ℤ
  | .increment => 1
  | _ => 0

/-- Requests the master has found room for but not yet queued. -/
def MasterPc.promised : MasterPc → ℤ
  | .enqueue _ => 1
  | _ => 0

/-- The counters agree with the queue and the workers, and the limit is kept. -/
structure Counters (cfg : Config) (s : State n) : Prop where
  handled : s.currentlyHandled = s.inService
  size : s.queueSize + s.master.uncounted = s.queue.length
  bound : s.queue.length + s.master.promised + s.inService ≤ cfg.qmaxSize
  /-- `dt` never comes to `handle_overload`. -/
  drops : cfg.policy = .dt → s.master = .accept ∨ ∃ r, s.master = .received r

theorem WorkerPc.Ready.inService {pc : WorkerPc} (h : pc.Ready) : pc.inService = false := by
  obtain rfl | rfl := h <;> rfl

@[simp] theorem WorkerPc.inService_signal (pc : WorkerPc) : pc.signal.inService = pc.inService := by
  cases pc <;> rfl

@[simp] theorem MasterPc.uncounted_signal (pc : MasterPc) : pc.signal.uncounted = pc.uncounted := by
  cases pc <;> rfl

@[simp] theorem MasterPc.promised_signal (pc : MasterPc) : pc.signal.promised = pc.promised := by
  cases pc <;> rfl

theorem MasterPc.Retries.uncounted {pc : MasterPc} {r : Request} (h : pc.Retries r) :
    pc.uncounted = 0 ∧ pc.promised = 0 := by
  obtain rfl | rfl := h <;> exact ⟨rfl, rfl⟩

/-- A worker moves; the count changes by what it was and what it becomes. -/
theorem State.inService_update (s : State n) (i : Fin n) (pc : WorkerPc) :
    countOf WorkerPc.inService (Function.update s.worker i pc) +
      (s.worker i).inService.toNat = s.inService + pc.inService.toNat :=
  countOf_update WorkerPc.inService s.worker i pc

theorem Counters.broadcast (h : Counters cfg s) : Counters cfg s.broadcast := by
  have hcount : s.broadcast.inService = s.inService :=
    countOf_congr fun i => WorkerPc.inService_signal (s.worker i)
  constructor
  · rw [hcount]
    exact h.handled
  · show s.queueSize + s.master.signal.uncounted = s.queue.length
    rw [MasterPc.uncounted_signal]
    exact h.size
  · rw [hcount]
    show s.queue.length + s.master.signal.promised + s.inService ≤ cfg.qmaxSize
    rw [MasterPc.promised_signal]
    exact h.bound
  · intro hp
    show s.master.signal = _ ∨ ∃ r, s.master.signal = _
    obtain hm | ⟨r, hm⟩ := h.drops hp
    · exact .inl (by rw [hm]; rfl)
    · exact .inr ⟨r, by rw [hm]; rfl⟩

/-- The moves of a worker keep the counters when they shift as the queue and the pool do. -/
theorem Counters.of_worker (h : Counters cfg s) (hmaster : t.master = s.master)
    (hhandled : t.currentlyHandled - t.inService = s.currentlyHandled - s.inService)
    (hsize : t.queueSize - t.queue.length = s.queueSize - s.queue.length)
    (hbound : t.queue.length + t.inService ≤ s.queue.length + s.inService) : Counters cfg t := by
  obtain ⟨handled, size, bound, drops⟩ := h
  rw [← hmaster] at size bound drops
  exact ⟨by omega, by omega, by omega, drops⟩

/-- A worker outside of service moves to another place outside of service. -/
theorem Counters.of_idle {i : Fin n} {pc : WorkerPc} {m : Option (Thread n)} (h : Counters cfg s)
    (hi : (s.worker i).inService = false) (hpc : pc.inService = false) :
    Counters cfg { s with mutex := m, worker := Function.update s.worker i pc } := by
  have hcount := s.inService_update i pc
  rw [hi, hpc] at hcount
  have hsame : State.inService { s with mutex := m, worker := Function.update s.worker i pc } =
    s.inService := hcount
  refine h.of_worker rfl ?_ rfl ?_
  · rw [hsame]
  · rw [hsame]

theorem Counters.take {i : Fin n} {r : Request} {rest : List Request} (h : Counters cfg s)
    (hpc : (s.worker i).Ready) (hq : s.queue = r :: rest) :
    Counters cfg { s with
      queue := rest, queueSize := s.queueSize - 1, currentlyHandled := s.currentlyHandled + 1
      worker := Function.update s.worker i (.service r) } := by
  have hcount := s.inService_update i (.service r)
  rw [hpc.inService] at hcount
  have hlen : s.queue.length = rest.length + 1 := by rw [hq]; rfl
  refine h.of_worker rfl ?_ ?_ ?_ <;>
    simp only [State.inService, WorkerPc.inService, Bool.toNat_true, Bool.toNat_false] at hcount ⊢ <;>
    omega

theorem Counters.finish {i : Fin n} {r : Request} (h : Counters cfg s)
    (hpc : s.worker i = .service r) : Counters cfg (s.finish cfg i r) := by
  have hcount := s.inService_update i .top
  rw [hpc] at hcount
  refine State.finish_rule (fun _ => Counters.broadcast) ?_
  refine h.of_worker rfl ?_ rfl ?_ <;>
    simp only [State.completed, State.inService, WorkerPc.inService, Bool.toNat_true,
      Bool.toNat_false] at hcount ⊢ <;>
    omega

/-- The moves of the master leave the workers alone. -/
theorem Counters.of_master (h : Counters cfg s) (hworker : t.worker = s.worker)
    (hhandled : t.currentlyHandled = s.currentlyHandled)
    (hsize : t.queueSize + t.master.uncounted - t.queue.length =
      s.queueSize + s.master.uncounted - s.queue.length)
    (hbound : t.queue.length + t.master.promised + s.inService ≤ cfg.qmaxSize)
    (hdrops : cfg.policy = .dt → t.master = .accept ∨ ∃ r, t.master = .received r) :
    Counters cfg t := by
  have hcount : t.inService = s.inService := by
    unfold State.inService
    rw [hworker]
  obtain ⟨handled, size, bound, -⟩ := h
  exact ⟨by omega, by omega, by omega, hdrops⟩

/-- The master moves without touching the queue. -/
theorem Counters.of_moved {pc : MasterPc} {m : Option (Thread n)} {c : List CloseArg}
    (h : Counters cfg s) (hs : s.master.uncounted = 0) (hu : pc.uncounted = 0)
    (hp : pc.promised ≤ s.master.promised)
    (hdrops : cfg.policy = .dt → pc = .accept ∨ ∃ r, pc = .received r) :
    Counters cfg { s with mutex := m, master := pc, closed := c } := by
  have hbound := h.bound
  refine h.of_master rfl rfl ?_ ?_ hdrops
  · show s.queueSize + pc.uncounted - s.queue.length = _
    omega
  · show s.queue.length + pc.promised + s.inService ≤ cfg.qmaxSize
    omega

theorem Counters.admission {r : Request} (h : Counters cfg s) (hpc : s.master = .received r)
    (hroom : s.queueSize + s.currentlyHandled ≠ cfg.qmaxSize) : Counters cfg (s.queued r) := by
  obtain ⟨handled, size, bound, -⟩ := id h
  rw [hpc] at size bound
  simp only [MasterPc.uncounted, MasterPc.promised] at size bound
  refine h.of_master rfl rfl ?_ ?_ (fun _ => .inl rfl)
  · simp only [State.queued, hpc, MasterPc.uncounted, enqueue, List.length_append,
      List.length_singleton]
    omega
  · simp only [State.queued, MasterPc.promised, enqueue, List.length_append, List.length_singleton]
    omega

theorem Counters.step (hpolicy : cfg.policy = .dt ∨ cfg.policy = .block) (h : Counters cfg s)
    (hstep : Step cfg s l t) : Counters cfg t := by
  cases hstep with
  | take hpc hm hq => exact h.take hpc hq
  | miss hpc hm hq => exact h.of_idle hpc.inService rfl
  | sleep hpc => exact h.of_idle (by rw [hpc]; rfl) rfl
  | finish hpc hm => exact h.finish hpc
  | wakeWorker hpc => exact h.of_idle (by rw [hpc]; rfl) rfl
  | @accept r hpc =>
    exact h.of_moved (by rw [hpc]; rfl) rfl (by rw [hpc]; rfl) (fun _ => .inr ⟨r, rfl⟩)
  | reject hpc hm hp =>
    exact h.of_moved (by rw [hpc]; rfl) rfl (by rw [hpc]; rfl) (fun _ => .inl rfl)
  | overload hpc hm hp =>
    exact h.of_moved (by rw [hpc]; rfl) rfl (by rw [hpc]; rfl) (fun hdt => absurd hdt hp)
  | admission hpc hm hopen hroom =>
    split
    · exact (h.admission hpc hroom).broadcast
    · exact h.admission hpc hroom
  | full hpc hm hp =>
    refine h.of_moved hpc.uncounted.1 rfl ?_ (fun hdt => by simp [hp] at hdt)
    rw [hpc.uncounted.2]
    rfl
  | pass hpc hm hp hroom =>
    obtain ⟨handled, size, bound, -⟩ := id h
    rw [hpc.uncounted.1] at size
    rw [hpc.uncounted.2] at bound
    refine h.of_master rfl rfl ?_ ?_ (fun hdt => by simp [hp] at hdt)
    · rw [hpc.uncounted.1]
      rfl
    · simp only [MasterPc.promised]
      omega
  | discard hpc hm hp =>
    -- only `dt` is left, and it never gets here
    have hdt : cfg.policy = .dt := hpolicy.resolve_right hp
    obtain ho | ho := hpc <;> simpa [ho] using h.drops hdt
  | masterSleep hpc =>
    refine h.of_moved (by rw [hpc]; rfl) rfl (by rw [hpc]; rfl) (fun hdt => ?_)
    simpa [hpc] using h.drops hdt
  | wakeMaster hpc =>
    refine h.of_moved (by rw [hpc]; rfl) rfl (by rw [hpc]; rfl) (fun hdt => ?_)
    simpa [hpc] using h.drops hdt
  | enqueue hpc =>
    have hbound := h.bound
    rw [hpc] at hbound
    refine h.of_master rfl rfl ?_ ?_ (fun hdt => by simpa [hpc] using h.drops hdt)
    · simp only [hpc, MasterPc.uncounted, enqueue, List.length_append, List.length_singleton]
      omega
    · simp only [MasterPc.promised, enqueue, List.length_append, List.length_singleton] at hbound ⊢
      omega
  | increment hpc =>
    have hbound := h.bound
    rw [hpc] at hbound
    refine h.of_master rfl rfl ?_ ?_ (fun hdt => by simpa [hpc] using h.drops hdt)
    · dsimp only
      split <;> simp only [hpc, MasterPc.uncounted] <;> omega
    · dsimp only
      split <;> exact hbound
  | broadcast hpc =>
    refine h.broadcast.of_moved ?_ rfl ?_ (fun hdt => by simpa [hpc] using h.drops hdt)
    · show s.master.signal.uncounted = 0
      rw [hpc]
      rfl
    · show _ ≤ s.master.signal.promised
      rw [hpc]
      rfl
  | unlock hpc => exact h.of_moved (by rw [hpc]; rfl) rfl (by rw [hpc]; rfl) (fun _ => .inl rfl)

theorem Counters.initial (hq : 0 ≤ cfg.qmaxSize) : Counters cfg (initial n) := by
  have hcount : (WebServer.initial n).inService = 0 := countOf_eq_zero fun _ => rfl
  refine ⟨?_, rfl, ?_, fun _ => .inl rfl⟩
  · rw [hcount]
    rfl
  · rw [hcount]
    exact hq

theorem counters_of_reachable (hpolicy : cfg.policy = .dt ∨ cfg.policy = .block)
    (hq : 1 ≤ cfg.qmaxSize) {ok : State n → Label n → Prop}
    (h : (server n cfg).Reachable ok s) : Counters cfg s := by
  refine h.invariant ?_ ?_
  · rintro _ rfl
    exact .initial (by omega)
  · intro u l v hu _ hs
    exact hu.step hpolicy (step_of_next hs)

/-- Under `dt` and `block` the queued requests and those in service together never exceed
`QmaxSize`. -/
theorem admission_bound (hpolicy : cfg.policy = .dt ∨ cfg.policy = .block)
    (hq : 1 ≤ cfg.qmaxSize) (h : (server n cfg).Reachable TransitionSystem.always s) :
    s.queue.length + s.inService ≤ cfg.qmaxSize := by
  have hc := counters_of_reachable hpolicy hq h
  have hpromised : 0 ≤ s.master.promised := by
    cases s.master <;> simp [MasterPc.promised]
  have hbound := hc.bound
  omega

/-- A connection has been queued and the next one waits for a place. -/
theorem admission_bound_full : ∃ s : State 1,
    (server 1 ⟨.block, 1⟩).Reachable TransitionSystem.always s ∧ s.queue.length = 1 ∧
      s.queue.length + s.inService ≤ (1 : ℤ) := by
  let r : Request := ⟨4, 0, 0⟩
  obtain ⟨s, -, hs, hq⟩ := TransitionSystem.exists_of_run (S := server 1 ⟨.block, 1⟩)
    TransitionSystem.always [.accept r, .master [], .accept r, .master [], .master []]
    (fun s => s.queue.length = 1) rfl (fun _ _ _ => trivial) (by decide +kernel)
  exact ⟨s, hs, of_decide_eq_true hq, admission_bound (.inr rfl) le_rfl hs⟩

end FtfSystems.WebServer

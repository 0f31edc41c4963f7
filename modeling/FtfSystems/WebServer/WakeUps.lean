import FtfSystems.WebServer.Counters

/-!
# Wake-ups

The master broadcasts when the request it has just counted is the only one. Whoever is in
`pthread_cond_wait` then wakes up; a worker that has found the queue empty and is not yet
waiting does not. Under `dt` the mutex keeps the two apart. After `handle_overload` nothing
does, and a broadcast that no worker hears leaves its request behind for good.
-/
namespace FtfSystems.WebServer
open Foundation

variable {n : ℕ} {cfg : Config} {s t : State n} {l : Label n}

/-- Not in `pthread_cond_wait` and not on the way into it. -/
def WorkerPc.Awake (pc : WorkerPc) : Prop := pc = .top ∨ pc = .woken ∨ ∃ r, pc = .service r

theorem WorkerPc.Ready.awake {pc : WorkerPc} (h : pc.Ready) : pc.Awake := by
  obtain h | h := h
  · exact .inl h
  · exact .inr (.inl h)

theorem WorkerPc.awake_service (r : Request) : (WorkerPc.service r).Awake := .inr (.inr ⟨r, rfl⟩)

theorem WorkerPc.awake_of_inService {pc : WorkerPc} (h : pc.inService = true) : pc.Awake := by
  cases pc with
  | service r => exact awake_service r
  | _ => cases h

theorem WorkerPc.awake_iff {pc : WorkerPc} : pc.Awake ↔ pc ≠ .window ∧ pc ≠ .asleep := by
  cases pc <;> simp [Awake]

instance (pc : WorkerPc) : Decidable pc.Awake := decidable_of_iff _ WorkerPc.awake_iff.symm

/-- A broadcast reaches every worker but those on the way into `pthread_cond_wait`. -/
theorem WorkerPc.awake_signal {pc : WorkerPc} (h : pc ≠ .window) : pc.signal.Awake := by
  cases pc with
  | window => exact absurd rfl h
  | _ => simp [awake_iff, signal]

theorem WorkerPc.Awake.signal {pc : WorkerPc} (h : pc.Awake) : pc.signal.Awake :=
  awake_signal (awake_iff.mp h).1

/-- Some worker is awake. -/
def State.Attended (s : State n) : Prop := ∃ i, (s.worker i).Awake

instance (s : State n) : Decidable s.Attended :=
  inferInstanceAs (Decidable (∃ i, (s.worker i).Awake))

instance (pc : MasterPc) : Decidable (∃ r, pc = .received r) :=
  match pc with
  | .received r => isTrue ⟨r, rfl⟩
  | .accept | .overload _ | .window _ | .asleep _ | .woken _ | .enqueue _ | .increment | .broadcast
  | .unlock | .crashed => isFalse nofun

instance (pc : MasterPc) : Decidable (∃ r, pc = .enqueue r) :=
  match pc with
  | .enqueue r => isTrue ⟨r, rfl⟩
  | .accept | .received _ | .overload _ | .window _ | .asleep _ | .woken _ | .increment | .broadcast
  | .unlock | .crashed => isFalse nofun

theorem State.Attended.broadcast (h : s.Attended) : s.broadcast.Attended := by
  obtain ⟨i, hi⟩ := h
  exact ⟨i, hi.signal⟩

theorem State.attended_broadcast {i : Fin n} (h : s.worker i ≠ .window) : s.broadcast.Attended :=
  ⟨i, WorkerPc.awake_signal h⟩

theorem State.attended_update {i : Fin n} {pc : WorkerPc} (h : pc.Awake)
    (ht : t.worker = Function.update s.worker i pc) : t.Attended :=
  ⟨i, by rwa [ht, Function.update_self]⟩

/-- `handle_overload` leaves the workers alone and adds nothing to the queue. -/
theorem State.handleOverload_frame (cfg : Config) (s : State n) (r : Request) (rands : List ℕ) :
    (s.handleOverload cfg r rands).worker = s.worker ∧
      (s.queue = [] → (s.handleOverload cfg r rands).queue = []) := by
  unfold State.handleOverload
  cases cfg.policy with
  | block => dsimp only; split <;> exact ⟨rfl, id⟩
  | dt => exact ⟨rfl, id⟩
  | dh =>
    dsimp only
    split
    · exact ⟨rfl, id⟩
    · next h =>
      refine ⟨rfl, fun hq => ?_⟩
      rw [hq] at h
      cases h
  | random =>
    dsimp only
    split
    · split
      · exact ⟨rfl, id⟩
      · next h =>
        refine ⟨rfl, fun hq => ?_⟩
        simp only [randomDrop, hq, if_true, Option.some.injEq, Prod.mk.injEq] at h
        exact h.1.symm
    · exact ⟨rfl, id⟩

/-- The last worker that is awake goes to wait only with the queue empty. -/
theorem Step.attended (h : Step cfg s l t) (hs : s.Attended) : t.queue = [] ∨ t.Attended := by
  cases h with
  | take => exact .inr (State.attended_update (WorkerPc.awake_service _) rfl)
  | miss hpc hm hq => exact .inl hq
  | @sleep i hpc =>
    obtain ⟨j, hj⟩ := hs
    have hne : j ≠ i := by
      rintro rfl
      exact (WorkerPc.awake_iff.mp hj).1 hpc
    exact .inr ⟨j, by simpa [Function.update_of_ne hne] using hj⟩
  | @finish i r =>
    have hdone : (s.completed i r).Attended := State.attended_update (.inl rfl) rfl
    exact .inr (State.finish_rule (fun _ => State.Attended.broadcast) hdone)
  | wakeWorker => exact .inr (State.attended_update (.inr (.inl rfl)) rfl)
  | admission =>
    split
    · exact .inr (State.Attended.broadcast hs)
    · exact .inr hs
  | @discard r rands =>
    have hworker := (s.handleOverload_frame cfg r rands).1
    exact .inr (by simpa only [State.Attended, hworker] using hs)
  | broadcast => exact .inr hs.broadcast
  | accept | reject | overload | full | pass | masterSleep | wakeMaster | enqueue | increment
  | unlock => exact .inr hs

/-- The master has queued a request and has yet to broadcast. -/
def State.Announces (s : State n) : Prop :=
  s.master = .broadcast ∨
    s.master = .increment ∧ s.queueSize + 1 + s.currentlyHandled = 1

/-- Some worker hears the broadcast of the step, if the master broadcasts in it with a request
in the queue. -/
def heard (s : State n) : Label n → Prop
  | .master _ =>
    (s.master = .broadcast ∧ s.queue ≠ []) ∨ ((∃ r, s.master = .received r) ∧
      s.mutex = none ∧ s.queueSize + 1 + s.currentlyHandled = 1) →
    ∃ i, s.worker i ≠ .window
  | _ => True

instance (s : State n) : (l : Label n) → Decidable (heard s l)
  | .master _ => inferInstanceAs (Decidable (_ → _))
  | .worker _ | .accept _ | .wakeWorker _ | .wakeMaster => isTrue trivial

/-- The requests that no worker is awake for are those the master has yet to announce. -/
def Covered (s : State n) : Prop := s.queue ≠ [] → s.Attended ∨ s.Announces

/-- With nobody awake the counters are those of an idle server. -/
theorem Counters.idle (h : Counters cfg s) (hu : s.master.uncounted = 0) (hs : ¬ s.Attended)
    (hq : s.queue = []) : s.queueSize = 0 ∧ s.currentlyHandled = 0 := by
  have hcount : s.inService = 0 := by
    by_contra hne
    obtain ⟨i, hi⟩ := countOf_pos.mp (Nat.pos_of_ne_zero hne)
    exact hs ⟨i, WorkerPc.awake_of_inService hi⟩
  have hsize := h.size
  rw [hu, hq] at hsize
  have hhandled := h.handled
  rw [hcount] at hhandled
  exact ⟨by simpa using hsize, hhandled⟩

/-- A request admitted under the mutex wakes up whoever is not on the way to sleep, if nobody
is awake. -/
theorem Covered.admission {r : Request} (h : Covered s) (hc : Counters cfg s)
    (hpc : s.master = .received r) (hheard : s.queueSize + 1 + s.currentlyHandled = 1 →
      ∃ i, s.worker i ≠ .window) (hs : ¬ s.Attended) :
    s.queueSize + 1 + s.currentlyHandled = 1 ∧ s.broadcast.Attended := by
  have hq : s.queue = [] := by
    by_contra hne
    obtain ha | ha | ⟨ha, -⟩ := h hne
    · exact hs ha
    · simp [hpc] at ha
    · simp [hpc] at ha
  obtain ⟨hsize, hhandled⟩ := hc.idle (by rw [hpc]; rfl) hs hq
  have hone : s.queueSize + 1 + s.currentlyHandled = 1 := by omega
  obtain ⟨i, hi⟩ := hheard hone
  exact ⟨hone, State.attended_broadcast hi⟩

/-- A step keeps every request covered when its broadcast, if it has one, is heard. -/
theorem Covered.step (h : Covered s) (hc : Counters cfg s)
    (hpolicy : cfg.policy = .dt ∨ cfg.policy = .block) (hheard : heard s l)
    (hstep : Step cfg s l t) : Covered t := by
  intro hq
  by_cases hs : s.Attended
  · exact .inl ((hstep.attended hs).resolve_left hq)
  -- nobody is awake: only a master that has yet to broadcast may leave a request so
  have hmaster (hne : s.queue ≠ []) : s.Announces := (h hne).resolve_left hs
  cases hstep with
  | take hpc => exact absurd ⟨_, hpc.awake⟩ hs
  | miss hpc => exact absurd ⟨_, hpc.awake⟩ hs
  | finish hpc => exact absurd ⟨_, hpc ▸ WorkerPc.awake_service _⟩ hs
  | sleep => exact .inr (hmaster hq)
  | wakeWorker => exact .inl (State.attended_update (.inr (.inl rfl)) rfl)
  | admission hpc hm =>
    obtain ⟨hone, ha⟩ := h.admission hc hpc (fun hone => hheard (.inr ⟨⟨_, hpc⟩, hm, hone⟩)) hs
    simp only [hone, if_true]
    exact .inl ha
  | discard hpc hm hp =>
    obtain hm | ⟨r, hm⟩ := hc.drops (hpolicy.resolve_right hp) <;>
      obtain ho | ho := hpc <;> simp [hm] at ho
  | enqueue hpc =>
    have hnil : s.queue = [] := by
      by_contra hne
      simpa [State.Announces, hpc] using hmaster hne
    obtain ⟨hsize, hhandled⟩ := hc.idle (by rw [hpc]; rfl) hs hnil
    exact .inr (.inr ⟨rfl, by simp [hsize, hhandled]⟩)
  | increment hpc =>
    have hone : s.queueSize + 1 + s.currentlyHandled = 1 := by
      simpa [State.Announces, hpc] using hmaster hq
    exact .inr (.inl (by simp [hone]))
  | broadcast hpc =>
    obtain ⟨i, hi⟩ := hheard (.inl ⟨hpc, hq⟩)
    exact .inl (State.attended_broadcast hi)
  | full hpc | pass hpc => obtain ho | ho := hpc <;> simpa [State.Announces, ho] using hmaster hq
  | accept hpc | reject hpc | overload hpc | masterSleep hpc | wakeMaster hpc | unlock hpc =>
    simpa [State.Announces, hpc] using hmaster hq

/-! ## No stall under `dt` -/

/-- A worker that has found the queue empty keeps the mutex until it waits. -/
def Owned (s : State n) : Prop := ∀ i, s.worker i = .window → s.mutex = some (.worker i)

theorem Owned.no_window (h : Owned s) (hm : s.mutex = none) (i : Fin n) :
    s.worker i ≠ .window := by
  intro hi
  rw [h i hi] at hm
  cases hm

/-- Worker `i` moves out of its critical section; the others are where they were. -/
theorem Owned.update {i : Fin n} {pc : WorkerPc} (h : Owned s) (hpc : pc ≠ .window)
    (hm : ∀ j, j ≠ i → s.mutex = some (.worker j) → t.mutex = some (.worker j))
    (hworker : t.worker = Function.update s.worker i pc) : Owned t := by
  intro j hj
  rw [hworker] at hj
  by_cases hji : j = i
  · subst hji
    exact absurd hj (by rwa [Function.update_self])
  · rw [Function.update_of_ne hji] at hj
    exact hm j hji (h j hj)

theorem Owned.broadcast (h : Owned s) : Owned s.broadcast := by
  intro i hi
  refine h i ?_
  cases hpc : s.worker i with
  | window => rfl
  | _ => simp [State.broadcast, hpc, WorkerPc.signal] at hi

theorem Owned.step (h : Owned s) (hdt : cfg.policy = .dt) (hc : Counters cfg s)
    (hstep : Step cfg s l t) : Owned t := by
  have hplain := hc.drops hdt
  cases hstep with
  | take => exact h.update (by simp) (fun _ _ => id) rfl
  | @miss i hpc hm =>
    intro j hj
    by_cases hji : j = i
    · rw [hji]
    · exact absurd (by simpa [Function.update_of_ne hji] using hj) (h.no_window hm j)
  | @sleep i hpc =>
    refine h.update (by simp) (fun j hji hj => ?_) rfl
    rw [h i hpc] at hj
    simp only [Option.some.injEq, Thread.worker.injEq] at hj
    exact absurd hj.symm hji
  | @finish i r =>
    have hdone : Owned (s.completed i r) := h.update (by simp) (fun _ _ => id) rfl
    exact State.finish_rule (fun _ => Owned.broadcast) hdone
  | wakeWorker => exact h.update (by simp) (fun _ _ => id) rfl
  | accept | reject => exact h
  | admission =>
    split
    · exact Owned.broadcast h
    · exact h
  | overload _ _ hp => exact absurd hdt hp
  | full _ _ hp | pass _ _ hp => simp [hp] at hdt
  | discard hpc => obtain ho | ho := hpc <;> simp [ho] at hplain
  | masterSleep hpc | wakeMaster hpc | enqueue hpc | increment hpc | broadcast hpc | unlock hpc =>
    simp [hpc] at hplain

/-- Under `dt` every broadcast is heard: it is sent with the mutex held. -/
theorem Owned.heard (h : Owned s) (hn : 1 ≤ n) (hdt : cfg.policy = .dt) (hc : Counters cfg s)
    (l : Label n) : heard s l := by
  cases l with
  | master rands =>
    rintro (⟨hpc, -⟩ | ⟨-, hm, -⟩)
    · simpa [hpc] using hc.drops hdt
    · exact ⟨⟨0, hn⟩, h.no_window hm _⟩
  | _ => trivial

/-- Under `dt` no request waits with all workers asleep. -/
theorem attended_of_reachable (hn : 1 ≤ n) (hdt : cfg.policy = .dt) (hq : 1 ≤ cfg.qmaxSize)
    (h : (server n cfg).Reachable TransitionSystem.always s) (hne : s.queue ≠ []) :
    s.Attended := by
  have hinv : Owned s ∧ Covered s := by
    refine h.invariant_of (I := fun s => Owned s ∧ Covered s)
      (fun _ => counters_of_reachable (.inl hdt) hq) ?_ ?_
    · rintro _ rfl
      exact ⟨fun i hi => (by cases hi), fun hne => absurd rfl hne⟩
    · rintro u l v hc ⟨howned, hcovered⟩ - hs
      have hheard := howned.heard hn hdt hc l
      exact ⟨howned.step hdt hc (step_of_next hs),
        hcovered.step hc (.inl hdt) hheard (step_of_next hs)⟩
  refine (hinv.2 hne).resolve_right ?_
  obtain hm | ⟨r, hm⟩ := (counters_of_reachable (.inl hdt) hq h).drops hdt
  · simp [State.Announces, hm]
  · simp [State.Announces, hm]

/-- Under `dt` the counters are exact and no request waits with all workers asleep, in every
state and in particular whenever the mutex is free. -/
theorem dt_exact_and_attended (hn : 1 ≤ n) (hdt : cfg.policy = .dt) (hq : 1 ≤ cfg.qmaxSize)
    (h : (server n cfg).Reachable TransitionSystem.always s) :
    s.queueSize = s.queue.length ∧ s.currentlyHandled = s.inService ∧
      (s.queue ≠ [] → ∃ i, s.worker i = .top ∨ s.worker i = .woken ∨
        ∃ r, s.worker i = .service r) := by
  have hc := counters_of_reachable (.inl hdt) hq h
  refine ⟨?_, hc.handled, attended_of_reachable hn hdt hq h⟩
  have hsize := hc.size
  obtain hm | ⟨r, hm⟩ := hc.drops hdt <;> simpa [hm, MasterPc.uncounted] using hsize

/-- A request is queued while the only worker sleeps: the broadcast has reached it. -/
theorem dt_exact_and_attended_woken : ∃ s : State 1,
    (server 1 ⟨.dt, 1⟩).Reachable TransitionSystem.always s ∧ s.mutex = none ∧ s.queue ≠ [] ∧
      s.queueSize = s.queue.length ∧ s.currentlyHandled = s.inService ∧
      (s.queue ≠ [] → ∃ i, s.worker i = .top ∨ s.worker i = .woken ∨
        ∃ r, s.worker i = .service r) := by
  obtain ⟨s, -, hs, hp⟩ := TransitionSystem.exists_of_run (S := server 1 ⟨.dt, 1⟩)
    TransitionSystem.always [.worker 0, .worker 0, .accept ⟨4, 0, 0⟩, .master []]
    (fun s => s.mutex = none ∧ s.queue ≠ []) rfl (fun _ _ _ => trivial) (by decide +kernel)
  obtain ⟨hm, hne⟩ := of_decide_eq_true hp
  exact ⟨s, hs, hm, hne, dt_exact_and_attended le_rfl rfl le_rfl hs⟩

/-! ## Lost wake-ups under `block` -/

/-- Some worker is awake when the master queues a request without the mutex. -/
def attendedEnqueue (s : State n) : Label n → Prop
  | .master _ => (∃ r, s.master = .enqueue r) ∧ s.queue = [] → s.Attended
  | _ => True

instance (s : State n) : (l : Label n) → Decidable (attendedEnqueue s l)
  | .master _ => inferInstanceAs (Decidable (_ → _))
  | .worker _ | .accept _ | .wakeWorker _ | .wakeMaster => isTrue trivial

/-- Every queued request has a worker that is awake. -/
def Served (s : State n) : Prop := s.queue ≠ [] → s.Attended

theorem Served.step (h : Served s) (hc : Counters cfg s) (hblock : cfg.policy = .block)
    (hheard : heard s l) (hatt : attendedEnqueue s l) (hstep : Step cfg s l t) : Served t := by
  intro hq
  by_cases hs : s.Attended
  · exact (hstep.attended hs).resolve_left hq
  have hnil : s.queue = [] := by
    by_contra hne
    exact hs (h hne)
  cases hstep with
  | take hpc => exact absurd ⟨_, hpc.awake⟩ hs
  | miss hpc => exact absurd ⟨_, hpc.awake⟩ hs
  | finish hpc => exact absurd ⟨_, hpc ▸ WorkerPc.awake_service _⟩ hs
  | wakeWorker => exact State.attended_update (.inr (.inl rfl)) rfl
  | admission hpc hm =>
    have hcov : Covered s := fun hne => .inl (h hne)
    obtain ⟨hone, ha⟩ := hcov.admission hc hpc (fun hone => hheard (.inr ⟨⟨_, hpc⟩, hm, hone⟩)) hs
    simp only [hone, if_true]
    exact ha
  | discard _ _ hp => exact absurd hblock hp
  | enqueue hpc => exact absurd (hatt ⟨⟨_, hpc⟩, hnil⟩) hs
  | _ => exact absurd hnil hq

theorem covered_of_reachable (hblock : cfg.policy = .block) (hq : 1 ≤ cfg.qmaxSize)
    (h : (server n cfg).Reachable heard s) : Covered s := by
  refine h.invariant_of (fun _ => counters_of_reachable (.inr hblock) hq) ?_ ?_
  · rintro _ rfl
    exact fun hne => absurd rfl hne
  · intro u l v hc hcovered hok hs
    exact hcovered.step hc (.inr hblock) hok (step_of_next hs)

theorem served_of_reachable (hblock : cfg.policy = .block) (hq : 1 ≤ cfg.qmaxSize)
    (h : (server n cfg).Reachable (fun s l => heard s l ∧ attendedEnqueue s l) s) : Served s := by
  refine h.invariant_of (fun _ => counters_of_reachable (.inr hblock) hq) ?_ ?_
  · rintro _ rfl
    exact fun hne => absurd rfl hne
  · rintro u l v hc hserved ⟨hheard, hatt⟩ hs
    exact hserved.step hc hblock hheard hatt (step_of_next hs)

theorem not_attended_of_asleep (h : ∀ i, s.worker i = .asleep) : ¬ s.Attended := by
  rintro ⟨i, hi⟩
  exact (WorkerPc.awake_iff.mp hi).2 (h i)

/-- Under `block`, as long as some worker hears every broadcast that the master sends with a
request in the queue, all workers sleep on a request only until the broadcast that the master
is about to send; and if some worker is awake when the master queues a request without the
mutex, they never do. -/
theorem block_no_joint_deadlock (hblock : cfg.policy = .block) (hq : 1 ≤ cfg.qmaxSize) :
    (∀ s : State n, (server n cfg).Reachable heard s →
      ¬ (s.queue ≠ [] ∧ (∀ i, s.worker i = .asleep) ∧ ¬ s.Announces)) ∧
    (∀ s : State n, (server n cfg).Reachable (fun s l => heard s l ∧ attendedEnqueue s l) s →
      ¬ (s.queue ≠ [] ∧ ∀ i, s.worker i = .asleep)) := by
  constructor
  · rintro s h ⟨hne, hall, hnot⟩
    exact (covered_of_reachable hblock hq h hne).elim (not_attended_of_asleep hall) hnot
  · rintro s h ⟨hne, hall⟩
    exact not_attended_of_asleep hall (served_of_reachable hblock hq h hne)

/-- The first request wakes up the only worker. The master waits with the second one until the
worker has served the first, then queues it without the mutex and broadcasts. -/
theorem block_no_joint_deadlock_woken : ∃ s : State 1,
    (server 1 ⟨.block, 1⟩).Reachable (fun s l => heard s l ∧ attendedEnqueue s l) s ∧
      s.queue = [⟨5, 1, 0⟩] ∧ s.closed = [.fd 4] ∧ s.master = .accept ∧
      ¬ (s.queue ≠ [] ∧ ∀ i, s.worker i = .asleep) := by
  have hrun : ((server 1 ⟨.block, 1⟩).guardedRun (fun s l => heard s l ∧ attendedEnqueue s l)
      (initial 1)
      [.worker 0, .worker 0, .accept ⟨4, 0, 0⟩, .master [], .worker 0, .accept ⟨5, 1, 0⟩,
        .master [], .master [], .master [], .worker 0, .master [], .master [], .master [],
        .master [], .master []]).any
      (fun s => s.queue = [⟨5, 1, 0⟩] ∧ s.closed = [.fd 4] ∧ s.master = .accept) = true := by
    decide +kernel
  obtain ⟨s, hs, hp⟩ := TransitionSystem.exists_of_guardedRun _ _ rfl hrun
  obtain ⟨hq, hclosed, hmaster⟩ := of_decide_eq_true hp
  exact ⟨s, hs, hq, hclosed, hmaster, (block_no_joint_deadlock rfl le_rfl).2 s hs⟩

/-- The master queues the second request, counts it and broadcasts between the failed `dequeue`
of the only worker and its `pthread_cond_wait`. -/
theorem block_wake_up_lost : ∃ s : State 1,
    (server 1 ⟨.block, 1⟩).Reachable TransitionSystem.always s ∧ s.queue ≠ [] ∧
      (∀ i, s.worker i = .asleep) ∧ s.master = .accept ∧ s.mutex = none := by
  obtain ⟨s, -, hs, hp⟩ := TransitionSystem.exists_of_run (S := server 1 ⟨.block, 1⟩)
    TransitionSystem.always
    [.accept ⟨4, 0, 0⟩, .master [], .accept ⟨5, 1, 0⟩, .master [], .worker 0, .master [], .master [],
      .worker 0, .master [], .worker 0, .master [], .master [], .master [], .master [], .worker 0]
    (fun s => s.queue ≠ [] ∧ (∀ i, s.worker i = .asleep) ∧ s.master = .accept ∧ s.mutex = none)
    rfl (fun _ _ _ => trivial) (by decide +kernel)
  exact ⟨s, hs, of_decide_eq_true hp⟩

/-! ## Requests left queued while a worker sleeps -/

/-- A request is queued only when no worker waits or is about to, unless the same section wakes
up all that wait. -/
def rousing (cfg : Config) (s : State n) : Label n → Prop
  | .master _ =>
    ((∃ r, s.master = .enqueue r) → ∀ i, (s.worker i).Awake) ∧
    ((∃ r, s.master = .received r) ∧ s.mutex = none ∧
        ¬ (s.currentlyHandled = cfg.qmaxSize ∧ cfg.policy ≠ .block) ∧
        s.queueSize + s.currentlyHandled ≠ cfg.qmaxSize →
      (∀ i, s.worker i ≠ .window) ∧
        (s.queueSize + 1 + s.currentlyHandled = 1 ∨ ∀ i, s.worker i ≠ .asleep))
  | _ => True

instance (cfg : Config) (s : State n) : (l : Label n) → Decidable (rousing cfg s l)
  | .master _ => inferInstanceAs (Decidable (_ ∧ _))
  | .worker _ | .accept _ | .wakeWorker _ | .wakeMaster => isTrue trivial

/-- With a request in the queue every worker is awake. -/
def AllAwake (s : State n) : Prop := s.queue ≠ [] → ∀ i, (s.worker i).Awake

theorem AllAwake.broadcast (h : AllAwake s) : AllAwake s.broadcast :=
  fun hne i => (h hne i).signal

theorem AllAwake.update {i : Fin n} {pc : WorkerPc} (h : AllAwake s) (hpc : pc.Awake)
    (hne : t.queue ≠ [] → s.queue ≠ []) (ht : t.worker = Function.update s.worker i pc) :
    AllAwake t := by
  intro hq j
  rw [ht]
  by_cases hj : j = i
  · rwa [hj, Function.update_self]
  · rw [Function.update_of_ne hj]
    exact h (hne hq) j

theorem AllAwake.step (h : AllAwake s) (hok : rousing cfg s l) (hstep : Step cfg s l t) :
    AllAwake t := by
  cases hstep with
  | take hpc hm hq => exact h.update (WorkerPc.awake_service _) (fun _ => by simp [hq]) rfl
  | miss hpc hm hq => exact fun hne => absurd hq hne
  | sleep hpc => exact fun hne => absurd hpc (WorkerPc.awake_iff.mp (h hne _)).1
  | @finish i r =>
    have hdone : AllAwake (s.completed i r) := h.update (.inl rfl) id rfl
    exact State.finish_rule (fun _ => AllAwake.broadcast) hdone
  | wakeWorker => exact h.update (.inr (.inl rfl)) id rfl
  | admission hpc hm hopen hroom =>
    obtain ⟨hwindow, hasleep⟩ := hok.2 ⟨⟨_, hpc⟩, hm, hopen, hroom⟩
    intro _ i
    split
    · exact WorkerPc.awake_signal (hwindow i)
    · exact WorkerPc.awake_iff.mpr ⟨hwindow i, hasleep.resolve_left ‹_› i⟩
  | @discard r rands =>
    obtain ⟨hworker, hqueue⟩ := s.handleOverload_frame cfg r rands
    intro hne i
    rw [hworker]
    exact h (fun hnil => hne (hqueue hnil)) i
  | enqueue hpc => exact fun _ => hok.1 ⟨_, hpc⟩
  | broadcast => exact h.broadcast
  | accept | reject | overload | full | pass | masterSleep | wakeMaster | increment | unlock =>
    exact h

/-- Under every policy, no request is left queued while a worker sleeps as long as requests are
queued only where no worker sleeps on or goes on to sleep. -/
theorem no_request_left_to_sleepers (h : (server n cfg).Reachable (rousing cfg) s)
    (hne : s.queue ≠ []) (i : Fin n) : s.worker i ≠ .asleep := by
  have hinv : AllAwake s := by
    refine h.invariant ?_ ?_
    · rintro _ rfl
      exact fun hne => absurd rfl hne
    · intro u l v hu hok hs
      exact hu.step hok (step_of_next hs)
  exact (WorkerPc.awake_iff.mp (hinv hne i)).2

/-- The first request wakes up both workers. The second arrives while one serves the first and the
other has yet to test the queue. -/
theorem no_request_left_to_sleepers_woken : ∃ s : State 2,
    (server 2 ⟨.dt, 2⟩).Reachable (rousing ⟨.dt, 2⟩) s ∧ s.queue = [⟨5, 1, 0⟩] ∧
      s.worker 0 = .service ⟨4, 0, 0⟩ ∧ s.worker 1 = .woken ∧ ∀ i, s.worker i ≠ .asleep := by
  have hrun : ((server 2 ⟨.dt, 2⟩).guardedRun (rousing ⟨.dt, 2⟩) (initial 2)
      [.worker 0, .worker 0, .worker 1, .worker 1, .accept ⟨4, 0, 0⟩, .master [], .worker 0,
        .accept ⟨5, 1, 0⟩, .master []]).any (fun s => s.queue = [⟨5, 1, 0⟩] ∧
          s.worker 0 = .service ⟨4, 0, 0⟩ ∧ s.worker 1 = .woken) = true := by
    decide +kernel
  obtain ⟨s, hs, hp⟩ := TransitionSystem.exists_of_guardedRun _ _ rfl hrun
  obtain ⟨hq, hserves, hwoken⟩ := of_decide_eq_true hp
  exact ⟨s, hs, hq, hserves, hwoken, no_request_left_to_sleepers hs (by simp [hq])⟩

/-- A second request arrives while the first is in service: nobody wakes up the other worker. -/
theorem request_left_to_sleeper : ∃ s : State 2,
    (server 2 ⟨.dt, 2⟩).Reachable TransitionSystem.always s ∧ s.mutex = none ∧ s.queue ≠ [] ∧
      s.worker 1 = .asleep ∧ s.master = .accept := by
  obtain ⟨s, -, hs, hp⟩ := TransitionSystem.exists_of_run (S := server 2 ⟨.dt, 2⟩)
    TransitionSystem.always
    [.worker 0, .worker 0, .worker 1, .worker 1, .accept ⟨4, 0, 0⟩, .master [], .worker 0,
      .worker 1, .worker 1, .accept ⟨5, 1, 0⟩, .master []]
    (fun s => s.mutex = none ∧ s.queue ≠ [] ∧ s.worker 1 = .asleep ∧ s.master = .accept)
    rfl (fun _ _ _ => trivial) (by decide +kernel)
  exact ⟨s, hs, of_decide_eq_true hp⟩

end FtfSystems.WebServer

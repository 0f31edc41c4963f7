import FtfSystems.WebServer.Counters
import FtfSystems.WebServer.Sections

/-!
# The statements refine the sections

Every statement of a worker or of the master is a step of `Server` or none, seen through
`State.sections`. So what is reached statement by statement, with the same connections
accepted, is reached section by section, and what `Server` keeps to holds between the
statements as well. Under `dt` nothing is asked of the run.
-/
namespace FtfSystems.WebServer.Statements
open Foundation

variable {n : ℕ} {cfg : Config} {s t : State n} {l : Label n}

section Worker
variable {i : Fin n}

theorem sections_of_free (hm : s.mutex = none) :
    s.sections cfg = (s.done s.master.outside).ofMaster s.places := by
  unfold State.sections
  rw [hm]

theorem sections_of_worker (hm : s.mutex = some (.worker i)) :
    s.sections cfg =
      (s.workerOutcome cfg (s.worker i)).ofWorker i s.master.outside s.places := by
  unfold State.sections
  rw [hm]

theorem sections_of_master (hm : s.mutex = some .master) :
    s.sections cfg = (s.masterOutcome cfg s.master).ofMaster s.places := by
  unfold State.sections
  rw [hm]

/-- The place of the thread with the mutex does not matter. -/
theorem Outcome.ofWorker_update (o : Outcome WebServer.WorkerPc) (m : WebServer.MasterPc)
    (w : Fin n → WebServer.WorkerPc) (pc : WebServer.WorkerPc) :
    o.ofWorker i m (Function.update w i pc) = o.ofWorker i m w := by
  have hw : ∀ (f : WebServer.WorkerPc → WebServer.WorkerPc),
      Function.update (fun j => f (Function.update w i pc j)) i o.pc =
        Function.update (fun j => f (w j)) i o.pc := by
    intro f
    funext j
    by_cases hj : j = i
    · subst hj
      simp
    · simp [hj]
  simp only [Outcome.ofWorker, WebServer.State.mk.injEq, true_and, and_true]
  exact hw fun pc => if o.broadcasts then pc.signal else pc

/-- A worker with the mutex goes on in its section. -/
theorem sections_worker_inside {u : State n} {pc : WorkerPc} (hm : s.mutex = some (.worker i))
    (hu : u.mutex = s.mutex) (hmaster : u.master = s.master) (hplaces : u.places = s.places)
    (ho : (u.atWorker i pc).workerOutcome cfg pc = s.workerOutcome cfg (s.worker i)) :
    (u.atWorker i pc).sections cfg = s.sections cfg := by
  have hself : (u.atWorker i pc).worker i = pc := by simp [State.atWorker]
  have hmu : (u.atWorker i pc).mutex = some (.worker i) := hu.trans hm
  rw [sections_of_worker hm, sections_of_worker hmu, hself, ho, places_atWorker, hplaces,
    Outcome.ofWorker_update]
  show _ = _
  rw [← hmaster]
  rfl

/-- A worker gives up the mutex at the end of its section. -/
theorem sections_worker_leaves {pc : WorkerPc} (hm : s.mutex = some (.worker i))
    (ho : s.workerOutcome cfg (s.worker i) = s.done pc.outside) :
    (s.unlock.atWorker i pc).sections cfg = s.sections cfg := by
  have hself : (s.unlock.atWorker i pc).worker i = pc := by simp [State.atWorker]
  rw [sections_of_worker hm, sections_of_free rfl, ho, places_atWorker]
  rfl

theorem sections_worker_waits (hm : s.mutex = some (.worker i)) (hpc : s.worker i = .wait) :
    WebServer.next cfg (s.sections cfg) (.worker i) =
      some ((s.unlock.atWorker i .asleep).sections cfg) := by
  rw [sections_of_worker hm, hpc, sections_of_free rfl, places_atWorker]
  simp only [WebServer.next, WebServer.State.workerStep, Outcome.ofWorker, State.workerOutcome,
    Function.update_self]
  simp [Outcome.ofMaster, State.done, State.atWorker, State.unlock, WorkerPc.outside]
  rfl

/-- A worker takes the mutex and calls `dequeue`. -/
theorem sections_worker_takes (hm : s.mutex = none)
    (hpc : s.worker i = .lock ∨ s.worker i = .woken) :
    WebServer.next cfg (s.sections cfg) (.worker i) =
      some (({ s with mutex := some (.worker i) }.atWorker i .dequeue).sections cfg) := by
  set t := { s with mutex := some (.worker i) }.atWorker i .dequeue
  have hself : t.worker i = .dequeue := by simp [t, State.atWorker]
  have hnext : WebServer.next cfg (s.sections cfg) (.worker i) =
      some ((s.sections cfg).test i) := by
    rw [sections_of_free hm]
    have hplace : s.places i = .top ∨ s.places i = .woken := by
      obtain hpc | hpc := hpc <;> simp [State.places, hpc, WorkerPc.outside]
    obtain hplace | hplace := hplace <;>
      simp [WebServer.next, WebServer.State.workerStep, Outcome.ofMaster, State.done, hplace]
  have hplaces : t.places = Function.update s.places i .top :=
    places_atWorker { s with mutex := some (.worker i) } i .dequeue
  have hmt : t.mutex = some (.worker i) := rfl
  rw [hnext, sections_of_worker hmt, hself, hplaces, Outcome.ofWorker_update, sections_of_free hm]
  cases hq : s.queue with
  | nil =>
    have ho : t.workerOutcome cfg .dequeue = { s.done .window with keeps := true } := by
      simp [State.workerOutcome, t, State.atWorker, hq, WebServer.dequeue, State.done]
    rw [ho]
    simp [WebServer.State.test, Outcome.ofMaster, State.done, hq, WebServer.dequeue,
      Outcome.ofWorker, t, State.atWorker]
  | cons r rest =>
    have ho : t.workerOutcome cfg .dequeue = { s.done (.service r) with
        queue := rest, queueSize := s.queueSize - 1, currentlyHandled := s.currentlyHandled + 1 } := by
      simp [State.workerOutcome, t, State.atWorker, hq, WebServer.dequeue, State.done]
    rw [ho]
    simp [WebServer.State.test, Outcome.ofMaster, State.done, hq, WebServer.dequeue,
      Outcome.ofWorker, t, State.atWorker]

/-- A worker takes the mutex for its completion section. -/
theorem sections_worker_completes {r : Request} (hm : s.mutex = none)
    (hpc : s.worker i = .relock r) :
    WebServer.next cfg (s.sections cfg) (.worker i) =
      some (({ s with mutex := some (.worker i) }.atWorker i (.decrementHandled r)).sections cfg) := by
  set t := { s with mutex := some (.worker i) }.atWorker i (.decrementHandled r)
  have hself : t.worker i = .decrementHandled r := by simp [t, State.atWorker]
  have hnext : WebServer.next cfg (s.sections cfg) (.worker i) =
      some ((s.sections cfg).finish cfg i r) := by
    rw [sections_of_free hm]
    have hplace : s.places i = .service r := by simp [State.places, hpc, WorkerPc.outside]
    simp [WebServer.next, WebServer.State.workerStep, Outcome.ofMaster, State.done, hplace]
  have hplaces : t.places = Function.update s.places i .top :=
    places_atWorker { s with mutex := some (.worker i) } i (.decrementHandled r)
  have hmt : t.mutex = some (.worker i) := rfl
  rw [hnext, sections_of_worker hmt, hself, hplaces, Outcome.ofWorker_update, sections_of_free hm]
  have ho : t.workerOutcome cfg (.decrementHandled r) = { s.done .top with
      currentlyHandled := s.currentlyHandled - 1, closed := .fd r.fd :: s.closed
      broadcasts := State.loadTest cfg (s.currentlyHandled - 1) s.queueSize } := rfl
  rw [ho]
  by_cases hload : s.currentlyHandled - 1 + s.queueSize = cfg.qmaxSize ∨
      s.currentlyHandled - 1 + s.queueSize = cfg.qmaxSize - 1
  · have htrue : State.loadTest cfg (s.currentlyHandled - 1) s.queueSize = true := by
      simpa [State.loadTest] using hload
    have hwake : (fun j => (Function.update s.places i WebServer.WorkerPc.top j).signal) =
        Function.update (fun j => (s.places j).signal) i .top := by
      funext j
      by_cases hj : j = i
      · subst hj
        simp [WebServer.WorkerPc.signal]
      · simp [hj]
    simp [WebServer.State.finish, Outcome.ofMaster, Outcome.ofWorker, State.done, hload, htrue,
      WebServer.State.broadcast, hwake, t, State.atWorker]
  · have hfalse : State.loadTest cfg (s.currentlyHandled - 1) s.queueSize = false := by
      simpa [State.loadTest] using hload
    simp [WebServer.State.finish, Outcome.ofMaster, Outcome.ofWorker, State.done, hload, hfalse,
      t, State.atWorker]

theorem sections_worker_broadcasts {r : Request} (hm : s.mutex = some (.worker i))
    (hpc : s.worker i = .broadcast r) :
    (s.broadcast.atWorker i (.close r)).sections cfg = s.sections cfg := by
  have hself : (s.broadcast.atWorker i (.close r)).worker i = .close r := by simp [State.atWorker]
  have hmaster : s.master.signal.outside = s.master.outside.signal := by cases s.master <;> rfl
  have hmt : (s.broadcast.atWorker i (.close r)).mutex = some (.worker i) := hm
  rw [sections_of_worker hm, hpc, sections_of_worker hmt, hself, places_atWorker,
    Outcome.ofWorker_update, places_broadcast]
  simp [Outcome.ofWorker, State.workerOutcome, State.done, State.broadcast, State.atWorker, hmaster]

/-- A statement of a worker is a step of `Server` or leaves its state as it is. -/
theorem simulates_worker (hs : Tidy cfg s) (h : s.workerStep cfg i = some t) :
    t.sections cfg = s.sections cfg ∨
      WebServer.next cfg (s.sections cfg) (.worker i) = some (t.sections cfg) := by
  have hin : (s.worker i).inside = true → s.mutex = some (.worker i) := (hs.owned (.worker i)).mp
  unfold State.workerStep at h
  cases hpc : s.worker i with
  | lock =>
    rw [hpc] at h
    obtain ⟨hm, rfl⟩ := lock_map_eq_some h
    exact .inr (sections_worker_takes hm (.inl hpc))
  | woken =>
    rw [hpc] at h
    obtain ⟨hm, rfl⟩ := lock_map_eq_some h
    exact .inr (sections_worker_takes hm (.inr hpc))
  | relock r =>
    rw [hpc] at h
    obtain ⟨hm, rfl⟩ := lock_map_eq_some h
    exact .inr (sections_worker_completes hm hpc)
  | handle r =>
    rw [hpc] at h
    obtain rfl := Option.some.inj h
    refine .inl (sections_atWorker (fun hm => ?_) (by rw [hpc]; rfl))
    have hinside := (hs.owned (.worker i)).mpr hm
    simp [State.inside, hpc, WorkerPc.inside] at hinside
  | asleep =>
    rw [hpc] at h
    cases h
  | wait =>
    rw [hpc] at h hin
    exact Option.some.inj h ▸ .inr (sections_worker_waits (hin rfl) hpc)
  | unlockTaken r =>
    rw [hpc] at h hin
    exact Option.some.inj h ▸ .inl (sections_worker_leaves (hin rfl) (by rw [hpc]; rfl))
  | unlockDone =>
    rw [hpc] at h hin
    exact Option.some.inj h ▸ .inl (sections_worker_leaves (hin rfl) (by rw [hpc]; rfl))
  | broadcast r =>
    rw [hpc] at h hin
    exact Option.some.inj h ▸ .inl (sections_worker_broadcasts (hin rfl) hpc)
  | dequeue =>
    rw [hpc] at hin
    simp only [hpc] at h
    cases hq : s.queue with
    | nil =>
      rw [hq] at h
      obtain rfl := Option.some.inj h
      refine .inl (sections_worker_inside (u := s) (hin rfl) rfl rfl rfl ?_)
      simp [hpc, State.workerOutcome, hq, WebServer.dequeue, State.done, State.atWorker]
    | cons r rest =>
      rw [hq] at h
      obtain rfl := Option.some.inj h
      refine .inl (sections_worker_inside (u := { s with queue := rest }) (hin rfl) rfl rfl rfl ?_)
      simp [hpc, State.workerOutcome, hq, WebServer.dequeue, State.done, State.atWorker]
  | testLoad r =>
    rw [hpc] at hin
    simp only [hpc] at h
    split at h
    · obtain rfl := Option.some.inj h
      refine .inl (sections_worker_inside (u := s) (hin rfl) rfl rfl rfl ?_)
      simp_all [State.workerOutcome, State.done, State.atWorker, State.loadTest]
    · obtain rfl := Option.some.inj h
      refine .inl (sections_worker_inside (u := s) (hin rfl) rfl rfl rfl ?_)
      simp_all [State.workerOutcome, State.done, State.atWorker, State.loadTest]
  | decrementQueue r =>
    rw [hpc] at h hin
    exact Option.some.inj h ▸ .inl (sections_worker_inside (u := { s with queueSize := _ })
      (hin rfl) rfl rfl rfl (by rw [hpc]; rfl))
  | incrementHandled r =>
    rw [hpc] at h hin
    exact Option.some.inj h ▸ .inl (sections_worker_inside (u := { s with currentlyHandled := _ })
      (hin rfl) rfl rfl rfl (by rw [hpc]; rfl))
  | decrementHandled r =>
    rw [hpc] at h hin
    exact Option.some.inj h ▸ .inl (sections_worker_inside (u := { s with currentlyHandled := _ })
      (hin rfl) rfl rfl rfl (by rw [hpc]; rfl))
  | close r =>
    rw [hpc] at h hin
    exact Option.some.inj h ▸ .inl (sections_worker_inside (u := { s with closed := _ })
      (hin rfl) rfl rfl rfl (by rw [hpc]; rfl))

end Worker

section Master
variable {rands : List ℕ} {r : Request}

/-- The master goes on in its section. -/
theorem sections_master_inside {u : State n} {pc : MasterPc} (hm : s.mutex = some .master)
    (hu : u.mutex = s.mutex) (hplaces : u.places = s.places)
    (ho : (u.atMaster pc).masterOutcome cfg pc = s.masterOutcome cfg s.master) :
    (u.atMaster pc).sections cfg = s.sections cfg := by
  have hmu : (u.atMaster pc).mutex = some .master := hu.trans hm
  rw [sections_of_master hm, sections_of_master hmu, ← ho, ← hplaces]
  rfl

/-- The master gives up the mutex at the end of its section. -/
theorem sections_master_leaves {pc : MasterPc} (hm : s.mutex = some .master)
    (ho : s.masterOutcome cfg s.master = s.done pc.outside) :
    (s.unlock.atMaster pc).sections cfg = s.sections cfg := by
  rw [sections_of_master hm, sections_of_free rfl, ho]
  rfl

theorem sections_master_waits (hm : s.mutex = some .master) (hpc : s.master = .blockWait r) :
    WebServer.next cfg (s.sections cfg) (.master rands) =
      some ((s.unlock.atMaster (.asleep r)).sections cfg) := by
  rw [sections_of_master hm, hpc, sections_of_free rfl]
  rfl

theorem sections_master_broadcasts (hm : s.mutex = some .master) (hpc : s.master = .broadcast) :
    (s.broadcast.atMaster .unlock).sections cfg = s.sections cfg := by
  have hmt : (s.broadcast.atMaster .unlock).mutex = some .master := hm
  have hplaces : (s.broadcast.atMaster .unlock).places = fun j => (s.places j).signal :=
    places_broadcast s
  rw [sections_of_master hm, hpc, sections_of_master hmt, hplaces]
  rfl

/-- The master takes the mutex for the admission tests. -/
theorem sections_master_admits (hm : s.mutex = none) (hpc : s.master = .lock r) :
    WebServer.next cfg (s.sections cfg) (.master rands) =
      some (({ s with mutex := some .master }.atMaster (.testHandled r)).sections cfg) := by
  set t := { s with mutex := some .master }.atMaster (.testHandled r)
  have hmt : t.mutex = some .master := rfl
  have hnext : WebServer.next cfg (s.sections cfg) (.master rands) =
      some ((s.sections cfg).admission cfg r) := by
    rw [sections_of_free hm, hpc]
    rfl
  rw [hnext, sections_of_master hmt, sections_of_free hm]
  have ho : t.masterOutcome cfg t.master =
      if s.currentlyHandled = cfg.qmaxSize ∧ cfg.policy ≠ .block then s.refused r
      else State.fullOutcome cfg s r := rfl
  have hplaces : t.places = s.places := rfl
  rw [ho, hplaces]
  unfold WebServer.State.admission State.fullOutcome
  by_cases hclosed : s.currentlyHandled = cfg.qmaxSize ∧ cfg.policy ≠ .block
  · simp [Outcome.ofMaster, State.done, State.refused, hclosed]
  · by_cases hfull : s.queueSize + s.currentlyHandled = cfg.qmaxSize
    · by_cases hdt : cfg.policy = .dt
      · simp [Outcome.ofMaster, State.done, State.refused, hfull, hdt]
      · simp [Outcome.ofMaster, State.done, hclosed, hfull, hdt]
    · by_cases hone : s.queueSize + 1 + s.currentlyHandled = 1
      · simp [Outcome.ofMaster, State.done, State.queuedOutcome, hclosed, hfull, hone,
          WebServer.State.broadcast, WebServer.MasterPc.signal]
      · simp [Outcome.ofMaster, State.done, State.queuedOutcome, hclosed, hfull, hone]

/-- The master takes the mutex in `handle_overload` under `block`. -/
theorem sections_master_blocks (hm : s.mutex = none) (hp : cfg.policy = .block)
    (hpc : s.master = .overloadLock r ∨ s.master = .woken r) :
    WebServer.next cfg (s.sections cfg) (.master rands) =
      some (({ s with mutex := some .master }.atMaster (.blockTest r)).sections cfg) := by
  set t := { s with mutex := some .master }.atMaster (.blockTest r)
  have hmt : t.mutex = some .master := rfl
  have hnext : WebServer.next cfg (s.sections cfg) (.master rands) =
      some ((s.sections cfg).handleOverload cfg r rands) := by
    rw [sections_of_free hm]
    obtain hpc | hpc := hpc <;> rw [hpc] <;> rfl
  rw [hnext, sections_of_master hmt, sections_of_free hm]
  have ho : t.masterOutcome cfg t.master =
      if s.queueSize + s.currentlyHandled = cfg.qmaxSize then
        { s.done (.window r) with keeps := true }
      else s.done (.enqueue r) := rfl
  have hplaces : t.places = s.places := rfl
  rw [ho, hplaces]
  by_cases hfull : s.queueSize + s.currentlyHandled = cfg.qmaxSize
  · simp [WebServer.State.handleOverload, hp, Outcome.ofMaster, State.done, hfull]
  · simp [WebServer.State.handleOverload, hp, Outcome.ofMaster, State.done, hfull]

/-- The master takes the mutex in `handle_overload` under `dh`. -/
theorem sections_master_heads (hm : s.mutex = none) (hp : cfg.policy = .dh)
    (hpc : s.master = .overloadLock r) :
    WebServer.next cfg (s.sections cfg) (.master rands) =
      some (({ s with mutex := some .master }.atMaster (.headDequeue r)).sections cfg) := by
  set t := { s with mutex := some .master }.atMaster (.headDequeue r)
  have hmt : t.mutex = some .master := rfl
  have hnext : WebServer.next cfg (s.sections cfg) (.master rands) =
      some ((s.sections cfg).handleOverload cfg r rands) := by
    rw [sections_of_free hm, hpc]
    rfl
  rw [hnext, sections_of_master hmt, sections_of_free hm]
  cases hq : s.queue with
  | nil =>
    simp [WebServer.State.handleOverload, hp, Outcome.ofMaster, State.done, t, State.atMaster,
      State.masterOutcome, State.headOutcome, hq, WebServer.dequeue, State.places]
  | cons tmp rest =>
    simp [WebServer.State.handleOverload, hp, Outcome.ofMaster, State.done, t, State.atMaster,
      State.masterOutcome, State.headOutcome, hq, WebServer.dequeue, State.places]

/-- Under `random` there is a place by now. -/
theorem sections_master_passes (hm : s.mutex = some .master) (hp : cfg.policy = .random)
    (hpc : s.master = .randomTest r) (hroom : s.queueSize + s.currentlyHandled ≠ cfg.qmaxSize) :
    WebServer.next cfg (s.sections cfg) (.master rands) =
      some ((s.atMaster (.overloadUnlock r)).sections cfg) := by
  have hmt : (s.atMaster (.overloadUnlock r)).mutex = some .master := hm
  rw [sections_of_master hm, sections_of_master hmt, hpc]
  simp only [WebServer.next, WebServer.State.masterStep, Outcome.ofMaster, State.masterOutcome,
    State.done]
  simp [WebServer.State.handleOverload, hp, hroom, State.atMaster, State.places]

/-- Under `random` the queue is thinned out. -/
theorem sections_master_drops (hm : s.mutex = some .master) (hp : cfg.policy = .random)
    (hpc : s.master = .randomDrop r) (hfull : s.queueSize + s.currentlyHandled = cfg.qmaxSize)
    (h : s.masterStep cfg rands = some t) :
    WebServer.next cfg (s.sections cfg) (.master rands) = some (t.sections cfg) := by
  simp only [State.masterStep, hpc] at h
  rw [sections_of_master hm, hpc]
  simp only [WebServer.next, WebServer.State.masterStep, Outcome.ofMaster, State.masterOutcome,
    State.done]
  cases hdrop : WebServer.randomDrop s.queue s.queueSize rands with
  | none =>
    simp only [hdrop] at h
    obtain rfl := Option.some.inj h
    have hmt : (s.atMaster .crashed).mutex = some .master := hm
    rw [sections_of_master hmt]
    simp [WebServer.State.handleOverload, hp, hfull, hdrop, State.atMaster, State.masterOutcome,
      Outcome.ofMaster, State.done, State.places]
  | some result =>
    simp only [hdrop] at h
    obtain rfl := Option.some.inj h
    rw [sections_of_master (by exact hm)]
    simp [WebServer.State.handleOverload, hp, hfull, hdrop, State.atMaster, State.masterOutcome,
      Outcome.ofMaster, State.done, State.places]
    rfl

/-- A statement of the master, but for its return from `handle_overload`, is a step of `Server`
or leaves its state as it is. -/
theorem simulates_master (hs : Tidy cfg s) (h : s.masterStep cfg rands = some t)
    (hno : ∀ r, s.master ≠ .overloadReturn r) :
    t.sections cfg = s.sections cfg ∨
      WebServer.next cfg (s.sections cfg) (.master rands) = some (t.sections cfg) := by
  have hin : s.master.inside = true → s.mutex = some .master := (hs.owned .master).mp
  have hsuits := hs.suits
  unfold State.Suits at hsuits
  have hstep := h
  unfold State.masterStep at h
  cases hpc : s.master with
  | lock r =>
    rw [hpc] at h
    obtain ⟨hm, rfl⟩ := lock_map_eq_some h
    exact .inr (sections_master_admits hm hpc)
  | woken r =>
    rw [hpc] at h hsuits
    obtain ⟨hm, rfl⟩ := lock_map_eq_some h
    exact .inr (sections_master_blocks hm hsuits (.inr hpc))
  | overloadLock r =>
    rw [hpc] at h
    obtain ⟨hm, rfl⟩ := lock_map_eq_some h
    cases hp : cfg.policy with
    | block => exact .inr (sections_master_blocks hm hp (.inl hpc))
    | dh => exact .inr (sections_master_heads hm hp hpc)
    | random =>
      -- the section counts as begun only when `random_drop` is called
      left
      rw [sections_of_free hm, hpc]
      rfl
    | dt =>
      right
      rw [sections_of_free hm, hpc]
      simp only [WebServer.next, WebServer.State.masterStep, WebServer.State.handleOverload, hp]
      rfl
  | testHandled r =>
    rw [hpc] at hin
    simp only [hpc] at h
    left
    split at h
    · obtain rfl := Option.some.inj h
      refine sections_master_inside (u := s) (hin rfl) rfl rfl ?_
      rw [hpc]
      exact (if_pos ‹_›).symm
    · obtain rfl := Option.some.inj h
      refine sections_master_inside (u := s) (hin rfl) rfl rfl ?_
      rw [hpc]
      exact (if_neg ‹_›).symm
  | testFull r =>
    rw [hpc] at hin
    simp only [hpc] at h
    left
    by_cases hfull : s.queueSize + s.currentlyHandled = cfg.qmaxSize
    · by_cases hdt : cfg.policy = .dt
      · simp only [hfull, hdt, if_true] at h
        obtain rfl := Option.some.inj h
        refine sections_master_inside (u := s) (hin rfl) rfl rfl ?_
        simp [hpc, State.masterOutcome, State.fullOutcome, hfull, hdt, State.refused, State.done,
          State.atMaster]
      · simp only [hfull, hdt, if_true, if_false] at h
        obtain rfl := Option.some.inj h
        refine sections_master_inside (u := s) (hin rfl) rfl rfl ?_
        simp [hpc, State.masterOutcome, State.fullOutcome, hfull, hdt, State.done, State.atMaster]
    · simp only [hfull, if_false] at h
      obtain rfl := Option.some.inj h
      refine sections_master_inside (u := s) (hin rfl) rfl rfl ?_
      simp [hpc, State.masterOutcome, State.fullOutcome, hfull, State.queuedOutcome, State.done,
        State.atMaster]
      rfl
  | blockTest r =>
    rw [hpc] at hin
    simp only [hpc] at h
    left
    by_cases hfull : s.queueSize + s.currentlyHandled = cfg.qmaxSize
    · simp only [hfull, if_true] at h
      obtain rfl := Option.some.inj h
      refine sections_master_inside (u := s) (hin rfl) rfl rfl ?_
      simp [hpc, State.masterOutcome, hfull, State.done, State.atMaster]
    · simp only [hfull, if_false] at h
      obtain rfl := Option.some.inj h
      refine sections_master_inside (u := s) (hin rfl) rfl rfl ?_
      simp [hpc, State.masterOutcome, hfull, State.done, State.atMaster]
  | randomTest r =>
    rw [hpc] at hin hsuits
    simp only [hpc] at h
    by_cases hfull : s.queueSize + s.currentlyHandled = cfg.qmaxSize
    · simp only [hfull, if_true] at h
      obtain rfl := Option.some.inj h
      refine .inl (sections_master_inside (u := s) (hin rfl) rfl rfl ?_)
      rw [hpc]
      rfl
    · simp only [hfull, if_false] at h
      exact Option.some.inj h ▸ .inr (sections_master_passes (hin rfl) hsuits hpc hfull)
  | randomDrop r =>
    rw [hpc] at hin hsuits
    exact .inr (sections_master_drops (hin rfl) hsuits.1 hpc hsuits.2 hstep)
  | headDequeue r =>
    rw [hpc] at hin
    simp only [hpc] at h
    left
    cases hq : s.queue with
    | nil =>
      rw [hq] at h
      obtain rfl := Option.some.inj h
      refine sections_master_inside (u := s) (hin rfl) rfl rfl ?_
      simp [hpc, State.masterOutcome, State.headOutcome, hq, WebServer.dequeue, State.done,
        State.atMaster]
    | cons tmp rest =>
      rw [hq] at h
      obtain rfl := Option.some.inj h
      refine sections_master_inside (u := { s with queue := rest }) (hin rfl) rfl rfl ?_
      simp [hpc, State.masterOutcome, State.headOutcome, hq, WebServer.dequeue, State.done,
        State.atMaster]
  | headDecrement r tmp =>
    rw [hpc] at h hin
    refine Option.some.inj h ▸ .inl (sections_master_inside (u := { s with queueSize := _ })
      (hin rfl) rfl rfl ?_)
    rw [hpc]
    cases tmp <;> rfl
  | headClose r tmp =>
    rw [hpc] at h hin
    left
    cases tmp with
    | none =>
      exact Option.some.inj h ▸ sections_master_inside (u := s) (hin rfl) rfl rfl (by rw [hpc]; rfl)
    | some tmp =>
      exact Option.some.inj h ▸ sections_master_inside (u := { s with closed := _ }) (hin rfl) rfl
        rfl (by rw [hpc]; rfl)
  | randomCount r =>
    rw [hpc] at h hin
    exact Option.some.inj h ▸ .inl (sections_master_inside (u := { s with queueSize := _ })
      (hin rfl) rfl rfl (by rw [hpc]; rfl))
  | count =>
    rw [hpc] at hin
    simp only [hpc] at h
    left
    by_cases hone : s.queueSize + 1 + s.currentlyHandled = 1
    · simp only [hone, if_true] at h
      obtain rfl := Option.some.inj h
      refine sections_master_inside (u := { s with queueSize := s.queueSize + 1 }) (hin rfl) rfl rfl ?_
      simp [hpc, State.masterOutcome, hone, State.done, State.atMaster]
    · simp only [hone, if_false] at h
      obtain rfl := Option.some.inj h
      refine sections_master_inside (u := { s with queueSize := s.queueSize + 1 }) (hin rfl) rfl rfl ?_
      simp [hpc, State.masterOutcome, hone, State.done, State.atMaster]
  | broadcast =>
    rw [hpc] at h hin
    exact Option.some.inj h ▸ .inl (sections_master_broadcasts (hin rfl) hpc)
  | enqueue r =>
    rw [hpc] at h hin
    exact Option.some.inj h ▸ .inl (sections_master_inside (u := { s with queue := _ })
      (hin rfl) rfl rfl (by rw [hpc]; rfl))
  | refuse r | dropTail r =>
    rw [hpc] at h hin
    exact Option.some.inj h ▸ .inl (sections_master_inside (u := { s with closed := _ })
      (hin rfl) rfl rfl (by rw [hpc]; rfl))
  | unlockFull r =>
    rw [hpc] at hin
    simp only [hpc] at h
    left
    split at h
    · exact Option.some.inj h ▸
        sections_master_leaves (hin rfl) (by simp [State.masterOutcome, *, MasterPc.outside])
    · exact Option.some.inj h ▸
        sections_master_leaves (hin rfl) (by simp [State.masterOutcome, *, MasterPc.outside])
  | blockWait r =>
    rw [hpc] at h hin
    exact Option.some.inj h ▸ .inr (sections_master_waits (hin rfl) hpc)
  | unlockRefused | overloadUnlock r | unlock =>
    rw [hpc] at h hin
    exact Option.some.inj h ▸ .inl (sections_master_leaves (hin rfl) (by rw [hpc]; rfl))
  | overloadReturn r => exact absurd hpc (hno r)
  | accept | asleep r | crashed =>
    rw [hpc] at h
    cases h

end Master

/-- The connections that `accept` returns in a step. -/
def arrivals : Label n → List Request
  | .accept r => [r]
  | _ => []

theorem sections_simulates (n : ℕ) (cfg : Config) :
    (server n cfg).SimulatesEvents (WebServer.server n cfg) noReturn (Tidy cfg)
      (State.sections cfg) (fun _ l => arrivals l) (fun _ l => arrivals l) where
  init := by
    rintro _ rfl
    rfl
  step s l t hs hok hnext := by
    cases l with
    | accept r =>
      obtain ⟨hpc, ht⟩ := Option.ite_none_right_eq_some.mp hnext
      refine .inr ⟨.accept r, ?_, rfl⟩
      rw [← Option.some.inj ht]
      refine sections_accept (fun hm => ?_) hpc
      have hinside := (hs.owned .master).mpr hm
      simp [State.inside, hpc, MasterPc.inside] at hinside
    | master rands =>
      obtain he | hstep := simulates_master hs hnext hok
      · exact .inl ⟨he, rfl⟩
      · exact .inr ⟨.master rands, hstep, rfl⟩
    | worker i =>
      obtain he | hstep := simulates_worker hs hnext
      · exact .inl ⟨he, rfl⟩
      · exact .inr ⟨.worker i, hstep, rfl⟩
    | wakeWorker i =>
      obtain ⟨hpc, ht⟩ := Option.ite_none_right_eq_some.mp hnext
      obtain rfl := Option.some.inj ht
      have hm : s.mutex ≠ some (.worker i) := fun hm => by
        have hinside := (hs.owned (.worker i)).mpr hm
        simp [State.inside, hpc, WorkerPc.inside] at hinside
      obtain he | hstep := sections_wakeWorker cfg hm hpc
      · exact .inl ⟨he, rfl⟩
      · exact .inr ⟨.wakeWorker i, hstep, rfl⟩
    | wakeMaster =>
      obtain ⟨r, hpc, rfl⟩ := next_wakeMaster cfg hnext
      have hm : s.mutex ≠ some .master := fun hm => by
        have hinside := (hs.owned .master).mpr hm
        simp [State.inside, hpc, MasterPc.inside] at hinside
      obtain he | hstep := sections_wakeMaster cfg hm hpc
      · exact .inl ⟨he, rfl⟩
      · exact .inr ⟨.wakeMaster, hstep, rfl⟩

theorem sections_reachable (h : (server n cfg).Reachable noReturn s) :
    (WebServer.server n cfg).Reachable TransitionSystem.always (s.sections cfg) :=
  (sections_simulates n cfg).simulates.reachable (fun _ => .of_reachable) h

/-- What is reached statement by statement before `handle_overload` returns, is reached section
by section with the same connections. -/
theorem statements_refine_sections {s : State n × List Request}
    (h : ((server n cfg).logged fun _ l => arrivals l).Reachable (fun s l => noReturn s.1 l) s) :
    ((WebServer.server n cfg).logged fun _ l => arrivals l).Reachable TransitionSystem.always
      (s.1.sections cfg, s.2) :=
  (sections_simulates n cfg).logged.reachable (fun _ hu => .of_reachable hu.of_logged) h

/-- Where the master is in `main` under `dt`. -/
def MasterPc.underDt : MasterPc → Bool
  | .accept | .lock _ | .testHandled _ | .refuse _ | .testFull _ | .dropTail _ | .unlockRefused
  | .enqueue _ | .count | .broadcast | .unlock => true
  | _ => false

theorem underDt_of_masterStep {rands : List ℕ} (hdt : cfg.policy = .dt)
    (hs : s.master.underDt = true) (h : s.masterStep cfg rands = some t) :
    t.master.underDt = true := by
  unfold State.masterStep at h
  cases hpc : s.master with
  | lock r =>
    rw [hpc] at h
    obtain ⟨-, rfl⟩ := lock_map_eq_some h
    rfl
  | testHandled r | testFull r | count =>
    simp only [hpc, hdt, if_true] at h
    repeat' split at h
    all_goals exact Option.some.inj h ▸ rfl
  | refuse r | dropTail r | unlockRefused | enqueue r | broadcast | unlock =>
    rw [hpc] at h
    exact Option.some.inj h ▸ rfl
  | accept =>
    rw [hpc] at h
    cases h
  | _ => simp [hpc, MasterPc.underDt] at hs

/-- Under `dt` the master never comes to `handle_overload`. -/
theorem underDt_of_next (hdt : cfg.policy = .dt) (hs : s.master.underDt = true)
    (h : next cfg s l = some t) : t.master.underDt = true := by
  cases l with
  | accept r =>
    obtain ⟨-, ht⟩ := Option.ite_none_right_eq_some.mp h
    exact Option.some.inj ht ▸ rfl
  | master rands => exact underDt_of_masterStep hdt hs h
  | worker i =>
    have hsignal : s.master.signal = s.master := by
      cases hpc : s.master <;> simp_all [MasterPc.underDt, MasterPc.signal]
    obtain he | he := master_of_workerStep h
    · exact he ▸ hs
    · rw [he, hsignal]
      exact hs
  | wakeWorker i =>
    obtain ⟨-, ht⟩ := Option.ite_none_right_eq_some.mp h
    exact Option.some.inj ht ▸ hs
  | wakeMaster =>
    obtain ⟨r, hpc, -⟩ := next_wakeMaster cfg h
    simp [hpc, MasterPc.underDt] at hs

theorem noReturn_of_underDt (hs : s.master.underDt = true) (l : Label n) : noReturn s l := by
  cases l with
  | master rands =>
    intro r hpc
    simp [hpc, MasterPc.underDt] at hs
  | _ => trivial

theorem noReturn_of_reachable (hdt : cfg.policy = .dt)
    (h : (server n cfg).Reachable TransitionSystem.always s) :
    (server n cfg).Reachable noReturn s ∧ s.master.underDt = true := by
  refine h.restrict (I := fun s => s.master.underDt = true) ?_ ?_ ?_
  · rintro _ rfl
    rfl
  · exact fun u l v hu _ hs => underDt_of_next hdt hu hs
  · exact fun u l hu _ => noReturn_of_underDt hu l

/-- A worker outside its sections has a request. -/
def WorkerPc.handling : WorkerPc → Bool
  | .handle _ | .relock _ => true
  | _ => false

theorem WorkerPc.inService_outside (pc : WorkerPc) : pc.outside.inService = pc.handling := by
  cases pc <;> rfl

/-- Under `dt`, whatever the order of the statements, the counters are exact whenever nobody has
the mutex, and the limit is kept. -/
theorem dt_statements_exact (hdt : cfg.policy = .dt) (hq : 1 ≤ cfg.qmaxSize)
    (h : (server n cfg).Reachable TransitionSystem.always s) (hm : s.mutex = none) :
    s.queueSize = s.queue.length ∧ s.currentlyHandled = countOf WorkerPc.handling s.worker ∧
      s.queueSize + s.currentlyHandled ≤ cfg.qmaxSize := by
  have hc := counters_of_reachable (.inl hdt) hq (sections_reachable (noReturn_of_reachable hdt h).1)
  obtain ⟨handled, size, bound, drops⟩ := hc
  have hmaster : (s.sections cfg).master.uncounted = 0 ∧ (s.sections cfg).master.promised = 0 := by
    obtain ho | ⟨r, ho⟩ := drops hdt <;> rw [ho] <;> exact ⟨rfl, rfl⟩
  have hcount : (s.sections cfg).inService = countOf WorkerPc.handling s.worker := by
    rw [sections_of_free hm]
    simp [WebServer.State.inService, Outcome.ofMaster, State.done, countOf, State.places,
      WorkerPc.inService_outside]
  rw [hmaster.1] at size
  rw [hmaster.2] at bound
  rw [hcount] at handled bound
  rw [sections_of_free hm] at handled size bound
  simp only [Outcome.ofMaster, State.done] at handled size bound
  exact ⟨by omega, handled, by omega⟩

/-- A connection has been accepted, and the master has taken the mutex and tested
`currently_handled`. -/
theorem statements_refine_sections_admitted :
    ∃ s : State 1 × List Request, s.1.mutex = some .master ∧ s.2 = [⟨4, 0, 0⟩] ∧
      ((WebServer.server 1 ⟨.block, 1⟩).logged fun _ l => arrivals l).Reachable
        TransitionSystem.always (s.1.sections ⟨.block, 1⟩, s.2) := by
  let r : Request := ⟨4, 0, 0⟩
  let u : State 1 := (initial 1).atMaster (.lock r)
  have hu : ((server 1 ⟨.block, 1⟩).logged fun _ l => arrivals l).Reachable
      (fun s l => noReturn s.1 l) (u, [r]) :=
    .step (l := .accept r) (.init (s := (initial 1, [])) ⟨rfl, rfl⟩) trivial rfl
  have hok : noReturn u (.master []) := by simp [noReturn, u, State.atMaster]
  have hv := hu.step (l := .master [])
    (t := ({ u with mutex := some .master }.atMaster (.testHandled r), [r])) hok rfl
  exact ⟨_, rfl, rfl, statements_refine_sections hv⟩

/-- The only worker handles a connection. -/
theorem dt_statements_exact_handling : ∃ s : State 1, s.mutex = none ∧
    s.currentlyHandled = 1 ∧ s.queueSize = s.queue.length ∧
      s.currentlyHandled = countOf WorkerPc.handling s.worker ∧
      s.queueSize + s.currentlyHandled ≤ 1 := by
  obtain ⟨s, -, hs, hp⟩ := TransitionSystem.exists_of_run (S := server 1 ⟨.dt, 1⟩)
    TransitionSystem.always
    ([.accept ⟨4, 0, 0⟩] ++ List.replicate 7 (.master []) ++ List.replicate 5 (.worker 0))
    (fun s => s.mutex = none ∧ s.currentlyHandled = 1) rfl (fun _ _ _ => trivial)
    (by decide +kernel)
  obtain ⟨hm, hone⟩ := of_decide_eq_true hp
  exact ⟨s, hm, hone, dt_statements_exact rfl le_rfl hs hm⟩

end FtfSystems.WebServer.Statements

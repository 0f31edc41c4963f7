import FtfSystems.WebServer.Statements

/-!
# The lock discipline

Every thread takes the mutex before it uses the shared variables and gives it up itself, with
one exception: `main` gives it up before it calls `handle_overload` and goes on after the call
as if it still had it. As long as `handle_overload` does not return, a thread has the mutex
exactly between the statements that take it and those that give it up.
-/
namespace FtfSystems.WebServer.Statements
open Foundation

variable {n : ℕ} {cfg : Config} {s t : State n} {l : Label n}

/-- The statement reads or writes `head`, `tail`, `queue_size` or `currently_handled`. -/
def WorkerPc.usesShared : WorkerPc → Bool
  | .dequeue | .decrementQueue _ | .incrementHandled _ | .decrementHandled _ | .testLoad _ => true
  | _ => false

/-- The statement gives up the mutex, for good or to wait. -/
def WorkerPc.givesUp : WorkerPc → Bool
  | .wait | .unlockTaken _ | .unlockDone => true
  | _ => false

/-- The statement comes after one that takes the mutex. -/
def WorkerPc.inside : WorkerPc → Bool
  | .lock | .asleep | .woken | .handle _ | .relock _ => false
  | _ => true

def MasterPc.usesShared : MasterPc → Bool
  | .testHandled _ | .testFull _ | .blockTest _ | .headDequeue _ | .headDecrement _ _
  | .randomTest _ | .randomDrop _ | .randomCount _ | .enqueue _ | .count => true
  | _ => false

def MasterPc.givesUp : MasterPc → Bool
  | .unlockRefused | .unlockFull _ | .blockWait _ | .overloadUnlock _ | .unlock => true
  | _ => false

def MasterPc.inside : MasterPc → Bool
  | .accept | .lock _ | .overloadLock _ | .asleep _ | .woken _ | .overloadReturn _ => false
  | _ => true

namespace State

def usesShared (s : State n) : Thread n → Bool
  | .master => s.master.usesShared
  | .worker i => (s.worker i).usesShared

def givesUp (s : State n) : Thread n → Bool
  | .master => s.master.givesUp
  | .worker i => (s.worker i).givesUp

def inside (s : State n) : Thread n → Bool
  | .master => s.master.inside
  | .worker i => (s.worker i).inside

end State

/-- The thread that takes a step. The kernel accepts connections and wakes threads up. -/
def mover : Label n → Option (Thread n)
  | .master _ => some .master
  | .worker i => some (.worker i)
  | _ => none

/-- A thread that uses the shared variables or gives up the mutex in the step has the mutex. -/
def Disciplined (s : State n) (l : Label n) : Prop :=
  ∀ θ, mover l = some θ → s.usesShared θ = true ∨ s.givesUp θ = true → s.mutex = some θ

/-- The step is not the return from `handle_overload`. -/
def noReturn (s : State n) : Label n → Prop
  | .master _ => ∀ r, s.master ≠ .overloadReturn r
  | _ => True

/-- The threads inside a section have the mutex, and no others. -/
def Owned (s : State n) : Prop := ∀ θ, s.inside θ = true ↔ s.mutex = some θ

/-- How a step changes the owner of the mutex. -/
def Moves (s : State n) (θ : Thread n) (t : State n) : Prop :=
  (∀ φ, φ ≠ θ → t.inside φ = s.inside φ) ∧
    ((t.inside θ = s.inside θ ∧ t.mutex = s.mutex) ∨
      (t.inside θ = true ∧ s.mutex = none ∧ t.mutex = some θ) ∨
      (s.inside θ = true ∧ t.inside θ = false ∧ t.mutex = none))

theorem Owned.moves {θ : Thread n} (h : Owned s) (hm : Moves s θ t) : Owned t := by
  obtain ⟨hothers, hsame | htake | hgive⟩ := hm
  · intro φ
    by_cases hφ : φ = θ
    · rw [hφ, hsame.1, hsame.2]
      exact h θ
    · rw [hothers φ hφ, hsame.2]
      exact h φ
  · intro φ
    by_cases hφ : φ = θ
    · simp [hφ, htake]
    · have hout := h φ
      rw [htake.2.1] at hout
      rw [hothers φ hφ, htake.2.2]
      simp only [reduceCtorEq, iff_false] at hout
      simp [hout, Ne.symm hφ]
  · intro φ
    by_cases hφ : φ = θ
    · simp [hφ, hgive]
    · have howner := (h θ).mp hgive.1
      have hout := h φ
      rw [howner] at hout
      rw [hothers φ hφ, hgive.2.2]
      simpa [Ne.symm hφ] using hout

theorem State.inside_broadcast (s : State n) (θ : Thread n) :
    s.broadcast.inside θ = s.inside θ := by
  cases θ with
  | master =>
    show s.master.signal.inside = s.master.inside
    cases s.master <;> rfl
  | worker i =>
    show (s.worker i).signal.inside = (s.worker i).inside
    cases s.worker i <;> rfl

/-- A worker goes on to `pc` from a state with the statements of `s`. -/
theorem moves_atWorker {u : State n} {i : Fin n} {pc : WorkerPc}
    (hu : ∀ φ, u.inside φ = s.inside φ)
    (h : (pc.inside = (s.worker i).inside ∧ u.mutex = s.mutex) ∨
      (pc.inside = true ∧ s.mutex = none ∧ u.mutex = some (.worker i)) ∨
      ((s.worker i).inside = true ∧ pc.inside = false ∧ u.mutex = none)) :
    Moves s (.worker i) (u.atWorker i pc) := by
  have hself : (u.atWorker i pc).inside (.worker i) = pc.inside := by
    simp [State.inside, State.atWorker]
  refine ⟨fun φ hφ => ?_, ?_⟩
  · rw [← hu φ]
    cases φ with
    | master => rfl
    | worker j =>
      have hj : j ≠ i := fun he => hφ (by rw [he])
      simp [State.inside, State.atWorker, hj]
  · rw [hself]
    exact h

theorem moves_atMaster {u : State n} {pc : MasterPc}
    (hu : ∀ i, (u.worker i).inside = (s.worker i).inside)
    (h : (pc.inside = s.master.inside ∧ u.mutex = s.mutex) ∨
      (pc.inside = true ∧ s.mutex = none ∧ u.mutex = some .master) ∨
      (s.master.inside = true ∧ pc.inside = false ∧ u.mutex = none)) :
    Moves s .master (u.atMaster pc) := by
  refine ⟨fun φ hφ => ?_, h⟩
  cases φ with
  | master => exact absurd rfl hφ
  | worker j => exact hu j

theorem lock_map_eq_some {θ : Thread n} {f : State n → State n} (h : (s.lock θ).map f = some t) :
    s.mutex = none ∧ t = f { s with mutex := some θ } := by
  obtain ⟨u, hu, rfl⟩ := Option.map_eq_some_iff.mp h
  obtain ⟨hm, hu⟩ := Option.ite_none_right_eq_some.mp hu
  exact ⟨hm, by rw [← Option.some.inj hu]⟩

theorem moves_of_workerStep {i : Fin n} (h : s.workerStep cfg i = some t) :
    Moves s (.worker i) t := by
  unfold State.workerStep at h
  cases hpc : s.worker i with
  | lock | woken | relock r =>
    rw [hpc] at h
    obtain ⟨hm, rfl⟩ := lock_map_eq_some h
    exact moves_atWorker (fun _ => rfl) (.inr (.inl ⟨rfl, hm, rfl⟩))
  | dequeue =>
    simp only [hpc] at h
    split at h
    · exact Option.some.inj h ▸ moves_atWorker (fun _ => rfl) (.inl ⟨by rw [hpc]; rfl, rfl⟩)
    · exact Option.some.inj h ▸ moves_atWorker (fun _ => rfl) (.inl ⟨by rw [hpc]; rfl, rfl⟩)
  | testLoad r =>
    simp only [hpc] at h
    split at h
    · exact Option.some.inj h ▸ moves_atWorker (fun _ => rfl) (.inl ⟨by rw [hpc]; rfl, rfl⟩)
    · exact Option.some.inj h ▸ moves_atWorker (fun _ => rfl) (.inl ⟨by rw [hpc]; rfl, rfl⟩)
  | broadcast r =>
    rw [hpc] at h
    exact Option.some.inj h ▸ moves_atWorker s.inside_broadcast (.inl ⟨by rw [hpc]; rfl, rfl⟩)
  | wait | unlockTaken r | unlockDone =>
    rw [hpc] at h
    exact Option.some.inj h ▸
      moves_atWorker (fun _ => rfl) (.inr (.inr ⟨by rw [hpc]; rfl, rfl, rfl⟩))
  | decrementQueue r | incrementHandled r | handle r | decrementHandled r | close r =>
    rw [hpc] at h
    exact Option.some.inj h ▸ moves_atWorker (fun _ => rfl) (.inl ⟨by rw [hpc]; rfl, rfl⟩)
  | asleep =>
    rw [hpc] at h
    cases h

theorem moves_of_masterStep {rands : List ℕ} (h : s.masterStep cfg rands = some t)
    (hno : ∀ r, s.master ≠ .overloadReturn r) : Moves s .master t := by
  unfold State.masterStep at h
  cases hpc : s.master with
  | lock r | woken r =>
    rw [hpc] at h
    obtain ⟨hm, rfl⟩ := lock_map_eq_some h
    exact moves_atMaster (fun _ => rfl) (.inr (.inl ⟨rfl, hm, rfl⟩))
  | overloadLock r =>
    rw [hpc] at h
    obtain ⟨hm, rfl⟩ := lock_map_eq_some h
    refine moves_atMaster (fun _ => rfl) (.inr (.inl ⟨?_, hm, rfl⟩))
    cases cfg.policy <;> rfl
  | testHandled r | testFull r | blockTest r | randomTest r | count =>
    simp only [hpc] at h
    repeat' split at h
    all_goals
      exact Option.some.inj h ▸ moves_atMaster (fun _ => rfl) (.inl ⟨by rw [hpc]; rfl, rfl⟩)
  | headDequeue r | randomDrop r =>
    simp only [hpc] at h
    split at h
    · exact Option.some.inj h ▸ moves_atMaster (fun _ => rfl) (.inl ⟨by rw [hpc]; rfl, rfl⟩)
    · exact Option.some.inj h ▸ moves_atMaster (fun _ => rfl) (.inl ⟨by rw [hpc]; rfl, rfl⟩)
  | headClose r tmp =>
    rw [hpc] at h
    cases tmp with
    | none =>
      exact Option.some.inj h ▸ moves_atMaster (fun _ => rfl) (.inl ⟨by rw [hpc]; rfl, rfl⟩)
    | some tmp =>
      exact Option.some.inj h ▸ moves_atMaster (fun _ => rfl) (.inl ⟨by rw [hpc]; rfl, rfl⟩)
  | broadcast =>
    rw [hpc] at h
    exact Option.some.inj h ▸ moves_atMaster (fun i => s.inside_broadcast (.worker i))
      (.inl ⟨by rw [hpc]; rfl, rfl⟩)
  | unlockFull r =>
    simp only [hpc] at h
    split at h
    · exact Option.some.inj h ▸
        moves_atMaster (fun _ => rfl) (.inr (.inr ⟨by rw [hpc]; rfl, rfl, rfl⟩))
    · exact Option.some.inj h ▸
        moves_atMaster (fun _ => rfl) (.inr (.inr ⟨by rw [hpc]; rfl, rfl, rfl⟩))
  | unlockRefused | blockWait r | overloadUnlock r | unlock =>
    rw [hpc] at h
    exact Option.some.inj h ▸
      moves_atMaster (fun _ => rfl) (.inr (.inr ⟨by rw [hpc]; rfl, rfl, rfl⟩))
  | refuse r | dropTail r | headDecrement r tmp | randomCount r | enqueue r =>
    rw [hpc] at h
    exact Option.some.inj h ▸ moves_atMaster (fun _ => rfl) (.inl ⟨by rw [hpc]; rfl, rfl⟩)
  | overloadReturn r => exact absurd hpc (hno r)
  | accept | asleep r | crashed =>
    rw [hpc] at h
    cases h

theorem moves_of_next (hok : noReturn s l) (hs : next cfg s l = some t) : ∃ θ, Moves s θ t := by
  cases l with
  | accept r =>
    obtain ⟨hpc, ht⟩ := Option.ite_none_right_eq_some.mp hs
    refine ⟨.master, ?_⟩
    exact Option.some.inj ht ▸ moves_atMaster (fun _ => rfl) (.inl ⟨by rw [hpc]; rfl, rfl⟩)
  | master rands => exact ⟨.master, moves_of_masterStep hs hok⟩
  | worker i => exact ⟨.worker i, moves_of_workerStep hs⟩
  | wakeWorker i =>
    obtain ⟨hpc, ht⟩ := Option.ite_none_right_eq_some.mp hs
    refine ⟨.worker i, ?_⟩
    exact Option.some.inj ht ▸ moves_atWorker (fun _ => rfl) (.inl ⟨by rw [hpc]; rfl, rfl⟩)
  | wakeMaster =>
    unfold next at hs
    cases hpc : s.master with
    | asleep r =>
      rw [hpc] at hs
      refine ⟨.master, ?_⟩
      exact Option.some.inj hs ▸ moves_atMaster (fun _ => rfl) (.inl ⟨by rw [hpc]; rfl, rfl⟩)
    | _ => simp [hpc] at hs

/-- `handle_overload` returns to the statement that queues the request. -/
theorem next_of_return (hret : ¬ noReturn s l) (hs : next cfg s l = some t) :
    ∃ r, s.master = .overloadReturn r ∧ t = s.atMaster (.enqueue r) := by
  cases l with
  | master rands =>
    obtain ⟨r, hpc⟩ : ∃ r, s.master = .overloadReturn r := by simpa [noReturn] using hret
    refine ⟨r, hpc, ?_⟩
    simpa [next, State.masterStep, hpc, eq_comm] using hs
  | _ => exact absurd trivial hret

theorem Owned.disciplined (h : Owned s) (l : Label n) : Disciplined s l := by
  intro θ _ huse
  refine (h θ).mp ?_
  cases θ with
  | master =>
    simp only [State.usesShared, State.givesUp, State.inside] at huse ⊢
    cases hpc : s.master <;> simp_all [MasterPc.usesShared, MasterPc.givesUp, MasterPc.inside]
  | worker i =>
    simp only [State.usesShared, State.givesUp, State.inside] at huse ⊢
    cases hpc : s.worker i <;> simp_all [WorkerPc.usesShared, WorkerPc.givesUp, WorkerPc.inside]

/-- In any run the mutex can be the master's only where the master takes it to be. -/
theorem Moves.master_inside {θ : Thread n} (hm : Moves s θ t)
    (hs : s.mutex = some .master → s.inside .master = true) (ht : t.mutex = some .master) :
    t.inside .master = true := by
  obtain ⟨hothers, hsame | htake | hgive⟩ := hm
  · rw [hsame.2] at ht
    by_cases hθ : θ = .master
    · subst hθ
      rw [hsame.1]
      exact hs ht
    · rw [hothers .master (Ne.symm hθ)]
      exact hs ht
  · obtain rfl : θ = .master := by simpa [htake.2.2] using ht
    exact htake.1
  · simp [hgive.2.2] at ht

theorem master_inside_of_owner (h : (server n cfg).Reachable TransitionSystem.always s) :
    s.mutex = some .master → s.inside .master = true := by
  refine h.invariant (I := fun s => s.mutex = some .master → s.inside .master = true) ?_ ?_
  · rintro _ rfl hm
    cases hm
  · intro u l v hu _ hs
    by_cases hok : noReturn u l
    · obtain ⟨θ, hm⟩ := moves_of_next hok hs
      exact hm.master_inside hu
    · obtain ⟨r, -, rfl⟩ := next_of_return hok hs
      exact fun _ => rfl

/-- In every run in which `handle_overload` does not return, every step keeps to the lock
discipline. Where it returns, the next statement of the master breaks it. -/
theorem lock_discipline :
    (∀ s : State n, (server n cfg).Reachable noReturn s → ∀ l, Disciplined s l) ∧
    ∀ (s t : State n) (l : Label n), (server n cfg).Reachable TransitionSystem.always s →
      next cfg s l = some t → ¬ noReturn s l → ∀ rands, ¬ Disciplined t (.master rands) := by
  constructor
  · intro s h l
    refine Owned.disciplined (h.invariant ?_ ?_) l
    · rintro _ rfl θ
      cases θ <;> simp [initial, State.inside, MasterPc.inside, WorkerPc.inside]
    · intro u l v hu hok hs
      obtain ⟨θ, hm⟩ := moves_of_next hok hs
      exact hu.moves hm
  · intro s t l h hs hret rands hdisc
    obtain ⟨r, hpc, rfl⟩ := next_of_return hret hs
    have howner : s.mutex = some .master := hdisc .master rfl (.inl rfl)
    have hinside := master_inside_of_owner h howner
    simp [State.inside, hpc, MasterPc.inside] at hinside

/-- The master takes the mutex and tests `currently_handled`. -/
theorem lock_discipline_first : ∃ s : State 1,
    (server 1 ⟨.block, 1⟩).Reachable noReturn s ∧ s.usesShared .master = true ∧
      s.mutex = some .master := by
  let r : Request := ⟨4, 0, 0⟩
  let u : State 1 := (initial 1).atMaster (.lock r)
  have hu : (server 1 ⟨.block, 1⟩).Reachable noReturn u :=
    .step (l := .accept r) (.init rfl) trivial rfl
  have hok : noReturn u (.master []) := by simp [noReturn, u, State.atMaster]
  have hv := hu.step (l := .master []) (t := { u with mutex := some .master }.atMaster (.testHandled r))
    hok rfl
  exact ⟨_, hv, rfl, lock_discipline.1 _ hv (.master []) .master rfl (.inl rfl)⟩

/-- The master waits for the only worker with its second connection, and the worker finishes. -/
def overloadedRun : List (Label 1) :=
  List.flatten [[.accept ⟨4, 0, 0⟩], .replicate 7 (.master []), [.accept ⟨5, 1, 0⟩],
    .replicate 4 (.master []), .replicate 12 (.worker 0), .replicate 4 (.master []), [.worker 0]]

/-- The master comes back from `handle_overload` and queues the second connection while the
only worker is about to call `dequeue` with the mutex. -/
theorem enqueue_without_mutex : ∃ s : State 1,
    (server 1 ⟨.block, 1⟩).Reachable TransitionSystem.always s ∧
      (∃ t, next ⟨.block, 1⟩ s (.master []) = some t ∧ t.queue ≠ s.queue) ∧
      s.mutex = some (.worker 0) ∧ ¬ Disciplined s (.master []) := by
  let r : Request := ⟨5, 1, 0⟩
  obtain ⟨s, -, hs, hp⟩ := TransitionSystem.exists_of_run (S := server 1 ⟨.block, 1⟩)
    TransitionSystem.always overloadedRun
    (fun s => s.master = .enqueue r ∧ s.mutex = some (.worker 0)) rfl (fun _ _ _ => trivial)
    (by decide +kernel)
  obtain ⟨hpc, hm⟩ := of_decide_eq_true hp
  refine ⟨s, hs, ⟨{ s with queue := enqueue s.queue r }.atMaster .count, ?_, ?_⟩, hm,
    fun hdisc => ?_⟩
  · simp [next, State.masterStep, hpc, State.atMaster]
  · simp [State.atMaster, enqueue]
  · have howner := hdisc .master rfl (.inl (by rw [State.usesShared, hpc]; rfl))
    simp [hm] at howner

end FtfSystems.WebServer.Statements

import FtfSystems.Foundation.Simulation
import FtfSystems.WebServer.LockDiscipline

/-!
# The order of service

A run of the statements with a log of the connections that `accept` has returned, that the
master has queued and that `dequeue` has handed to a worker. The order of the log is the order
in which they arrived, whatever the workers do and whichever policy drops some of them; the
policies differ in what can be missing. The master queues without the mutex after
`handle_overload`; as a single statement this still adds at the end.
-/
namespace FtfSystems.WebServer.Statements
open Foundation

variable {n : ℕ} {cfg : Config} {s t : State n} {l : Label n}

inductive Event where
  | arrived (r : Request)
  | queued (r : Request)
  | taken (r : Request)

/-- What the step adds to the log. -/
def event (s : State n) : Label n → List Event
  | .accept r => [.arrived r]
  | .master _ =>
    match s.master with
    | .enqueue r => [.queued r]
    | _ => []
  | .worker i =>
    match s.worker i, s.queue with
    | .dequeue, r :: _ => [.taken r]
    | _, _ => []
  | _ => []

def arrived (log : List Event) : List Request :=
  log.filterMap fun | .arrived r => some r | _ => none

def queued (log : List Event) : List Request :=
  log.filterMap fun | .queued r => some r | _ => none

def taken (log : List Event) : List Request :=
  log.filterMap fun | .taken r => some r | _ => none

/-- The connection that the master has neither queued nor closed. -/
def MasterPc.inHand : MasterPc → List Request
  | .lock r | .testHandled r | .refuse r | .testFull r | .dropTail r | .unlockFull r
  | .overloadLock r | .blockTest r | .blockWait r | .asleep r | .woken r | .headDequeue r
  | .headDecrement r _ | .headClose r _ | .randomTest r | .randomDrop r | .randomCount r
  | .overloadUnlock r | .overloadReturn r | .enqueue r => [r]
  | .accept | .unlockRefused | .count | .broadcast | .unlock | .crashed => []

/-- The policies under which the master closes a connection or drops nodes. -/
def MasterPc.under (policy : Policy) : MasterPc → Prop
  | .refuse _ => policy ≠ .block
  | .dropTail _ => policy = .dt
  | .headDequeue _ | .headDecrement _ _ | .headClose _ _ => policy = .dh
  | .randomTest _ | .randomDrop _ => policy = .random
  | _ => True

/-- What a step does to the queue and to the connection in hand. -/
inductive Moved (policy : Policy) (s t : State n) : List Event → Prop
  | idle (hq : t.queue = s.queue) (hh : t.master.inHand = s.master.inHand) : Moved policy s t []
  | arrive {r : Request} (hq : t.queue = s.queue) (hs : s.master.inHand = [])
      (ht : t.master.inHand = [r]) : Moved policy s t [.arrived r]
  | enqueue {r : Request} (hq : t.queue = s.queue ++ [r]) (hs : s.master.inHand = [r])
      (ht : t.master.inHand = []) : Moved policy s t [.queued r]
  | take {r : Request} {rest : List Request} (hs : s.queue = r :: rest) (ht : t.queue = rest)
      (hh : t.master.inHand = s.master.inHand) : Moved policy s t [.taken r]
  /-- A connection is closed, or lost in a crash. -/
  | close (hp : policy ≠ .block) (hq : t.queue = s.queue) (ht : t.master.inHand = []) :
      Moved policy s t []
  | drop (hp : policy = .dh ∨ policy = .random) (hq : t.queue.Sublist s.queue)
      (hh : t.master.inHand = s.master.inHand) : Moved policy s t []

theorem dropNode_sublist (nodeToDelete : ℤ) (queue : List Request) :
    (dropNode nodeToDelete queue).1.Sublist queue := by
  induction queue generalizing nodeToDelete with
  | nil => exact .slnil
  | cons tmp rest ih =>
    unfold dropNode
    split
    · exact (ih (nodeToDelete - 1)).cons_cons tmp
    · exact List.sublist_cons_self tmp rest

theorem dropRounds_sublist {rands : List ℕ} {higher : ℤ} {k : ℕ}
    {queue : List Request} {result : List Request × List CloseArg}
    (h : dropRounds rands higher k queue = some result) : result.1.Sublist queue := by
  induction k generalizing rands higher queue result with
  | zero =>
    obtain rfl := Option.some.inj h
    exact .refl queue
  | succ k ih =>
    unfold dropRounds at h
    split at h
    · cases h
    · cases queue with
      | nil =>
        obtain rfl := Option.some.inj h
        exact .slnil
      | cons head nodes =>
        cases nodes with
        | nil =>
          obtain rfl := Option.some.inj h
          exact .refl _
        | cons node nodes =>
          obtain ⟨u, hu, rfl⟩ := Option.map_eq_some_iff.mp h
          have hleft := dropNode_sublist ((rands.headD 0 : ℤ).tmod (higher + 1) - 1) (node :: nodes)
          exact (ih hu).trans (hleft.cons_cons head)

theorem randomDrop_sublist {queue : List Request} {q : ℤ} {rands : List ℕ}
    {result : List Request × List CloseArg} (h : randomDrop queue q rands = some result) :
    result.1.Sublist queue := by
  by_cases hq : queue = []
  · simp only [randomDrop, hq, if_true] at h
    obtain rfl := Option.some.inj h
    exact List.nil_sublist queue
  · simp only [randomDrop, hq, if_false] at h
    exact dropRounds_sublist h

theorem MasterPc.inHand_signal (pc : MasterPc) : pc.signal.inHand = pc.inHand := by
  cases pc <;> rfl

theorem MasterPc.under_signal {policy : Policy} {pc : MasterPc} (h : pc.under policy) :
    pc.signal.under policy := by
  cases pc <;> exact h

theorem moved_of_workerStep {i : Fin n} (h : s.workerStep cfg i = some t) :
    Moved cfg.policy s t (event s (.worker i)) ∧
      (t.master = s.master ∨ t.master = s.master.signal) := by
  unfold State.workerStep at h
  cases hpc : s.worker i with
  | lock | woken | relock r =>
    rw [hpc] at h
    obtain ⟨-, rfl⟩ := lock_map_eq_some h
    simp only [event, hpc]
    exact ⟨.idle rfl rfl, .inl rfl⟩
  | dequeue =>
    simp only [hpc] at h
    simp only [event, hpc]
    cases hq : s.queue with
    | nil =>
      rw [hq] at h
      obtain rfl := Option.some.inj h
      exact ⟨.idle rfl rfl, .inl rfl⟩
    | cons r rest =>
      rw [hq] at h
      obtain rfl := Option.some.inj h
      exact ⟨.take hq rfl rfl, .inl rfl⟩
  | testLoad r =>
    simp only [hpc] at h
    simp only [event, hpc]
    split at h <;> exact Option.some.inj h ▸ ⟨.idle rfl rfl, .inl rfl⟩
  | broadcast r =>
    rw [hpc] at h
    obtain rfl := Option.some.inj h
    simp only [event, hpc]
    exact ⟨.idle rfl (MasterPc.inHand_signal s.master), .inr rfl⟩
  | asleep =>
    rw [hpc] at h
    cases h
  | _ =>
    rw [hpc] at h
    simp only [event, hpc]
    exact Option.some.inj h ▸ ⟨.idle rfl rfl, .inl rfl⟩

theorem moved_of_masterStep {rands : List ℕ} (hs : s.master.under cfg.policy)
    (h : s.masterStep cfg rands = some t) :
    Moved cfg.policy s t (event s (.master rands)) ∧ t.master.under cfg.policy := by
  unfold State.masterStep at h
  cases hpc : s.master with
  | lock r | woken r =>
    rw [hpc] at h
    obtain ⟨-, rfl⟩ := lock_map_eq_some h
    simp only [event, hpc]
    exact ⟨.idle rfl (by rw [hpc]; rfl), trivial⟩
  | overloadLock r =>
    rw [hpc] at h
    obtain ⟨-, rfl⟩ := lock_map_eq_some h
    simp only [event, hpc]
    cases hp : cfg.policy <;> refine ⟨.idle rfl (by rw [hpc]; rfl), ?_⟩ <;>
      simp [State.overloadBody, State.atMaster, MasterPc.under]
  | testHandled r | testFull r | blockTest r | randomTest r | unlockFull r =>
    simp only [hpc] at h hs
    simp only [event, hpc]
    repeat' split at h
    all_goals
      obtain rfl := Option.some.inj h
      refine ⟨.idle rfl (by rw [hpc]; rfl), ?_⟩
      simp_all [State.atMaster, MasterPc.under]
  | count =>
    simp only [hpc] at h
    simp only [event, hpc]
    split at h <;> exact Option.some.inj h ▸ ⟨.idle rfl (by rw [hpc]; rfl), trivial⟩
  | refuse r =>
    rw [hpc] at h hs
    simp only [event, hpc]
    exact Option.some.inj h ▸ ⟨.close hs rfl rfl, trivial⟩
  | dropTail r =>
    rw [hpc] at h hs
    simp only [event, hpc]
    have hdt : cfg.policy = .dt := hs
    exact Option.some.inj h ▸ ⟨.close (by simp [hdt]) rfl rfl, trivial⟩
  | headDequeue r =>
    rw [hpc] at hs
    simp only [hpc] at h
    simp only [event, hpc]
    cases hq : s.queue with
    | nil =>
      rw [hq] at h
      exact Option.some.inj h ▸ ⟨.idle rfl (by rw [hpc]; rfl), hs⟩
    | cons tmp rest =>
      rw [hq] at h
      refine Option.some.inj h ▸ ⟨.drop (.inl hs) ?_ (by rw [hpc]; rfl), hs⟩
      rw [hq]
      exact List.sublist_cons_self tmp rest
  | headDecrement r tmp =>
    rw [hpc] at h hs
    simp only [event, hpc]
    exact Option.some.inj h ▸ ⟨.idle rfl (by rw [hpc]; rfl), hs⟩
  | headClose r tmp =>
    rw [hpc] at h hs
    simp only [event, hpc]
    have hdh : cfg.policy = .dh := hs
    cases tmp with
    | none => exact Option.some.inj h ▸ ⟨.close (by simp [hdh]) rfl rfl, trivial⟩
    | some tmp => exact Option.some.inj h ▸ ⟨.idle rfl (by rw [hpc]; rfl), trivial⟩
  | randomDrop r =>
    rw [hpc] at hs
    simp only [hpc] at h
    simp only [event, hpc]
    have hrandom : cfg.policy = .random := hs
    cases hdrop : WebServer.randomDrop s.queue s.queueSize rands with
    | none =>
      rw [hdrop] at h
      exact Option.some.inj h ▸ ⟨.close (by simp [hrandom]) rfl rfl, trivial⟩
    | some result =>
      rw [hdrop] at h
      exact Option.some.inj h ▸
        ⟨.drop (.inr hrandom) (randomDrop_sublist hdrop) (by rw [hpc]; rfl), trivial⟩
  | enqueue r =>
    rw [hpc] at h
    simp only [event, hpc]
    exact Option.some.inj h ▸ ⟨.enqueue rfl (by rw [hpc]; rfl) rfl, trivial⟩
  | broadcast =>
    rw [hpc] at h
    simp only [event, hpc]
    exact Option.some.inj h ▸ ⟨.idle rfl (by rw [hpc]; rfl), trivial⟩
  | unlockRefused | blockWait r | randomCount r | overloadUnlock r | overloadReturn r | unlock =>
    rw [hpc] at h
    simp only [event, hpc]
    exact Option.some.inj h ▸ ⟨.idle rfl (by rw [hpc]; rfl), trivial⟩
  | accept | asleep r | crashed =>
    rw [hpc] at h
    cases h

theorem moved_of_next (hs : s.master.under cfg.policy) (h : next cfg s l = some t) :
    Moved cfg.policy s t (event s l) ∧ t.master.under cfg.policy := by
  cases l with
  | accept r =>
    obtain ⟨hpc, ht⟩ := Option.ite_none_right_eq_some.mp h
    exact Option.some.inj ht ▸ ⟨.arrive rfl (by rw [hpc]; rfl) rfl, trivial⟩
  | master rands => exact moved_of_masterStep hs h
  | worker i =>
    obtain ⟨hmoved, he | he⟩ := moved_of_workerStep h
    · exact ⟨hmoved, he ▸ hs⟩
    · exact ⟨hmoved, he ▸ MasterPc.under_signal hs⟩
  | wakeWorker i =>
    obtain ⟨-, ht⟩ := Option.ite_none_right_eq_some.mp h
    exact Option.some.inj ht ▸ ⟨.idle rfl rfl, hs⟩
  | wakeMaster =>
    unfold next at h
    cases hpc : s.master with
    | asleep r =>
      rw [hpc] at h
      exact Option.some.inj h ▸ ⟨.idle rfl (by rw [hpc]; rfl), trivial⟩
    | _ => simp [hpc] at h

/-- The connections in the log, in the queue and in the master's hand, in one order. -/
structure InOrder (policy : Policy) (s : State n) (log : List Event) : Prop where
  under : s.master.under policy
  queue_order : (taken log ++ s.queue).Sublist (queued log)
  arrival_order : (queued log ++ s.master.inHand).Sublist (arrived log)
  kept : policy = .block ∨ policy = .dt → taken log ++ s.queue = queued log
  all : policy = .block → queued log ++ s.master.inHand = arrived log

@[simp] theorem arrived_append (log new : List Event) :
    arrived (log ++ new) = arrived log ++ arrived new := List.filterMap_append

@[simp] theorem queued_append (log new : List Event) :
    queued (log ++ new) = queued log ++ queued new := List.filterMap_append

@[simp] theorem taken_append (log new : List Event) :
    taken (log ++ new) = taken log ++ taken new := List.filterMap_append

theorem InOrder.moved {policy : Policy} {log new : List Event} (h : InOrder policy s log)
    (hm : Moved policy s t new) (hunder : t.master.under policy) :
    InOrder policy t (log ++ new) := by
  obtain ⟨-, hqueued, harrived, hkept, hall⟩ := h
  cases hm with
  | idle hq hh =>
    rw [← hq] at hqueued hkept
    rw [← hh] at harrived hall
    rw [List.append_nil]
    exact ⟨hunder, hqueued, harrived, hkept, hall⟩
  | @arrive r hq hs ht =>
    rw [← hq] at hqueued hkept
    rw [hs, List.append_nil] at harrived hall
    refine ⟨hunder, ?_, ?_, ?_, ?_⟩ <;> simp only [arrived_append, queued_append, taken_append, ht]
    · simpa [taken, queued] using hqueued
    · simpa [queued, arrived] using harrived.append_right [r]
    · simpa [taken, queued] using hkept
    · intro hp
      simpa [queued, arrived] using hall hp
  | @enqueue r hq hs ht =>
    rw [hs] at harrived hall
    refine ⟨hunder, ?_, ?_, ?_, ?_⟩ <;>
      simp only [arrived_append, queued_append, taken_append, ht, hq]
    · simpa [taken, queued] using hqueued.append_right [r]
    · simpa [queued, arrived] using harrived
    · intro hp
      have hsame := congrArg (· ++ [r]) (hkept hp)
      simpa [taken, queued] using hsame
    · intro hp
      simpa [queued, arrived] using hall hp
  | @take r rest hs ht hh =>
    rw [hs] at hqueued hkept
    rw [← hh] at harrived hall
    refine ⟨hunder, ?_, ?_, ?_, ?_⟩ <;> simp only [arrived_append, queued_append, taken_append, ht]
    · simpa [taken, queued] using hqueued
    · simpa [queued, arrived] using harrived
    · simpa [taken, queued] using hkept
    · intro hp
      simpa [queued, arrived] using hall hp
  | close hp hq ht =>
    rw [← hq] at hqueued hkept
    rw [List.append_nil]
    refine ⟨hunder, hqueued, ?_, hkept, fun hb => absurd hb hp⟩
    rw [ht, List.append_nil]
    exact (List.sublist_append_left _ _).trans harrived
  | drop hp hq hh =>
    rw [← hh] at harrived hall
    rw [List.append_nil]
    refine ⟨hunder, (hq.append_left _).trans hqueued, harrived, fun hk => ?_, hall⟩
    obtain hp | hp := hp <;> obtain hk | hk := hk <;> simp [hp] at hk

theorem inOrder_of_reachable {s : State n × List Event}
    (h : ((server n cfg).logged event).Reachable TransitionSystem.always s) :
    InOrder cfg.policy s.1 s.2 := by
  refine h.invariant (I := fun s => InOrder cfg.policy s.1 s.2) ?_ ?_
  · rintro ⟨s, log⟩ ⟨hs, rfl⟩
    obtain rfl : s = initial n := hs
    exact ⟨trivial, .slnil, .slnil, fun _ => rfl, fun _ => rfl⟩
  · intro u l v hu _ hs
    obtain ⟨hnext, hlog⟩ := TransitionSystem.next_logged hs
    obtain ⟨hmoved, hunder⟩ := moved_of_next hu.under hnext
    exact hlog ▸ hu.moved hmoved hunder

/-- Under every policy and in every order of the statements, the connections are served in the
order of their arrival. `block` and `dt` drop none that has been queued, and `block` closes none
unserved. -/
theorem service_in_order_of_arrival {s : State n × List Event}
    (h : ((server n cfg).logged event).Reachable TransitionSystem.always s) :
    (taken s.2 ++ s.1.queue ++ s.1.master.inHand).Sublist (arrived s.2) ∧
      (cfg.policy = .block ∨ cfg.policy = .dt → taken s.2 ++ s.1.queue = queued s.2) ∧
      (cfg.policy = .block → taken s.2 ++ s.1.queue ++ s.1.master.inHand = arrived s.2) := by
  obtain ⟨-, hqueued, harrived, hkept, hall⟩ := inOrder_of_reachable h
  refine ⟨(hqueued.append_right _).trans harrived, hkept, fun hp => ?_⟩
  rw [hkept (.inl hp)]
  exact hall hp

/-- Two connections have been queued, and the only worker has taken the first. -/
theorem service_in_order_of_arrival_second : ∃ s : State 1 × List Event,
    taken s.2 = [⟨4, 0, 0⟩] ∧ s.1.queue = [⟨5, 1, 0⟩] ∧
      taken s.2 ++ s.1.queue ++ s.1.master.inHand = arrived s.2 := by
  obtain ⟨s, -, hs, hp⟩ := TransitionSystem.exists_of_run (S := (server 1 ⟨.block, 2⟩).logged event)
    (s := (initial 1, [])) TransitionSystem.always
    ([.accept ⟨4, 0, 0⟩] ++ List.replicate 7 (.master []) ++ [.accept ⟨5, 1, 0⟩] ++
      List.replicate 6 (.master []) ++ List.replicate 2 (.worker 0))
    (fun s => taken s.2 = [⟨4, 0, 0⟩] ∧ s.1.queue = [⟨5, 1, 0⟩]) ⟨rfl, rfl⟩ (fun _ _ _ => trivial)
    (by decide +kernel)
  obtain ⟨htaken, hqueue⟩ := of_decide_eq_true hp
  exact ⟨s, htaken, hqueue, (service_in_order_of_arrival hs).2.2 rfl⟩

end FtfSystems.WebServer.Statements

import FtfSystems.WebServer.Counters

/-!
# What becomes of a connection

A ledger follows the server together with the descriptors that `Accept` has returned. The
kernel returns one that is not open: as often as it has been accepted before, it has been
closed. Every descriptor then stays accounted for, with the master, in the queue, with a
worker or closed, until `random_drop` takes a node out of the queue: it passes the address of
the cell to `close` and not the descriptor in it.
-/
namespace FtfSystems.WebServer
open Foundation

variable {n : ℕ} {cfg : Config} {s t : State n} {l : Label n}

/-- The connection the master holds. -/
def MasterPc.held : MasterPc → List ℕ
  | .received r | .overload r | .window r | .asleep r | .woken r | .enqueue r => [r.fd]
  | _ => []

def WorkerPc.serves (x : ℕ) : WorkerPc → Bool
  | .service r => r.fd = x
  | _ => false

/-- In how many places descriptor `x` is: with the master, in the queue, in service. -/
def State.holds (s : State n) (x : ℕ) : ℕ :=
  s.master.held.count x + (s.queue.map Request.fd).count x + countOf (WorkerPc.serves x) s.worker

/-- How often descriptor `x` has been closed. -/
def State.closes (s : State n) (x : ℕ) : ℕ := s.closed.count (.fd x)

/-- What `Accept` returns in a step. -/
def Label.accepted : Label n → List ℕ
  | .accept r => [r.fd]
  | _ => []

/-- The server and what `Accept` has returned so far. -/
structure Ledger (n : ℕ) where
  server : State n
  accepted : List ℕ

/-- The descriptors a step accepts are not open. -/
def Ledger.Fresh (g : Ledger n) (l : Label n) : Prop :=
  ∀ x ∈ l.accepted, g.accepted.count x = g.server.closes x

instance (g : Ledger n) (l : Label n) : Decidable (g.Fresh l) :=
  inferInstanceAs (Decidable (∀ x ∈ l.accepted, _))

def Ledger.next (cfg : Config) (g : Ledger n) (l : Label n) : Option (Ledger n) :=
  if g.Fresh l then (WebServer.next cfg g.server l).map (⟨·, l.accepted ++ g.accepted⟩) else none

/-- All runs of the server, with the descriptors accepted in them. -/
def ledger (n : ℕ) (cfg : Config) : TransitionSystem (Ledger n) (Label n) where
  init g := g = ⟨initial n, []⟩
  next := Ledger.next cfg

/-- Every descriptor accepted is closed again or in exactly one place, and nothing else is
closed. -/
structure Ledger.Accounted (g : Ledger n) : Prop where
  balance (x : ℕ) : g.accepted.count x = g.server.holds x + g.server.closes x
  once (x : ℕ) : g.server.holds x ≤ 1
  cells (a : ℕ) : .cell a ∉ g.server.closed

/-- `random_drop` is called only with at most one node in the queue. -/
def dropsNoNode (cfg : Config) (s : State n) : Label n → Prop
  | .master _ => cfg.policy = .random → (∃ r, s.master.Retries r) →
      s.queueSize + s.currentlyHandled = cfg.qmaxSize → s.queue.length ≤ 1
  | _ => True

@[simp] theorem MasterPc.held_enqueue (r : Request) : (MasterPc.enqueue r).held = [r.fd] := rfl

@[simp] theorem MasterPc.held_signal (pc : MasterPc) : pc.signal.held = pc.held := by
  cases pc <;> rfl

@[simp] theorem WorkerPc.serves_signal (x : ℕ) (pc : WorkerPc) :
    pc.signal.serves x = pc.serves x := by
  cases pc <;> rfl

theorem MasterPc.Retries.held {pc : MasterPc} {r : Request} (h : pc.Retries r) :
    pc.held = [r.fd] := by
  obtain rfl | rfl := h <;> rfl

theorem WorkerPc.Ready.serves {pc : WorkerPc} (h : pc.Ready) (x : ℕ) : pc.serves x = false := by
  obtain rfl | rfl := h <;> rfl

theorem State.holds_broadcast (s : State n) (x : ℕ) : s.broadcast.holds x = s.holds x := by
  have hworkers : countOf (WorkerPc.serves x) s.broadcast.worker =
      countOf (WorkerPc.serves x) s.worker :=
    countOf_congr fun i => WorkerPc.serves_signal x (s.worker i)
  unfold State.holds
  rw [hworkers]
  show s.master.signal.held.count x + _ + _ = _
  rw [MasterPc.held_signal]
  rfl

theorem State.serves_update (s : State n) (i : Fin n) (pc : WorkerPc) (x : ℕ) :
    countOf (WorkerPc.serves x) (Function.update s.worker i pc) +
      ((s.worker i).serves x).toNat =
    countOf (WorkerPc.serves x) s.worker + (pc.serves x).toNat :=
  countOf_update (WorkerPc.serves x) s.worker i pc

theorem randomDrop_short {queue : List Request} (h : queue.length ≤ 1) (q : ℤ) (rands : List ℕ)
    {p : List Request × List CloseArg} (hp : randomDrop queue q rands = some p) :
    p = (queue, []) := by
  match queue, h with
  | [], _ => simpa [randomDrop] using hp.symm
  | [r], _ =>
    simp only [randomDrop, List.cons_ne_self, if_false] at hp
    revert hp
    generalize (if q.tmod 4 = 0 then q.tdiv 4 else 1 + q.tdiv 4).toNat = k
    intro hp
    cases k with
    | zero => simpa [dropRounds] using hp.symm
    | succ k =>
      unfold dropRounds at hp
      split at hp
      · cases hp
      · simpa using hp.symm

/-- The master moves; it keeps the connection it holds or closes it. -/
theorem balance_of_moved {p : MasterPc} {m : Option (Thread n)} {c : List CloseArg} (x : ℕ)
    (hpc : p.held.count x + c.count (.fd x) = s.master.held.count x + s.closes x) :
    State.holds { s with mutex := m, master := p, closed := c } x +
      State.closes { s with mutex := m, master := p, closed := c } x = s.holds x + s.closes x := by
  simp only [State.holds, State.closes] at hpc ⊢
  omega

/-- A worker outside of service moves to another place outside of service. -/
theorem balance_of_idle {i : Fin n} {pc : WorkerPc} {m : Option (Thread n)} (x : ℕ)
    (hi : (s.worker i).serves x = false) (hpc : pc.serves x = false) :
    State.holds { s with mutex := m, worker := Function.update s.worker i pc } x = s.holds x := by
  have hcount := s.serves_update i pc x
  rw [hi, hpc] at hcount
  simp only [State.holds] at hcount ⊢
  omega

theorem balance_of_take {i : Fin n} {r : Request} {rest : List Request} (x : ℕ)
    (hpc : (s.worker i).Ready) (hq : s.queue = r :: rest) :
    State.holds { s with
      queue := rest, queueSize := s.queueSize - 1, currentlyHandled := s.currentlyHandled + 1
      worker := Function.update s.worker i (.service r) } x = s.holds x := by
  have hcount := s.serves_update i (.service r) x
  rw [hpc.serves] at hcount
  by_cases hx : r.fd = x <;>
    simp [State.holds, hq, WorkerPc.serves, hx] at hcount ⊢ <;> omega

theorem balance_of_completed {i : Fin n} {r : Request} (x : ℕ) (hpc : s.worker i = .service r) :
    (s.completed i r).holds x + (s.completed i r).closes x = s.holds x + s.closes x := by
  have hcount := s.serves_update i .top x
  rw [hpc] at hcount
  by_cases hx : r.fd = x <;>
    simp [State.holds, State.closes, State.completed, WorkerPc.serves, hx]
      at hcount ⊢ <;> omega

theorem balance_of_enqueue {r : Request} {p : MasterPc} {k : ℤ} (x : ℕ)
    (hs : s.master.held = [r.fd]) (hpc : p.held = []) :
    State.holds { s with queue := enqueue s.queue r, queueSize := k, master := p } x =
      s.holds x := by
  simp only [State.holds, hs, hpc, enqueue, List.map_append, List.count_append, List.map_cons,
    List.map_nil, List.count_nil]
  omega

/-- The overload policies other than `block` close what they take out of the queue, if
`random_drop` takes out nothing. -/
theorem balance_of_overload {r : Request} {rands : List ℕ} (x : ℕ) (hpc : s.master.Retries r)
    (hp : cfg.policy ≠ .block)
    (hshort : cfg.policy = .random → s.queueSize + s.currentlyHandled = cfg.qmaxSize →
      s.queue.length ≤ 1) (hlive : (s.handleOverload cfg r rands).master ≠ .crashed) :
    (s.handleOverload cfg r rands).holds x + (s.handleOverload cfg r rands).closes x =
      s.holds x + s.closes x := by
  unfold State.handleOverload at hlive ⊢
  have hheld := hpc.held
  cases hpol : cfg.policy with
  | block => exact absurd hpol hp
  | dt => simp [State.holds, State.closes, hheld]
  | dh =>
    rw [hpol] at hlive
    cases hq : s.queue with
    | nil => simp [hq, dequeue] at hlive
    | cons tmp rest =>
      by_cases hx : tmp.fd = x
      · simp [State.holds, State.closes, hq, dequeue, hheld, hx]
        omega
      · simp [State.holds, State.closes, hq, dequeue, hheld, hx]
  | random =>
    rw [hpol] at hlive
    by_cases hsum : s.queueSize + s.currentlyHandled = cfg.qmaxSize
    · simp only [hsum, if_true] at hlive ⊢
      cases hd : randomDrop s.queue s.queueSize rands with
      | none => simp [hd] at hlive
      | some p =>
        obtain rfl := randomDrop_short (hshort hpol hsum) s.queueSize rands hd
        simp [State.holds, State.closes, hheld]
    · simp only [hsum, if_false]
      simp [State.holds, State.closes, hheld]

/-- No step loses a descriptor or closes one twice. -/
theorem Step.balance (h : Step cfg s l t) (hlive : t.master ≠ .crashed)
    (hshort : dropsNoNode cfg s l) (x : ℕ) :
    t.holds x + t.closes x = s.holds x + s.closes x + l.accepted.count x := by
  cases h with
  | take hpc hm hq => exact congrArg (· + s.closes x) (balance_of_take x hpc hq)
  | miss hpc => exact congrArg (· + s.closes x) (balance_of_idle x (hpc.serves x) rfl)
  | sleep hpc => exact congrArg (· + s.closes x) (balance_of_idle x (by rw [hpc]; rfl) rfl)
  | wakeWorker hpc => exact congrArg (· + s.closes x) (balance_of_idle x (by rw [hpc]; rfl) rfl)
  | @finish i r hpc =>
    refine State.finish_rule (P := fun u : State n => u.holds x + u.closes x = _) ?_
      (balance_of_completed x hpc)
    intro u hu
    rw [State.holds_broadcast]
    exact hu
  | @accept r hpc =>
    simp only [State.holds, State.closes, hpc, MasterPc.held, Label.accepted, List.count_nil]
    omega
  | @reject r _ hpc =>
    refine balance_of_moved x ?_
    by_cases hx : r.fd = x <;> simp [hpc, MasterPc.held, State.closes, hx, add_comm]
  | overload hpc => exact balance_of_moved x (by rw [hpc]; rfl)
  | admission hpc =>
    have hqueued := balance_of_enqueue (s := s) (p := .accept) (k := s.queueSize + 1) x
      (by rw [hpc]; rfl) rfl
    split
    · rw [State.holds_broadcast]
      exact congrArg (· + s.closes x) hqueued
    · exact congrArg (· + s.closes x) hqueued
  | full hpc => exact balance_of_moved x (by rw [hpc.held]; rfl)
  | pass hpc => exact balance_of_moved x (by rw [hpc.held]; rfl)
  | discard hpc hm hp =>
    exact balance_of_overload x hpc hp (fun hr => hshort hr ⟨_, hpc⟩) hlive
  | masterSleep hpc => exact balance_of_moved x (by rw [hpc]; rfl)
  | wakeMaster hpc => exact balance_of_moved x (by rw [hpc]; rfl)
  | enqueue hpc =>
    exact congrArg (· + s.closes x) (balance_of_enqueue (k := s.queueSize) x (by rw [hpc]; rfl) rfl)
  | increment hpc =>
    simp only [State.holds, State.closes, hpc]
    split <;> rfl
  | broadcast hpc =>
    have hmoved := balance_of_moved (s := s.broadcast) (m := s.mutex) (p := .unlock)
      (c := s.closed) x (by show _ = s.master.signal.held.count x + _; rw [hpc]; rfl)
    rw [State.holds_broadcast] at hmoved
    exact hmoved
  | unlock hpc => exact balance_of_moved x (by rw [hpc]; rfl)

/-- Only `random_drop` passes anything but a descriptor to `close`. -/
theorem Step.cells (h : Step cfg s l t) (hlive : t.master ≠ .crashed)
    (hshort : dropsNoNode cfg s l) {a : ℕ} (ha : .cell a ∈ t.closed) : .cell a ∈ s.closed := by
  cases h with
  | @finish i r hpc =>
    revert ha
    refine State.finish_rule (P := fun u : State n => .cell a ∈ u.closed → _) (fun u hu => hu) ?_
    simp [State.completed]
  | reject => simpa using ha
  | admission =>
    split at ha
    · exact ha
    · exact ha
  | @discard r rands hpc hm hp =>
    unfold State.handleOverload at ha hlive
    cases hpol : cfg.policy with
    | block => exact absurd hpol hp
    | dt => simpa [hpol] using ha
    | dh =>
      cases hq : s.queue <;> simpa [hpol, hq, dequeue] using ha
    | random =>
      by_cases hsum : s.queueSize + s.currentlyHandled = cfg.qmaxSize
      · cases hd : randomDrop s.queue s.queueSize rands with
        | none => simp [hpol, hsum, hd] at hlive
        | some p =>
          obtain rfl := randomDrop_short (hshort hpol ⟨r, hpc⟩ hsum) s.queueSize rands hd
          simpa [hpol, hsum, hd] using ha
      · simpa [hpol, hsum] using ha
  | _ => exact ha

/-- A crash is final. -/
theorem Step.crashed (h : Step cfg s l t) (hs : s.master = .crashed) : t.master = .crashed := by
  cases h with
  | finish =>
    refine State.finish_rule (P := fun u : State n => u.master = .crashed) (fun u hu => ?_) hs
    show u.master.signal = _
    rw [hu]
    rfl
  | full hpc | pass hpc | discard hpc => obtain ho | ho := hpc <;> simp [hs] at ho
  | accept hpc | reject hpc | overload hpc | admission hpc | masterSleep hpc | wakeMaster hpc
  | enqueue hpc | increment hpc | broadcast hpc | unlock hpc => simp [hs] at hpc
  | take | miss | sleep | wakeWorker => exact hs

theorem Step.closes_le (h : Step cfg s l t) (x : ℕ) : s.closes x ≤ t.closes x := by
  cases h with
  | finish =>
    refine State.finish_rule (P := fun u : State n => _ ≤ u.closes x) (fun u hu => hu) ?_
    exact List.count_le_count_cons
  | reject => exact List.count_le_count_cons
  | admission =>
    split
    · exact le_rfl
    · exact le_rfl
  | discard =>
    unfold State.handleOverload
    cases cfg.policy with
    | block => dsimp only; split <;> exact le_rfl
    | dt => exact le_rfl
    | dh =>
      dsimp only
      split
      · exact le_rfl
      · exact List.count_le_count_cons
    | random =>
      dsimp only
      split
      · split
        · exact le_rfl
        · exact (List.sublist_append_right _ _).count_le _
      · exact le_rfl
  | _ => exact le_rfl

theorem Ledger.Accounted.step {g g' : Ledger n} (h : g.Accounted)
    (hok : dropsNoNode cfg g.server l) (hs : Ledger.next cfg g l = some g')
    (hlive : g'.server.master ≠ .crashed) : g'.Accounted := by
  obtain ⟨hfresh, hs⟩ := Option.ite_none_right_eq_some.mp hs
  obtain ⟨t, ht, rfl⟩ := Option.map_eq_some_iff.mp hs
  have hstep := step_of_next ht
  have hbalance := hstep.balance hlive hok
  refine ⟨fun x => ?_, fun x => ?_, fun a ha => h.cells a (hstep.cells hlive hok ha)⟩
  · rw [hbalance, List.count_append, h.balance x]
    omega
  · have hx := hbalance x
    have hcloses := hstep.closes_le x
    have hold := h.balance x
    have honce := h.once x
    by_cases hmem : x ∈ l.accepted
    · -- the kernel has returned a descriptor that was not open
      have hfree := hfresh x hmem
      have hlen : l.accepted.length ≤ 1 := by cases l <;> simp [Label.accepted]
      have hle : l.accepted.count x ≤ 1 := List.count_le_length.trans hlen
      simp only at hx hcloses ⊢
      omega
    · rw [List.count_eq_zero.mpr hmem] at hx
      simp only at hx hcloses ⊢
      omega

/-- As long as `random_drop` takes no node out of the queue, every descriptor that `Accept` has
returned is closed or in exactly one place and nothing else is closed, unless the server has
crashed. -/
theorem descriptors_accounted {g : Ledger n}
    (h : (ledger n cfg).Reachable (fun g l => dropsNoNode cfg g.server l) g)
    (hlive : g.server.master ≠ .crashed) : g.Accounted := by
  induction h with
  | init h =>
    subst h
    have hnone (x : ℕ) : (initial n).holds x = 0 := by
      simp [State.holds, initial, MasterPc.held, countOf, WorkerPc.serves]
    have hopen (x : ℕ) : (initial n).closes x = 0 := rfl
    exact ⟨fun x => by simp [hnone, hopen], fun x => by simp [hnone], by simp [initial]⟩
  | @step g g' l _ hok hs ih =>
    refine (ih fun hcrash => hlive ?_).step hok hs hlive
    obtain ⟨-, hs⟩ := Option.ite_none_right_eq_some.mp hs
    obtain ⟨t, ht, rfl⟩ := Option.map_eq_some_iff.mp hs
    exact (step_of_next ht).crashed hcrash

/-- Under `dh` the oldest of two queued requests is closed. -/
theorem descriptors_accounted_drop_head : ∃ g : Ledger 1,
    (ledger 1 ⟨.dh, 2⟩).Reachable (fun g l => dropsNoNode ⟨.dh, 2⟩ g.server l) g ∧
      g.server.closed = [.fd 4] ∧ g.Accounted := by
  obtain ⟨g, -, hg, hp⟩ := TransitionSystem.exists_of_run (S := ledger 1 ⟨.dh, 2⟩)
    (fun g l => dropsNoNode ⟨.dh, 2⟩ g.server l)
    [.accept ⟨4, 0, 0⟩, .master [], .accept ⟨5, 1, 0⟩, .master [], .accept ⟨6, 2, 0⟩, .master [],
      .master []]
    (fun g => g.server.closed = [.fd 4] ∧ g.server.master ≠ .crashed) rfl
    (by simp [dropsNoNode]) (by decide +kernel)
  obtain ⟨hclosed, hlive⟩ := of_decide_eq_true hp
  exact ⟨g, hg, hclosed, descriptors_accounted hg hlive⟩

/-- `random_drop` takes the second of two requests out of the queue. Its descriptor is in no
place any more and has not been closed. -/
theorem random_drop_leaks : ∃ g : Ledger 1,
    (ledger 1 ⟨.random, 2⟩).Reachable TransitionSystem.always g ∧
      g.server.master ≠ .crashed ∧ 5 ∈ g.accepted ∧ g.server.holds 5 = 0 ∧
      g.server.closes 5 = 0 ∧ .cell 1 ∈ g.server.closed ∧ ¬ g.Accounted := by
  obtain ⟨g, -, hg, hp⟩ := TransitionSystem.exists_of_run (S := ledger 1 ⟨.random, 2⟩)
    TransitionSystem.always
    [.accept ⟨4, 0, 0⟩, .master [], .accept ⟨5, 1, 0⟩, .master [], .accept ⟨6, 2, 0⟩, .master [],
      .master [0]]
    (fun g => g.server.master ≠ .crashed ∧ 5 ∈ g.accepted ∧ g.server.holds 5 = 0 ∧
      g.server.closes 5 = 0 ∧ .cell 1 ∈ g.server.closed) rfl (fun _ _ _ => trivial)
    (by decide +kernel)
  obtain ⟨hlive, hmem, hholds, hcloses, hcell⟩ := of_decide_eq_true hp
  exact ⟨g, hg, hlive, hmem, hholds, hcloses, hcell, fun h => h.cells 1 hcell⟩

end FtfSystems.WebServer

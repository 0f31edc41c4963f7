import FtfSystems.WebServer.Counters

/-!
# The policy `dh`

The master finds the server full under one hold of the mutex and closes the oldest request
under the next. In between the workers may take what is queued. As long as none of them takes
the last request there, the master finds one; after that it dereferences a null pointer.
-/
namespace FtfSystems.WebServer
open Foundation

variable {n : ℕ} {cfg : Config} {s t : State n} {l : Label n}

/-- Between the overload test in `main` and the mutex in `handle_overload`. -/
def MasterPc.inOverload : MasterPc → Bool
  | .overload _ => true
  | _ => false

/-- Places the master is in under `dh` as long as it finds a request. -/
def MasterPc.runs : MasterPc → Bool
  | .window _ | .asleep _ | .woken _ | .crashed => false
  | _ => true

/-- A worker takes the last request while the master is on its way into `handle_overload`. -/
def takesLast (s : State n) : Label n → Bool
  | .worker i => s.master.inOverload && decide ((s.worker i = .top ∨ s.worker i = .woken) ∧
      s.mutex = none ∧ s.queue.length = 1)
  | _ => false

/-- The counter is exact but for the node not yet counted, and a master that has found the
server full finds a request. -/
structure HeadKept (s : State n) : Prop where
  size : s.queueSize + s.master.uncounted = s.queue.length
  queued : s.master.inOverload = true → s.queue ≠ []
  runs : s.master.runs = true

@[simp] theorem MasterPc.inOverload_signal (pc : MasterPc) :
    pc.signal.inOverload = pc.inOverload := by
  cases pc <;> rfl

theorem MasterPc.runs_signal {pc : MasterPc} (h : pc.runs = true) : pc.signal = pc := by
  cases pc with
  | asleep r => cases h
  | _ => rfl

theorem HeadKept.broadcast (h : HeadKept s) : HeadKept s.broadcast := by
  have hmaster : s.broadcast.master = s.master := MasterPc.runs_signal h.runs
  obtain ⟨size, queued, runs⟩ := h
  rw [← hmaster] at size queued runs
  exact ⟨size, queued, runs⟩

/-- What does not touch the queue and moves the master to no place of importance. -/
theorem HeadKept.of_moved (h : HeadKept s) (hqueue : t.queue = s.queue)
    (hsize : t.queueSize + t.master.uncounted = s.queueSize + s.master.uncounted)
    (hover : t.master.inOverload = true → s.master.inOverload = true ∨ s.queue ≠ [])
    (hruns : t.master.runs = true) : HeadKept t := by
  refine ⟨?_, fun ho => ?_, hruns⟩
  · rw [hsize, hqueue]
    exact h.size
  · rw [hqueue]
    exact (hover ho).elim h.queued id

/-- The master goes into `handle_overload` only with a request queued: the server is full, but
not with requests in service. -/
theorem overload_queued {r r' : Request} {rands : List ℕ} (hp : cfg.policy ≠ .block)
    (hs : next cfg s (.master rands) = some t) (hpc : s.master = .received r)
    (ht : t.master = .overload r') : s.queueSize ≠ 0 := by
  simp only [next, State.masterStep, hpc] at hs
  obtain ⟨-, hs⟩ := Option.ite_none_right_eq_some.mp hs
  rw [← Option.some.inj hs, State.admission] at ht
  split at ht
  · cases ht
  split at ht
  · rename_i hopen hfull
    intro h0
    apply hopen
    exact ⟨by omega, hp⟩
  · simp only [State.broadcast, MasterPc.signal] at ht
    split at ht <;> cases ht

/-- Under `dh` the oldest request is closed, if there is one. -/
theorem handleOverload_dh (hp : cfg.policy = .dh) {oldest : Request} {rest : List Request}
    (hq : s.queue = oldest :: rest) (r : Request) (rands : List ℕ) :
    s.handleOverload cfg r rands =
      { s with
        queue := rest, queueSize := s.queueSize - 1, closed := .fd oldest.fd :: s.closed
        master := .enqueue r } := by
  simp only [State.handleOverload, hp, hq, dequeue]

theorem handleOverload_dh_empty (hp : cfg.policy = .dh) (hq : s.queue = []) (r : Request)
    (rands : List ℕ) : (s.handleOverload cfg r rands).master = .crashed := by
  simp only [State.handleOverload, hp, hq, dequeue]

theorem HeadKept.step (hp : cfg.policy = .dh) (h : HeadKept s) (hok : takesLast s l = false)
    (hs : next cfg s l = some t) : HeadKept t := by
  have hblock : cfg.policy ≠ .block := by simp [hp]
  have hruns := h.runs
  cases step_of_next hs with
  | @take i r rest hpc hm hq =>
    refine ⟨?_, fun ho hnil => ?_, hruns⟩
    · have hsize := h.size
      rw [hq, List.length_cons] at hsize
      show s.queueSize - 1 + s.master.uncounted = rest.length
      omega
    · have ho' : s.master.inOverload = true := ho
      have hnil' : rest = [] := hnil
      simp [takesLast, ho', hm, hq, hnil'] at hok
      obtain hpc | hpc := hpc
      · exact hok.1 hpc
      · exact hok.2 hpc
  | miss | sleep | wakeWorker => exact h.of_moved rfl rfl .inl hruns
  | finish =>
    refine State.finish_rule (fun _ => HeadKept.broadcast) ?_
    exact h.of_moved rfl rfl .inl hruns
  | accept hpc | reject hpc =>
    exact h.of_moved rfl (by simp [hpc, MasterPc.uncounted]) (by simp [MasterPc.inOverload]) rfl
  | @overload r _ hpc =>
    have hsize := h.size
    have hne := overload_queued hblock hs hpc rfl
    rw [hpc] at hsize
    simp only [MasterPc.uncounted] at hsize
    refine h.of_moved rfl (by simp [hpc, MasterPc.uncounted]) (fun _ => .inr ?_) rfl
    intro hnil
    rw [hnil] at hsize
    simp at hsize
    exact hne hsize
  | @admission r _ hpc =>
    have hqueued : HeadKept (s.queued r) := by
      have hsize := h.size
      rw [hpc] at hsize
      refine ⟨?_, by simp [State.queued, MasterPc.inOverload], rfl⟩
      simp only [State.queued, MasterPc.uncounted, enqueue, List.length_append,
        List.length_singleton] at hsize ⊢
      omega
    split
    · exact hqueued.broadcast
    · exact hqueued
  | full _ _ hb | pass _ _ hb => exact absurd hb hblock
  | @discard r rands hpc =>
    obtain hpc | hpc := hpc
    · obtain ⟨oldest, rest, hq⟩ := List.exists_cons_of_ne_nil (h.queued (by rw [hpc]; rfl))
      have hsize := h.size
      rw [hpc, hq, List.length_cons] at hsize
      rw [handleOverload_dh hp hq]
      refine ⟨?_, by simp [MasterPc.inOverload], rfl⟩
      simp only [MasterPc.uncounted] at hsize ⊢
      omega
    · simp [hpc, MasterPc.runs] at hruns
  | masterSleep hpc | wakeMaster hpc => simp [hpc, MasterPc.runs] at hruns
  | enqueue hpc =>
    have hsize := h.size
    rw [hpc] at hsize
    refine ⟨?_, by simp [MasterPc.inOverload], rfl⟩
    simp only [MasterPc.uncounted, enqueue, List.length_append, List.length_singleton] at hsize ⊢
    omega
  | increment hpc =>
    have hsize := h.size
    rw [hpc] at hsize
    refine ⟨?_, ?_, ?_⟩
    · dsimp only
      split <;> simp only [MasterPc.uncounted] at hsize ⊢ <;> omega
    · dsimp only
      split <;> simp [MasterPc.inOverload]
    · dsimp only
      split <;> rfl
  | broadcast hpc =>
    refine h.broadcast.of_moved rfl ?_ (by simp [MasterPc.inOverload]) rfl
    show s.queueSize + 0 = s.queueSize + s.master.signal.uncounted
    rw [hpc]
    rfl
  | unlock hpc =>
    exact h.of_moved rfl (by simp [hpc, MasterPc.uncounted]) (by simp [MasterPc.inOverload]) rfl

theorem headKept_of_reachable (hp : cfg.policy = .dh)
    (h : (server n cfg).Reachable (fun s l => takesLast s l = false) s) : HeadKept s := by
  refine h.invariant ?_ ?_
  · rintro _ rfl
    exact ⟨rfl, by simp [initial, MasterPc.inOverload], rfl⟩
  · intro u l v hu hok hs
    exact hu.step hp hok hs

/-- As long as no worker takes the last request while the master is on its way into
`handle_overload`, the master closes the oldest request there and the counter is exact. After a
step that does, it dereferences a null pointer there. -/
theorem drop_head_closes_oldest (hp : cfg.policy = .dh)
    (h : (server n cfg).Reachable (fun s l => takesLast s l = false) s) :
    s.master ≠ .crashed ∧
    (∀ r rands, s.master = .overload r → ∃ oldest rest, s.queue = oldest :: rest ∧
      (s.handleOverload cfg r rands).queue = rest ∧
      (s.handleOverload cfg r rands).closed = .fd oldest.fd :: s.closed ∧
      (s.handleOverload cfg r rands).master = .enqueue r ∧
      (s.handleOverload cfg r rands).queueSize = (s.handleOverload cfg r rands).queue.length ∧
      0 ≤ (s.handleOverload cfg r rands).queueSize) ∧
    ∀ l t, takesLast s l = true → next cfg s l = some t →
      ∃ r, t.master = .overload r ∧ ∀ rands, (t.handleOverload cfg r rands).master = .crashed := by
  have hk := headKept_of_reachable hp h
  refine ⟨?_, ?_, ?_⟩
  · intro hc
    have hruns := hk.runs
    rw [hc] at hruns
    cases hruns
  · intro r rands hpc
    obtain ⟨oldest, rest, hq⟩ := List.exists_cons_of_ne_nil (hk.queued (by rw [hpc]; rfl))
    have hsize := hk.size
    rw [hpc, hq, List.length_cons] at hsize
    simp only [MasterPc.uncounted] at hsize
    refine ⟨oldest, rest, hq, ?_⟩
    rw [handleOverload_dh hp hq]
    refine ⟨rfl, rfl, rfl, ?_, ?_⟩ <;> dsimp only <;> omega
  · intro l t hl hs
    cases l with
    | worker i =>
      simp only [takesLast, Bool.and_eq_true, decide_eq_true_eq] at hl
      obtain ⟨hover, hready, -, hone⟩ := hl
      obtain ⟨r, hpc⟩ : ∃ r, s.master = .overload r := by
        cases hm : s.master with
        | overload r => exact ⟨r, rfl⟩
        | _ => simp [hm, MasterPc.inOverload] at hover
      cases step_of_next hs with
      | @take _ _ rest _ _ hq =>
        have hrest : rest = [] := by simpa [hq] using hone
        exact ⟨r, hpc, fun rands => handleOverload_dh_empty hp hrest r rands⟩
      | miss _ _ hq => simp [hq] at hone
      | sleep hw | finish hw => simp [hw] at hready
    | accept | master | wakeWorker | wakeMaster => cases hl

/-- The server is full and nobody comes in between: the oldest request is closed. -/
theorem drop_head_closes_oldest_full : ∃ s : State 1,
    (server 1 ⟨.dh, 1⟩).Reachable (fun s l => takesLast s l = false) s ∧
      s.master = .overload ⟨5, 1, 0⟩ ∧
      ∃ oldest rest, s.queue = oldest :: rest ∧
        (s.handleOverload ⟨.dh, 1⟩ ⟨5, 1, 0⟩ []).queue = rest ∧
        (s.handleOverload ⟨.dh, 1⟩ ⟨5, 1, 0⟩ []).closed = .fd oldest.fd :: s.closed := by
  let full (s : State 1) : Bool := s.master = .overload ⟨5, 1, 0⟩
  obtain ⟨s, hs, hp⟩ : ∃ s, (server 1 ⟨.dh, 1⟩).Reachable (fun s l => takesLast s l = false) s ∧
      full s = true :=
    TransitionSystem.exists_of_guardedRun
      [.accept ⟨4, 0, 0⟩, .master [], .accept ⟨5, 1, 0⟩, .master []] full rfl (by decide +kernel)
  have hpc : s.master = .overload ⟨5, 1, 0⟩ := of_decide_eq_true hp
  obtain ⟨oldest, rest, hq, hqueue, hclosed, -⟩ :=
    (drop_head_closes_oldest rfl hs).2.1 ⟨5, 1, 0⟩ [] hpc
  exact ⟨s, hs, hpc, oldest, rest, hq, hqueue, hclosed⟩

/-- A worker takes the only request after the overload test. -/
theorem drop_head_finds_nothing : ∃ s : State 1,
    (server 1 ⟨.dh, 1⟩).Reachable TransitionSystem.always s ∧ s.master = .crashed ∧
      s.queueSize = -1 := by
  obtain ⟨s, -, hs, hp⟩ := TransitionSystem.exists_of_run (S := server 1 ⟨.dh, 1⟩)
    TransitionSystem.always
    [.accept ⟨4, 0, 0⟩, .master [], .accept ⟨5, 1, 0⟩, .master [], .worker 0, .master []]
    (fun s => s.master = .crashed ∧ s.queueSize = -1) rfl (fun _ _ _ => trivial)
    (by decide +kernel)
  obtain ⟨hcrash, hsize⟩ := of_decide_eq_true hp
  exact ⟨s, hs, hcrash, hsize⟩

end FtfSystems.WebServer

import FtfSystems.Foundation.Counting
import FtfSystems.WebServer.Requests
import FtfSystems.WebServer.ServiceOrder

/-!
# The statistics of the threads

Each worker of the pool has its own `stat_thread`, which `requestHandle` updates between the two
sections, without the mutex. The pool is the program of `Statements` with its log, with these, and
with a list of the requests handled so far. A request whose line has fewer than three words has no
outcome here.
-/
namespace FtfSystems.WebServer.Statements
open Foundation

variable {n : ℕ} {cfg : Config}

/-- A call of `requestHandle` that has returned. -/
structure Call (n : ℕ) where
  thread : Fin n
  request : Request
  handled : Handled

structure Pool (n : ℕ) where
  server : State n × List Event
  stats : Fin n → StatThread
  calls : List (Call n)

/-- What a step of the pool depends on: the label of the server, and for a request that is handled
the line, what `cgiargs` holds and the answer of `stat`. -/
structure PoolLabel (n : ℕ) where
  label : Label n
  line : Text
  cgiargs : Text
  answer : Option FileStat

/-- The worker that calls `requestHandle` in the step, with its request. -/
def handling (s : State n) : Label n → Option (Fin n × Request)
  | .worker i =>
    match s.worker i with
    | .handle r => some (i, r)
    | _ => none
  | _ => none

namespace Pool

/-- `Create_thread_pool`. -/
def created (n : ℕ) : Pool n where
  server := (initial n, [])
  stats := fun i => ⟨i, 0, 0, 0⟩
  calls := []

def next (cfg : Config) (p : Pool n) (l : PoolLabel n) : Option (Pool n) :=
  (((Statements.server n cfg).logged event).next p.server l.label).bind fun server =>
    match handling p.server.1 l.label with
    | none => some { p with server := server }
    | some (i, r) =>
      (requestHandle l.cgiargs l.answer (p.stats i) l.line).map fun h =>
        { server := server
          stats := Function.update p.stats i h.thread
          calls := p.calls ++ [⟨i, r, h⟩] }

end Pool

def pool (n : ℕ) (cfg : Config) : TransitionSystem (Pool n) (PoolLabel n) where
  init p := p = Pool.created n
  next := Pool.next cfg

/-! ### One call -/

def isStatic (h : Handled) : Bool :=
  match h.response with
  | .serveStatic _ _ => true
  | _ => false

def isDynamic (h : Handled) : Bool :=
  match h.response with
  | .serveDynamic _ _ => true
  | _ => false

/-- How a request changes the statistics of its thread. -/
structure Advances (st : StatThread) (h : Handled) : Prop where
  threadId : h.thread.threadId = st.threadId
  total : h.thread.totReqCount = st.totReqCount + 1
  static : h.thread.staticCount = st.staticCount + (isStatic h).toNat
  dynamic : h.thread.dynamCount = st.dynamCount + (isDynamic h).toNat

theorem respond_advances (answer : Option FileStat) (parsed : ParsedURI) (st : StatThread)
    (built : List Built) :
    Advances st { respond answer parsed { st with totReqCount := st.totReqCount + 1 } with
      built := built } := by
  unfold respond
  cases answer with
  | none => exact ⟨rfl, rfl, (Int.add_zero _).symm, (Int.add_zero _).symm⟩
  | some sbuf =>
    dsimp only
    split
    · split
      · exact ⟨rfl, rfl, (Int.add_zero _).symm, (Int.add_zero _).symm⟩
      · exact ⟨rfl, rfl, rfl, (Int.add_zero _).symm⟩
    · split
      · exact ⟨rfl, rfl, (Int.add_zero _).symm, (Int.add_zero _).symm⟩
      · exact ⟨rfl, rfl, (Int.add_zero _).symm, rfl⟩

theorem requestHandle_advances {cgiargs line : Text} {answer : Option FileStat} {st : StatThread}
    {h : Handled} (hh : requestHandle cgiargs answer st line = some h) : Advances st h := by
  simp only [requestHandle] at hh
  split at hh
  · split at hh
    · obtain ⟨parsed, -, hrespond⟩ := Option.bind_eq_some_iff.mp hh
      exact Option.some.inj hrespond ▸ respond_advances answer parsed st _
    · exact Option.some.inj hh ▸ ⟨rfl, rfl, (Int.add_zero _).symm, (Int.add_zero _).symm⟩
  · cases hh

/-! ### All calls -/

/-- The calls of one thread, in their order. -/
def callsOf (calls : List (Call n)) (i : Fin n) : List Handled :=
  (calls.filter (·.thread = i)).map Call.handled

/-- The statistics say what the thread has done, and said it in each of its responses. -/
structure Counts (i : Fin n) (st : StatThread) (calls : List Handled) : Prop where
  threadId : st.threadId = i
  total : st.totReqCount = calls.length
  static : st.staticCount = calls.countP isStatic
  dynamic : st.dynamCount = calls.countP isDynamic
  numbers : calls.map (·.thread.totReqCount) = (List.range' 1 calls.length).map Nat.cast
  ids : ∀ h ∈ calls, h.thread.threadId = i

theorem Counts.advance {i : Fin n} {st : StatThread} {calls : List Handled} {h : Handled}
    (hc : Counts i st calls) (ha : Advances st h) : Counts i h.thread (calls ++ [h]) := by
  obtain ⟨hid, htotal, hstatic, hdynamic, hnumbers, hids⟩ := hc
  obtain ⟨hid', htotal', hstatic', hdynamic'⟩ := ha
  refine ⟨hid'.trans hid, ?_, ?_, ?_, ?_, ?_⟩
  · rw [htotal', htotal]
    simp
  · rw [hstatic', hstatic, List.countP_append, List.countP_singleton]
    cases isStatic h <;> simp
  · rw [hdynamic', hdynamic, List.countP_append, List.countP_singleton]
    cases isDynamic h <;> simp
  · rw [List.map_append, hnumbers, List.length_append, List.length_singleton,
      List.range'_concat, List.map_append, List.map_singleton, List.map_singleton, htotal', htotal]
    simp [add_comm]
  · intro g hg
    rw [List.mem_append, List.mem_singleton] at hg
    obtain hg | rfl := hg
    · exact hids g hg
    · exact hid'.trans hid

/-- The request that a worker has taken and not yet handled. -/
def WorkerPc.pending : WorkerPc → List Request
  | .decrementQueue r | .incrementHandled r | .unlockTaken r | .handle r => [r]
  | _ => []

def State.pending (s : State n) (r : Request) : ℕ := ∑ i, ((s.worker i).pending).count r

theorem State.pending_atWorker (s : State n) (i : Fin n) (pc : WorkerPc) (r : Request) :
    (s.atWorker i pc).pending r + ((s.worker i).pending).count r =
      s.pending r + (pc.pending).count r :=
  sum_update_add (fun pc : WorkerPc => pc.pending.count r) s.worker i pc

theorem State.pending_broadcast (s : State n) (r : Request) :
    s.broadcast.pending r = s.pending r := by
  have hworker : ∀ i, (s.worker i).signal.pending = (s.worker i).pending := by
    intro i
    cases s.worker i <;> rfl
  simp [State.pending, State.broadcast, hworker]

/-- The request that the step hands to `requestHandle`. -/
def handled (s : State n) (l : Label n) : List Request := ((handling s l).map Prod.snd).toList

/-- A worker goes on with the request it has, if any. -/
theorem pending_same {s u : State n} {i : Fin n} {pc : WorkerPc} {r : Request}
    (hu : u.pending r = s.pending r) (hpc : pc.pending = (u.worker i).pending) :
    (u.atWorker i pc).pending r + 0 = s.pending r + 0 := by
  have hmove := u.pending_atWorker i pc r
  rw [hpc] at hmove
  omega

/-- `dequeue` adds a request to those that wait for `requestHandle`, and the call takes it out. -/
theorem pending_of_workerStep {s t : State n} {i : Fin n} (r : Request)
    (h : s.workerStep cfg i = some t) :
    t.pending r + (handled s (.worker i)).count r =
      s.pending r + (taken (event s (.worker i))).count r := by
  unfold State.workerStep at h
  cases hpc : s.worker i with
  | lock | woken | relock r' =>
    rw [hpc] at h
    obtain ⟨-, rfl⟩ := lock_map_eq_some h
    simp only [handled, handling, event, hpc]
    exact pending_same rfl (by simp [hpc, WorkerPc.pending])
  | dequeue =>
    simp only [hpc] at h
    simp only [handled, handling, event, hpc]
    cases hq : s.queue with
    | nil =>
      rw [hq] at h
      exact Option.some.inj h ▸ pending_same rfl (by simp [hpc, WorkerPc.pending])
    | cons r' rest =>
      rw [hq] at h
      obtain rfl := Option.some.inj h
      have hmove := State.pending_atWorker { s with queue := rest } i (.decrementQueue r') r
      have hsame : State.pending { s with queue := rest } r = s.pending r := rfl
      simp only [hpc, WorkerPc.pending, hsame] at hmove
      simpa [taken] using hmove
  | testLoad r' =>
    simp only [hpc] at h
    simp only [handled, handling, event, hpc]
    split at h <;>
      exact Option.some.inj h ▸ pending_same rfl (by simp [hpc, WorkerPc.pending])
  | broadcast r' =>
    rw [hpc] at h
    simp only [handled, handling, event, hpc]
    refine Option.some.inj h ▸ pending_same (s.pending_broadcast r) ?_
    simp [State.broadcast, hpc, WorkerPc.signal, WorkerPc.pending]
  | handle r' =>
    rw [hpc] at h
    obtain rfl := Option.some.inj h
    have hmove := s.pending_atWorker i (.relock r') r
    simp only [hpc, WorkerPc.pending] at hmove
    simpa [handled, handling, event, hpc, taken] using hmove
  | asleep =>
    rw [hpc] at h
    cases h
  | _ =>
    rw [hpc] at h
    simp only [handled, handling, event, hpc]
    exact Option.some.inj h ▸
      pending_same rfl (by simp [hpc, State.unlock, WorkerPc.pending])

theorem worker_of_masterStep {s t : State n} {rands : List ℕ}
    (h : s.masterStep cfg rands = some t) (r : Request) : t.pending r = s.pending r := by
  unfold State.masterStep at h
  cases hpc : s.master with
  | lock r' | woken r' | overloadLock r' =>
    rw [hpc] at h
    obtain ⟨-, rfl⟩ := lock_map_eq_some h
    rfl
  | testHandled r' | testFull r' | blockTest r' | randomTest r' | unlockFull r' | count
  | headDequeue r' | randomDrop r' =>
    simp only [hpc] at h
    repeat' split at h
    all_goals exact Option.some.inj h ▸ rfl
  | headClose r' tmp =>
    rw [hpc] at h
    cases tmp <;> exact Option.some.inj h ▸ rfl
  | broadcast =>
    rw [hpc] at h
    exact Option.some.inj h ▸ s.pending_broadcast r
  | accept | asleep r' | crashed =>
    rw [hpc] at h
    cases h
  | _ =>
    rw [hpc] at h
    exact Option.some.inj h ▸ rfl

theorem pending_of_next {s t : State n} {l : Label n} (r : Request)
    (h : next cfg s l = some t) :
    t.pending r + (handled s l).count r = s.pending r + (taken (event s l)).count r := by
  cases l with
  | accept r' =>
    obtain ⟨-, ht⟩ := Option.ite_none_right_eq_some.mp h
    exact Option.some.inj ht ▸ rfl
  | master rands =>
    have hnone : taken (event s (.master rands)) = [] := by
      cases hpc : s.master <;> simp [event, hpc, taken]
    rw [hnone]
    exact worker_of_masterStep h r
  | worker i => exact pending_of_workerStep r h
  | wakeWorker i =>
    obtain ⟨hpc, ht⟩ := Option.ite_none_right_eq_some.mp h
    exact Option.some.inj ht ▸ pending_same rfl (by simp [hpc, WorkerPc.pending])
  | wakeMaster =>
    unfold next at h
    cases hpc : s.master with
    | asleep r' =>
      rw [hpc] at h
      exact Option.some.inj h ▸ rfl
    | _ => simp [hpc] at h

/-- The statistics of every thread, and the requests that have been handled. -/
structure Pool.Exact (p : Pool n) : Prop where
  counts : ∀ i, Counts i (p.stats i) (callsOf p.calls i)
  balance : ∀ r, (p.calls.map Call.request).count r + p.server.1.pending r =
    (taken p.server.2).count r

theorem Pool.Exact.step {p q : Pool n} {l : PoolLabel n} (h : p.Exact)
    (hs : Pool.next cfg p l = some q) : q.Exact := by
  obtain ⟨u, hu, hq⟩ := Option.bind_eq_some_iff.mp hs
  obtain ⟨hnext, hlog⟩ := TransitionSystem.next_logged hu
  have hpending := fun r => pending_of_next r hnext
  have hbalance := h.balance
  cases hc : handling p.server.1 l.label with
  | none =>
    rw [hc] at hq
    obtain rfl := Option.some.inj hq
    refine ⟨h.counts, fun r => ?_⟩
    have hone := hpending r
    have hb := hbalance r
    simp only [handled, hc, Option.map_none, Option.toList_none, List.count_nil] at hone
    rw [hlog, taken_append, List.count_append]
    dsimp only at hone hb ⊢
    omega
  | some call =>
    obtain ⟨i, r'⟩ := call
    rw [hc] at hq
    obtain ⟨h', hhandle, rfl⟩ := Option.map_eq_some_iff.mp hq
    refine ⟨fun j => ?_, fun r => ?_⟩
    · by_cases hj : j = i
      · subst hj
        have hcalls : callsOf (p.calls ++ [⟨j, r', h'⟩]) j = callsOf p.calls j ++ [h'] := by
          simp [callsOf]
        simp only [hcalls, Function.update_self]
        exact (h.counts j).advance (requestHandle_advances hhandle)
      · have hcalls : callsOf (p.calls ++ [⟨i, r', h'⟩]) j = callsOf p.calls j := by
          simp [callsOf, Ne.symm hj]
        simp only [hcalls, Function.update_of_ne hj]
        exact h.counts j
    · have hone := hpending r
      have hb := hbalance r
      simp only [handled, hc, Option.map_some, Option.toList_some] at hone
      rw [hlog, taken_append, List.count_append, List.map_append, List.count_append,
        List.map_singleton]
      dsimp only at hone hb ⊢
      omega

/-- In every interleaving each thread's statistics count what it has done, each of its responses
carries the next number, and every request that is taken is handled once. -/
theorem thread_statistics {p : Pool n}
    (h : (pool n cfg).Reachable TransitionSystem.always p) :
    (∀ i, Counts i (p.stats i) (callsOf p.calls i)) ∧
      ∀ r, (p.calls.map Call.request).count r + p.server.1.pending r =
        (taken p.server.2).count r := by
  have hexact : p.Exact := by
    refine h.invariant (I := Pool.Exact) ?_ fun u l v hu _ hs => hu.step hs
    rintro _ rfl
    refine ⟨fun i => ⟨rfl, rfl, rfl, rfl, rfl, fun h hh => by cases hh⟩, fun r => ?_⟩
    simp [Pool.created, State.pending, initial, WorkerPc.pending, taken]
  exact ⟨hexact.counts, hexact.balance⟩

/-- The second of two workers has refused a request. -/
theorem thread_statistics_refused : ∃ p : Pool 2, p.calls.length = 1 ∧
    (p.stats 1).totReqCount = 1 ∧
    (∀ i, Counts i (p.stats i) (callsOf p.calls i)) ∧
      ∀ r, (p.calls.map Call.request).count r + p.server.1.pending r =
        (taken p.server.2).count r := by
  let labels : List (Label 2) :=
    [.accept ⟨4, 0, 0⟩] ++ List.replicate 7 (.master []) ++ List.replicate 6 (.worker 1)
  obtain ⟨p, -, hs, hp⟩ := TransitionSystem.exists_of_run (S := pool 2 ⟨.block, 2⟩)
    TransitionSystem.always
    (labels.map fun l => ⟨l, "POST a 1\r\n".toList, [], none⟩)
    (fun p => p.calls.length = 1 ∧ (p.stats 1).totReqCount = 1) rfl (fun _ _ _ => trivial)
    (by decide +kernel)
  obtain ⟨hlen, htotal⟩ := of_decide_eq_true hp
  exact ⟨p, hlen, htotal, thread_statistics hs⟩

end FtfSystems.WebServer.Statements

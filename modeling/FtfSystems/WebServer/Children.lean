import FtfSystems.Foundation.SlotTable
import FtfSystems.Foundation.TransitionSystem

/-!
# The children of `requestServeDynamic`

In `pid=Fork() == 0` the comparison binds first, so that `pid` is 0 in the server and `waitpid`
waits for any child of its process group. A worker then returns with the child of another call,
and with `WUNTRACED` also with a child that has only stopped.
-/
namespace FtfSystems.WebServer
open Foundation

/-- A child process; `reported` when `waitpid` has told of the stop. -/
inductive ChildStatus where
  | running
  | stopped (reported : Bool)
  | zombie
  | reaped
  deriving DecidableEq

namespace ChildStatus

def terminated : ChildStatus → Bool
  | zombie | reaped => true
  | running | stopped _ => false

/-- The process exits or is killed. -/
def exit : ChildStatus → Option ChildStatus
  | running | stopped _ => some zombie
  | zombie | reaped => none

def stop : ChildStatus → Option ChildStatus
  | running => some (stopped false)
  | stopped _ | zombie | reaped => none

def resume : ChildStatus → Option ChildStatus
  | stopped _ => some running
  | running | zombie | reaped => none

/-- What `waitpid` with `WUNTRACED` makes of a child that it reports. -/
def report : ChildStatus → Option ChildStatus
  | zombie => some reaped
  | stopped false => some (stopped true)
  | running | stopped true | reaped => none

end ChildStatus

/-- A call of `requestServeDynamic` from its `Fork` on: the child, the variable `pid`, what
became of the child, and whether the call has returned. -/
structure DynamicCall (n : ℕ) where
  worker : Fin n
  child : ℤ
  pid : ℤ
  status : ChildStatus
  returned : Bool
  deriving DecidableEq

/-- The value of `pid=Fork() == 0`. -/
def forkPid (forked : ℤ) : ℤ := if forked = 0 then 1 else 0

/-- `waitpid(pid, …)` waits for this child, which is in the process group of the server. -/
def waitsFor (pid child : ℤ) : Bool := if 0 < pid then child = pid else pid = 0 ∨ pid = -1

/-- A worker forks, something happens to a child, or `waitpid` answers in a call: with the child
of a call, or with `ECHILD`. -/
inductive ChildEvent (n : ℕ) where
  | fork (worker : Fin n) (forked : ℤ)
  | exits (j : ℕ)
  | stops (j : ℕ)
  | continues (j : ℕ)
  | waitpid (i j : ℕ)
  | noChild (i : ℕ)

variable {n : ℕ}

/-- The child of call `j` changes. -/
def setStatus (calls : List (DynamicCall n)) (j : ℕ) (f : ChildStatus → Option ChildStatus) :
    Option (List (DynamicCall n)) := do
  let call ← calls[j]?
  let status ← f call.status
  return calls.modify j fun call => { call with status := status }

/-- Call `i` returns. -/
def returnCall (calls : List (DynamicCall n)) (i : ℕ) : List (DynamicCall n) :=
  calls.modify i fun call => { call with returned := true }

/-- One step. A worker has one call at a time, and `fork` answers with a process id that no child
has before it is reaped. -/
def childNext (calls : List (DynamicCall n)) : ChildEvent n → Option (List (DynamicCall n))
  | .fork worker forked =>
    if 0 < forked ∧ (∀ call ∈ calls, call.worker = worker → call.returned = true) ∧
        ∀ call ∈ calls, call.status ≠ .reaped → call.child ≠ forked then
      some (calls ++ [⟨worker, forked, forkPid forked, .running, false⟩])
    else none
  | .exits j => setStatus calls j ChildStatus.exit
  | .stops j => setStatus calls j ChildStatus.stop
  | .continues j => setStatus calls j ChildStatus.resume
  | .waitpid i j => do
    let call ← calls[i]?
    let other ← calls[j]?
    if call.returned = false ∧ waitsFor call.pid other.child then
      return returnCall (← setStatus calls j ChildStatus.report) i
    else none
  | .noChild i => do
    let call ← calls[i]?
    if call.returned = false ∧
        ∀ other ∈ calls, waitsFor call.pid other.child → other.status = .reaped then
      return returnCall calls i
    else none

/-- The calls of `requestServeDynamic` in `n` workers. -/
def dynamicCalls (n : ℕ) : TransitionSystem (List (DynamicCall n)) (ChildEvent n) where
  init calls := calls = []
  next := childNext

/-- Every call that has returned has a child that has terminated. -/
def OwnChildTerminated (calls : List (DynamicCall n)) : Prop :=
  ∀ call ∈ calls, call.returned = true → call.status.terminated = true

/-- No call forks while a child is still to be reaped, no child terminates while the child of
another call is running, and none stops. -/
def keepsApart (calls : List (DynamicCall n)) : ChildEvent n → Bool
  | .fork _ _ => calls.all fun call => call.status ≠ .zombie
  | .exits j => (calls.eraseIdx j).all fun call => call.returned || call.status.terminated
  | .stops _ => false
  | .continues _ | .waitpid _ _ | .noChild _ => true

variable {calls calls' : List (DynamicCall n)} {i j : ℕ}

/-- The child of a call has changed as `f` says. -/
theorem exists_of_setStatus {f : ChildStatus → Option ChildStatus}
    (h : setStatus calls j f = some calls') : ∃ call status, calls[j]? = some call ∧
      f call.status = some status ∧
      calls' = calls.modify j fun call => { call with status := status } := by
  simp only [setStatus, Option.bind_eq_bind, Option.bind_eq_some_iff, Option.pure_def,
    Option.some.injEq] at h
  obtain ⟨call, hcall, status, hstatus, rfl⟩ := h
  exact ⟨call, status, hcall, hstatus, rfl⟩

/-- Children are apart: once one of them waits to be reaped, none is running. -/
structure Apart (calls : List (DynamicCall n)) : Prop where
  own : OwnChildTerminated calls
  zombie : ∀ z ∈ calls, z.status = .zombie → ∀ call ∈ calls, call.status.terminated = true
  notStopped : ∀ call ∈ calls, ∀ reported, call.status ≠ .stopped reported
  pid : ∀ call ∈ calls, call.pid = 0

theorem Apart.of_terminated (h : ∀ call ∈ calls, call.status.terminated = true)
    (hpid : ∀ call ∈ calls, call.pid = 0) : Apart calls where
  own call hcall _ := h call hcall
  zombie _ _ _ := h
  notStopped call hcall reported he := by
    have ht := h call hcall
    rw [he] at ht
    cases ht
  pid := hpid

theorem Apart.fork (h : Apart calls) {worker : Fin n} {forked : ℤ} (hpos : 0 < forked)
    (hok : ∀ call ∈ calls, call.status ≠ .zombie) :
    Apart (calls ++ [⟨worker, forked, forkPid forked, .running, false⟩]) := by
  refine ⟨?_, ?_, ?_, ?_⟩
  · intro call hcall hr
    rcases List.mem_append.mp hcall with hcall | hcall
    · exact h.own call hcall hr
    · cases List.mem_singleton.mp hcall
      cases hr
  · intro z hz he
    rcases List.mem_append.mp hz with hz | hz
    · exact absurd he (hok z hz)
    · cases List.mem_singleton.mp hz
      cases he
  · intro call hcall reported
    rcases List.mem_append.mp hcall with hcall | hcall
    · exact h.notStopped call hcall reported
    · cases List.mem_singleton.mp hcall
      simp
  · intro call hcall
    rcases List.mem_append.mp hcall with hcall | hcall
    · exact h.pid call hcall
    · cases List.mem_singleton.mp hcall
      simp [forkPid, hpos.ne']

theorem setStatus_pid {f : ChildStatus → Option ChildStatus} (h : ∀ call ∈ calls, call.pid = 0)
    (hs : setStatus calls j f = some calls') : ∀ call ∈ calls', call.pid = 0 := by
  obtain ⟨-, -, -, -, rfl⟩ := exists_of_setStatus hs
  intro call hcall
  rcases exists_of_mem_modify hcall with ⟨y, hy, rfl⟩ | hcall
  · exact h y (List.mem_of_getElem? hy)
  · exact h call (List.mem_of_mem_eraseIdx hcall)

theorem ChildStatus.eq_zombie_of_exit {status status' : ChildStatus}
    (h : status.exit = some status') : status' = .zombie := by
  cases status <;> cases h <;> rfl

theorem Apart.exits (h : Apart calls)
    (hok : ∀ call ∈ calls.eraseIdx j, call.returned = true ∨ call.status.terminated = true)
    (hs : setStatus calls j ChildStatus.exit = some calls') : Apart calls' := by
  refine .of_terminated ?_ (setStatus_pid h.pid hs)
  obtain ⟨call, status, -, hexit, rfl⟩ := exists_of_setStatus hs
  intro x hx
  rcases exists_of_mem_modify hx with ⟨y, -, rfl⟩ | hx
  · rw [ChildStatus.eq_zombie_of_exit hexit]
    rfl
  · exact (hok x hx).elim (h.own x (List.mem_of_mem_eraseIdx hx)) id

theorem Apart.not_continues (h : Apart calls) : setStatus calls j ChildStatus.resume = none := by
  by_contra hne
  obtain ⟨calls', hs⟩ := Option.ne_none_iff_exists'.mp hne
  obtain ⟨call, status, hcall, hres, -⟩ := exists_of_setStatus hs
  cases hst : call.status with
  | stopped reported => exact h.notStopped call (List.mem_of_getElem? hcall) reported hst
  | _ => simp [hst, ChildStatus.resume] at hres

/-- A call returns whose child has terminated. -/
theorem Apart.returnCall (h : Apart calls) {call : DynamicCall n} (hi : calls[i]? = some call)
    (ht : call.status.terminated = true) : Apart (returnCall calls i) := by
  have hmem {x : DynamicCall n} (hx : x ∈ WebServer.returnCall calls i) :
      ∃ y ∈ calls, x.status = y.status ∧ x.pid = y.pid ∧ (x.returned = true →
        y.returned = true ∨ y.status.terminated = true) := by
    rcases exists_of_mem_modify hx with ⟨y, hy, rfl⟩ | hx
    · cases Option.some.inj (hi.symm.trans hy)
      exact ⟨call, List.mem_of_getElem? hi, rfl, rfl, fun _ => .inr ht⟩
    · exact ⟨x, List.mem_of_mem_eraseIdx hx, rfl, rfl, .inl⟩
  refine ⟨?_, ?_, ?_, ?_⟩
  · intro x hx hr
    obtain ⟨y, hy, hst, -, hret⟩ := hmem hx
    rw [hst]
    exact (hret hr).elim (h.own y hy) id
  · intro z hz he x hx
    obtain ⟨y, hy, hst, -⟩ := hmem hz
    obtain ⟨y', hy', hst', -⟩ := hmem hx
    rw [hst']
    exact h.zombie y hy (hst ▸ he) y' hy'
  · intro x hx reported
    obtain ⟨y, hy, hst, -⟩ := hmem hx
    rw [hst]
    exact h.notStopped y hy reported
  · intro x hx
    obtain ⟨y, hy, -, hpid, -⟩ := hmem hx
    rw [hpid]
    exact h.pid y hy

/-- A child is reaped only when none is running. -/
theorem Apart.report (h : Apart calls) (hs : setStatus calls j ChildStatus.report = some calls') :
    (∀ call ∈ calls', call.status.terminated = true) ∧ ∀ call ∈ calls', call.pid = 0 := by
  refine ⟨?_, setStatus_pid h.pid hs⟩
  obtain ⟨other, status, hother, hrep, rfl⟩ := exists_of_setStatus hs
  have hmem := List.mem_of_getElem? hother
  have hzombie : other.status = .zombie := by
    cases hst : other.status with
    | zombie => rfl
    | stopped reported => exact absurd hst (h.notStopped other hmem reported)
    | _ => simp [hst, ChildStatus.report] at hrep
  have hreaped : status = .reaped := by
    rw [hzombie] at hrep
    exact (Option.some.inj hrep).symm
  intro x hx
  rcases exists_of_mem_modify hx with ⟨y, -, rfl⟩ | hx
  · rw [hreaped]
    rfl
  · exact h.zombie other hmem hzombie x (List.mem_of_mem_eraseIdx hx)

theorem Apart.step {ev : ChildEvent n} (h : Apart calls) (hok : keepsApart calls ev = true)
    (hs : childNext calls ev = some calls') : Apart calls' := by
  cases ev with
  | fork worker forked =>
    simp only [keepsApart, List.all_eq_true, decide_eq_true_eq] at hok
    simp only [childNext, Option.ite_none_right_eq_some, Option.some.injEq] at hs
    obtain ⟨⟨hpos, -⟩, rfl⟩ := hs
    exact h.fork hpos hok
  | exits j =>
    simp only [keepsApart, List.all_eq_true, Bool.or_eq_true] at hok
    exact h.exits hok hs
  | stops j => cases hok
  | continues j =>
    rw [childNext, h.not_continues] at hs
    cases hs
  | waitpid i j =>
    simp only [childNext, Option.bind_eq_bind, Option.bind_eq_some_iff,
      Option.ite_none_right_eq_some, Option.pure_def, Option.some.injEq] at hs
    obtain ⟨call, hcall, other, hother, -, calls₁, hrep, rfl⟩ := hs
    obtain ⟨hterm, hpid⟩ := h.report hrep
    have hlen : i < calls₁.length := by
      obtain ⟨_, _, -, -, rfl⟩ := exists_of_setStatus hrep
      rw [List.length_modify]
      exact (List.getElem?_eq_some_iff.mp hcall).1
    have hi := List.getElem?_eq_getElem hlen
    exact (Apart.of_terminated hterm hpid).returnCall hi (hterm _ (List.mem_of_getElem? hi))
  | noChild i =>
    simp only [childNext, Option.bind_eq_bind, Option.bind_eq_some_iff,
      Option.ite_none_right_eq_some, Option.pure_def, Option.some.injEq] at hs
    obtain ⟨call, hcall, ⟨-, hnone⟩, rfl⟩ := hs
    have hmem := List.mem_of_getElem? hcall
    refine h.returnCall hcall ?_
    rw [hnone call hmem (by simp [h.pid call hmem, waitsFor])]
    rfl

theorem apart_of_reachable
    (h : (dynamicCalls n).Reachable (fun s ev => keepsApart s ev = true) calls) : Apart calls := by
  refine h.invariant ?_ ?_
  · rintro _ rfl
    exact .of_terminated (by simp) (by simp)
  · intro s ev t hs hok hnext
    exact hs.step hok hnext

/-- `waitpid` may answer in a call with any child that it reports. -/
theorem childNext_waitpid {call other : DynamicCall n} {status : ChildStatus}
    (hi : calls[i]? = some call) (hj : calls[j]? = some other) (hret : call.returned = false)
    (hpid : call.pid = 0) (hrep : other.status.report = some status) :
    childNext calls (.waitpid i j) =
      some (returnCall (calls.modify j fun call => { call with status := status }) i) := by
  simp [childNext, setStatus, hi, hj, hret, hpid, waitsFor, hrep]

/-- A call returns with the child of another call while its own is running, or with its own
stopped. -/
theorem exists_bad_waitpid {call other : DynamicCall n} (status : ChildStatus)
    (hi : calls[i]? = some call) (hj : calls[j]? = some other) (hret : call.returned = false)
    (hpid : call.pid = 0) (hrep : other.status.report = some status)
    (hrun : if i = j then status.terminated = false else call.status.terminated = false) :
    ∃ ev calls', childNext calls ev = some calls' ∧ ¬ OwnChildTerminated calls' := by
  refine ⟨_, _, childNext_waitpid hi hj hret hpid hrep, fun hown => ?_⟩
  have hget : (returnCall (calls.modify j fun call => { call with status := status }) i)[i]? =
      some { call with status := if i = j then status else call.status, returned := true } := by
    rw [returnCall, List.getElem?_modify, List.getElem?_modify, hi]
    by_cases hij : i = j
    · simp [hij]
    · simp [hij, Ne.symm hij]
  have hterm := hown _ (List.mem_of_getElem? hget) rfl
  dsimp only at hterm
  split_ifs at hrun hterm
  · simp [hrun] at hterm
  · simp [hrun] at hterm

/-- After a step that does not keep the children apart, a call may return before its child has
terminated. -/
theorem Apart.exists_bad {ev : ChildEvent n} (h : Apart calls) (hbad : keepsApart calls ev = false)
    (hs : childNext calls ev = some calls') :
    ∃ ev' calls'', childNext calls' ev' = some calls'' ∧ ¬ OwnChildTerminated calls'' := by
  cases ev with
  | fork worker forked =>
    simp only [keepsApart, List.all_eq_false, decide_eq_true_eq, not_not] at hbad
    obtain ⟨z, hz, hzombie⟩ := hbad
    obtain ⟨j, hj⟩ := List.mem_iff_getElem?.mp hz
    have hlt := (List.getElem?_eq_some_iff.mp hj).1
    simp only [childNext, Option.ite_none_right_eq_some, Option.some.injEq] at hs
    obtain ⟨⟨hpos, -⟩, rfl⟩ := hs
    have hj' : (calls ++ [⟨worker, forked, forkPid forked, .running, false⟩])[j]? = some z := by
      rw [List.getElem?_append_left hlt, hj]
    refine exists_bad_waitpid .reaped List.getElem?_concat_length hj' rfl
      (by simp [forkPid, hpos.ne']) (by rw [hzombie]; rfl) ?_
    rw [if_neg hlt.ne']
    rfl
  | exits j =>
    simp only [keepsApart, List.all_eq_false, Bool.or_eq_true, not_or, Bool.not_eq_true] at hbad
    obtain ⟨call, hcall, hret, hrun⟩ := hbad
    obtain ⟨i, hij, hi⟩ := List.mem_eraseIdx_iff_getElem?.mp hcall
    obtain ⟨other, status, hother, hexit, rfl⟩ := exists_of_setStatus hs
    have hzombie := ChildStatus.eq_zombie_of_exit hexit
    have hi' : (calls.modify j fun call => { call with status := status })[i]? = some call := by
      rw [List.getElem?_modify, hi]
      simp [Ne.symm hij]
    have hj' : (calls.modify j fun call => { call with status := status })[j]? =
        some { other with status := status } := by
      rw [List.getElem?_modify, hother]
      simp
    exact exists_bad_waitpid .reaped hi' hj' hret (h.pid call (List.mem_of_getElem? hi))
      (by rw [hzombie]; rfl) (by rwa [if_neg hij])
  | stops j =>
    obtain ⟨call, status, hcall, hstop, rfl⟩ := exists_of_setStatus hs
    have hmem := List.mem_of_getElem? hcall
    have hrunning : call.status = .running := by
      cases hst : call.status <;> simp [hst, ChildStatus.stop] at hstop ⊢
    have hstatus : status = .stopped false := by
      rw [hrunning] at hstop
      exact (Option.some.inj hstop).symm
    have hret : call.returned = false := by
      by_contra hne
      have hterm := h.own call hmem (by simpa using hne)
      rw [hrunning] at hterm
      cases hterm
    have hget : (calls.modify j fun call => { call with status := status })[j]? =
        some { call with status := status } := by
      rw [List.getElem?_modify, hcall]
      simp
    exact exists_bad_waitpid (.stopped true) hget hget hret (h.pid call hmem)
      (by rw [hstatus]; rfl) (by rw [if_pos rfl]; rfl)
  | continues | waitpid | noChild => cases hbad

/-- As long as the children are kept apart, every call that has returned has a child that has
terminated. After a step that does not keep them apart, some call may return before that. -/
theorem own_child_terminated
    (h : (dynamicCalls n).Reachable (fun s ev => keepsApart s ev = true) calls) :
    OwnChildTerminated calls ∧ ∀ ev calls', keepsApart calls ev = false →
      childNext calls ev = some calls' →
      ∃ ev' calls'', childNext calls' ev' = some calls'' ∧ ¬ OwnChildTerminated calls'' := by
  have hapart := apart_of_reachable h
  exact ⟨hapart.own, fun ev calls' hbad hs => hapart.exists_bad hbad hs⟩

/-- Two calls, one after the other. -/
theorem own_child_terminated_two_calls : ∃ calls : List (DynamicCall 2),
    (dynamicCalls 2).Reachable (fun s ev => keepsApart s ev = true) calls ∧
      calls.map DynamicCall.returned = [true, true] ∧ OwnChildTerminated calls := by
  obtain ⟨calls, hr, hp⟩ : ∃ calls, (dynamicCalls 2).Reachable
      (fun s ev => keepsApart s ev = true) calls ∧
      decide (calls.map DynamicCall.returned = [true, true]) = true :=
    TransitionSystem.exists_of_guardedRun
      [.fork 0 7, .exits 0, .waitpid 0 0, .fork 1 8, .exits 1, .waitpid 1 1] _ rfl (by decide)
  exact ⟨calls, hr, of_decide_eq_true hp, (own_child_terminated hr).1⟩

/-- The child of the first call exits and the second call returns. -/
theorem child_of_other_call_reaped : ∃ calls : List (DynamicCall 2),
    (dynamicCalls 2).Reachable TransitionSystem.always calls ∧
      calls = [⟨0, 7, 0, .reaped, false⟩, ⟨1, 8, 0, .running, true⟩] ∧
      ¬ OwnChildTerminated calls := by
  obtain ⟨calls, -, hr, hp⟩ := TransitionSystem.exists_of_run (S := dynamicCalls 2)
    TransitionSystem.always [.fork 0 7, .fork 1 8, .exits 0, .waitpid 1 0]
    (fun calls => calls = [⟨0, 7, 0, .reaped, false⟩, ⟨1, 8, 0, .running, true⟩]) rfl
    (fun _ _ _ => trivial) (by decide)
  have heq := of_decide_eq_true hp
  refine ⟨calls, hr, heq, fun hown => ?_⟩
  have hterm := hown ⟨1, 8, 0, .running, true⟩ (by simp [heq]) rfl
  cases hterm

end FtfSystems.WebServer

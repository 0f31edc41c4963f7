import FtfSystems.Foundation.TransitionSystem

/-!
# Process weights: `newSyscalls_imp.c`

The new system calls give every task a weight and evaluate it along the process tree: over the
`children` lists downwards and over `real_parent` upwards. A pointer to a task is its number, a
list of siblings the list of the tasks on it. Loops and recursions have fuel; without a result
they have not returned. Tasks come from `INIT_TASK` and from `fork`, which takes over the weight
of the parent or starts at 0.
-/
namespace FtfSystems.LinuxKernel
open Foundation

/-- The members of `struct task_struct` that the system calls use. -/
structure TaskStruct where
  weight : ℤ
  pid : ℤ
  realParent : ℕ
  children : List ℕ
  deriving DecidableEq

/-- The tasks that have been created: the numbers below `count`. -/
structure Kernel where
  count : ℕ
  task : ℕ → TaskStruct

/-- `EINVAL`. -/
def einval : ℤ := 22

/-- `ECHILD`. -/
def echild : ℤ := 10

/-- The value of a computation in `long`. -/
def long (x : ℤ) : ℤ := x.bmod (2 ^ 64)

/-- The value is one of type `int`. -/
def IsInt (x : ℤ) : Prop := -2 ^ 31 ≤ x ∧ x < 2 ^ 31

instance (x : ℤ) : Decidable (IsInt x) := inferInstanceAs (Decidable (_ ∧ _))

def Kernel.update (k : Kernel) (t : ℕ) (task : TaskStruct) : Kernel :=
  { k with task := Function.update k.task t task }

def sysSetWeight (k : Kernel) (current : ℕ) (weight : ℤ) : ℤ × Kernel :=
  if weight < 0 then (-einval, k)
  else (0, k.update current { k.task current with weight := weight })

def sysGetWeight (k : Kernel) (current : ℕ) : ℤ := (k.task current).weight

def traverseChildrenSumWeight (k : Kernel) : ℕ → ℕ → Option ℤ
  | 0, _ => none
  | fuel + 1, rootTask =>
    (k.task rootTask).children.foldlM
      (fun sum task => do return long (sum + (← traverseChildrenSumWeight k fuel task)))
      (k.task rootTask).weight

def sysGetChildrenSum (k : Kernel) (current : ℕ) : Option ℤ :=
  if (k.task current).children.isEmpty then some (-echild)
  else do return long ((← traverseChildrenSumWeight k k.count current) - (k.task current).weight)

/-- The loop of `sys_get_heaviest_ancestor` from `task` on. -/
def heaviestLoop (k : Kernel) : ℕ → ℕ → ℤ → ℤ → Option ℤ
  | 0, _, _, _ => none
  | fuel + 1, task, maxW, maxP =>
    if (k.task task).pid ≠ 0 then
      if (k.task task).weight > maxW then
        heaviestLoop k fuel (k.task task).realParent (k.task task).weight (k.task task).pid
      else heaviestLoop k fuel (k.task task).realParent maxW maxP
    else some maxP

def sysGetHeaviestAncestor (k : Kernel) (current : ℕ) : Option ℤ :=
  heaviestLoop k k.count (k.task current).realParent (k.task current).weight (k.task current).pid

/-- `INIT_TASK`; the task is its own parent. -/
def initTask : TaskStruct := ⟨0, 0, 0, []⟩

/-- `fork` by `current`: the child is a copy, with its own `pid` and no children, and becomes the
last child of `current`. -/
def Kernel.fork (k : Kernel) (current : ℕ) (inherits : Bool) (pid : ℤ) : Kernel where
  count := k.count + 1
  task := Function.update
    (Function.update k.task k.count
      ⟨if inherits then (k.task current).weight else 0, pid, current, []⟩)
    current { k.task current with children := (k.task current).children ++ [k.count] }

/-- What a task does next. -/
inductive Event where
  | fork (current : ℕ) (inherits : Bool) (pid : ℤ)
  | setWeight (current : ℕ) (weight : ℤ)
  deriving DecidableEq

def next (k : Kernel) : Event → Option Kernel
  | .fork current inherits pid =>
    if current < k.count ∧ 0 < pid ∧ IsInt pid then some (k.fork current inherits pid) else none
  | .setWeight current weight =>
    if current < k.count ∧ IsInt weight then some (sysSetWeight k current weight).2 else none

/-- The kernel at boot has the one task `INIT_TASK`. -/
def boot : Kernel := ⟨1, fun _ => initTask⟩

/-- All sequences of forks and calls of `sys_set_weight`, by any tasks. -/
def system : TransitionSystem Kernel Event where
  init k := k = boot
  next := next

section Step
variable {k k' : Kernel} {e : Event}

theorem next_cases (h : next k e = some k') :
    (∃ current inherits pid, e = .fork current inherits pid ∧ current < k.count ∧ 0 < pid ∧
      k' = k.fork current inherits pid) ∨
    (∃ current weight, e = .setWeight current weight ∧ IsInt weight ∧
      (k' = k ∨ 0 ≤ weight ∧ k' = k.update current { k.task current with weight := weight })) := by
  cases e with
  | fork current inherits pid =>
    simp only [next, Option.ite_none_right_eq_some, Option.some.injEq] at h
    exact .inl ⟨current, inherits, pid, rfl, h.1.1, h.1.2.1, h.2.symm⟩
  | setWeight current weight =>
    simp only [next, Option.ite_none_right_eq_some, Option.some.injEq] at h
    refine .inr ⟨current, weight, rfl, h.1.2, ?_⟩
    by_cases hneg : weight < 0
    · rw [sysSetWeight, if_pos hneg] at h
      exact .inl h.2.symm
    · rw [sysSetWeight, if_neg hneg] at h
      exact .inr ⟨by omega, h.2.symm⟩

end Step

section Fork
variable {k : Kernel} {current t : ℕ} {inherits : Bool} {pid : ℤ}

@[simp] theorem fork_count : (k.fork current inherits pid).count = k.count + 1 := rfl

theorem fork_child (h : current < k.count) : (k.fork current inherits pid).task k.count =
    ⟨if inherits then (k.task current).weight else 0, pid, current, []⟩ :=
  (Function.update_of_ne h.ne' _ _).trans (Function.update_self _ _ _)

theorem fork_parent : (k.fork current inherits pid).task current =
    { k.task current with children := (k.task current).children ++ [k.count] } :=
  Function.update_self _ _ _

theorem fork_other (ht : t ≠ k.count) (hc : t ≠ current) :
    (k.fork current inherits pid).task t = k.task t :=
  (Function.update_of_ne hc _ _).trans (Function.update_of_ne ht _ _)

end Fork

section Update
variable {k : Kernel} {t u : ℕ} {w : ℤ}

theorem setWeight_weight :
    ((k.update t { k.task t with weight := w }).task u).weight =
      if u = t then w else (k.task u).weight := by
  by_cases h : u = t
  · subst h
    simp [Kernel.update]
  · simp [Kernel.update, h]

/-- An assignment to the weight changes no other member. -/
theorem setWeight_same :
    ((k.update t { k.task t with weight := w }).task u).children = (k.task u).children ∧
    ((k.update t { k.task t with weight := w }).task u).realParent = (k.task u).realParent ∧
    ((k.update t { k.task t with weight := w }).task u).pid = (k.task u).pid := by
  by_cases h : u = t
  · subst h
    simp [Kernel.update]
  · simp [Kernel.update, h]

end Update
end FtfSystems.LinuxKernel

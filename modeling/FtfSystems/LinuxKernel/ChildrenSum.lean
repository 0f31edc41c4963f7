import FtfSystems.Foundation.Trees
import FtfSystems.LinuxKernel.NewSyscalls

/-!
# The sum over the descendants

Forks and calls of `sys_set_weight` build a tree of tasks with non-negative weights. On such a
tree the recursion of `sys_get_children_sum` returns, visits every strict descendant of the
current task once, and its sum can be told from an error code.
-/
namespace FtfSystems.LinuxKernel
open Foundation

/-- The children lists of a kernel. -/
abbrev Kernel.children (k : Kernel) (t : ℕ) : List ℕ := (k.task t).children

/-- The tasks form a tree with `INIT_TASK` at its root, in which a task is created before its
children, and the weights are non-negative. -/
structure ProcessTree (k : Kernel) : Prop where
  pos : 0 < k.count
  nodup : ∀ t, (k.children t).Nodup
  child : ∀ t c, c ∈ k.children t → t < c ∧ c < k.count ∧ (k.task c).realParent = t
  weight : ∀ t, 0 ≤ (k.task t).weight ∧ (k.task t).weight < 2 ^ 31
  root : (k.task 0).pid = 0 ∧ (k.task 0).realParent = 0
  others : ∀ t, 0 < t → t < k.count → (k.task t).pid ≠ 0 ∧ (k.task t).realParent < t

theorem boot_processTree : ProcessTree boot where
  pos := by decide
  nodup _ := List.nodup_nil
  child _ _ h := absurd h List.not_mem_nil
  weight _ := by simp [boot, initTask]
  root := ⟨rfl, rfl⟩
  others t h0 h1 := by
    simp only [boot] at h1
    omega

namespace ProcessTree
variable {k : Kernel}

theorem setWeight (h : ProcessTree k) (current : ℕ) {weight : ℤ} (hint : IsInt weight)
    (hpos : 0 ≤ weight) :
    ProcessTree (k.update current { k.task current with weight := weight }) := by
  have hsame := fun t => setWeight_same (k := k) (t := current) (u := t) (w := weight)
  refine ⟨h.pos, fun t => ?_, fun t c hc => ?_, fun t => ?_, ?_, fun t h0 ht => ?_⟩
  · rw [Kernel.children, (hsame t).1]
    exact h.nodup t
  · rw [Kernel.children, (hsame t).1] at hc
    rw [(hsame c).2.1]
    exact h.child t c hc
  · rw [setWeight_weight]
    split
    · exact ⟨hpos, hint.2⟩
    · exact h.weight t
  · rw [(hsame 0).2.1, (hsame 0).2.2]
    exact h.root
  · rw [(hsame t).2.1, (hsame t).2.2]
    exact h.others t h0 ht

/-- The members of the tasks that were there before a `fork`. -/
theorem fork_same (current : ℕ) (inherits : Bool) (pid : ℤ) {t : ℕ} (ht : t ≠ k.count) :
    ((k.fork current inherits pid).task t).weight = (k.task t).weight ∧
    ((k.fork current inherits pid).task t).pid = (k.task t).pid ∧
    ((k.fork current inherits pid).task t).realParent = (k.task t).realParent := by
  by_cases hc : t = current
  · subst hc
    simp [fork_parent]
  · simp [fork_other ht hc]

/-- The children after a `fork`: there is one more, the new task. -/
theorem mem_fork_children (h : ProcessTree k) {current : ℕ} (hcur : current < k.count)
    (inherits : Bool) (pid : ℤ) {t c : ℕ} :
    c ∈ (k.fork current inherits pid).children t →
      (c ∈ k.children t ∧ c < k.count) ∨ (t = current ∧ c = k.count) := by
  intro hc
  by_cases hnew : t = k.count
  · rw [hnew, Kernel.children, fork_child hcur] at hc
    exact absurd hc List.not_mem_nil
  · by_cases hpar : t = current
    · rw [hpar, Kernel.children, fork_parent, List.mem_append, List.mem_singleton] at hc
      obtain hc | hc := hc
      · exact .inl ⟨hpar ▸ hc, (h.child _ _ hc).2.1⟩
      · exact .inr ⟨hpar, hc⟩
    · rw [Kernel.children, fork_other hnew hpar] at hc
      exact .inl ⟨hc, (h.child _ _ hc).2.1⟩

theorem fork (h : ProcessTree k) {current : ℕ} (hcur : current < k.count) (inherits : Bool)
    {pid : ℤ} (hpid : 0 < pid) : ProcessTree (k.fork current inherits pid) := by
  have hsame := fun t (ht : t ≠ k.count) => fork_same current inherits pid ht
  have hpos := h.pos
  refine ⟨by simp, fun t => ?_, fun t c hc => ?_, fun t => ?_, ?_, fun t h0 ht => ?_⟩
  · by_cases hnew : t = k.count
    · rw [hnew, Kernel.children, fork_child hcur]
      exact List.nodup_nil
    · by_cases hpar : t = current
      · rw [hpar, Kernel.children, fork_parent]
        refine List.nodup_append.mpr ⟨h.nodup current, List.nodup_singleton _, fun a ha b hb => ?_⟩
        have := (h.child _ _ ha).2.1
        rw [List.mem_singleton] at hb
        omega
      · rw [Kernel.children, fork_other hnew hpar]
        exact h.nodup t
  · rw [fork_count]
    obtain ⟨hc, hlt⟩ | ⟨rfl, rfl⟩ := h.mem_fork_children hcur inherits pid hc
    · rw [(hsame c hlt.ne).2.2]
      have := h.child t c hc
      omega
    · rw [fork_child hcur]
      exact ⟨hcur, by omega, rfl⟩
  · by_cases hnew : t = k.count
    · rw [hnew, fork_child hcur]
      cases inherits with
      | true => exact h.weight current
      | false => simp
    · rw [(hsame t hnew).1]
      exact h.weight t
  · rw [(hsame 0 hpos.ne).2.1, (hsame 0 hpos.ne).2.2]
    exact h.root
  · by_cases hnew : t = k.count
    · rw [hnew, fork_child hcur]
      exact ⟨hpid.ne', hcur⟩
    · rw [(hsame t hnew).2.1, (hsame t hnew).2.2]
      rw [fork_count] at ht
      exact h.others t h0 (by omega)

theorem step {k' : Kernel} {e : Event} (h : ProcessTree k) (hs : next k e = some k') :
    ProcessTree k' := by
  obtain ⟨current, inherits, pid, -, hcur, hpid, rfl⟩ |
    ⟨current, weight, -, hint, rfl | ⟨hpos, rfl⟩⟩ := next_cases hs
  · exact h.fork hcur inherits hpid
  · exact h
  · exact h.setWeight current hint hpos

theorem of_reachable {ok : Kernel → Event → Prop} (h : system.Reachable ok k) : ProcessTree k := by
  refine h.invariant (I := ProcessTree) ?_ ?_
  · rintro _ rfl
    exact boot_processTree
  · intro _ _ _ hI _ hs
    exact hI.step hs

/-- The number of tasks created later is a rank. -/
theorem forest (h : ProcessTree k) : Forest k.children (fun t => k.count - 1 - t) where
  nodup := h.nodup
  parent_unique t t' c hc hc' := (h.child t c hc).2.2.symm.trans (h.child t' c hc').2.2
  rank_lt t c hc := by
    have := h.child t c hc
    omega

end ProcessTree

theorem long_of_lt {x : ℤ} (h0 : 0 ≤ x) (h : x < 2 ^ 63) : long x = x := by
  rw [long]
  exact Int.bmod_eq_of_le_mul_two (by push_cast; omega) (by push_cast; omega)

theorem long_add (x y : ℤ) : long (long x + long y) = long (x + y) := by
  simp only [long, Int.add_bmod_bmod, Int.bmod_add_bmod]

theorem long_sub (x y : ℤ) : long (long x - y) = long (x - y) := by
  simp only [long, Int.bmod_sub_bmod]

/-- The weights of the tasks on a list. -/
def Kernel.weights (k : Kernel) (l : List ℕ) : ℤ := (l.map fun t => (k.task t).weight).sum

section Traverse
variable {k : Kernel} {fuel : ℕ}

/-- The loop over the children adds up what the recursive calls return. -/
theorem foldlM_children {l : List ℕ} {W : ℕ → ℤ} (sum : ℤ)
    (hl : ∀ c ∈ l, traverseChildrenSumWeight k fuel c = some (long (W c))) :
    l.foldlM (fun sum task => do return long (sum + (← traverseChildrenSumWeight k fuel task)))
      (long sum) = some (long (sum + (l.map W).sum)) := by
  induction l generalizing sum with
  | nil => simp
  | cons c l ih =>
    rw [List.foldlM_cons, hl c (by simp), List.map_cons, List.sum_cons, ← add_assoc]
    simp only [Option.pure_def, Option.bind_eq_bind, Option.bind_some, long_add]
    exact ih (sum + W c) fun c hc => hl c (by simp [hc])

/-- With fuel for the depth of the tree the recursion returns the sum over it. -/
theorem traverse_eq (h : ProcessTree k) {t : ℕ} (hfuel : k.count - 1 - t < fuel) :
    traverseChildrenSumWeight k fuel t = some (long (k.weights (preorder k.children fuel t))) := by
  induction fuel generalizing t with
  | zero => omega
  | succ fuel ih =>
    have hw := h.weight t
    have hchildren : ∀ c ∈ k.children t, traverseChildrenSumWeight k fuel c =
        some (long (k.weights (preorder k.children fuel c))) := fun c hc => by
      have := h.child t c hc
      exact ih (by omega)
    have hsum : k.weights (preorder k.children (fuel + 1) t) = (k.task t).weight +
        ((k.children t).map fun c => k.weights (preorder k.children fuel c)).sum := by
      simp [Kernel.weights, preorder, List.flatMap_def, List.sum_flatten, Function.comp_def]
    rw [traverseChildrenSumWeight, hsum, ← foldlM_children _ hchildren,
      long_of_lt hw.1 (by omega)]

end Traverse

open Classical in
/-- The strict descendants of a task, at every depth. -/
noncomputable def Kernel.descendants (k : Kernel) (t : ℕ) : Finset ℕ :=
  {d ∈ Finset.range k.count | Below k.children t d}

/-- The weights of the strict descendants. -/
noncomputable def Kernel.descendantSum (k : Kernel) (t : ℕ) : ℤ :=
  ∑ d ∈ k.descendants t, (k.task d).weight

namespace ProcessTree
variable {k : Kernel} {t d : ℕ}

theorem lt_count_of_below (h : ProcessTree k) (hd : Below k.children t d) : d < k.count := by
  obtain ⟨p, -, hp⟩ := Relation.TransGen.tail'_iff.mp hd
  exact (h.child p d hp).2.1

theorem mem_descendants (h : ProcessTree k) : d ∈ k.descendants t ↔ Below k.children t d := by
  simp only [Kernel.descendants, Finset.mem_filter, Finset.mem_range, and_iff_right_iff_imp]
  exact h.lt_count_of_below

/-- The recursion visits every strict descendant once. -/
theorem weights_below (h : ProcessTree k) {fuel : ℕ} (hfuel : k.count - 1 - t ≤ fuel) :
    k.weights ((k.children t).flatMap (preorder k.children fuel)) = k.descendantSum t := by
  have hnodup : ((k.children t).flatMap (preorder k.children fuel)).Nodup :=
    (List.nodup_cons.mp (h.forest.nodup_preorder (fuel + 1) t)).2
  have hset : ((k.children t).flatMap (preorder k.children fuel)).toFinset = k.descendants t := by
    ext d
    rw [List.mem_toFinset, h.forest.mem_flatMap_preorder hfuel, h.mem_descendants]
  rw [Kernel.descendantSum, ← hset, List.sum_toFinset _ hnodup, Kernel.weights]

theorem descendantSum_nonneg (h : ProcessTree k) (t : ℕ) : 0 ≤ k.descendantSum t :=
  Finset.sum_nonneg fun d _ => (h.weight d).1

/-- The task and its descendants are not more than there are tasks. -/
theorem sum_le (h : ProcessTree k) (ht : t < k.count) :
    (k.task t).weight + k.descendantSum t ≤ k.count * (2 ^ 31 - 1) := by
  have hnot : t ∉ k.descendants t := fun hmem => h.forest.not_below_self (h.mem_descendants.mp hmem)
  have hsub : insert t (k.descendants t) ⊆ Finset.range k.count := by
    intro d hd
    obtain rfl | hd := Finset.mem_insert.mp hd
    · exact Finset.mem_range.mpr ht
    · exact Finset.mem_range.mpr (h.lt_count_of_below (h.mem_descendants.mp hd))
  calc (k.task t).weight + k.descendantSum t
      = ∑ d ∈ insert t (k.descendants t), (k.task d).weight := by
        rw [Finset.sum_insert hnot, Kernel.descendantSum]
    _ ≤ ∑ d ∈ Finset.range k.count, (k.task d).weight :=
        Finset.sum_le_sum_of_subset_of_nonneg hsub fun d _ _ => (h.weight d).1
    _ ≤ ∑ _d ∈ Finset.range k.count, ((2 : ℤ) ^ 31 - 1) :=
        Finset.sum_le_sum fun d _ => by have := (h.weight d).2; omega
    _ = k.count * (2 ^ 31 - 1) := by simp

theorem sum_lt (h : ProcessTree k) (ht : t < k.count) (hcount : k.count < 2 ^ 31) :
    (k.task t).weight + k.descendantSum t < 2 ^ 63 := by
  have hle := h.sum_le ht
  omega

theorem sysGetChildrenSum_eq (h : ProcessTree k) (ht : t < k.count) (hne : k.children t ≠ []) :
    sysGetChildrenSum k t = some (long (k.descendantSum t)) := by
  obtain ⟨n, hn⟩ : ∃ n, k.count = n + 1 := ⟨k.count - 1, by have := h.pos; omega⟩
  have htraverse := traverse_eq h (by omega : k.count - 1 - t < n + 1)
  have hsplit : k.weights (preorder k.children (n + 1) t) =
      (k.task t).weight + k.descendantSum t := by
    rw [← h.weights_below (by omega : k.count - 1 - t ≤ n)]
    simp [Kernel.weights, preorder]
  rw [sysGetChildrenSum, if_neg (by simpa using hne), hn, htraverse, hsplit]
  simp only [Option.pure_def, Option.bind_eq_bind, Option.bind_some, long_sub,
    add_sub_cancel_left]

end ProcessTree

/-- In every state that forks and calls of `sys_set_weight` lead to the weights are non-negative,
and a negative argument is refused without effect. `sys_get_children_sum` returns the error for
a task without children and else the sum over its strict descendants in `long`. With fewer than
`2 ^ 31` tasks this is the sum itself, and no error code. -/
theorem children_sum_of_reachable {k : Kernel} (h : system.Reachable TransitionSystem.always k) :
    (∀ t, t < k.count → 0 ≤ sysGetWeight k t) ∧
    (∀ current weight, weight < 0 → sysSetWeight k current weight = (-einval, k)) ∧
    ∀ current, current < k.count → current ∉ k.descendants current ∧
      (k.children current = [] → sysGetChildrenSum k current = some (-echild)) ∧
      (k.children current ≠ [] →
        sysGetChildrenSum k current = some (long (k.descendantSum current))) ∧
      (k.count < 2 ^ 31 →
        (sysGetChildrenSum k current = some (-echild) ↔ k.children current = []) ∧
        0 ≤ k.descendantSum current ∧
        (k.task current).weight + k.descendantSum current < 2 ^ 63 ∧
        (k.children current ≠ [] →
          sysGetChildrenSum k current = some (k.descendantSum current))) := by
  have hI := ProcessTree.of_reachable h
  refine ⟨fun t _ => (hI.weight t).1, fun current weight hneg => if_pos hneg, fun t ht => ?_⟩
  have hnone : k.children t = [] → sysGetChildrenSum k t = some (-echild) := fun hempty => by
    rw [sysGetChildrenSum, if_pos (by simpa using hempty)]
  have hsome := hI.sysGetChildrenSum_eq ht
  refine ⟨fun hmem => hI.forest.not_below_self (hI.mem_descendants.mp hmem), hnone, hsome,
    fun hcount => ?_⟩
  have hnonneg := hI.descendantSum_nonneg t
  have hlt := hI.sum_lt ht hcount
  have hw := (hI.weight t).1
  have hexact : long (k.descendantSum t) = k.descendantSum t := long_of_lt hnonneg (by omega)
  rw [hexact] at hsome
  refine ⟨⟨fun herr => ?_, hnone⟩, hnonneg, hlt, hsome⟩
  by_contra hne
  rw [hsome hne, Option.some.injEq, echild] at herr
  omega

/-- Two children of `INIT_TASK`, and a child of the first of them that has taken over its
weight; a call with a negative argument is refused. -/
def threeTasks : List Event :=
  [.fork 0 false 1, .setWeight 1 5, .fork 1 true 2, .fork 0 true 3, .setWeight 3 (-7),
    .setWeight 3 2]

theorem children_sum_three_tasks : ∃ k, system.run boot threeTasks = some k ∧
    sysGetChildrenSum k 0 = some 12 ∧ k.descendantSum 0 = 12 := by
  obtain ⟨k, hrun, hreach, hk⟩ := TransitionSystem.exists_of_run (S := system)
    TransitionSystem.always threeTasks (fun k => k.count = 4 ∧ k.children 0 = [1, 3] ∧
      sysGetChildrenSum k 0 = some 12) rfl (fun _ _ _ => trivial) (by decide +kernel)
  rw [decide_eq_true_eq] at hk
  obtain ⟨-, -, hall⟩ := children_sum_of_reachable hreach
  obtain ⟨-, -, -, hsmall⟩ := hall 0 (by omega)
  have hsum := (hsmall (by omega)).2.2.2 (by simp [hk.2.1])
  rw [hk.2.2, Option.some.injEq] at hsum
  exact ⟨k, hrun, hk.2.2, hsum.symm⟩
end FtfSystems.LinuxKernel

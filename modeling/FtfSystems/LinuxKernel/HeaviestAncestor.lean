import FtfSystems.LinuxKernel.ChildrenSum

/-!
# The heaviest ancestor

`sys_get_heaviest_ancestor` climbs from the current task to the task with pid 0, which is not
taken into account. The climb ends in every table of tasks in which following `real_parent`
leads there, and the strict comparison prefers the task closest to the current one.
-/
namespace FtfSystems.LinuxKernel
open Foundation

/-- Following `real_parent` from a task. -/
def Kernel.ancestor (k : Kernel) (current i : ℕ) : ℕ := (fun t => (k.task t).realParent)^[i] current

/-- Following `real_parent` stays among the tasks and leads from every one of them to the only
task with pid 0, which is its own parent. -/
structure Rooted (k : Kernel) (root : ℕ) : Prop where
  closed : ∀ t, t < k.count → (k.task t).realParent < k.count
  pid : (k.task root).pid = 0
  parent : (k.task root).realParent = root
  unique : ∀ t, t < k.count → (k.task t).pid = 0 → t = root
  reaches : ∀ t, t < k.count → ∃ n, k.ancestor t n = root

/-- Among the tasks with a pid on the way up, `i` steps lead to the heaviest one, and to the first
of them. -/
structure HeaviestAt (k : Kernel) (current i : ℕ) : Prop where
  pid : (k.task (k.ancestor current i)).pid ≠ 0
  heaviest : ∀ j, (k.task (k.ancestor current j)).pid ≠ 0 →
    (k.task (k.ancestor current j)).weight ≤ (k.task (k.ancestor current i)).weight
  closest : ∀ j, j < i →
    (k.task (k.ancestor current j)).weight < (k.task (k.ancestor current i)).weight

section Climb
variable {k : Kernel} {root current : ℕ}

theorem ancestor_zero : k.ancestor current 0 = current := rfl

theorem ancestor_succ (i : ℕ) :
    k.ancestor current (i + 1) = (k.task (k.ancestor current i)).realParent :=
  Function.iterate_succ_apply' _ _ _

theorem Rooted.ancestor_lt (h : Rooted k root) (hcur : current < k.count) (i : ℕ) :
    k.ancestor current i < k.count := by
  induction i with
  | zero => exact hcur
  | succ i ih =>
    rw [ancestor_succ]
    exact h.closed _ ih

/-- The root is never left again. -/
theorem Rooted.ancestor_of_le (h : Rooted k root) {n j : ℕ} (hn : k.ancestor current n = root)
    (hj : n ≤ j) : k.ancestor current j = root := by
  induction j, hj using Nat.le_induction with
  | base => exact hn
  | succ j _ ih => rw [ancestor_succ, ih, h.parent]

/-- The number of steps to the root, which is less than that of the tasks. -/
theorem Rooted.exists_climb (h : Rooted k root) (hcur : current < k.count) :
    ∃ n, n < k.count ∧ k.ancestor current n = root ∧
      ∀ m, m < n → (k.task (k.ancestor current m)).pid ≠ 0 := by
  have hclosed : ∀ t ∈ Finset.range k.count, (k.task t).realParent ∈ Finset.range k.count := by
    intro t ht
    rw [Finset.mem_range] at ht ⊢
    exact h.closed t ht
  obtain ⟨n, hlt, hn, hmin⟩ := exists_iterate_lt_card hclosed (Finset.mem_range.mpr hcur)
    (h.reaches current hcur)
  rw [Finset.card_range] at hlt
  exact ⟨n, hlt, hn, fun m hm h0 => hmin m hm (h.unique _ (h.ancestor_lt hcur m) h0)⟩

/-- The loop carries the first of the heaviest tasks passed so far. -/
theorem heaviestLoop_run {n m i fuel : ℕ} (hn : (k.task (k.ancestor current n)).pid = 0)
    (hpid : ∀ j, j < n → (k.task (k.ancestor current j)).pid ≠ 0) (hm : m ≤ n)
    (hfuel : n - m < fuel)
    (hmax : FirstMax (fun j => (k.task (k.ancestor current j)).weight) m i) :
    ∃ i', FirstMax (fun j => (k.task (k.ancestor current j)).weight) n i' ∧
      heaviestLoop k fuel (k.ancestor current m) (k.task (k.ancestor current i)).weight
        (k.task (k.ancestor current i)).pid = some (k.task (k.ancestor current i')).pid := by
  induction fuel generalizing m i with
  | zero => omega
  | succ fuel ih =>
    obtain rfl | hlt : m = n ∨ m < n := by omega
    · exact ⟨i, hmax, by rw [heaviestLoop, if_neg (not_not_intro hn)]⟩
    · rw [heaviestLoop, if_pos (hpid m hlt), ← ancestor_succ]
      split
      next hgt => exact ih (by omega) (by omega) (hmax.next_of_lt hgt)
      next hle => exact ih (by omega) (by omega) (hmax.next_of_le (by omega))

end Climb

/-- The climb ends and returns the pid of the heaviest task on the way, the closest one among
equals; for the task with pid 0 it returns 0. -/
theorem heaviest_ancestor_correct {k : Kernel} {root current : ℕ} (h : Rooted k root)
    (hcur : current < k.count) :
    ((k.task current).pid = 0 → sysGetHeaviestAncestor k current = some 0) ∧
    ((k.task current).pid ≠ 0 → ∃ i, HeaviestAt k current i ∧
      sysGetHeaviestAncestor k current = some (k.task (k.ancestor current i)).pid) := by
  obtain ⟨n, hlt, hn, hpid⟩ := h.exists_climb hcur
  constructor
  · intro h0
    obtain rfl := h.unique current hcur h0
    obtain ⟨c, hc⟩ : ∃ c, k.count = c + 1 := ⟨k.count - 1, by omega⟩
    rw [sysGetHeaviestAncestor, h.parent, hc, heaviestLoop, if_neg (not_not_intro h0), h0]
  · intro h0
    have hn0 : 0 < n := by
      rcases Nat.eq_zero_or_pos n with rfl | hpos
      · exact absurd (by rw [← h.pid, ← hn, ancestor_zero]) h0
      · exact hpos
    obtain ⟨i, hmax, hrun⟩ := heaviestLoop_run (by rw [hn, h.pid]) hpid hn0
      (by omega : n - 1 < k.count) (.single _)
    refine ⟨i, ⟨hpid i hmax.lt, fun j hj => ?_, hmax.first⟩, hrun⟩
    refine hmax.le j (Nat.lt_of_not_le fun hle => hj ?_)
    rw [h.ancestor_of_le hn hle, h.pid]

/-- Forks build such tables. -/
theorem ProcessTree.rooted {k : Kernel} (h : ProcessTree k) : Rooted k 0 where
  closed t ht := by
    obtain rfl | h0 := Nat.eq_zero_or_pos t
    · rw [h.root.2]
      exact ht
    · have := (h.others t h0 ht).2
      omega
  pid := h.root.1
  parent := h.root.2
  unique t ht hpid := by
    by_contra hne
    exact (h.others t (by omega) ht).1 hpid
  reaches t ht := by
    induction t using Nat.strong_induction_on with
    | _ t ih =>
      obtain rfl | h0 := Nat.eq_zero_or_pos t
      · exact ⟨0, rfl⟩
      · have hpar := (h.others t h0 ht).2
        obtain ⟨n, hn⟩ := ih _ hpar (by omega)
        exact ⟨n + 1, hn⟩

/-- A child that is as heavy as its parent. -/
def equalWeights : List Event := [.fork 0 false 11, .setWeight 1 5, .fork 1 true 12]

theorem heaviest_ancestor_equal_weights : ∃ k, system.run boot equalWeights = some k ∧
    sysGetHeaviestAncestor k 2 = some 12 ∧
      ∃ i, HeaviestAt k 2 i ∧ (k.task (k.ancestor 2 i)).pid = 12 := by
  obtain ⟨k, hrun, hreach, hk⟩ := TransitionSystem.exists_of_run (S := system)
    TransitionSystem.always equalWeights (fun k => k.count = 3 ∧ (k.task 2).pid = 12 ∧
      sysGetHeaviestAncestor k 2 = some 12) rfl (fun _ _ _ => trivial) (by decide +kernel)
  rw [decide_eq_true_eq] at hk
  obtain ⟨i, hat, hpid⟩ := (heaviest_ancestor_correct (ProcessTree.of_reachable hreach).rooted
    (by omega : 2 < k.count)).2 (by omega)
  rw [hk.2.2, Option.some.injEq] at hpid
  exact ⟨k, hrun, hk.2.2, i, hat, hpid.symm⟩

end FtfSystems.LinuxKernel

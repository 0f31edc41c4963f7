import FtfSystems.WebServer.Server

/-!
# The counter under the policy `random`

How many nodes `random_drop` takes out does not depend on what `rand()` returns. The caller
computes the number that is left a second time, and from a number that is no multiple of four
it subtracts too little.
-/
namespace FtfSystems.WebServer

variable {n : ℕ} {queue : List Request}

/-- One walk of `random_drop` takes out one node. -/
theorem length_dropNode (k : ℤ) (h : queue ≠ []) :
    (dropNode k queue).1.length + 1 = queue.length := by
  induction queue generalizing k with
  | nil => exact absurd rfl h
  | cons tmp rest ih =>
    unfold dropNode
    by_cases hk : k ≠ 0 ∧ rest ≠ []
    · have hrest := ih (k - 1) hk.2
      rw [if_pos hk]
      simpa using hrest
    · rw [if_neg hk]
      rfl

/-- The rounds of `random_drop` take out one node each, except that the head stays. -/
theorem dropRounds_length (rands : List ℕ) {m : ℕ} {higher : ℤ} (hm : m ≤ higher)
    (h : queue ≠ []) :
    ∃ left closed, dropRounds rands higher m queue = some (left, closed) ∧
      left.length = max 1 (queue.length - m) := by
  induction m generalizing queue rands higher with
  | zero =>
    have hpos := List.length_pos_iff.mpr h
    exact ⟨queue, [], rfl, by omega⟩
  | succ m ih =>
    have hhigher : higher + 1 ≠ 0 := by omega
    obtain ⟨head, nodes, rfl⟩ := List.exists_cons_of_ne_nil h
    cases nodes with
    | nil => exact ⟨[head], [], by simp [dropRounds, hhigher], by simp⟩
    | cons node nodes =>
      obtain ⟨x, hx⟩ : ∃ x,
          x = dropNode ((rands.headD 0 : ℤ).tmod (higher + 1) - 1) (node :: nodes) := ⟨_, rfl⟩
      have hlen : x.1.length + 1 = (node :: nodes).length := by
        rw [hx]
        exact length_dropNode _ (by simp)
      obtain ⟨left, closed, hleft, hl⟩ :=
        @ih (head :: x.1) rands.tail (higher - 1) (by omega) (by simp)
      refine ⟨left, x.2.toList.map (fun r => .cell r.cell) ++ closed, ?_, ?_⟩
      · rw [dropRounds, if_neg hhigher]
        · simp only [← hx, hleft, Option.map_some]
        · simp
      · simp only [List.length_cons] at hlen hl ⊢
        omega

/-- The number of rounds is a quarter of the argument, rounded up. -/
theorem toBeDeleted_eq (qmaxSize : ℕ) :
    (if (qmaxSize : ℤ).tmod 4 = 0 then (qmaxSize : ℤ).tdiv 4
      else 1 + (qmaxSize : ℤ).tdiv 4).toNat = (qmaxSize + 3) / 4 := by
  rw [Int.tmod_eq_emod_of_nonneg (by omega), Int.tdiv_eq_ediv_of_nonneg (by omega)]
  split_ifs <;> omega

/-- `random_drop` takes out as many nodes as it has rounds, but not the head. -/
theorem randomDrop_length (qmaxSize : ℕ) (rands : List ℕ) (h : queue ≠ []) :
    ∃ left closed, randomDrop queue qmaxSize rands = some (left, closed) ∧
      left.length = max 1 (queue.length - (qmaxSize + 3) / 4) := by
  simp only [randomDrop, if_neg h, toBeDeleted_eq]
  exact dropRounds_length rands (by omega) h

/-- The counter is the number of nodes, and a quarter of `n` nodes is gone. -/
def State.CountsQuarterGone (k : ℕ) (t : State n) : Prop :=
  t.queueSize = t.queue.length ∧ t.queue.length = k - (k + 3) / 4

/-- After `handle_overload("random")` on a full server with an exact counter, the counter is
exact again and a quarter of the nodes is gone if and only if four divides their number. -/
theorem random_counter_iff (cfg : Config) (s : State n) (r : Request) (rands : List ℕ)
    (hp : cfg.policy = .random) (hcount : s.queueSize = s.queue.length)
    (hfull : s.queueSize + s.currentlyHandled = cfg.qmaxSize) :
    (s.handleOverload cfg r rands).CountsQuarterGone s.queue.length ↔
      s.queue.length % 4 = 0 := by
  have hmod : (s.queueSize.tmod 4 = 0) ↔ s.queue.length % 4 = 0 := by
    rw [hcount, Int.tmod_eq_emod_of_nonneg (by omega)]
    omega
  have hdiv : s.queueSize.tdiv 4 = (s.queue.length / 4 : ℕ) := by
    rw [hcount, Int.tdiv_eq_ediv_of_nonneg (by omega)]
    rfl
  obtain ⟨left, closed, hdrop, hlen⟩ : ∃ left closed,
      randomDrop s.queue s.queueSize rands = some (left, closed) ∧
        left.length = if s.queue.length = 0 then 0 else
          max 1 (s.queue.length - (s.queue.length + 3) / 4) := by
    rw [hcount]
    by_cases hq : s.queue = []
    · exact ⟨[], [], by simp [randomDrop, hq], by simp [hq]⟩
    · have hne : s.queue.length ≠ 0 := by simpa using hq
      obtain ⟨left, closed, hdrop, hlen⟩ := randomDrop_length s.queue.length rands hq
      exact ⟨left, closed, hdrop, by rw [hlen, if_neg hne]⟩
  simp only [State.handleOverload, hp, hfull, if_true, hdrop, State.CountsQuarterGone, hmod, hdiv,
    hlen]
  by_cases h4 : s.queue.length % 4 = 0
  · refine iff_of_true ?_ h4
    split_ifs <;> omega
  · refine iff_of_false ?_ h4
    split_ifs <;> omega

/-- Four requests: the counter is exact. -/
theorem random_counter_iff_four :
    (State.handleOverload ⟨.random, 4⟩
      { initial 1 with
        queue := [⟨4, 0, 0⟩, ⟨5, 1, 0⟩, ⟨6, 2, 0⟩, ⟨7, 3, 0⟩], queueSize := 4 }
      ⟨8, 4, 0⟩ [3]).CountsQuarterGone 4 :=
  (random_counter_iff ⟨.random, 4⟩ _ _ _ rfl rfl rfl).mpr rfl

/-- Two requests: one is left and the counter says three. -/
theorem random_counter_two_requests :
    ∃ s : State 1, (server 1 ⟨.random, 2⟩).Reachable Foundation.TransitionSystem.always s ∧
      s.queueSize = s.queue.length ∧ s.queueSize + s.currentlyHandled = 2 ∧
      (s.handleOverload ⟨.random, 2⟩ ⟨6, 2, 0⟩ [0]).queueSize = 3 ∧
      (s.handleOverload ⟨.random, 2⟩ ⟨6, 2, 0⟩ [0]).queue = [⟨4, 0, 0⟩] ∧
      ¬ (s.handleOverload ⟨.random, 2⟩ ⟨6, 2, 0⟩ [0]).CountsQuarterGone s.queue.length := by
  obtain ⟨s, -, hs, hp⟩ := Foundation.TransitionSystem.exists_of_run (S := server 1 ⟨.random, 2⟩)
    Foundation.TransitionSystem.always
    [.accept ⟨4, 0, 0⟩, .master [], .accept ⟨5, 1, 0⟩, .master [], .accept ⟨6, 2, 0⟩, .master []]
    (fun s => s.queueSize = s.queue.length ∧ s.queueSize + s.currentlyHandled = 2 ∧
      (s.handleOverload ⟨.random, 2⟩ ⟨6, 2, 0⟩ [0]).queueSize = 3 ∧
      (s.handleOverload ⟨.random, 2⟩ ⟨6, 2, 0⟩ [0]).queue = [⟨4, 0, 0⟩])
    rfl (fun _ _ _ => trivial) (by decide +kernel)
  obtain ⟨hcount, hfull, hsize, hqueue⟩ := of_decide_eq_true hp
  refine ⟨s, hs, hcount, hfull, hsize, hqueue, ?_⟩
  rintro ⟨h, -⟩
  rw [hsize, hqueue] at h
  simp at h

end FtfSystems.WebServer

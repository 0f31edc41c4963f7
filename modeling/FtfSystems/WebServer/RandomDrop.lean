import FtfSystems.WebServer.LinkedQueue
import FtfSystems.WebServer.RandomPolicy

/-!
# `random_drop` on the linked queue

The argument need not be the number of nodes, and the index may be -1. Still every round unlinks
one node behind the head, until only the head is left. At the largest `int` the divisor in
`Randoms` wraps around to a negative number, which leaves the same remainder.
-/
namespace FtfSystems.WebServer
open Foundation

namespace Fifo
variable {q q' : Fifo} {l l' : List Placed}

theorem setNext_head {p v : ℕ} (h : q.setNext p v = some q') : q'.head = q.head := by
  obtain ⟨nd, -, rfl⟩ := Option.map_eq_some_iff.mp h
  rfl

theorem unlink_head {prior tmp : ℕ} {r : Request} (h : q.unlink prior tmp = some (r, q')) :
    q'.head = q.head := by
  obtain ⟨nd, -, h⟩ := Option.bind_eq_some_iff.mp h
  obtain ⟨q₁, hset, h⟩ := Option.bind_eq_some_iff.mp h
  cases h
  exact (setNext_head hset : q₁.head = q.head)

/-- No round assigns `head`. -/
theorem dropRounds_head {n : ℕ} {rands : List ℕ} {higher : ℤ} {gone : List Request}
    (h : dropRounds rands higher n q = some (gone, q')) : q'.head = q.head := by
  induction n generalizing q rands higher gone with
  | zero =>
    cases h
    rfl
  | succ n ih =>
    rw [dropRounds] at h
    split at h
    · cases h
    · obtain ⟨nd, -, h⟩ := Option.bind_eq_some_iff.mp h
      by_cases hnext : nd.next = 0
      · simp only [hnext, if_true] at h
        cases h
        rfl
      · simp only [hnext, if_false] at h
        obtain ⟨found, -, h⟩ := Option.bind_eq_some_iff.mp h
        obtain ⟨dropped, hunlink, h⟩ := Option.bind_eq_some_iff.mp h
        obtain ⟨rest, hrest, h⟩ := Option.bind_eq_some_iff.mp h
        cases h
        exact (ih hrest).trans (unlink_head hunlink)

theorem randomDrop_head {qmaxSize : ℤ} {rands : List ℕ} {gone : List Request}
    (h : q.randomDrop qmaxSize rands = some (gone, q')) : q'.head = q.head := by
  by_cases hq : q.head = 0
  · simp only [randomDrop, hq, if_true] at h
    cases h
    rfl
  · simp only [randomDrop, hq, if_false] at h
    exact dropRounds_head h

/-- A part of the nodes that starts at the same address starts at the same node. -/
theorem Represents.head?_eq (h : q.Represents l) (h' : q'.Represents l') (hsub : l'.Sublist l)
    (hhead : q'.head = q.head) (hl : l ≠ []) : l'.head? = l.head? := by
  obtain ⟨b, bs, rfl⟩ := List.exists_cons_of_ne_nil hl
  cases l' with
  | nil => exact absurd (hhead ▸ h'.head) h.head_ne_zero
  | cons c cs =>
    have haddr : c.1 = b.1 := by rw [h.head, h'.head] at hhead; exact hhead
    have hnil : q.Represents ([] ++ b :: bs) := h
    rcases List.mem_cons.mp (hsub.subset (List.mem_cons_self : c ∈ c :: cs)) with rfl | hc
    · rfl
    · exact absurd haddr (hnil.addr_ne.2 c hc)

/-- On every queue with a node, for every argument that is not negative and all random numbers,
`random_drop` returns; it has taken out the smaller of a quarter of the argument, rounded up,
and all nodes but one. The head stays, the others keep their order and `tail` is the last. -/
theorem random_drop_removes (h : q.Represents l) (hl : l ≠ []) (qmaxSize : ℕ)
    (rands : List ℕ) :
    ∃ gone q' l', q.randomDrop qmaxSize rands = some (gone, q') ∧ q'.Represents l' ∧
      gone.length = min ((qmaxSize + 3) / 4) (l.length - 1) ∧
      l'.length + gone.length = l.length ∧ l'.Sublist l ∧ l'.head? = l.head? ∧
      q'.TailIsLast := by
  obtain ⟨gone, q', l', hrun, hrep, hlist, hsub, hperm⟩ := h.randomDrop qmaxSize rands
  obtain ⟨left, closed, hlen, hleft⟩ := randomDrop_length qmaxSize rands
    (by simpa using hl : l.map Prod.snd ≠ [])
  rw [hlist] at hlen
  cases hlen
  have hcount := hperm.length_eq
  have hpos := List.length_pos_iff.mpr hl
  have hhead := randomDrop_head hrun
  simp only [List.length_append, List.length_map] at hleft hcount
  refine ⟨gone, q', l', hrun, hrep, by omega, hcount, hsub, h.head?_eq hrep hsub hhead hl, ?_⟩
  refine hrep.tailIsLast ?_
  rw [hhead]
  exact fun h0 => hl (h.head_eq_zero.mp h0)

/-- Three nodes, the first free addresses after null. -/
def threeNodes : Fifo where
  head := 1
  tail := 3
  node p := if p = 1 then some ⟨⟨4, 0, 0⟩, 2⟩ else if p = 2 then some ⟨⟨5, 1, 0⟩, 3⟩
    else if p = 3 then some ⟨⟨6, 2, 0⟩, 0⟩ else none

theorem threeNodes_represents :
    threeNodes.Represents [(1, ⟨4, 0, 0⟩), (2, ⟨5, 1, 0⟩), (3, ⟨6, 2, 0⟩)] := by
  refine ⟨rfl, fun _ => rfl, ⟨rfl, rfl, rfl, trivial⟩, by simp, by simp, by simp⟩

/-- The index is -1 and the last node goes. -/
theorem random_drop_removes_threeNodes : ∃ gone q' l',
    threeNodes.randomDrop 3 [0] = some (gone, q') ∧ q'.Represents l' ∧ gone.length = 1 ∧
      l'.length = 2 ∧ q'.TailIsLast := by
  obtain ⟨gone, q', l', hrun, hrep, hgone, hcount, -, -, htail⟩ :=
    random_drop_removes threeNodes_represents (by simp) 3 [0]
  refine ⟨gone, q', l', hrun, hrep, hgone, ?_, htail⟩
  rw [hgone] at hcount
  simpa using hcount

end Fifo
end FtfSystems.WebServer

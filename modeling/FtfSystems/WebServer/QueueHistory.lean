import FtfSystems.Foundation.TransitionSystem
import FtfSystems.WebServer.LinkedQueue

/-!
# Histories of the request queue

A log follows the queue in memory through any sequence of calls of `enqueue`, `dequeue` and
`random_drop`. The pairs of descriptor and arrival time that `dequeue` has returned, followed
by those still in the queue, are a subsequence of the pairs enqueued; the rest was removed by
`random_drop`.
-/
namespace FtfSystems.WebServer
open Foundation TransitionSystem
open scoped List

/-- What a node carries for the worker: the descriptor and the time of arrival. -/
def Request.pair (r : Request) : ℕ × ℕ := (r.fd, r.time)

/-- A call of one of the operations, with the answers of `malloc` and `rand`. -/
inductive QueueCall where
  | enqueue (newnode : ℕ) (r : Request)
  | dequeue
  | randomDrop (qmaxSize : ℕ) (rands : List ℕ)

/-- The queue and the pairs that were enqueued, returned by `dequeue` and removed by
`random_drop` so far. -/
structure QueueLog where
  queue : Fifo
  enqueued : List (ℕ × ℕ)
  returned : List (ℕ × ℕ)
  dropped : List (ℕ × ℕ)

namespace QueueLog

/-- `malloc` returns the address of no other node. -/
def Admits (g : QueueLog) : QueueCall → Prop
  | .enqueue newnode _ => newnode ≠ 0 ∧ newnode < 2 ^ 64 ∧ g.queue.node newnode = none
  | _ => True

instance (g : QueueLog) : (c : QueueCall) → Decidable (g.Admits c)
  | .enqueue newnode _ =>
    inferInstanceAs (Decidable (newnode ≠ 0 ∧ newnode < 2 ^ 64 ∧ g.queue.node newnode = none))
  | .dequeue | .randomDrop _ _ => inferInstanceAs (Decidable True)

def next (g : QueueLog) : QueueCall → Option QueueLog
  | .enqueue newnode r =>
    (g.queue.enqueue newnode r).map fun queue =>
      { g with queue := queue, enqueued := g.enqueued ++ [r.pair] }
  | .dequeue =>
    g.queue.dequeue.map fun (result, queue) =>
      { g with queue := queue, returned := g.returned ++ (result.map Request.pair).toList }
  | .randomDrop qmaxSize rands =>
    (g.queue.randomDrop qmaxSize rands).map fun (gone, queue) =>
      { g with queue := queue, dropped := g.dropped ++ gone.map Request.pair }

/-- All sequences of calls, from the empty queue on. -/
def system : TransitionSystem QueueLog QueueCall where
  init g := g = ⟨⟨0, 0, fun _ => none⟩, [], [], []⟩
  next := next

/-- The queue is the list `l`, and its pairs are what is left of those enqueued. -/
structure Refines (g : QueueLog) (l : List Fifo.Placed) : Prop where
  represents : g.queue.Represents l
  ordered : (g.returned ++ (l.map (·.2.pair))).Sublist g.enqueued
  all : (g.returned ++ l.map (·.2.pair) ++ g.dropped).Perm g.enqueued

variable {g t : QueueLog} {l : List Fifo.Placed}

theorem Refines.next (h : g.Refines l) {c : QueueCall} (hc : g.Admits c) :
    ∃ t l', g.next c = some t ∧ t.Refines l' := by
  cases c with
  | enqueue newnode r =>
    obtain ⟨hpos, hlt, hfresh⟩ := hc
    obtain ⟨queue, hq, hrep⟩ := h.represents.enqueue hpos hlt hfresh r
    refine ⟨_, _, by rw [QueueLog.next, hq]; rfl, hrep, ?_, ?_⟩
    · simpa using h.ordered.append (.refl [r.pair])
    · have hall := h.all.append (.refl [r.pair])
      refine List.Perm.trans ?_ hall
      simp only [List.map_append, List.map_cons, List.map_nil, List.append_assoc]
      exact .append_left _ (.append_left _ List.perm_append_comm)
  | dequeue =>
    cases l with
    | nil =>
      have hq : g.queue.dequeue = some (none, g.queue) := by
        rw [Fifo.dequeue, if_pos (h.represents.head_eq_zero.mpr rfl)]
      exact ⟨g, [], by simp [QueueLog.next, hq], h⟩
    | cons b l =>
      obtain ⟨queue, hq, hrep⟩ := h.represents.dequeue
      refine ⟨_, l, by rw [QueueLog.next, hq]; rfl, hrep, ?_, ?_⟩
      · simpa using h.ordered
      · simpa using h.all
  | randomDrop qmaxSize rands =>
    obtain ⟨gone, queue, l', hq, hrep, -, hsub, hperm⟩ := h.represents.randomDrop qmaxSize rands
    refine ⟨_, l', by rw [QueueLog.next, hq]; rfl, hrep, ?_, ?_⟩
    · exact ((List.Sublist.refl _).append (hsub.map _)).trans h.ordered
    · have hpairs := hperm.map Request.pair
      simp only [List.map_append, List.map_map] at hpairs
      refine List.Perm.trans ?_ h.all
      rw [List.append_assoc, List.append_assoc]
      refine .append_left _ ?_
      calc l'.map (·.2.pair) ++ (g.dropped ++ gone.map Request.pair)
        _ ~ l'.map (·.2.pair) ++ (gone.map Request.pair ++ g.dropped) :=
          .append_left _ List.perm_append_comm
        _ = (l'.map (·.2.pair) ++ gone.map Request.pair) ++ g.dropped := by
          rw [List.append_assoc]
        _ ~ l.map (·.2.pair) ++ g.dropped := hpairs.append_right _

theorem Reachable.refines (h : system.Reachable Admits g) : ∃ l, g.Refines l := by
  refine h.invariant (I := fun g => ∃ l, g.Refines l) ?_ ?_
  · rintro g rfl
    refine ⟨[], ⟨rfl, by simp, trivial, by simp, by simp, by simp⟩, by simp, by simp⟩
  · rintro g c t ⟨l, hg⟩ hc hs
    obtain ⟨t', l', ht', hrefines⟩ := hg.next hc
    exact ⟨l', Option.some.inj (ht'.symm.trans hs) ▸ hrefines⟩

/-- `dequeue` returns `NULL` when nothing is left of what was enqueued. -/
theorem Refines.dequeue_null (h : g.Refines l) :
    g.queue.dequeue.map Prod.fst = some none ↔ (g.returned ++ g.dropped).Perm g.enqueued := by
  cases l with
  | nil =>
    have hall : (g.returned ++ g.dropped).Perm g.enqueued := by simpa using h.all
    simp [Fifo.dequeue, h.represents.head_eq_zero.mpr, hall]
  | cons b l =>
    obtain ⟨queue, hq, -⟩ := h.represents.dequeue
    have hlen := h.all.length_eq
    simp only [List.length_append, List.map_cons, List.length_cons] at hlen
    refine ⟨fun hd => by simp [hq] at hd, fun hperm => ?_⟩
    have hlen' := hperm.length_eq
    rw [List.length_append] at hlen'
    omega

/-- Every operation has a result, the list is a queue of which `tail` is the last node, and
the pairs leave it in the order in which they came. -/
theorem queue_refines_fifo (h : system.Reachable Admits g) :
    (g.queue.head ≠ 0 → g.queue.TailIsLast) ∧
    (∃ l, g.queue.Represents l ∧
      (g.returned ++ l.map (·.2.pair)).Sublist g.enqueued ∧
      (g.returned ++ l.map (·.2.pair) ++ g.dropped).Perm g.enqueued) ∧
    (g.queue.dequeue.map Prod.fst = some none ↔ (g.returned ++ g.dropped).Perm g.enqueued) ∧
    ∀ c, g.Admits c → (g.next c).isSome := by
  obtain ⟨l, hl⟩ := Reachable.refines h
  refine ⟨hl.represents.tailIsLast, ⟨l, hl.represents, hl.ordered, hl.all⟩, hl.dequeue_null, ?_⟩
  intro c hc
  obtain ⟨t, l', ht, -⟩ := hl.next hc
  simp [ht]

theorem queue_refines_fifo_drop_tail :
    ∃ g, system.Reachable Admits g ∧ g.returned = [(4, 10)] ∧ g.dropped = [(6, 12)] ∧
      g.queue.head ≠ 0 ∧ g.queue.TailIsLast := by
  let tailDropped (g : QueueLog) : Bool :=
    g.returned = [(4, 10)] ∧ g.dropped = [(6, 12)] ∧ g.queue.head ≠ 0
  obtain ⟨g, hg, hp⟩ : ∃ g, system.Reachable Admits g ∧ tailDropped g = true :=
    exists_of_guardedRun [.enqueue 1 ⟨4, 100, 10⟩, .enqueue 2 ⟨5, 101, 11⟩,
      .enqueue 3 ⟨6, 102, 12⟩, .dequeue, .randomDrop 1 [0]] tailDropped rfl (by decide +kernel)
  obtain ⟨hreturned, hdropped, hhead⟩ := of_decide_eq_true hp
  exact ⟨g, hg, hreturned, hdropped, hhead, (queue_refines_fifo hg).1 hhead⟩

end QueueLog

end FtfSystems.WebServer

import Mathlib.Tactic

/-!
# The request queue: `FIFO_queue.c`

The queue as the list of its nodes from `head` to `tail`. C integers are unbounded here; `/`
and `%` are those of C, which round towards zero. The numbers that `rand()` returns are an
argument.
-/
namespace FtfSystems.WebServer

/-- A node of the queue: the descriptor, the address of the cell that holds it and the time
of arrival. -/
structure Request where
  fd : ℕ
  cell : ℕ
  time : ℕ
  deriving DecidableEq

/-- The argument of a `close`: a descriptor, or the address of the cell that holds one. -/
inductive CloseArg where
  | fd (n : ℕ)
  | cell (a : ℕ)
  deriving DecidableEq

def enqueue (queue : List Request) (r : Request) : List Request := queue ++ [r]

def dequeue : List Request → Option (Request × List Request)
  | [] => none
  | r :: rest => some (r, rest)

/-- The inner loop of `random_drop`, on the nodes from `tmp` on: what is left of them and the
node taken out. A negative number never counts down to 0. -/
def dropNode (nodeToDelete : ℤ) : List Request → List Request × Option Request
  | [] => ([], none)
  | tmp :: rest =>
    if nodeToDelete ≠ 0 ∧ rest ≠ [] then
      let (left, gone) := dropNode (nodeToDelete - 1) rest
      (tmp :: left, gone)
    else (rest, some tmp)

/-- The outer loop of `random_drop`, `n` more rounds from `higher` on. `none` is the division
by zero in `Randoms`; the second component are the calls of `close`. -/
def dropRounds (rands : List ℕ) (higher : ℤ) :
    ℕ → List Request → Option (List Request × List CloseArg)
  | 0, queue => some (queue, [])
  | n + 1, queue =>
    if higher + 1 = 0 then none
    else match queue with
      | [] => some ([], [])
      | [head] => some ([head], [])
      | head :: nodes =>
        let (left, gone) := dropNode ((rands.headD 0 : ℤ).tmod (higher + 1) - 1) nodes
        (dropRounds rands.tail (higher - 1) n (head :: left)).map fun (queue, closed) =>
          (queue, gone.toList.map (fun r => .cell r.cell) ++ closed)

def randomDrop (queue : List Request) (qmaxSize : ℤ) (rands : List ℕ) :
    Option (List Request × List CloseArg) :=
  let toBeDeleted := if qmaxSize.tmod 4 = 0 then qmaxSize.tdiv 4 else 1 + qmaxSize.tdiv 4
  if queue = [] then some ([], [])
  else dropRounds rands qmaxSize toBeDeleted.toNat queue

end FtfSystems.WebServer

import FtfSystems.Foundation.LinkedBlocks
import FtfSystems.WebServer.Queue

/-!
# The request queue in memory

`FIFO_queue.c` with its nodes, `head` and `tail`. A node is in memory from the `malloc` that
returns its address to its `free`; to use a pointer that is null or was freed has no result.
Every operation on a queue whose nodes are linked in order, with `tail` at the last, does what
the operation on the list of the nodes does and leaves such a queue.
-/
namespace FtfSystems.WebServer
open Foundation

/-- `node_t`; the descriptor and its cell are part of the request. -/
structure Node where
  request : Request
  next : ℕ
  deriving DecidableEq

/-- The two global variables and the nodes in memory; 0 is `NULL`. -/
structure Fifo where
  head : ℕ
  tail : ℕ
  node : ℕ → Option Node

namespace Fifo

/-- The node at a pointer. -/
def read (q : Fifo) (p : ℕ) : Option Node := if p = 0 then none else q.node p

def setNext (q : Fifo) (p v : ℕ) : Option Fifo :=
  (q.read p).map fun nd => { q with node := Function.update q.node p (some { nd with next := v }) }

def free (q : Fifo) (p : ℕ) : Fifo := { q with node := Function.update q.node p none }

/-- `enqueue`, when `malloc` returns `newnode`. -/
def enqueue (q : Fifo) (newnode : ℕ) (r : Request) : Option Fifo :=
  let q := { q with node := Function.update q.node newnode (some ⟨r, 0⟩) }
  if q.head = 0 then some { q with head := newnode, tail := newnode }
  else if q.tail = q.head ∧ q.tail ≠ 0 then
    { q with tail := newnode }.setNext q.head newnode
  else do
    let q ← q.setNext q.tail newnode
    return { q with tail := newnode }

/-- `dequeue`: the request, if there is one, and the queue afterwards. -/
def dequeue (q : Fifo) : Option (Option Request × Fifo) :=
  if q.head = 0 then some (none, q)
  else do
    let tmp ← q.read q.head
    let q' := { q with head := tmp.next, tail := if tmp.next = 0 then 0 else q.tail }
    return (some tmp.request, q'.free q.head)

/-- The inner loop of `random_drop`. The bound is never the reason to stop on a list that
ends: such a list meets each of the `2 ^ 64` addresses at most once. -/
def walk (q : Fifo) : ℕ → ℤ → ℕ → ℕ → Option (ℕ × ℕ)
  | 0, _, _, _ => none
  | fuel + 1, nodeToDelete, prior, tmp => do
    if nodeToDelete ≠ 0 ∧ (← q.read tmp).next ≠ 0 then
      walk q fuel (nodeToDelete - 1) (← q.read prior).next (← q.read tmp).next
    else return (prior, tmp)

/-- Take the node `tmp` behind `prior` out of the queue. -/
def unlink (q : Fifo) (prior tmp : ℕ) : Option (Request × Fifo) := do
  let nd ← q.read tmp
  let q' ← q.setNext prior nd.next
  return (nd.request, ({ q' with tail := if tmp = q.tail then prior else q.tail }).free tmp)

/-- The outer loop of `random_drop`, `n` more rounds from `higher` on; the requests taken out
and the queue afterwards. -/
def dropRounds (rands : List ℕ) (higher : ℤ) : ℕ → Fifo → Option (List Request × Fifo)
  | 0, q => some ([], q)
  | n + 1, q => do
    if higher + 1 = 0 then none
    else
      let tmp := (← q.read q.head).next
      if tmp = 0 then return ([], q)
      else
        let (prior, tmp) ←
          q.walk (2 ^ 64) ((rands.headD 0 : ℤ).tmod (higher + 1) - 1) q.head tmp
        let (gone, q) ← q.unlink prior tmp
        let (rest, q) ← dropRounds rands.tail (higher - 1) n q
        return (gone :: rest, q)

def randomDrop (q : Fifo) (qmaxSize : ℤ) (rands : List ℕ) : Option (List Request × Fifo) :=
  let toBeDeleted := if qmaxSize.tmod 4 = 0 then qmaxSize.tdiv 4 else 1 + qmaxSize.tdiv 4
  if q.head = 0 then some ([], q) else dropRounds rands qmaxSize toBeDeleted.toNat q

/-- A node and its address. -/
abbrev Placed := ℕ × Request

/-- The node is in memory and links to `nxt`. -/
def At (q : Fifo) (b : Placed) (_prv nxt : ℕ) : Prop := q.node b.1 = some ⟨b.2, nxt⟩

/-- The nodes are linked in order from `head` on, and `tail` is the last of them. -/
structure Represents (q : Fifo) (l : List Placed) : Prop where
  head : q.head = headAddr Prod.fst 0 l
  tail : l ≠ [] → q.tail = lastAddr Prod.fst 0 l
  linked : Linked Prod.fst q.At 0 l 0
  nodup : (l.map Prod.fst).Nodup
  pos : ∀ b ∈ l, b.1 ≠ 0
  lt : ∀ b ∈ l, b.1 < 2 ^ 64

variable {q q' : Fifo} {l pre post : List Placed} {b c : Placed}

theorem At.read {prv nxt : ℕ} (h : q.At b prv nxt) (hb : b.1 ≠ 0) :
    q.read b.1 = some ⟨b.2, nxt⟩ := by
  rw [Fifo.read, if_neg hb]
  exact h

theorem setNext_of_node {p : ℕ} {nd : Node} (h : q.node p = some nd) (hp : p ≠ 0) (v : ℕ) :
    q.setNext p v =
      some { q with node := Function.update q.node p (some { nd with next := v }) } := by
  rw [setNext, Fifo.read, if_neg hp, h]
  rfl

/-- A node has no back link. -/
theorem linked_behind {p p' nxt : ℕ} (h : Linked Prod.fst q.At p l nxt) :
    Linked Prod.fst q.At p' l nxt := by
  cases l with
  | nil => trivial
  | cons b l => exact h

namespace Represents

theorem read_mid (h : q.Represents (pre ++ b :: post)) :
    q.read b.1 = some ⟨b.2, headAddr Prod.fst 0 post⟩ :=
  (Linked_mid h.linked).read (h.pos b (by simp))

/-- The address of a node determines where it is in the queue. -/
theorem addr_ne (h : q.Represents (pre ++ b :: post)) :
    (∀ c ∈ pre, c.1 ≠ b.1) ∧ ∀ c ∈ post, c.1 ≠ b.1 := by
  have hnodup := h.nodup
  rw [List.map_append, List.map_cons, List.nodup_append] at hnodup
  obtain ⟨-, hpost, hpre⟩ := hnodup
  rw [List.nodup_cons] at hpost
  refine ⟨fun c hc => hpre _ (List.mem_map_of_mem hc) _ (by simp), fun c hc he => ?_⟩
  exact hpost.1 (he ▸ List.mem_map_of_mem hc)

theorem head_ne_zero (h : q.Represents (b :: l)) : q.head ≠ 0 := by
  rw [h.head]
  exact h.pos b (by simp)

theorem head_eq_zero (h : q.Represents l) : q.head = 0 ↔ l = [] := by
  cases l with
  | nil => simp [h.head]
  | cons b l => simp [h.head_ne_zero]

theorem length_lt (h : q.Represents l) : l.length < 2 ^ 64 := by
  have hsub : (l.map Prod.fst).toFinset ⊆ Finset.Ioo 0 (2 ^ 64) := by
    intro a ha
    obtain ⟨b, hb, rfl⟩ := List.mem_map.mp (List.mem_toFinset.mp ha)
    exact Finset.mem_Ioo.mpr ⟨Nat.pos_of_ne_zero (h.pos b hb), h.lt b hb⟩
  have hcard := Finset.card_le_card hsub
  rw [List.toFinset_card_of_nodup h.nodup, List.length_map, Nat.card_Ioo] at hcard
  omega

theorem node_mid (h : q.Represents (pre ++ b :: post)) :
    q.node b.1 = some ⟨b.2, headAddr Prod.fst 0 post⟩ := Linked_mid h.linked

/-- The nodes in front of `b` stay as they are, `b` links to `post'` and `post'` is linked. -/
theorem splice (h : q.Represents (pre ++ b :: post)) {post' : List Placed}
    (hpre : ∀ c ∈ pre, q'.node c.1 = q.node c.1)
    (hb : q'.node b.1 = some ⟨b.2, headAddr Prod.fst 0 post'⟩)
    (hpost : Linked Prod.fst q'.At b.1 post' 0) :
    Linked Prod.fst q'.At 0 (pre ++ b :: post') 0 := by
  rw [Linked_append]
  refine ⟨?_, hb, hpost⟩
  exact (Linked_append.mp h.linked).1.frame fun c hc p m hat => (hpre c hc).trans hat

theorem ne_of_fresh (h : q.Represents l) {a : ℕ} (hfresh : q.node a = none) :
    ∀ c ∈ l, c.1 ≠ a := by
  intro c hc he
  obtain ⟨pre, post, rfl⟩ := List.append_of_mem hc
  have hnode := h.node_mid
  rw [he, hfresh] at hnode
  cases hnode

/-- `malloc` and the assignments to the new node leave the queue as it is. -/
theorem alloc (h : q.Represents l) {a : ℕ} (hfresh : q.node a = none) (nd : Node) :
    Represents { q with node := Function.update q.node a (some nd) } l := by
  have hne := h.ne_of_fresh hfresh
  refine { h with linked := h.linked.frame fun c hc p m hat => ?_ }
  exact (Function.update_of_ne (hne c hc) _ _).trans hat

theorem enqueue (h : q.Represents l) {a : ℕ} (ha : a ≠ 0) (hlt : a < 2 ^ 64)
    (hfresh : q.node a = none) (r : Request) :
    ∃ q', q.enqueue a r = some q' ∧ q'.Represents (l ++ [(a, r)]) := by
  have hne := h.ne_of_fresh hfresh
  have halloc := h.alloc hfresh ⟨r, 0⟩
  obtain rfl | ⟨pre, b, rfl⟩ := List.eq_nil_or_concat' l
  · refine ⟨⟨a, a, Function.update q.node a (some ⟨r, 0⟩)⟩, ?_, ?_⟩
    · simp [Fifo.enqueue, h.head]
    · refine ⟨rfl, fun _ => rfl, ⟨?_, trivial⟩, by simp, by simpa using ha, by simpa using hlt⟩
      exact Function.update_self _ _ _
  · have htail : q.tail = b.1 := by simpa using h.tail (by simp)
    have hhead : q.head ≠ 0 := by simp [h.head_eq_zero]
    have hba : b.1 ≠ a := hne b (by simp)
    have hb : b.1 ≠ 0 := h.pos b (by simp)
    refine ⟨⟨q.head, a, Function.update (Function.update q.node a (some ⟨r, 0⟩)) b.1
      (some ⟨b.2, a⟩)⟩, ?_, ?_⟩
    · have hset (hd tl : ℕ) := setNext_of_node (q := ⟨hd, tl, _⟩) halloc.node_mid hb a
      simp only [Fifo.enqueue, hhead, if_false]
      split_ifs with hlen
      · rw [← hlen.1, htail, hset]
      · rw [htail, hset]
        rfl
    · refine ⟨by simpa using h.head, by simp, ?_, ?_, ?_, ?_⟩
      · rw [List.append_assoc]
        refine halloc.splice (fun c hc => ?_) ?_ ?_
        · exact Function.update_of_ne (h.addr_ne.1 c hc) _ _
        · exact Function.update_self _ _ _
        · refine ⟨?_, trivial⟩
          exact (Function.update_of_ne hba.symm _ _).trans (Function.update_self _ _ _)
      · rw [List.map_append, List.nodup_append]
        refine ⟨h.nodup, by simp, ?_⟩
        rintro x hx y hy rfl
        obtain ⟨c, hc, rfl⟩ := List.mem_map.mp hx
        exact hne c hc (by simpa using hy)
      · intro c hc
        rcases List.mem_append.mp hc with hc | hc
        · exact h.pos c hc
        · rw [List.mem_singleton.mp hc]
          exact ha
      · intro c hc
        rcases List.mem_append.mp hc with hc | hc
        · exact h.lt c hc
        · rw [List.mem_singleton.mp hc]
          exact hlt

/-- A part of the nodes, linked. -/
theorem sub (h : q.Represents l) {l' : List Placed} (hsub : l'.Sublist l)
    (hhead : q'.head = headAddr Prod.fst 0 l') (htail : l' ≠ [] → q'.tail = lastAddr Prod.fst 0 l')
    (hlinked : Linked Prod.fst q'.At 0 l' 0) : q'.Represents l' :=
  ⟨hhead, htail, hlinked, h.nodup.sublist (hsub.map _), fun b hb => h.pos b (hsub.subset hb),
    fun b hb => h.lt b (hsub.subset hb)⟩

theorem dequeue (h : q.Represents (b :: l)) :
    ∃ q', q.dequeue = some (some b.2, q') ∧ q'.Represents l := by
  have hnil : q.Represents ([] ++ b :: l) := h
  have hread : q.read q.head = some ⟨b.2, headAddr Prod.fst 0 l⟩ := by
    rw [h.head]
    exact hnil.read_mid
  refine ⟨_, by rw [Fifo.dequeue, if_neg h.head_ne_zero, hread]; rfl, ?_⟩
  refine h.sub (List.sublist_cons_self b l) rfl (fun hl => ?_) ?_
  · obtain ⟨c, l, rfl⟩ := List.exists_cons_of_ne_nil hl
    have hc : c.1 ≠ 0 := h.pos c (by simp)
    show (if c.1 = 0 then 0 else q.tail) = _
    rw [if_neg hc]
    exact h.tail (by simp)
  · refine linked_behind (h.linked.2.frame fun c hc p m hat => ?_)
    rw [h.head]
    exact (Function.update_of_ne (hnil.addr_ne.2 c hc) _ _).trans hat

theorem unlink (h : q.Represents (pre ++ b :: c :: post)) :
    ∃ q', q.unlink b.1 c.1 = some (c.2, q') ∧ q'.Represents (pre ++ b :: post) := by
  have hc : q.Represents ((pre ++ [b]) ++ c :: post) := by simpa using h
  have hread := hc.read_mid
  have hset := setNext_of_node h.node_mid (h.pos b (by simp)) (headAddr Prod.fst 0 post)
  have hapart := hc.addr_ne
  refine ⟨_, by rw [Fifo.unlink, hread, Option.bind_eq_bind, Option.bind_some, hset]; rfl, ?_⟩
  refine h.sub (by simp) (by simpa [free] using h.head) (fun _ => ?_) ?_
  · have htail : q.tail = lastAddr Prod.fst c.1 post := by simpa using h.tail (by simp)
    show (if c.1 = q.tail then b.1 else q.tail) = _
    rcases lastAddr_mem_or Prod.fst c.1 post with ⟨rfl, -⟩ | ⟨d, hd, he⟩
    · simp [htail]
    · have hne : c.1 ≠ q.tail := fun hc => hapart.2 d hd (by rw [← he, ← htail, hc])
      rw [if_neg hne, htail]
      cases post with
      | nil => cases hd
      | cons d post => simp
  · have hkept (d : Placed) (hb : d.1 ≠ b.1) (hc : d.1 ≠ c.1) :
        Function.update (Function.update q.node b.1 (some ⟨b.2, headAddr Prod.fst 0 post⟩))
          c.1 none d.1 = q.node d.1 := by
      rw [Function.update_of_ne hc, Function.update_of_ne hb]
    refine h.splice (fun d hd => ?_) ?_ ?_
    · exact hkept d (h.addr_ne.1 d hd) (hapart.1 d (by simp [hd]))
    · exact (Function.update_of_ne (hapart.1 b (by simp)) _ _).trans (Function.update_self _ _ _)
    · have hpost := (Linked_append.mp h.linked).2.2.2
      refine linked_behind (hpost.frame fun d hd p m hat => ?_)
      exact (hkept d (h.addr_ne.2 d (by simp [hd])) (hapart.2 d hd)).trans hat

theorem walk (h : q.Represents (pre ++ b :: c :: post)) (k : ℤ) {fuel : ℕ}
    (hfuel : post.length < fuel) :
    ∃ pre' b' c' post', pre ++ b :: c :: post = pre' ++ b' :: c' :: post' ∧
      q.walk fuel k b.1 c.1 = some (b'.1, c'.1) ∧
      ∃ left, dropNode k ((c :: post).map Prod.snd) = (left, some c'.2) ∧
        (pre ++ [b]).map Prod.snd ++ left = (pre' ++ b' :: post').map Prod.snd := by
  have hc : q.Represents ((pre ++ [b]) ++ c :: post) := by simpa using h
  have hread := hc.read_mid
  induction post generalizing pre b c k fuel with
  | nil =>
    obtain ⟨fuel, rfl⟩ := Nat.exists_eq_succ_of_ne_zero hfuel.ne_bot
    refine ⟨pre, b, c, [], rfl, ?_, [], ?_, by simp⟩
    · simp [Fifo.walk, hread]
    · simp [dropNode]
  | cons d post ih =>
    obtain ⟨fuel, rfl⟩ := Nat.exists_eq_succ_of_ne_zero (Nat.ne_zero_of_lt hfuel)
    have hprior := h.read_mid
    by_cases hk : k = 0
    · refine ⟨pre, b, c, d :: post, rfl, ?_, (d :: post).map Prod.snd, ?_, by simp⟩
      · simp [Fifo.walk, hread, hk]
      · simp [dropNode, hk]
    · have hd : d.1 ≠ 0 := h.pos d (by simp)
      have hd' : q.Represents ((pre ++ [b] ++ [c]) ++ d :: post) := by simpa using h
      obtain ⟨pre', b', c', post', hl, hw, left, hdrop, hleft⟩ :=
        ih hc (k - 1) (Nat.lt_of_succ_lt_succ hfuel) hd' hd'.read_mid
      refine ⟨pre', b', c', post', by simpa using hl, ?_, c.2 :: left, ?_, ?_⟩
      · rw [← hw]
        simp [Fifo.walk, hread, hprior, hk, hd]
      · rw [List.map_cons, dropNode, if_pos ⟨hk, by simp⟩, hdrop]
      · simpa using hleft

theorem dropRounds (h : q.Represents l) (hl : l ≠ []) (rands : List ℕ) {n : ℕ} {higher : ℤ}
    (hn : n ≤ higher) :
    ∃ gone q' l', Fifo.dropRounds rands higher n q = some (gone, q') ∧ q'.Represents l' ∧
      WebServer.dropRounds rands higher n (l.map Prod.snd) =
        some (l'.map Prod.snd, gone.map fun r => .cell r.cell) ∧
      l'.Sublist l ∧ (l'.map Prod.snd ++ gone).Perm (l.map Prod.snd) := by
  induction n generalizing q l rands higher with
  | zero => exact ⟨[], q, l, rfl, h, by simp [WebServer.dropRounds], .refl l, by simp⟩
  | succ n ih =>
    have hhigher : higher + 1 ≠ 0 := by omega
    match l, hl with
    | [b], _ =>
      have hread := Represents.read_mid (show q.Represents ([] ++ [b]) from h)
      have hhead := h.head
      refine ⟨[], q, [b], ?_, h, ?_, .refl _, by simp⟩
      · rw [headAddr_cons] at hhead
        simp [Fifo.dropRounds, hhigher, hhead, hread]
      · simp [WebServer.dropRounds, hhigher]
    | b :: c :: post, _ =>
      have hnil : q.Represents ([] ++ b :: c :: post) := h
      have hread := hnil.read_mid
      have hhead := h.head
      have hc : c.1 ≠ 0 := h.pos c (by simp)
      have hlen : post.length < 2 ^ 64 := by
        have := h.length_lt
        simp only [List.length_cons] at this
        omega
      obtain ⟨pre', b', c', post', hl, hw, left, hdrop, hleft⟩ :=
        hnil.walk ((rands.headD 0 : ℤ).tmod (higher + 1) - 1) hlen
      rw [List.nil_append] at hl
      obtain ⟨q₁, hunlink, hq₁⟩ := (hl ▸ h).unlink
      have hn' : (n : ℤ) ≤ higher - 1 := by omega
      obtain ⟨gone, q', l', hrounds, hq', hlist, hsub, hperm⟩ :=
        ih hq₁ (by simp) rands.tail hn'
      refine ⟨c'.2 :: gone, q', l', ?_, hq', ?_, ?_, ?_⟩
      · rw [headAddr_cons] at hhead
        simp [-List.headD_eq_head?_getD, -Nat.reducePow, Fifo.dropRounds, hhigher, hhead, hread,
          hc, hw, hunlink, hrounds]
      · rw [← hleft] at hlist
        rw [List.map_cons] at hdrop
        simp only [List.map_cons, List.map_nil, List.nil_append, List.singleton_append] at hlist
        simp [-List.headD_eq_head?_getD, WebServer.dropRounds, hhigher, hdrop, hlist]
      · rw [hl]
        exact hsub.trans (by simp)
      · rw [hl]
        refine List.perm_middle.trans ((hperm.cons _).trans ?_)
        have hmiddle : (((pre' ++ [b']).map Prod.snd) ++ c'.2 :: post'.map Prod.snd).Perm _ :=
          List.perm_middle
        simpa using hmiddle.symm

theorem randomDrop (h : q.Represents l) (qmaxSize : ℕ) (rands : List ℕ) :
    ∃ gone q' l', q.randomDrop qmaxSize rands = some (gone, q') ∧ q'.Represents l' ∧
      WebServer.randomDrop (l.map Prod.snd) qmaxSize rands =
        some (l'.map Prod.snd, gone.map fun r => .cell r.cell) ∧
      l'.Sublist l ∧ (l'.map Prod.snd ++ gone).Perm (l.map Prod.snd) := by
  by_cases hl : l = []
  · subst hl
    refine ⟨[], q, [], ?_, h, ?_, .refl _, by simp⟩
    · simp [Fifo.randomDrop, h.head]
    · simp [WebServer.randomDrop]
  · have hrounds : (if (qmaxSize : ℤ).tmod 4 = 0 then (qmaxSize : ℤ).tdiv 4
        else 1 + (qmaxSize : ℤ).tdiv 4).toNat ≤ (qmaxSize : ℤ) := by
      rw [Int.tmod_eq_emod_of_nonneg (by omega), Int.tdiv_eq_ediv_of_nonneg (by omega)]
      split_ifs <;> omega
    have hhead : q.head ≠ 0 := fun he => hl (h.head_eq_zero.mp he)
    simpa [Fifo.randomDrop, WebServer.randomDrop, hl, hhead] using h.dropRounds hl rands hrounds

end Represents

/-- From a node to the next. -/
def Links (q : Fifo) (p p' : ℕ) : Prop := (q.read p).map Node.next = some p'

/-- `tail` is a node that is reached from `head` and the last one. -/
def TailIsLast (q : Fifo) : Prop :=
  Relation.ReflTransGen q.Links q.head q.tail ∧ q.Links q.tail 0

theorem Represents.links (h : q.Represents (pre ++ b :: post)) :
    Relation.ReflTransGen q.Links b.1 (lastAddr Prod.fst b.1 post) ∧
      q.Links (lastAddr Prod.fst b.1 post) 0 := by
  induction post generalizing pre b with
  | nil => exact ⟨.refl, by simp [Links, h.read_mid]⟩
  | cons c post ih =>
    have hc : q.Represents ((pre ++ [b]) ++ c :: post) := by simpa using h
    obtain ⟨hreach, hlast⟩ := ih hc
    exact ⟨.head (by simp [Links, h.read_mid]) hreach, hlast⟩

theorem Represents.tailIsLast (h : q.Represents l) (hhead : q.head ≠ 0) : q.TailIsLast := by
  obtain ⟨b, l, rfl⟩ := List.exists_cons_of_ne_nil (mt h.head_eq_zero.mpr hhead)
  have htail := h.tail (by simp)
  have hlinks := Represents.links (show q.Represents ([] ++ b :: l) from h)
  rw [TailIsLast, h.head, htail]
  exact hlinks

end Fifo
end FtfSystems.WebServer

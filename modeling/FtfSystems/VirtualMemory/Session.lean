import FtfSystems.Foundation.TransitionSystem
import FtfSystems.VirtualMemory.Process

/-!
# A program that uses an allocator

A session is a process together with the pointers the program holds. The program calls
the allocator in any order and writes to the bytes it was given; it passes on only null or
pointers it holds, and sizes that fit a `size_t`. A call that does not return ends the
session with its fault.
-/
namespace FtfSystems.VirtualMemory
open Foundation

/-- The four entry points of an allocator and its globals at program start. -/
structure Allocator (G : Type) where
  start : G
  smalloc : OsAnswer → ℕ → Alloc G ℕ
  scalloc : OsAnswer → ℕ → ℕ → Alloc G ℕ
  sfree : ℕ → Alloc G Unit
  srealloc : OsAnswer → ℕ → ℕ → Alloc G ℕ

/-- What the program does next, with the kernel's answer. `write` stores the byte `v` at
offset `i` of a payload. -/
inductive Call where
  | smalloc (os : OsAnswer) (size : ℕ)
  | scalloc (os : OsAnswer) (num size : ℕ)
  | sfree (p : ℕ)
  | srealloc (os : OsAnswer) (oldp size : ℕ)
  | write (p i : ℕ) (v : UInt8)
  deriving DecidableEq

/-- The pointer a call is given; null if none. -/
def Call.pointer : Call → ℕ
  | .smalloc _ _ => 0
  | .scalloc _ _ _ => 0
  | .sfree p => p
  | .srealloc _ oldp _ => oldp
  | .write p _ _ => p

/-- `live` holds the payload pointers returned and not given back, with the number of bytes
asked for; `last` is the latest call with its result. -/
structure Session (G : Type) where
  heap : Process G
  live : List (ℕ × ℕ)
  last : Option (Call × ℕ)
  fault : Option Fault

namespace Session
variable {G : Type}

/-- The pointer can be passed to the allocator. -/
def Holds (t : Session G) (p : ℕ) : Prop := p = 0 ∨ ∃ e ∈ t.live, e.1 = p

instance (t : Session G) (p : ℕ) : Decidable (t.Holds p) := inferInstanceAs (Decidable (_ ∨ _))

/-- The pointers held when `p` is given back. -/
def dropped (t : Session G) (p : ℕ) : List (ℕ × ℕ) := t.live.filter (fun e => e.1 ≠ p)

/-- The session after a call that returned a pointer to `n` bytes, or null; `live` are the
pointers held besides the new one. -/
def record (t : Session G) (c : Call) (n : ℕ) (live : List (ℕ × ℕ)) :
    Except Fault (ℕ × Process G) → Session G
  | .ok (q, heap) => ⟨heap, if q = 0 then t.live else (q, n) :: live, some (c, q), none⟩
  | .error f => { t with fault := some f }

/-- The session after `sfree(p)`. -/
def recordFree (t : Session G) (p : ℕ) : Except Fault (Unit × Process G) → Session G
  | .ok (_, heap) => ⟨heap, t.dropped p, some (.sfree p, 0), none⟩
  | .error f => { t with fault := some f }

theorem mem_dropped {t : Session G} {p : ℕ} {e : ℕ × ℕ} :
    e ∈ t.dropped p ↔ e ∈ t.live ∧ e.1 ≠ p := by
  simp [dropped]

theorem dropped_null {t : Session G} (h : ∀ e ∈ t.live, e.1 ≠ 0) : t.dropped 0 = t.live :=
  List.filter_eq_self.mpr fun e he => by simpa using h e he

theorem record_null (t : Session G) (c : Call) (n : ℕ) (live : List (ℕ × ℕ)) (heap : Process G) :
    t.record c n live (.ok (0, heap)) = ⟨heap, t.live, some (c, 0), none⟩ := rfl

theorem record_pointer (t : Session G) (c : Call) (n : ℕ) (live : List (ℕ × ℕ)) (heap : Process G)
    {q : ℕ} (hq : q ≠ 0) :
    t.record c n live (.ok (q, heap)) = ⟨heap, (q, n) :: live, some (c, q), none⟩ := by
  simp only [record, if_neg hq]

/-- A call ends the session with its fault or becomes the latest one. -/
theorem record_cases (t : Session G) (c : Call) (n : ℕ) (live : List (ℕ × ℕ))
    (r : Except Fault (ℕ × Process G)) :
    (∃ f, t.record c n live r = { t with fault := some f }) ∨
    ∃ q heap, r = .ok (q, heap) ∧ (t.record c n live r).last = some (c, q) ∧
      (t.record c n live r).heap = heap := by
  cases r with
  | error f => exact .inl ⟨f, rfl⟩
  | ok r => exact .inr ⟨r.1, r.2, rfl, rfl, rfl⟩

theorem recordFree_cases (t : Session G) (p : ℕ) (r : Except Fault (Unit × Process G)) :
    (∃ f, t.recordFree p r = { t with fault := some f }) ∨
    (t.recordFree p r).last = some (.sfree p, 0) := by
  cases r with
  | error f => exact .inl ⟨f, rfl⟩
  | ok r => exact .inr rfl

theorem recordFree_ok (t : Session G) (p : ℕ) (heap : Process G) :
    t.recordFree p (.ok ((), heap)) = ⟨heap, t.dropped p, some (.sfree p, 0), none⟩ := rfl

/-- The session after the program has stored a byte. -/
def recordWrite (t : Session G) (p i : ℕ) (v : UInt8) : Session G :=
  { t with heap := { t.heap with mem := Function.update t.heap.mem (p + i) v }
           last := some (.write p i v, 0) }

end Session

namespace Allocator
variable {G : Type} (A : Allocator G)

def next (t : Session G) (c : Call) : Option (Session G) :=
  if t.fault ≠ none then none
  else match c with
    | .smalloc os size =>
      if size < 2 ^ 64 then some (t.record c size t.live ((A.smalloc os size).run t.heap))
      else none
    | .scalloc os num size =>
      if num < 2 ^ 64 ∧ size < 2 ^ 64 then
        some (t.record c (num * size) t.live ((A.scalloc os num size).run t.heap))
      else none
    | .sfree p =>
      if t.Holds p then some (t.recordFree p ((A.sfree p).run t.heap)) else none
    | .srealloc os oldp size =>
      if t.Holds oldp ∧ size < 2 ^ 64 then
        some (t.record c size (t.dropped oldp) ((A.srealloc os oldp size).run t.heap))
      else none
    | .write p i v =>
      if ∃ e ∈ t.live, e.1 = p ∧ i < e.2 then some (t.recordWrite p i v) else none

/-- The session of a program that has not called the allocator yet. -/
def fresh (mem : Memory) (brk : ℕ) : Session G :=
  ⟨⟨A.start, mem, brk, brk, [], []⟩, [], none, none⟩

/-- All sessions, from any memory contents and break. -/
def system : TransitionSystem (Session G) Call where
  init t := ∃ mem brk, 0 < brk ∧ brk < 2 ^ 64 ∧ t = A.fresh mem brk
  next := A.next

section Inversion
variable {A} {t t' : Session G} {os : OsAnswer} {p n size : ℕ}

/-- A session goes on only while no call has failed to return. -/
theorem next_fault {c : Call} (h : A.next t c = some t') : t.fault = none := by
  by_contra hf
  simp [next, hf] at h

theorem next_smalloc (h : A.next t (.smalloc os size) = some t') : size < 2 ^ 64 ∧
    t' = t.record (.smalloc os size) size t.live ((A.smalloc os size).run t.heap) := by
  simpa [next, next_fault h, eq_comm] using h

theorem next_scalloc (h : A.next t (.scalloc os n size) = some t') :
    (n < 2 ^ 64 ∧ size < 2 ^ 64) ∧ t' =
      t.record (.scalloc os n size) (n * size) t.live ((A.scalloc os n size).run t.heap) := by
  simpa [next, next_fault h, eq_comm] using h

theorem next_sfree (h : A.next t (.sfree p) = some t') :
    t.Holds p ∧ t' = t.recordFree p ((A.sfree p).run t.heap) := by
  simpa [next, next_fault h, eq_comm] using h

theorem next_sfree_live (h : A.next t (.sfree p) = some t') (hf : t'.fault = none) :
    t'.live = t.dropped p := by
  obtain ⟨-, rfl⟩ := next_sfree h
  cases hr : (A.sfree p).run t.heap with
  | error f => simp [hr, Session.recordFree] at hf
  | ok r => rfl

theorem next_srealloc (h : A.next t (.srealloc os p size) = some t') :
    (t.Holds p ∧ size < 2 ^ 64) ∧ t' =
      t.record (.srealloc os p size) size (t.dropped p) ((A.srealloc os p size).run t.heap) := by
  simpa [next, next_fault h, eq_comm] using h

theorem next_write {v : UInt8} (h : A.next t (.write p n v) = some t') :
    (∃ e ∈ t.live, e.1 = p ∧ n < e.2) ∧ t' = t.recordWrite p n v := by
  simpa [next, next_fault h, eq_comm] using h

/-- The pointers held after a call that returned one, or null. -/
theorem record_live_ne_null {c : Call} {live : List (ℕ × ℕ)} (h : ∀ e ∈ t.live, e.1 ≠ 0)
    (hl : ∀ e ∈ live, e.1 ≠ 0) (r : Except Fault (ℕ × Process G)) :
    ∀ e ∈ (t.record c n live r).live, e.1 ≠ 0 := by
  cases r with
  | error f => exact h
  | ok r =>
    by_cases hq : r.1 = 0
    · simpa only [Session.record, if_pos hq] using h
    · simp only [Session.record, if_neg hq, List.mem_cons]
      rintro e (rfl | he)
      · exact hq
      · exact hl e he

/-- The program never holds null. -/
theorem live_ne_null {ok : Session G → Call → Prop} (h : A.system.Reachable ok t) :
    ∀ e ∈ t.live, e.1 ≠ 0 := by
  refine h.invariant (I := fun t => ∀ e ∈ t.live, e.1 ≠ 0) ?_ ?_
  · rintro _ ⟨mem, brk, -, -, rfl⟩
    simp [fresh]
  · intro t c t' hI _ (hs : A.next t c = some t')
    have hdropped (p : ℕ) : ∀ e ∈ t.dropped p, e.1 ≠ 0 := fun e he =>
      hI e (Session.mem_dropped.mp he).1
    cases c with
    | smalloc os size =>
      obtain ⟨-, rfl⟩ := next_smalloc hs
      exact record_live_ne_null hI hI _
    | scalloc os num size =>
      obtain ⟨-, rfl⟩ := next_scalloc hs
      exact record_live_ne_null hI hI _
    | sfree p =>
      obtain ⟨-, rfl⟩ := next_sfree hs
      cases (A.sfree p).run t.heap with
      | error f => exact hI
      | ok r => exact hdropped p
    | srealloc os p size =>
      obtain ⟨-, rfl⟩ := next_srealloc hs
      exact record_live_ne_null hI (hdropped p) _
    | write p i v =>
      obtain ⟨-, rfl⟩ := next_write hs
      exact hI

end Inversion
end Allocator
end FtfSystems.VirtualMemory

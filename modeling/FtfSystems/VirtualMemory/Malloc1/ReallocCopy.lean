import FtfSystems.VirtualMemory.Malloc1.Contract

/-!
# The copy that `srealloc` makes

When a block is too small, `srealloc` of the first allocator copies as many bytes as the new
block has, not as many as the old one had. So it always reads past the end of the old payload,
into the next header, another payload or what lies behind the break.
-/
namespace FtfSystems.VirtualMemory.Malloc1
open Foundation

/-- The arguments of a `memmove`. -/
structure Copy where
  dst : ℕ
  src : ℕ
  n : ℕ
  deriving DecidableEq

/-- The memory after the copy. -/
def Copy.apply (c : Copy) (m : Memory) : Memory := m.memmove c.dst c.src c.n

section
variable {os : OsAnswer} {s s' : Heap} {oldp size p : ℕ}

end

/-- Enlarging the first block to 48 bytes returns a pointer, and byte 40 is the one of the other
block. -/
def LeaksNeighbour (t : Session Globals) : Prop :=
  (4128, 8) ∈ t.live ∧ (metadataAt t.heap.mem (header 4128)).size = 8 ∧
    ((srealloc ⟨true, none⟩ 4128 48).run t.heap).toOption.any
      (fun r => decide (r.1 = 4208) && decide (r.2.mem 4248 = 42)) = true

instance (t : Session Globals) : Decidable (LeaksNeighbour t) :=
  inferInstanceAs (Decidable (_ ∧ _ ∧ _))

theorem LeaksNeighbour.run {t : Session Globals} (h : LeaksNeighbour t) : ∃ s',
    (srealloc ⟨true, none⟩ 4128 48).run t.heap = .ok (4208, s') ∧ s'.mem 4248 = 42 := by
  obtain ⟨-, -, h⟩ := h
  cases hr : (srealloc ⟨true, none⟩ 4128 48).run t.heap with
  | error f => simp [hr, Except.toOption] at h
  | ok r =>
    simp only [hr, Except.toOption, Option.any_some, Bool.and_eq_true, decide_eq_true_eq] at h
    exact ⟨r.2, by rw [← h.1], h.2⟩

end FtfSystems.VirtualMemory.Malloc1

import Mathlib.Tactic

/-!
# Descriptor tables

The open descriptors of a process are small numbers that refer to open files. A new descriptor is
the lowest one that is free below a limit; `dup` fails on a closed one. `Extends` relates a table
to a later one in which everything that was open still is.
-/
namespace FtfSystems.Foundation

/-- What every open descriptor of a process refers to. -/
abbrev DescriptorTable (α : Type*) := ℕ → Option α

namespace DescriptorTable
variable {α : Type*}

/-- The lowest free descriptor. -/
def lowest (limit : ℕ) (t : DescriptorTable α) : Option ℕ :=
  (List.range limit).find? fun d => (t d).isNone

/-- A new descriptor for an open file; `none` stands for the result -1. -/
def assign (limit : ℕ) (t : DescriptorTable α) (a : α) : Option ℕ × DescriptorTable α :=
  match lowest limit t with
  | none => (none, t)
  | some d => (some d, Function.update t d (some a))

def dup (limit : ℕ) (t : DescriptorTable α) (d : ℕ) : Option ℕ × DescriptorTable α :=
  match t d with
  | none => (none, t)
  | some a => assign limit t a

def dup2 (t : DescriptorTable α) (d d' : ℕ) : DescriptorTable α :=
  match t d with
  | none => t
  | some a => Function.update t d' (some a)

/-- The descriptors of the two ends of a pipe; there is no result without room for both. -/
def pipe (limit : ℕ) (t : DescriptorTable α) (readEnd writeEnd : α) :
    Option ((ℕ × ℕ) × DescriptorTable α) :=
  (lowest limit t).bind fun d =>
    let t := Function.update t d (some readEnd)
    (lowest limit t).map fun d' => ((d, d'), Function.update t d' (some writeEnd))

def close (t : DescriptorTable α) (d : ℕ) : DescriptorTable α := Function.update t d none

/-- How many descriptors are free. -/
def free (limit : ℕ) (t : DescriptorTable α) : ℕ :=
  ((Finset.range limit).filter fun d => (t d).isNone).card

/-- Everything that is open in `t` is open in `t'` and refers to the same file. -/
def Extends (t t' : DescriptorTable α) : Prop := ∀ d a, t d = some a → t' d = some a

/-- The same, but for one descriptor. -/
def ExtendsBesides (d : ℕ) (t t' : DescriptorTable α) : Prop :=
  ∀ e ≠ d, ∀ a, t e = some a → t' e = some a

variable {limit d e : ℕ} {t t' t'' : DescriptorTable α} {a : α}

theorem Extends.refl (t : DescriptorTable α) : Extends t t := fun _ _ h => h

theorem Extends.trans (h : Extends t t') (h' : Extends t' t'') : Extends t t'' :=
  fun d a hd => h' d a (h d a hd)

theorem Extends.besides (h : Extends t t') (d : ℕ) : ExtendsBesides d t t' := fun e _ => h e

theorem lowest_eq_some : lowest limit t = some d ↔
    t d = none ∧ d < limit ∧ ∀ e < d, t e ≠ none := by
  simp [lowest, List.find?_range_eq_some, Option.isSome_iff_ne_none]

theorem lowest_eq_none : lowest limit t = none ↔ ∀ e < limit, t e ≠ none := by
  simp [lowest]

theorem free_eq_zero : free limit t = 0 ↔ lowest limit t = none := by
  rw [free, Finset.card_eq_zero, Finset.filter_eq_empty_iff, lowest_eq_none]
  simp

theorem lowest_le (h : lowest limit t = some d) (he : t e = none) : d ≤ e := by
  by_contra hlt
  exact (lowest_eq_some.mp h).2.2 e (not_le.mp hlt) he

theorem close_self (t : DescriptorTable α) (d : ℕ) : close t d d = none :=
  Function.update_self ..

theorem close_of_ne (t : DescriptorTable α) (h : e ≠ d) : close t d e = t e :=
  Function.update_of_ne h ..

/-- The descriptor that is freed first is the next to be assigned, when all below it are open. -/
theorem lowest_close (hd : d < limit) (hbelow : ∀ e < d, t e ≠ none) :
    lowest limit (close t d) = some d := by
  refine lowest_eq_some.mpr ⟨close_self t d, hd, fun e he => ?_⟩
  rw [close_of_ne t he.ne]
  exact hbelow e he

theorem assign_of_lowest (h : lowest limit t = some d) (a : α) :
    assign limit t a = (some d, Function.update t d (some a)) := by
  rw [assign, h]

theorem extends_update (h : lowest limit t = some d) (a : α) :
    Extends t (Function.update t d (some a)) := by
  intro e b he
  have hne : e ≠ d := by
    rintro rfl
    rw [(lowest_eq_some.mp h).1] at he
    cases he
  rw [Function.update_of_ne hne, he]

theorem assign_extends (limit : ℕ) (t : DescriptorTable α) (a : α) :
    Extends t (assign limit t a).2 := by
  cases h : lowest limit t with
  | none =>
    rw [assign, h]
    exact Extends.refl t
  | some d =>
    rw [assign_of_lowest h]
    exact extends_update h a

theorem assign_new {file : α} (h : (assign limit t a).2 e = some file) :
    t e = some file ∨ file = a := by
  cases hlow : lowest limit t with
  | none =>
    rw [assign, hlow] at h
    exact .inl h
  | some d =>
    simp only [assign_of_lowest hlow, Function.update_apply] at h
    split_ifs at h
    · exact .inr (Option.some.inj h).symm
    · exact .inl h

theorem free_update (hlt : d < limit) (hd : t d = none) (a : α) :
    free limit (Function.update t d (some a)) + 1 = free limit t := by
  have herase : (Finset.range limit).filter (fun e => (Function.update t d (some a) e).isNone) =
      ((Finset.range limit).filter fun e => (t e).isNone).erase d := by
    ext e
    by_cases he : e = d <;> simp [he]
  rw [free, free, herase]
  exact Finset.card_erase_add_one (by simp [hlt, hd])

theorem exists_lowest (h : 0 < free limit t) : ∃ d, lowest limit t = some d :=
  Option.ne_none_iff_exists'.mp fun hnone => h.ne' (free_eq_zero.mpr hnone)

/-- Only which descriptors are open matters for the room. -/
theorem free_congr (h : ∀ d, t' d = none ↔ t d = none) : free limit t' = free limit t := by
  have hnone (d : ℕ) : (t' d).isNone = (t d).isNone := by
    rw [Bool.eq_iff_iff, Option.isNone_iff_eq_none, Option.isNone_iff_eq_none, h d]
  simp only [free, hnone]

/-- Two free descriptors are enough for a pipe. -/
theorem exists_pipe (h : 2 ≤ free limit t) (readEnd writeEnd : α) :
    ∃ d d', d ≠ d' ∧ t d = none ∧ t d' = none ∧ pipe limit t readEnd writeEnd =
      some ((d, d'), Function.update (Function.update t d (some readEnd)) d' (some writeEnd)) := by
  obtain ⟨d, hd⟩ := exists_lowest (Nat.zero_lt_two.trans_le h)
  obtain ⟨hfree, hlt, -⟩ := lowest_eq_some.mp hd
  have hroom := free_update hlt hfree readEnd
  obtain ⟨d', hd'⟩ : ∃ d', lowest limit (Function.update t d (some readEnd)) = some d' :=
    exists_lowest (by omega)
  obtain ⟨hfree', -, -⟩ := lowest_eq_some.mp hd'
  have hne : d' ≠ d := by
    rintro rfl
    rw [Function.update_self] at hfree'
    cases hfree'
  rw [Function.update_of_ne hne] at hfree'
  refine ⟨d, d', hne.symm, hfree, hfree', ?_⟩
  simp only [pipe, hd, hd', Option.bind_some, Option.map_some]

theorem free_close (hlt : d < limit) (hd : t d ≠ none) :
    free limit (close t d) = free limit t + 1 := by
  have hinsert : (Finset.range limit).filter (fun e => (close t d e).isNone) =
      insert d ((Finset.range limit).filter fun e => (t e).isNone) := by
    ext e
    by_cases he : e = d <;> simp [close, he, hlt]
  rw [free, free, hinsert, Finset.card_insert_of_notMem (by simp [hd])]

/-- A descriptor that is assigned and closed again leaves no trace. -/
theorem close_update (hd : t d = none) (a : α) : close (Function.update t d (some a)) d = t := by
  rw [close, Function.update_idem, ← hd, Function.update_eq_self]

theorem close_update_of_ne (h : e ≠ d) (t : DescriptorTable α) (a : α) :
    close (Function.update t e (some a)) d = Function.update (close t d) e (some a) :=
  Function.update_comm h ..

/-- The descriptors besides one of them: assigning a new one takes at most one. -/
theorem free_close_assign (limit : ℕ) (t : DescriptorTable α) (a : α) (e : ℕ) :
    free limit (close t e) ≤ free limit (close (assign limit t a).2 e) + 1 := by
  cases h : lowest limit t with
  | none =>
    rw [assign, h]
    exact Nat.le_succ _
  | some d =>
    rw [assign_of_lowest h]
    by_cases he : e = d
    · rw [close, close, he, Function.update_idem]
      exact Nat.le_succ _
    · obtain ⟨hd, hlt, -⟩ := lowest_eq_some.mp h
      have hclosed : close t e d = none := (close_of_ne t (Ne.symm he)).trans hd
      simp only [close_update_of_ne (Ne.symm he)]
      exact (free_update hlt hclosed a).ge

end DescriptorTable
end FtfSystems.Foundation

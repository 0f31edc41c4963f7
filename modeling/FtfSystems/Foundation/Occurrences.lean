import Mathlib.Data.List.Infix
import Mathlib.Tactic

/-!
# Occurrences of a word in a list

A word that does not contain a separator lies on one side of it. The first occurrence of a word
cuts a list in two in one way only.
-/
namespace FtfSystems.Foundation

variable {α : Type*} {pat a b a' b' l : List α} {c : α}

theorem infix_append_cons_iff (hc : c ∉ pat) :
    pat <:+: a ++ c :: b ↔ pat <:+: a ∨ pat <:+: b := by
  constructor
  · rintro ⟨x, y, h⟩
    rcases List.append_eq_append_iff.mp h with ⟨t, ha, -⟩ | ⟨t, hx, hb⟩
    · exact .inl ⟨x, t, ha.symm⟩
    · cases t with
      | nil => exact .inl ⟨x, [], by simpa using hx⟩
      | cons d t =>
        obtain ⟨rfl, rfl⟩ := List.cons.inj hb
        rcases List.append_eq_append_iff.mp hx with ⟨s, -, hp⟩ | ⟨s, -, hs⟩
        · exact absurd (by simp [hp]) hc
        · cases s with
          | nil => exact absurd (List.mem_of_mem_head? (by rw [← List.nil_append pat, ← hs]; rfl)) hc
          | cons e s =>
            obtain ⟨-, rfl⟩ := List.cons.inj hs
            exact .inr ⟨s, y, rfl⟩
  · rintro (h | h)
    · exact List.infix_append_of_infix_left h
    · exact List.infix_append_of_infix_right (List.infix_cons h)

/-- `pat` occurs in `l` for the first time between `a` and `b`. -/
structure FirstAt (pat a b l : List α) : Prop where
  eq : l = a ++ pat ++ b
  first : ¬ pat <:+: a ++ pat.dropLast

theorem FirstAt.length_le (h : FirstAt pat a b l) (h' : l = a' ++ pat ++ b') :
    a.length ≤ a'.length := by
  by_contra hlt
  push Not at hlt
  have hne : pat ≠ [] := by
    rintro rfl
    exact h.first List.nil_infix
  have hlong : a ++ pat.dropLast <+: l := by
    rw [h.eq, List.append_assoc]
    exact List.prefix_append_right_inj a |>.mpr
      ((List.dropLast_prefix pat).trans (List.prefix_append pat b))
  have hshort : a' ++ pat <+: l := ⟨b', h'.symm⟩
  have hle : (a' ++ pat).length ≤ (a ++ pat.dropLast).length := by
    have hpos := List.length_pos_iff.mpr hne
    simp only [List.length_append, List.length_dropLast]
    omega
  have hpre := List.prefix_of_prefix_length_le hshort hlong hle
  exact h.first ((List.suffix_append a' pat).isInfix.trans hpre.isInfix)

theorem FirstAt.unique (h : FirstAt pat a b l) (h' : FirstAt pat a' b' l) : a = a' ∧ b = b' := by
  have hlen : a.length = a'.length := le_antisymm (h.length_le h'.eq) (h'.length_le h.eq)
  have heq := h.eq.symm.trans h'.eq
  rw [List.append_assoc, List.append_assoc] at heq
  obtain ⟨rfl, hrest⟩ := List.append_inj heq hlen
  exact ⟨rfl, List.append_cancel_left hrest⟩

/-- A word with a letter that stands nowhere before it occurs there for the first time. -/
theorem FirstAt.of_letter {p q : List α} (ha : c ∉ a) (hp : c ∉ p) :
    FirstAt (p ++ c :: q) a b (a ++ (p ++ c :: q) ++ b) := by
  refine ⟨rfl, ?_⟩
  rintro ⟨x, y, h⟩
  have hlen := congrArg List.length h
  simp only [List.length_append, List.length_cons, List.length_dropLast] at hlen
  have hx : x ++ p ++ [c] <+: a ++ (p ++ c :: q) := by
    refine List.IsPrefix.trans ⟨q ++ y, ?_⟩ (List.prefix_append_right_inj a |>.mpr
      (List.dropLast_prefix _))
    rw [← h]
    simp
  have hap : a ++ p <+: a ++ (p ++ c :: q) := ⟨c :: q, by simp⟩
  have hle : (x ++ p ++ [c]).length ≤ (a ++ p).length := by
    simp only [List.length_append, List.length_singleton]
    omega
  have hmem : c ∈ a ++ p := (List.prefix_of_prefix_length_le hx hap hle).subset (by simp)
  rcases List.mem_append.mp hmem with h | h
  · exact ha h
  · exact hp h

/-- What stands before and after the first occurrence of a letter. -/
theorem append_cons_inj (ha : c ∉ a) (ha' : c ∉ a') (h : a ++ c :: b = a' ++ c :: b') :
    a = a' ∧ b = b' := by
  have hfirst : FirstAt [c] a b (a ++ c :: b) := by
    simpa using FirstAt.of_letter (b := b) (p := []) (q := []) ha (by simp)
  have hfirst' : FirstAt [c] a' b' (a' ++ c :: b') := by
    simpa using FirstAt.of_letter (b := b') (p := []) (q := []) ha' (by simp)
  exact hfirst.unique (h ▸ hfirst')

end FtfSystems.Foundation

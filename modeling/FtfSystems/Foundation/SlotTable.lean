import Mathlib.Data.List.Forall2
import FtfSystems.Foundation.FirstMatch

/-!
# Tables of slots with a key

The key zero marks a slot without a key. Other keys occur in one slot at most, so that the first
slot with a key is the only one and a write to it is a map over the table.
-/
namespace FtfSystems.Foundation

variable {α κ : Type*} {a b : α} {l l' pre post : List α}

theorem forall₂_modifyFirst {R : α → α → Prop} {p : α → Bool} {f : α → α} (hr : ∀ a, R a a)
    (hf : ∀ a, p a = true → R a (f a)) (l : List α) : List.Forall₂ R l (modifyFirst p f l) := by
  induction l with
  | nil => exact .nil
  | cons a l ih =>
    rw [modifyFirst]
    split_ifs with h
    · exact .cons (hf a h) (List.forall₂_same.mpr fun b _ => hr b)
    · exact .cons (hr a) ih

theorem forall₂_map {R : α → α → Prop} {f : α → α} (hf : ∀ a, R a (f a)) (l : List α) :
    List.Forall₂ R l (l.map f) :=
  List.forall₂_map_right_iff.mpr (List.forall₂_same.mpr fun a _ => hf a)

theorem forall₂_trans {R : α → α → Prop} (hR : ∀ a b c, R a b → R b c → R a c) {l₁ l₂ l₃ : List α}
    (h : List.Forall₂ R l₁ l₂) (h' : List.Forall₂ R l₂ l₃) : List.Forall₂ R l₁ l₃ := by
  induction h generalizing l₃ with
  | nil => exact h'
  | cons hab _ ih =>
    cases h' with
    | cons hbc h' => exact .cons (hR _ _ _ hab hbc) (ih h')

theorem exists_of_mem_forall₂ {R : α → α → Prop} (h : List.Forall₂ R l l') (hb : b ∈ l') :
    ∃ a ∈ l, R a b := by
  induction h with
  | nil => cases hb
  | @cons a c l l' hac _ ih =>
    rcases List.mem_cons.mp hb with rfl | hb
    · exact ⟨a, by simp, hac⟩
    · obtain ⟨d, hd, hdb⟩ := ih hb
      exact ⟨d, by simp [hd], hdb⟩

section
variable [Zero κ] {key : α → κ} {k : κ}

/-- Two slots have the same key only when it is zero. -/
def DistinctKeys (key : α → κ) (l : List α) : Prop :=
  l.Pairwise fun a b => key a = key b → key a = 0

theorem distinctKeys_middle :
    DistinctKeys key (pre ++ a :: post) ↔
      (∀ b ∈ pre ++ post, key a = key b → key a = 0) ∧ DistinctKeys key (pre ++ post) := by
  have hsymm : ∀ a b : α, (key a = key b → key a = 0) → key b = key a → key b = 0 :=
    fun a b h hba => hba.trans (h hba.symm)
  rw [DistinctKeys, List.pairwise_middle (hsymm _ _), List.pairwise_cons, DistinctKeys]

/-- A slot may take a key that no other slot has. -/
theorem DistinctKeys.replace (h : DistinctKeys key (pre ++ a :: post))
    (hb : ∀ c ∈ pre ++ post, key b ≠ key c) : DistinctKeys key (pre ++ b :: post) :=
  distinctKeys_middle.mpr ⟨fun c hc he => absurd he (hb c hc), (distinctKeys_middle.mp h).2⟩

/-- Slots may lose their keys. -/
theorem DistinctKeys.of_forall₂ (h : DistinctKeys key l)
    (hk : List.Forall₂ (fun a b => key b = 0 ∨ key b = key a) l l') : DistinctKeys key l' := by
  induction hk with
  | nil => exact List.Pairwise.nil
  | @cons a b l l' hab hl ih =>
    obtain ⟨ha, h⟩ := List.pairwise_cons.mp h
    refine List.pairwise_cons.mpr ⟨fun c hc he => ?_, ih h⟩
    obtain ⟨d, hd, hdc⟩ := exists_of_mem_forall₂ hl hc
    rcases hab with hb | hb
    · exact hb
    rcases hdc with hc0 | hc'
    · exact he.trans hc0
    · rw [hb] at he ⊢
      exact ha d hd (he.trans hc')

theorem DistinctKeys.eq_of_key (h : DistinctKeys key l) (ha : a ∈ l) (hb : b ∈ l)
    (hk : key a = k) (hk' : key b = k) (h0 : k ≠ 0) : a = b := by
  obtain ⟨pre, post, rfl⟩ := List.append_of_mem ha
  by_contra hne
  have hb' : b ∈ pre ++ post := by
    simp only [List.mem_append, List.mem_cons] at hb ⊢
    tauto
  exact h0 (hk ▸ (distinctKeys_middle.mp h).1 b hb' (hk.trans hk'.symm))

/-- With distinct keys, a write to the first slot with a key is a write to every such slot. -/
theorem DistinctKeys.modifyFirst_eq_map [DecidableEq κ] (h : DistinctKeys key l) (f : α → α)
    (h0 : k ≠ 0) :
    modifyFirst (key · = k) f l = l.map fun a => if key a = k then f a else a := by
  induction l with
  | nil => rfl
  | cons a l ih =>
    obtain ⟨ha, h⟩ := List.pairwise_cons.mp h
    by_cases hk : key a = k
    · have hrest : ∀ b ∈ l, key b ≠ k := fun b hb he => h0 (hk ▸ ha b hb (hk.trans he.symm))
      rw [modifyFirst, if_pos (by simpa using hk), List.map_cons, if_pos hk]
      have hmap : l.map (fun a => if key a = k then f a else a) = l.map id :=
        List.map_congr_left fun b hb => if_neg (hrest b hb)
      rw [hmap, List.map_id]
    · rw [modifyFirst, if_neg (by simpa using hk), List.map_cons, if_neg hk, ih h]

end

/-- A slot that has been written to, or one of the others. -/
theorem exists_of_mem_modify {f : α → α} {j : ℕ} {x : α} (h : x ∈ l.modify j f) :
    (∃ y, l[j]? = some y ∧ x = f y) ∨ x ∈ l.eraseIdx j := by
  obtain ⟨k, hk⟩ := List.mem_iff_getElem?.mp h
  rw [List.getElem?_modify] at hk
  obtain ⟨y, hy, rfl⟩ := Option.map_eq_some_iff.mp hk
  split_ifs with hjk
  · exact .inl ⟨y, hjk ▸ hy, rfl⟩
  · exact .inr (List.mem_eraseIdx_iff_getElem?.mpr ⟨k, Ne.symm hjk, hy⟩)

end FtfSystems.Foundation

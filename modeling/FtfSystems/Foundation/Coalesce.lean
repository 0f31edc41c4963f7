import Mathlib.Data.List.SplitBy
import Mathlib.Tactic

/-!
# Merging adjacent marked elements

`coalesce` replaces every maximal run of adjacent marked elements of a list by their
merge (`coalesce_eq_mergeRuns`). Marking further elements commutes with it, so marking a
set of elements one by one and coalescing after each mark gives a result that does not
depend on the order.
-/
namespace FtfSystems.Foundation

variable {β : Type*} (marked : β → Bool) (merge : β → β → β)

/-- The two facts about merging that make the result of `coalesce` canonical. -/
structure MergeLaws : Prop where
  marked_merge : ∀ a b, marked a → marked b → marked (merge a b)
  assoc : ∀ a b c, merge (merge a b) c = merge a (merge b c)

/-- Put an element in front of a list, merged with the head when both are marked. -/
def pushMerge (b : β) : List β → List β
  | [] => [b]
  | c :: cs => if marked b && marked c then merge b c :: cs else b :: c :: cs

/-- Merge every run of adjacent marked elements. -/
def coalesce (l : List β) : List β := l.foldr (pushMerge marked merge) []

/-- No two neighbours are both marked. -/
def Separated (l : List β) : Prop := l.IsChain (fun a b => ¬(marked a ∧ marked b))

/-- The merge of a non-empty list, from the right. -/
def mergeRun (b : β) : List β → β
  | [] => b
  | c :: cs => merge b (mergeRun c cs)

/-- One merged element for every maximal run of adjacent marked elements. -/
def mergeRuns (l : List β) : List β :=
  (l.splitBy (fun a b => marked a && marked b)).filterMap
    (fun g => g.head?.map (mergeRun merge · g.tail))

variable {marked merge}

@[simp] theorem coalesce_nil : coalesce marked merge [] = [] := rfl

@[simp] theorem coalesce_cons (b : β) (l : List β) :
    coalesce marked merge (b :: l) = pushMerge marked merge b (coalesce marked merge l) := rfl

theorem separated_nil : Separated marked ([] : List β) := List.IsChain.nil

theorem separated_cons_cons {b c : β} {l : List β} :
    Separated marked (b :: c :: l) ↔ ¬(marked b ∧ marked c) ∧ Separated marked (c :: l) := by
  simp [Separated]

theorem separated_cons {b : β} {l : List β} (h : Separated marked l) (hb : marked b = false) :
    Separated marked (b :: l) :=
  List.IsChain.cons h (fun c _ hc => by simp [hb] at hc)

theorem separated_concat {b : β} {l : List β} (h : Separated marked l) (hb : marked b = false) :
    Separated marked (l ++ [b]) :=
  List.IsChain.append h (List.IsChain.singleton b) (fun a _ c hc hac => by
    simp only [List.head?_cons, Option.mem_some_iff] at hc
    simp [← hc, hb] at hac)

/-- Two lists that meet in an element are separated when both parts are. -/
theorem separated_append_cons {b : β} {xs ys : List β} : Separated marked (xs ++ b :: ys) ↔
    Separated marked (xs ++ [b]) ∧ Separated marked (b :: ys) := List.isChain_split

theorem pushMerge_separated {b : β} {l : List β}
    (h : Separated marked l) : Separated marked (pushMerge marked merge b l) := by
  cases l with
  | nil => simp [pushMerge, Separated]
  | cons c cs =>
    by_cases hbc : marked b && marked c
    · have hbc' : marked b ∧ marked c := by simpa using hbc
      simp only [pushMerge, hbc, if_true]
      cases cs with
      | nil => simp [Separated]
      | cons d ds =>
        rw [separated_cons_cons] at h ⊢
        have hd : ¬marked d := fun hd => h.1 ⟨hbc'.2, hd⟩
        exact ⟨fun hx => hd hx.2, h.2⟩
    · simp only [pushMerge, hbc]
      exact separated_cons_cons.mpr ⟨by simpa using hbc, h⟩

theorem coalesce_separated (l : List β) : Separated marked (coalesce marked merge l) := by
  induction l with
  | nil => exact separated_nil
  | cons b l ih => exact pushMerge_separated ih

/-- A list without marked neighbours is its own normal form. -/
theorem coalesce_of_separated {l : List β} (h : Separated marked l) :
    coalesce marked merge l = l := by
  induction l with
  | nil => rfl
  | cons b l ih =>
    cases l with
    | nil => rfl
    | cons c cs =>
      rw [separated_cons_cons] at h
      rw [coalesce_cons, ih h.2]
      have hbc : (marked b && marked c) = false := by simpa using h.1
      simp [pushMerge, hbc]

/-- Two marked elements may be merged before or after they meet the rest of the list. -/
theorem pushMerge_merge (hm : MergeLaws marked merge) {b c : β} (hb : marked b) (hc : marked c)
    (l : List β) : pushMerge marked merge (merge b c) l =
      pushMerge marked merge b (pushMerge marked merge c l) := by
  have hbc := hm.marked_merge b c hb hc
  cases l with
  | nil => simp [pushMerge, hb, hc]
  | cons d ds =>
    by_cases hd : marked d
    · have hcd := hm.marked_merge c d hc hd
      simp [pushMerge, hb, hc, hd, hbc, hcd, hm.assoc]
    · simp [pushMerge, hb, hc, hd]

/-- Two marked neighbours anywhere in the list may be merged first. -/
theorem coalesce_merge (hm : MergeLaws marked merge) {b c : β} (hb : marked b) (hc : marked c)
    (pre post : List β) : coalesce marked merge (pre ++ b :: c :: post) =
      coalesce marked merge (pre ++ merge b c :: post) := by
  induction pre with
  | nil => exact (pushMerge_merge hm hb hc _).symm
  | cons a pre ih => rw [List.cons_append, List.cons_append, coalesce_cons, coalesce_cons, ih]

/-- Coalescing touches no element that is not marked. -/
theorem mem_coalesce_of_not_marked (hm : MergeLaws marked merge) {a : β} (ha : marked a = false)
    {l : List β} : a ∈ coalesce marked merge l ↔ a ∈ l := by
  induction l with
  | nil => rfl
  | cons b l ih =>
    rw [coalesce_cons, List.mem_cons, ← ih]
    cases coalesce marked merge l with
    | nil => simp [pushMerge]
    | cons c cs =>
      by_cases hbc : marked b && marked c
      · have hbc' : marked b ∧ marked c := by simpa using hbc
        have hne (x : β) (hx : marked x) : a ≠ x := by
          rintro rfl
          simp [ha] at hx
        simp [pushMerge, hbc, hne _ (hm.marked_merge b c hbc'.1 hbc'.2), hne b hbc'.1, hne c hbc'.2]
      · simp [pushMerge, hbc]

section Marking
variable {f : β → β}

/-- Marking after coalescing, or before: one more coalescing gives the same list. -/
theorem coalesce_map_pushMerge (hm : MergeLaws marked merge) (hf : ∀ b, marked b → f b = b)
    (b : β) (l : List β) : coalesce marked merge ((pushMerge marked merge b l).map f) =
      coalesce marked merge ((b :: l).map f) := by
  cases l with
  | nil => rfl
  | cons c cs =>
    by_cases hbc : marked b && marked c
    · have hbc' : marked b ∧ marked c := by simpa using hbc
      simp only [pushMerge, hbc, if_true, List.map_cons, coalesce_cons, hf b hbc'.1, hf c hbc'.2,
        hf _ (hm.marked_merge b c hbc'.1 hbc'.2)]
      exact pushMerge_merge hm hbc'.1 hbc'.2 _
    · simp [pushMerge, hbc]

theorem coalesce_map_coalesce (hm : MergeLaws marked merge) (hf : ∀ b, marked b → f b = b)
    (l : List β) : coalesce marked merge ((coalesce marked merge l).map f) =
      coalesce marked merge (l.map f) := by
  induction l with
  | nil => rfl
  | cons b l ih =>
    rw [coalesce_cons, coalesce_map_pushMerge hm hf, List.map_cons, coalesce_cons, ih,
      List.map_cons, coalesce_cons]

end Marking

section Runs

/-- Coalescing keeps the mark of the first element. -/
theorem coalesce_head_marked (hm : MergeLaws marked merge) {l : List β} {c : β}
    (hc : c ∈ (coalesce marked merge l).head?) : ∃ b ∈ l.head?, marked b = marked c := by
  cases l with
  | nil => simp at hc
  | cons b l =>
    refine ⟨b, rfl, ?_⟩
    rw [coalesce_cons] at hc
    cases hl : coalesce marked merge l with
    | nil =>
      rw [hl] at hc
      simp only [pushMerge, List.head?_cons, Option.mem_some_iff] at hc
      rw [hc]
    | cons d ds =>
      rw [hl] at hc
      simp only [pushMerge] at hc
      split at hc <;> rename_i hbd
      · have hbd' : marked b ∧ marked d := by simpa using hbd
        simp only [List.head?_cons, Option.mem_some_iff] at hc
        rw [← hc, hbd'.1, hm.marked_merge b d hbd'.1 hbd'.2]
      · simp only [List.head?_cons, Option.mem_some_iff] at hc
        rw [hc]

theorem mergeRun_marked (hm : MergeLaws marked merge) {b : β} {g : List β} (hb : marked b)
    (hg : (b :: g).IsChain (fun x y => (marked x && marked y) = true)) :
    marked (mergeRun merge b g) := by
  induction g generalizing b with
  | nil => exact hb
  | cons c g ih =>
    have hbc : marked b ∧ marked c := by simpa using hg.rel
    exact hm.marked_merge _ _ hb (ih hbc.2 hg.tail)

/-- A run that the rest of the list does not continue is replaced by its merge. -/
theorem coalesce_run (hm : MergeLaws marked merge) {b : β} {g rest : List β}
    (hg : (b :: g).IsChain (fun x y => (marked x && marked y) = true))
    (hrest : ∀ d ∈ rest.head?, (marked ((b :: g).getLast (by simp)) && marked d) = false) :
    coalesce marked merge (b :: g ++ rest) =
      mergeRun merge b g :: coalesce marked merge rest := by
  induction g generalizing b with
  | nil =>
    change pushMerge marked merge b (coalesce marked merge rest) = b :: coalesce marked merge rest
    cases hl : coalesce marked merge rest with
    | nil => rfl
    | cons c cs =>
      obtain ⟨d, hd, hdc⟩ := coalesce_head_marked hm (l := rest) (c := c) (by simp [hl])
      have hno := hrest d hd
      rw [hdc, List.getLast_singleton] at hno
      simp [pushMerge, hno]
  | cons c g ih =>
    have hbc : marked b ∧ marked c := by simpa using hg.rel
    have hmc := mergeRun_marked hm hbc.2 hg.tail
    have htail := ih hg.tail (by simpa using hrest)
    rw [List.cons_append, coalesce_cons, htail]
    simp [pushMerge, hbc.1, hmc, mergeRun]

/-- Coalescing merges exactly the maximal runs of adjacent marked elements. -/
theorem coalesce_eq_mergeRuns (hm : MergeLaws marked merge) (l : List β) :
    coalesce marked merge l = mergeRuns marked merge l := by
  obtain ⟨hflat, hnil, hchain, hsep⟩ :=
    (List.splitBy_eq_iff (m := l) (r := fun a b => marked a && marked b)).mp rfl
  unfold mergeRuns
  conv_lhs => rw [hflat]
  generalize l.splitBy (fun a b => marked a && marked b) = gs at hnil hchain hsep
  induction gs with
  | nil => rfl
  | cons g gs ih =>
    obtain ⟨b, g, rfl⟩ := List.exists_cons_of_ne_nil (fun h => hnil (by simp [h]) : g ≠ [])
    have ih' := ih (fun h => hnil (List.mem_cons_of_mem _ h))
      (fun m hm => hchain m (List.mem_cons_of_mem _ hm)) hsep.tail
    rw [List.flatten_cons, coalesce_run hm (hchain _ (by simp)), ih']
    · simp
    · intro d hd
      cases gs with
      | nil => simp at hd
      | cons g' gs =>
        obtain ⟨_, hne, hlast⟩ := hsep.rel
        obtain ⟨e, g', rfl⟩ := List.exists_cons_of_ne_nil hne
        simp only [List.flatten_cons, List.cons_append, List.head?_cons,
          Option.mem_some_iff] at hd
        exact hd ▸ hlast

end Runs
end FtfSystems.Foundation

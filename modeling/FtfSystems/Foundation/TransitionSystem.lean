import Mathlib.Tactic

/-!
# Labelled transition systems

A label carries everything a step depends on besides the state: the party that moves,
its arguments and the answers of the environment. The successor is then a partial
function, so a finite run can be replayed. `Reachable ok` collects the states of all
finite runs whose steps meet the guard `ok`, a condition on the state before the step
and its label.
-/
namespace FtfSystems.Foundation

/-- Initial states and the successor under a label; `none` when the step is not enabled. -/
structure TransitionSystem (σ ℓ : Type*) where
  init : σ → Prop
  next : σ → ℓ → Option σ

namespace TransitionSystem
variable {σ ℓ : Type*} (S : TransitionSystem σ ℓ)

/-- The states reached by finite runs all of whose steps meet the guard `ok`. -/
inductive Reachable (ok : σ → ℓ → Prop) : σ → Prop
  | init {s : σ} (h : S.init s) : Reachable ok s
  | step {s t : σ} {l : ℓ} (h : Reachable ok s) (hok : ok s l) (hs : S.next s l = some t) :
      Reachable ok t

/-- No restriction on the steps of a run. -/
def always : σ → ℓ → Prop := fun _ _ => True

variable {S} {ok : σ → ℓ → Prop} {s t : σ}

/-- What holds initially and is kept by every admitted step holds in every reachable state. -/
theorem Reachable.invariant {I : σ → Prop} (hinit : ∀ s, S.init s → I s)
    (hstep : ∀ s l t, I s → ok s l → S.next s l = some t → I t) (h : S.Reachable ok s) : I s := by
  induction h with
  | init h => exact hinit _ h
  | step _ hok hs ih => exact hstep _ _ _ ih hok hs

/-- An invariant whose steps rely on what is known of every reachable state. -/
theorem Reachable.invariant_of {I J : σ → Prop} (hJ : ∀ s, S.Reachable ok s → J s)
    (hinit : ∀ s, S.init s → I s)
    (hstep : ∀ s l t, J s → I s → ok s l → S.next s l = some t → I t) (h : S.Reachable ok s) :
    I s := by
  induction h with
  | init h => exact hinit _ h
  | step hr hok hs ih => exact hstep _ _ _ (hJ _ hr) ih hok hs

/-- A weaker guard admits more runs. -/
theorem Reachable.mono {ok' : σ → ℓ → Prop} (hok : ∀ s l, ok s l → ok' s l)
    (h : S.Reachable ok s) : S.Reachable ok' s := by
  induction h with
  | init h => exact .init h
  | step _ hl hs ih => exact ih.step (hok _ _ hl) hs

/-- Replay a list of labels. -/
def run (S : TransitionSystem σ ℓ) : σ → List ℓ → Option σ
  | s, [] => some s
  | s, l :: ls => (S.next s l).bind (run S · ls)

/-- The end of a replayed run is reachable, when every state admits its labels. -/
theorem Reachable.of_run {ls : List ℓ} (h : S.Reachable ok s) (hok : ∀ l ∈ ls, ∀ u, ok u l)
    (hr : S.run s ls = some t) : S.Reachable ok t := by
  induction ls generalizing s with
  | nil => exact Option.some.inj hr ▸ h
  | cons l ls ih =>
    obtain ⟨u, hu, hr⟩ := Option.bind_eq_some_iff.mp hr
    exact ih (h.step (hok l (by simp) s) hu) (fun l' hl' => hok l' (by simp [hl'])) hr

/-- What the end of a replayed run satisfies, some reachable state does. -/
theorem exists_of_run (ok : σ → ℓ → Prop) (ls : List ℓ) (p : σ → Bool) (hinit : S.init s)
    (hok : ∀ l ∈ ls, ∀ u, ok u l) (hp : (S.run s ls).any p = true) :
    ∃ t, S.run s ls = some t ∧ S.Reachable ok t ∧ p t = true := by
  obtain ⟨t, ht, hpt⟩ := (Option.any_eq_true p _).mp hp
  exact ⟨t, ht, .of_run (.init hinit) hok ht, hpt⟩

/-- A measure that the steps of some labels decrease bounds the runs of these labels. -/
theorem length_add_le_of_run {quiet : ℓ → Prop} {m : σ → ℕ}
    (hdec : ∀ s l t, quiet l → S.next s l = some t → m t < m s) {ls : List ℓ}
    (hquiet : ∀ l ∈ ls, quiet l) (h : S.run s ls = some t) : ls.length + m t ≤ m s := by
  induction ls generalizing s with
  | nil =>
    obtain rfl := Option.some.inj h
    exact (Nat.zero_add _).le
  | cons l ls ih =>
    obtain ⟨u, hu, hrest⟩ := Option.bind_eq_some_iff.mp h
    have hlt := hdec s l u (hquiet l (by simp)) hu
    have hle := ih (fun l' hl' => hquiet l' (by simp [hl'])) hrest
    rw [List.length_cons]
    omega

/-- Replay a list of labels as long as the guard admits them. -/
def guardedRun (S : TransitionSystem σ ℓ) (ok : σ → ℓ → Prop) [∀ s l, Decidable (ok s l)] :
    σ → List ℓ → Option σ
  | s, [] => some s
  | s, l :: ls => if ok s l then (S.next s l).bind (guardedRun S ok · ls) else none

theorem Reachable.of_guardedRun [∀ s l, Decidable (ok s l)] {ls : List ℓ} (h : S.Reachable ok s)
    (hr : S.guardedRun ok s ls = some t) : S.Reachable ok t := by
  induction ls generalizing s with
  | nil => exact Option.some.inj hr ▸ h
  | cons l ls ih =>
    rw [guardedRun, Option.ite_none_right_eq_some] at hr
    obtain ⟨hok, hr⟩ := hr
    obtain ⟨u, hu, hr⟩ := Option.bind_eq_some_iff.mp hr
    exact ih (h.step hok hu) hr

/-- What the end of a run satisfies whose labels the guard admits, some reachable state does. -/
theorem exists_of_guardedRun [∀ s l, Decidable (ok s l)] (ls : List ℓ) (p : σ → Bool)
    (hinit : S.init s) (hp : (S.guardedRun ok s ls).any p = true) :
    ∃ t, S.Reachable ok t ∧ p t = true := by
  obtain ⟨t, ht, hpt⟩ := (Option.any_eq_true p _).mp hp
  exact ⟨t, .of_guardedRun (.init hinit) ht, hpt⟩

/-- What holds after a first step, holds of some reachable state. -/
theorem exists_of_step (l : ℓ) (p : σ → Bool) (hinit : S.init s) (hok : ok s l)
    (hp : (S.next s l).any p = true) : ∃ t, S.Reachable ok t ∧ p t = true := by
  obtain ⟨t, ht, hpt⟩ := (Option.any_eq_true p _).mp hp
  exact ⟨t, .step (.init hinit) hok ht, hpt⟩

end TransitionSystem
end FtfSystems.Foundation

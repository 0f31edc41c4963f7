import FtfSystems.Foundation.TransitionSystem

/-!
# Simulations and histories

`Simulates` relates two levels of one design by an abstraction function: every step of the
lower level is a step of the upper one or leaves the abstract state as it is. `logged` adds
to a system the list of the events of its run; a simulation that keeps the events of every
step keeps whole histories.
-/
namespace FtfSystems.Foundation
namespace TransitionSystem
variable {σ τ ℓ κ ε : Type*}

/-- Under `f` a step of `S` from a state in `J` that meets `ok` is at most one step of `T`. -/
structure Simulates (S : TransitionSystem σ ℓ) (T : TransitionSystem τ κ) (ok : σ → ℓ → Prop)
    (J : σ → Prop) (f : σ → τ) : Prop where
  init : ∀ s, S.init s → T.init (f s)
  step : ∀ s l t, J s → ok s l → S.next s l = some t →
    f t = f s ∨ ∃ m, T.next (f s) m = some (f t)

/-- The abstraction of a state that the lower level reaches, the upper level reaches. -/
theorem Simulates.reachable {S : TransitionSystem σ ℓ} {T : TransitionSystem τ κ}
    {ok : σ → ℓ → Prop} {J : σ → Prop} {f : σ → τ} (h : S.Simulates T ok J f)
    (hJ : ∀ s, S.Reachable ok s → J s) {s : σ} (hs : S.Reachable ok s) :
    T.Reachable always (f s) := by
  refine hs.invariant_of (I := fun s => T.Reachable always (f s)) hJ (fun s hi => .init (h.init s hi)) ?_
  intro s l t hJs hr hok hnext
  obtain he | ⟨m, hm⟩ := h.step s l t hJs hok hnext
  · rw [he]
    exact hr
  · exact hr.step trivial hm

/-- A run is a run of every system that takes its steps. -/
theorem run_mono {S T : TransitionSystem σ ℓ}
    (hstep : ∀ s l t, S.next s l = some t → T.next s l = some t) {ls : List ℓ} {s t : σ}
    (h : S.run s ls = some t) : T.run s ls = some t := by
  induction ls generalizing s with
  | nil => exact h
  | cons l ls ih =>
    obtain ⟨u, hu, hrest⟩ := Option.bind_eq_some_iff.mp h
    exact Option.bind_eq_some_iff.mpr ⟨u, hstep s l u hu, ih hrest⟩

/-- Runs keep to a guard that an invariant of theirs implies. -/
theorem Reachable.restrict {S : TransitionSystem σ ℓ} {ok ok' : σ → ℓ → Prop} {I : σ → Prop}
    (hinit : ∀ s, S.init s → I s)
    (hstep : ∀ s l t, I s → ok s l → S.next s l = some t → I t)
    (hok : ∀ s l, I s → ok s l → ok' s l) {s : σ} (h : S.Reachable ok s) :
    S.Reachable ok' s ∧ I s := by
  induction h with
  | init h => exact ⟨.init h, hinit _ h⟩
  | step _ hl hs ih => exact ⟨ih.1.step (hok _ _ ih.2 hl) hs, hstep _ _ _ ih.2 hl hs⟩

/-- The system that also records the events of its steps. -/
def logged (S : TransitionSystem σ ℓ) (event : σ → ℓ → List ε) :
    TransitionSystem (σ × List ε) ℓ where
  init s := S.init s.1 ∧ s.2 = []
  next s l := (S.next s.1 l).map fun t => (t, s.2 ++ event s.1 l)

section Logged
variable {S : TransitionSystem σ ℓ} {event : σ → ℓ → List ε} {ok : σ → ℓ → Prop}

theorem next_logged {s t : σ × List ε} {l : ℓ} (h : (S.logged event).next s l = some t) :
    S.next s.1 l = some t.1 ∧ t.2 = s.2 ++ event s.1 l := by
  obtain ⟨u, hu, rfl⟩ := Option.map_eq_some_iff.mp h
  exact ⟨hu, rfl⟩

theorem logged_next {s t : σ} {l : ℓ} (h : S.next s l = some t) (log : List ε) :
    (S.logged event).next (s, log) l = some (t, log ++ event s l) := by
  simp [logged, h]

/-- What the log leaves out of a run is a run. -/
theorem Reachable.of_logged {s : σ × List ε}
    (h : (S.logged event).Reachable (fun s l => ok s.1 l) s) : S.Reachable ok s.1 := by
  induction h with
  | init h => exact .init h.1
  | step _ hok hs ih => exact ih.step hok (next_logged hs).1

end Logged

/-- A simulation whose steps have the same events on both levels. -/
structure SimulatesEvents (S : TransitionSystem σ ℓ) (T : TransitionSystem τ κ)
    (ok : σ → ℓ → Prop) (J : σ → Prop) (f : σ → τ) (event : σ → ℓ → List ε)
    (event' : τ → κ → List ε) : Prop where
  init : ∀ s, S.init s → T.init (f s)
  step : ∀ s l t, J s → ok s l → S.next s l = some t →
    (f t = f s ∧ event s l = []) ∨ ∃ m, T.next (f s) m = some (f t) ∧ event' (f s) m = event s l

theorem SimulatesEvents.simulates {S : TransitionSystem σ ℓ} {T : TransitionSystem τ κ}
    {ok : σ → ℓ → Prop} {J : σ → Prop} {f : σ → τ} {event : σ → ℓ → List ε}
    {event' : τ → κ → List ε} (h : S.SimulatesEvents T ok J f event event') :
    S.Simulates T ok J f where
  init := h.init
  step s l t hJ hok hs := by
    obtain ⟨he, -⟩ | ⟨m, hm, -⟩ := h.step s l t hJ hok hs
    · exact .inl he
    · exact .inr ⟨m, hm⟩

/-- A simulation that keeps the events of every step keeps histories. -/
theorem SimulatesEvents.logged {S : TransitionSystem σ ℓ} {T : TransitionSystem τ κ}
    {ok : σ → ℓ → Prop} {J : σ → Prop} {f : σ → τ} {event : σ → ℓ → List ε}
    {event' : τ → κ → List ε} (h : S.SimulatesEvents T ok J f event event') :
    (S.logged event).Simulates (T.logged event') (fun s l => ok s.1 l) (fun s => J s.1)
      (fun s => (f s.1, s.2)) where
  init s hs := ⟨h.init s.1 hs.1, hs.2⟩
  step s l t hJ hok hs := by
    obtain ⟨hnext, hlog⟩ := next_logged hs
    obtain ⟨he, hev⟩ | ⟨m, hm, hev⟩ := h.step s.1 l t.1 hJ hok hnext
    · exact .inl (by rw [he, hlog, hev, List.append_nil])
    · exact .inr ⟨m, by rw [logged_next hm, hev, ← hlog]⟩

end TransitionSystem
end FtfSystems.Foundation

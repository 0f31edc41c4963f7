import FtfSystems.Foundation.Simulation
import FtfSystems.VirtualMemory.Session

/-!
# What a program may expect to read

`contents` is computed from the calls of a program and their results alone: it says which byte
the program has stored, or was promised, at an offset behind a pointer. `Honours` is what a
call owes to the bytes of the program; when every call of a run honours it, memory holds the
contents in every state.
-/
namespace FtfSystems.VirtualMemory
open Foundation

/-- By pointer and offset, the byte that is known. -/
abbrev Contents := ℕ → ℕ → Option UInt8

/-- What is known after a call that returned the pointer. -/
def Contents.after (k : Contents) : Call × ℕ → Contents
  | (.smalloc _ _, q) => if q = 0 then k else Function.update k q fun _ => none
  | (.scalloc _ num size, q) =>
    if q = 0 then k else Function.update k q fun i => if i < num * size then some 0 else none
  | (.sfree p, _) => Function.update k p fun _ => none
  | (.srealloc _ oldp size, q) =>
    if q = 0 then k
    else Function.update (Function.update k oldp fun _ => none) q
      fun i => if i < size then k oldp i else none
  | (.write p i v, _) => Function.update k p (Function.update (k p) i (some v))

/-- What is known after the calls of a log. -/
def contents (log : List (Call × ℕ)) : Contents := log.foldl Contents.after fun _ _ => none

variable {G : Type}

/-- The call with its result, if it returns. -/
def Allocator.returned (A : Allocator G) (t : Session G) (c : Call) : List (Call × ℕ) :=
  ((A.next t c).bind fun t' => if t'.fault = none then t'.last else none).toList

/-- What is known lies in a payload the program holds, and in memory. -/
def Agrees (t : Session G) (k : Contents) : Prop :=
  ∀ p i v, k p i = some v → (∃ n, (p, n) ∈ t.live ∧ i < n) ∧ t.heap.mem (p + i) = v

/-- The pointers other than `p` are still held and their bytes are the same. -/
def Keeps (t t' : Session G) (p : ℕ) : Prop :=
  ∀ e ∈ t.live, e.1 ≠ p → e ∈ t'.live ∧ t.heap.mem.AgreeOn t'.heap.mem e.1 e.2

/-- What a call that has returned `q` owes to the bytes of the program. -/
def Honours (t t' : Session G) (q : ℕ) : Call → Prop
  | .smalloc _ _ => Keeps t t' 0
  | .scalloc _ num size => Keeps t t' 0 ∧
      (q ≠ 0 → (q, num * size) ∈ t'.live ∧ ∀ i < num * size, t'.heap.mem (q + i) = 0)
  | .sfree p => Keeps t t' p
  | .srealloc _ oldp size => (q = 0 → Keeps t t' 0) ∧
      (q ≠ 0 → Keeps t t' oldp ∧ (q, size) ∈ t'.live ∧ ∀ n, (oldp, n) ∈ t.live →
        ∀ i < min n size, t'.heap.mem (q + i) = t.heap.mem (oldp + i))
  | .write p _ _ => Keeps t t' p

section Steps
variable {A : Allocator G} {t t' : Session G} {k : Contents} {p q : ℕ}

theorem Agrees.empty (t : Session G) : Agrees t fun _ _ => none := fun _ _ _ h => by cases h

/-- What is known behind the other pointers. -/
theorem Agrees.keeps (h : Agrees t k) (hk : Keeps t t' p) {x i : ℕ} {v : UInt8} (hx : x ≠ p)
    (hv : k x i = some v) : (∃ n, (x, n) ∈ t'.live ∧ i < n) ∧ t'.heap.mem (x + i) = v := by
  obtain ⟨⟨n, hn, hi⟩, hmem⟩ := h x i v hv
  obtain ⟨hlive, hagree⟩ := hk (x, n) hn hx
  exact ⟨⟨n, hlive, hi⟩, (hagree (x + i) (by simp) (by simpa using hi)).trans hmem⟩

/-- Nothing is known behind null. -/
theorem Agrees.keepsAll (h : Agrees t k) (hnull : ∀ e ∈ t.live, e.1 ≠ 0) (hk : Keeps t t' 0) :
    Agrees t' k := by
  intro x i v hv
  obtain ⟨n, hn, -⟩ := (h x i v hv).1
  exact h.keeps hk (hnull _ hn) hv

/-- A pointer with new contents. -/
theorem Agrees.update (h : Agrees t k) (hnull : ∀ e ∈ t.live, e.1 ≠ 0) (hk : Keeps t t' p)
    {f : ℕ → Option UInt8} (hp : p = 0 ∨ k p = (fun _ => none) ∨ p = q)
    (hf : ∀ i v, f i = some v → (∃ n, (q, n) ∈ t'.live ∧ i < n) ∧ t'.heap.mem (q + i) = v) :
    Agrees t' (Function.update k q f) := by
  intro x i v hv
  by_cases hx : x = q
  · subst hx
    rw [Function.update_self] at hv
    exact hf i v hv
  · rw [Function.update_of_ne hx] at hv
    refine h.keeps hk ?_ hv
    rintro rfl
    rcases hp with rfl | hnone | rfl
    · obtain ⟨n, hn, -⟩ := (h 0 i v hv).1
      exact hnull _ hn rfl
    · rw [hnone] at hv
      cases hv
    · exact hx rfl

/-- Forgetting what is known behind a pointer. -/
theorem Agrees.forget (h : Agrees t k) (p : ℕ) :
    Agrees t (Function.update k p fun _ => none) := by
  intro x i v hv
  by_cases hx : x = p
  · subst hx
    rw [Function.update_self] at hv
    cases hv
  · rw [Function.update_of_ne hx] at hv
    exact h x i v hv

/-- A call that honours what it owes keeps memory and contents together. -/
theorem Agrees.after (h : Agrees t k) (hnull : ∀ e ∈ t.live, e.1 ≠ 0) {c : Call}
    (hs : A.next t c = some t') (hc : Honours t t' q c) : Agrees t' (k.after (c, q)) := by
  cases c with
  | smalloc os size =>
    rw [Contents.after]
    split_ifs with hq
    · exact h.keepsAll hnull hc
    · exact h.update hnull hc (.inl rfl) fun i v hv => by cases hv
  | scalloc os num size =>
    rw [Contents.after]
    split_ifs with hq
    · exact h.keepsAll hnull hc.1
    · obtain ⟨hlive, hzero⟩ := hc.2 hq
      refine h.update hnull hc.1 (.inl rfl) fun i v hv => ?_
      rw [Option.ite_none_right_eq_some] at hv
      obtain ⟨hi, hv⟩ := hv
      exact ⟨⟨_, hlive, hi⟩, (hzero i hi).trans (Option.some.inj hv)⟩
  | sfree p => exact h.update hnull hc (.inr (.inr rfl)) fun i v hv => by cases hv
  | srealloc os oldp size =>
    rw [Contents.after]
    split_ifs with hq
    · exact h.keepsAll hnull (hc.1 hq)
    · obtain ⟨hkeep, hlive, hcopy⟩ := hc.2 hq
      refine (h.forget oldp).update hnull hkeep (.inr (.inl (Function.update_self ..)))
        fun i v hv => ?_
      rw [Option.ite_none_right_eq_some] at hv
      obtain ⟨hi, hv⟩ := hv
      obtain ⟨⟨n, hn, hin⟩, hmem⟩ := h oldp i v hv
      exact ⟨⟨_, hlive, hi⟩, (hcopy n hn i (lt_min hin hi)).trans hmem⟩
  | write p i v =>
    obtain ⟨⟨e, he, rfl, hi⟩, rfl⟩ := Allocator.next_write hs
    refine h.update hnull hc (.inr (.inr rfl)) fun j w hw => ?_
    by_cases hj : j = i
    · subst hj
      rw [Function.update_self] at hw
      refine ⟨⟨e.2, he, hi⟩, ?_⟩
      simpa [Session.recordWrite] using hw
    · rw [Function.update_of_ne hj] at hw
      obtain ⟨hlive, hmem⟩ := h e.1 j w hw
      refine ⟨hlive, ?_⟩
      rw [← hmem]
      exact Function.update_of_ne (by omega) _ _

/-- The session after a call that has returned. -/
theorem Session.record_returned {c : Call} {n : ℕ} {live : List (ℕ × ℕ)}
    {r : Except Fault (ℕ × Process G)} (ht : t' = t.record c n live r) (hf : t'.fault = none) :
    ∃ q, r = .ok (q, t'.heap) ∧ t'.last = some (c, q) ∧
      t'.live = if q = 0 then t.live else (q, n) :: live := by
  subst ht
  cases r with
  | error f => cases hf
  | ok r => exact ⟨r.1, rfl, rfl, rfl⟩

/-- A pointer that is new to the program is none of the others. -/
theorem keeps_of_nodup {n : ℕ} {live : List (ℕ × ℕ)} (hnull : ∀ e ∈ t.live, e.1 ≠ 0)
    (hlive : t'.live = if q = 0 then t.live else (q, n) :: live)
    (hnodup : (t'.live.map Prod.fst).Nodup) (hsub : ∀ e ∈ t.live, e.1 ≠ p → e ∈ live)
    (hmem : ∀ e ∈ t.live, e.1 ≠ q → e.1 ≠ p → t.heap.mem.AgreeOn t'.heap.mem e.1 e.2) :
    Keeps t t' p := by
  intro e he hp
  split_ifs at hlive with hq
  · subst hq
    exact ⟨by rwa [hlive], hmem e he (hnull e he) hp⟩
  · have hkept := hsub e he hp
    rw [hlive, List.map_cons, List.nodup_cons] at hnodup
    have hne : e.1 ≠ q := fun heq => hnodup.1 (List.mem_map.mpr ⟨e, hkept, heq⟩)
    exact ⟨by rw [hlive]; exact List.mem_cons_of_mem _ hkept, hmem e he hne hp⟩

/-- A call that does not return leaves the session as it was. -/
theorem Allocator.next_faulted {c : Call} (hs : A.next t c = some t') (hf : t'.fault ≠ none) :
    t'.heap = t.heap ∧ t'.live = t.live := by
  have hrecord (n : ℕ) (live : List (ℕ × ℕ)) (r : Except Fault (ℕ × Process G))
      (ht : t' = t.record c n live r) : t'.heap = t.heap ∧ t'.live = t.live := by
    subst ht
    cases r with
    | error f => exact ⟨rfl, rfl⟩
    | ok r => exact absurd rfl hf
  cases c with
  | smalloc os size => exact hrecord _ _ _ (next_smalloc hs).2
  | scalloc os num size => exact hrecord _ _ _ (next_scalloc hs).2
  | srealloc os oldp size => exact hrecord _ _ _ (next_srealloc hs).2
  | sfree p =>
    obtain ⟨-, rfl⟩ := next_sfree hs
    cases hr : (A.sfree p).run t.heap with
    | error f => exact ⟨rfl, rfl⟩
    | ok r =>
      rw [hr] at hf
      exact absurd rfl hf
  | write p i v =>
    have hfault := next_fault hs
    obtain ⟨-, rfl⟩ := next_write hs
    exact absurd hfault hf

/-- When all calls honour what they owe, memory holds the contents in every state of a run. -/
theorem agrees_of_honours {ok : Session G → Call → Prop} {J : Session G → Prop}
    (hJ : ∀ t, A.system.Reachable ok t → J t)
    (hstep : ∀ t c t', J t → ok t c → A.next t c = some t' → t'.fault = none →
      ∃ q, t'.last = some (c, q) ∧ Honours t t' q c) {s : Session G × List (Call × ℕ)}
    (h : (A.system.logged A.returned).Reachable (fun s c => ok s.1 c) s) :
    Agrees s.1 (contents s.2) := by
  refine h.invariant_of (J := fun s => J s.1 ∧ ∀ e ∈ s.1.live, e.1 ≠ 0)
    (I := fun s => Agrees s.1 (contents s.2)) ?_ ?_ ?_
  · intro s hs
    exact ⟨hJ _ hs.of_logged, Allocator.live_ne_null hs.of_logged⟩
  · rintro ⟨t, log⟩ ⟨-, rfl⟩
    exact Agrees.empty _
  · rintro ⟨t, log⟩ c ⟨t', log'⟩ ⟨hj, hnull⟩ hI hok hs
    obtain ⟨hnext, rfl⟩ := TransitionSystem.next_logged hs
    have hnext' : A.next t c = some t' := hnext
    simp only [Allocator.returned, hnext', Option.bind_some]
    by_cases hf : t'.fault = none
    · obtain ⟨q, hlast, hhonours⟩ := hstep t c t' hj hok hnext' hf
      rw [if_pos hf, hlast, Option.toList_some, contents, List.foldl_concat]
      exact hI.after hnull hnext' hhonours
    · obtain ⟨hheap, hlive⟩ := Allocator.next_faulted hnext' hf
      rw [if_neg hf, Option.toList_none, List.append_nil]
      intro p i v hv
      rw [hheap, hlive]
      exact hI p i v hv

end Steps
end FtfSystems.VirtualMemory

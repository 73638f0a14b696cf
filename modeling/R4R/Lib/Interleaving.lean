import Mathlib.Logic.Function.Basic
import R4R.Lib.Except

/-!
# Interleavings

Components that take turns.  An event belongs to one component, changes the state of that component only, and puts out
some values.  What an interleaving does to a component is what the events of the component do alone, and the outputs of
the interleaving are those of the components alone.
-/

namespace Interleaving

universe u v w

variable {ε : Type u} {ι : Type v} {σ ο err : Type w}
  (owner : ε → ι) (step : σ → ε → Except err (σ × List ο))

/-- The run of one component. -/
def runAlone : σ → List ε → Except err (σ × List ο)
  | s, [] => .ok (s, [])
  | s, e :: es => do
    let r ← step s e
    let r' ← runAlone r.1 es
    .ok (r'.1, r.2 ++ r'.2)

variable [DecidableEq ι]

/-- The events of one component, in their order. -/
def eventsOf (i : ι) (es : List ε) : List ε := es.filter fun e => owner e = i

/-- The run of all components. -/
def runAll : (ι → σ) → List ε → Except err ((ι → σ) × List ο)
  | s, [] => .ok (s, [])
  | s, e :: es =>
    match step (s (owner e)) e with
    | .error x => .error x
    | .ok r =>
      match runAll (Function.update s (owner e) r.1) es with
      | .error x => .error x
      | .ok r' => .ok (r'.1, r.2 ++ r'.2)

variable {owner step}

private theorem eventsOf_cons_self {e : ε} {es : List ε} :
    eventsOf owner (owner e) (e :: es) = e :: eventsOf owner (owner e) es := by
  simp [eventsOf]

private theorem eventsOf_cons_of_ne {i : ι} {e : ε} (h : i ≠ owner e) (es : List ε) :
    eventsOf owner i (e :: es) = eventsOf owner i es := by
  simp [eventsOf, Ne.symm h]

theorem eventsOf_append (i : ι) (es es' : List ε) :
    eventsOf owner i (es ++ es') = eventsOf owner i es ++ eventsOf owner i es' := List.filter_append ..

theorem runAll_cons {s s' : ι → σ} {e : ε} {es : List ε} {os : List ο}
    (h : runAll owner step s (e :: es) = .ok (s', os)) : ∃ r os', step (s (owner e)) e = .ok r ∧
      runAll owner step (Function.update s (owner e) r.1) es = .ok (s', os') ∧ os = r.2 ++ os' := by
  unfold runAll at h
  split at h
  · cases h
  · rename_i r hr
    split at h
    · cases h
    · rename_i r' hr'
      cases h
      exact ⟨r, r'.2, hr, hr', rfl⟩

/-- Every component ends where it ends alone, and the outputs are those of the components. -/
theorem runAll_ok {es : List ε} : ∀ {s s' : ι → σ} {os : List ο}, runAll owner step s es = .ok (s', os) →
    ∃ f : ι → List ο, (∀ i, runAlone step (s i) (eventsOf owner i es) = .ok (s' i, f i)) ∧
      ∀ o, o ∈ os ↔ ∃ i, o ∈ f i := by
  induction es with
  | nil =>
    intro s s' os h
    cases h
    exact ⟨fun _ => [], fun i => rfl, by simp⟩
  | cons e es ih =>
    intro s s' os h
    obtain ⟨r, os', hr, hrest, rfl⟩ := runAll_cons h
    obtain ⟨f, halone, hmem⟩ := ih hrest
    refine ⟨Function.update f (owner e) (r.2 ++ f (owner e)), ?_, ?_⟩
    · intro i
      have hi := halone i
      -- the event changes the state of its owner only
      by_cases hie : i = owner e
      · subst hie
        rw [Function.update_self] at hi
        rw [eventsOf_cons_self, Function.update_self]
        unfold runAlone
        rw [hr, Except.ok_bind, hi, Except.ok_bind]
      · rw [Function.update_of_ne hie] at hi
        rw [eventsOf_cons_of_ne hie, Function.update_of_ne hie]
        exact hi
    · intro o
      rw [List.mem_append, hmem]
      constructor
      · rintro (ho | ⟨i, ho⟩)
        · exact ⟨owner e, by rw [Function.update_self]; exact List.mem_append_left _ ho⟩
        · refine ⟨i, ?_⟩
          by_cases hie : i = owner e
          · subst hie
            rw [Function.update_self]
            exact List.mem_append_right _ ho
          · rwa [Function.update_of_ne hie]
      · rintro ⟨i, ho⟩
        by_cases hie : i = owner e
        · subst hie
          rw [Function.update_self] at ho
          rcases List.mem_append.1 ho with ho | ho
          · exact .inl ho
          · exact .inr ⟨_, ho⟩
        · rw [Function.update_of_ne hie] at ho
          exact .inr ⟨i, ho⟩

/-- An interleaving fails only as one of its components fails alone. -/
theorem runAll_error {es : List ε} {x : err} : ∀ {s : ι → σ}, runAll owner step s es = .error x →
    ∃ i, runAlone step (s i) (eventsOf owner i es) = .error x := by
  induction es with
  | nil =>
    intro s h
    cases h
  | cons e es ih =>
    intro s h
    unfold runAll at h
    split at h
    · rename_i y hy
      cases h
      refine ⟨owner e, ?_⟩
      rw [eventsOf_cons_self]
      unfold runAlone
      rw [hy, Except.error_bind]
    · rename_i r hr
      split at h
      · rename_i y hy
        cases h
        obtain ⟨i, hi⟩ := ih hy
        refine ⟨i, ?_⟩
        by_cases hie : i = owner e
        · subst hie
          rw [Function.update_self] at hi
          rw [eventsOf_cons_self]
          unfold runAlone
          rw [hr, Except.ok_bind, hi, Except.error_bind]
        · rw [Function.update_of_ne hie] at hi
          rwa [eventsOf_cons_of_ne hie]
      · cases h

/-- The events of one component alone change that component only. -/
theorem runAll_of_owner {i : ι} {es : List ε} : (∀ e ∈ es, owner e = i) → ∀ s : ι → σ,
    runAll owner step s es = (runAlone step (s i) es).map fun r => (Function.update s i r.1, r.2) := by
  induction es with
  | nil =>
    intro _ s
    show Except.ok (s, []) = Except.ok (Function.update s i (s i), [])
    rw [Function.update_eq_self]
  | cons e es ih =>
    intro howner s
    obtain rfl := howner e (by simp)
    unfold runAll runAlone
    cases step (s (owner e)) e with
    | error x => rfl
    | ok r =>
      simp only [Except.ok_bind]
      rw [ih (fun d hd => howner d (List.mem_cons_of_mem e hd)), Function.update_self]
      cases runAlone step r.1 es with
      | error x => rfl
      | ok r' => simp [Except.map]

theorem owner_of_mem_eventsOf {i : ι} {e : ε} {es : List ε} (h : e ∈ eventsOf owner i es) : owner e = i := by
  simpa using (List.mem_filter.1 h).2

theorem runAlone_cons (s : σ) (e : ε) (es : List ε) : runAlone step s (e :: es) =
    (step s e >>= fun r => runAlone step r.1 es >>= fun r' => .ok (r'.1, r.2 ++ r'.2)) := rfl

/-- The last event acts on the state that the events before it leave. -/
theorem runAlone_concat (s : σ) (es : List ε) (e : ε) : runAlone step s (es ++ [e]) =
    (runAlone step s es >>= fun r => step r.1 e >>= fun r' => .ok (r'.1, r.2 ++ r'.2)) := by
  induction es generalizing s with
  | nil =>
    show (step s e >>= fun r => .ok (r.1, r.2 ++ [])) = (step s e >>= fun r' => .ok (r'.1, [] ++ r'.2))
    simp only [List.append_nil, List.nil_append]
  | cons d es ih =>
    rw [List.cons_append, runAlone_cons, runAlone_cons]
    cases step s d with
    | error x => rfl
    | ok r =>
      simp only [Except.ok_bind]
      rw [ih]
      cases runAlone step r.1 es with
      | error x => rfl
      | ok r' =>
        simp only [Except.ok_bind]
        cases step r'.1 e with
        | error x => rfl
        | ok r'' => simp only [Except.ok_bind, List.append_assoc]

end Interleaving

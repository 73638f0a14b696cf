import Mathlib.Data.Option.Basic

/-!
# Runs of labelled systems

A system whose step function says what an event does to a state, or that the event cannot happen in it.  A run is
the list of its events.  Besides the invariant rule there are rules for runs whose steps all meet a condition.
-/

namespace Runs

universe u v

variable {σ : Type u} {ε : Type v} {step : σ → ε → Option σ}

def run (step : σ → ε → Option σ) : σ → List ε → Option σ
  | s, [] => some s
  | s, e :: es => (step s e).bind fun s' => run step s' es

/-- Every step of the run meets the condition, which may look at the state before the step. -/
def AllSteps (step : σ → ε → Option σ) (ok : σ → ε → Prop) : σ → List ε → Prop
  | _, [] => True
  | s, e :: es => ok s e ∧ match step s e with
    | none => True
    | some s' => AllSteps step ok s' es

instance decidableAllSteps (step : σ → ε → Option σ) (ok : σ → ε → Prop) [∀ s e, Decidable (ok s e)] :
    ∀ (s : σ) (es : List ε), Decidable (AllSteps step ok s es)
  | _, [] => isTrue trivial
  | s, e :: es =>
    match hs : step s e with
    | none => decidable_of_iff (ok s e) (by simp [AllSteps, hs])
    | some s' =>
      have := decidableAllSteps step ok s' es
      decidable_of_iff (ok s e ∧ AllSteps step ok s' es) (by simp [AllSteps, hs])

theorem run_cons {s s' : σ} {e : ε} {es : List ε} (h : run step s (e :: es) = some s') :
    ∃ s₁, step s e = some s₁ ∧ run step s₁ es = some s' := Option.bind_eq_some_iff.1 h

theorem allSteps_cons {ok : σ → ε → Prop} {s s' : σ} {e : ε} {es : List ε} (h : step s e = some s') :
    AllSteps step ok s (e :: es) ↔ ok s e ∧ AllSteps step ok s' es := by
  simp [AllSteps, h]

/-- What every step keeps holds at the end of a run. -/
theorem invariant {P : σ → Prop} (hstep : ∀ s e s', P s → step s e = some s' → P s') {s s' : σ} {es : List ε}
    (hs : P s) (h : run step s es = some s') : P s' := by
  induction es generalizing s with
  | nil =>
    obtain rfl := Option.some.inj h
    exact hs
  | cons e es ih =>
    obtain ⟨s₁, h₁, h₂⟩ := run_cons h
    exact ih (hstep s e s₁ hs h₁) h₂

/-- A property that a step keeps exactly when it meets the condition, and that is never regained, holds at the end of
a run exactly when all its steps meet the condition. -/
theorem iff_allSteps {I G : σ → Prop} {ok : σ → ε → Prop} (hinv : ∀ s e s', I s → step s e = some s' → I s')
    (hstep : ∀ s e s', I s → step s e = some s' → (G s' ↔ G s ∧ ok s e)) {s s' : σ} {es : List ε}
    (hs : I s) (h : run step s es = some s') : G s' ↔ G s ∧ AllSteps step ok s es := by
  induction es generalizing s with
  | nil =>
    obtain rfl := Option.some.inj h
    simp [AllSteps]
  | cons e es ih =>
    obtain ⟨s₁, h₁, h₂⟩ := run_cons h
    rw [ih (hinv s e s₁ hs h₁) h₂, hstep s e s₁ hs h₁, allSteps_cons h₁, and_assoc]

/-- A system whose steps bring a measure down comes to a state without a step. -/
theorem exists_final (step : σ → ε → Option σ) (μ : σ → Nat)
    (hstep : ∀ s e s', step s e = some s' → μ s' < μ s) (s : σ) :
    ∃ es s', run step s es = some s' ∧ ∀ e, step s' e = none := by
  induction hn : μ s using Nat.strongRecOn generalizing s with
  | ind n ih =>
    subst hn
    by_cases h : ∀ e, step s e = none
    · exact ⟨[], s, rfl, h⟩
    · obtain ⟨e, he⟩ := not_forall.1 h
      obtain ⟨s₁, hs₁⟩ := Option.ne_none_iff_exists'.1 he
      obtain ⟨es, s', hrun, hfinal⟩ := ih _ (hstep s e s₁ hs₁) s₁ rfl
      exact ⟨e :: es, s', by rw [run, hs₁]; exact hrun, hfinal⟩

end Runs

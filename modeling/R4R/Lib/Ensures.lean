import Mathlib.Init

/-!
# Postconditions of stateful computations

For computations that change a state and may fail, what holds of the result and the state when they do not fail, with a
rule for each way in which computations are put together.
-/

universe u

variable {ε σ α β : Type u}

/-- When `x` does not fail from `s`, its result and the state it leaves meet `Q`. -/
def Ensures (x : EStateM ε σ α) (Q : α → σ → Prop) (s : σ) : Prop := ∀ a s', x s = .ok a s' → Q a s'

/-- The computation has not failed. -/
def EStateM.Result.succeeded : EStateM.Result ε σ α → Bool
  | .ok _ _ => true
  | .error _ _ => false

theorem EStateM.Result.exists_of_succeeded {r : EStateM.Result ε σ α} (h : r.succeeded = true) :
    ∃ a s, r = .ok a s := by
  cases r with
  | ok a s => exact ⟨a, s, rfl⟩
  | error e s => cases h

namespace Ensures

variable {x : EStateM ε σ α} {f : α → EStateM ε σ β} {Q : α → σ → Prop} {R : β → σ → Prop} {s : σ}

theorem pure {a : α} (h : Q a s) : Ensures (Pure.pure a : EStateM ε σ α) Q s := by
  intro a' s' he
  cases he
  exact h

theorem throw {e : ε} : Ensures (throw e : EStateM ε σ α) Q s := nofun

theorem bind_of_eq_ok {a : α} {s' : σ} (h : x s = .ok a s') : (x >>= f) s = f a s' := by
  show EStateM.bind x f s = f a s'
  rw [EStateM.bind, h]

theorem bind_of_eq_error {e : ε} {s' : σ} (h : x s = .error e s') : (x >>= f) s = .error e s' := by
  show EStateM.bind x f s = .error e s'
  rw [EStateM.bind, h]

/-- Computations that start the same way and go on the same way from there are the same. -/
theorem bind_eq_bind {y : EStateM ε σ α} {g : α → EStateM ε σ β} (h : x s = y s)
    (hnext : ∀ a s', y s = .ok a s' → f a s' = g a s') : (x >>= f) s = (y >>= g) s := by
  cases hy : y s with
  | ok a s' =>
    rw [bind_of_eq_ok (h.trans hy), bind_of_eq_ok hy]
    exact hnext a s' hy
  | error e s' => rw [bind_of_eq_error (h.trans hy), bind_of_eq_error hy]

theorem bind (h : Ensures x (fun a => Ensures (f a) R) s) : Ensures (x >>= f) R s := by
  intro b s' hb
  cases hx : x s with
  | ok a s₁ =>
    rw [bind_of_eq_ok hx] at hb
    exact h a s₁ hx b s' hb
  | error e s₁ =>
    rw [bind_of_eq_error hx] at hb
    cases hb

theorem get {Q : σ → σ → Prop} (h : Q s s) : Ensures (MonadState.get : EStateM ε σ σ) Q s := by
  intro a s' he
  cases he
  exact h

theorem modify {g : σ → σ} {Q : PUnit → σ → Prop} (h : Q ⟨⟩ (g s)) :
    Ensures (modify g : EStateM ε σ PUnit) Q s := by
  intro a s' he
  cases he
  exact h

/-- What every turn of a loop keeps, the loop keeps. -/
theorem forM {I : σ → Prop} {g : α → EStateM ε σ PUnit} (as : List α)
    (h : ∀ a ∈ as, ∀ s, I s → Ensures (g a) (fun _ => I) s) : ∀ s, I s → Ensures (as.forM g) (fun _ => I) s := by
  induction as with
  | nil => exact fun s hs => pure hs
  | cons a as ih =>
    intro s hs
    refine bind fun u s' hs' => ih (fun b hb => h b (List.mem_cons_of_mem a hb)) s' ?_
    exact h a (List.mem_cons_self ..) s hs u s' hs'

end Ensures

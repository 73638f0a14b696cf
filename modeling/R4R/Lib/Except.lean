import Mathlib.Data.List.Basic

/-!
# Computations that may fail

Rules for the `Except` monad: the two values of `bind`, its inversion, the congruence rule of a fold that may fail, and
a loop that erases elements.
-/

namespace Except

universe u v

variable {ε : Type u} {α β : Type v}

@[simp] theorem ok_bind (a : α) (f : α → Except ε β) : (Except.ok a >>= f) = f a := rfl

@[simp] theorem error_bind (e : ε) (f : α → Except ε β) : ((Except.error e : Except ε α) >>= f) = .error e := rfl

theorem bind_eq_ok {x : Except ε α} {f : α → Except ε β} {b : β} (h : (x >>= f) = .ok b) :
    ∃ a, x = .ok a ∧ f a = .ok b := by
  cases x with
  | error e => simp at h
  | ok a => exact ⟨a, rfl, by simpa using h⟩

theorem mapError_eq_ok {δ : Type*} {x : Except ε α} {f : ε → δ} {a : α} (h : x.mapError f = .ok a) : x = .ok a := by
  cases x with
  | error e => cases h
  | ok b => exact congrArg Except.ok (Except.ok.inj h)

theorem bind_ne_error {x : Except ε α} {f : α → Except ε β} {e : ε} (hx : x ≠ .error e)
    (hf : ∀ a, x = .ok a → f a ≠ .error e) : (x >>= f) ≠ .error e := by
  cases x with
  | error e' => exact fun h => hx (by simpa using h)
  | ok a => exact hf a rfl

/-- Two step functions that agree wherever the first does not end in `e` give the same fold, unless the first fold
ends in `e`. -/
theorem foldlM_congr_of_ne {γ : Type*} {f g : β → γ → Except ε β} {e : ε}
    (hfg : ∀ b a, f b a ≠ .error e → g b a = f b a) (l : List γ) :
    ∀ b, l.foldlM f b ≠ .error e → l.foldlM g b = l.foldlM f b := by
  induction l with
  | nil => intro b _; rfl
  | cons a l ih =>
    intro b h
    rw [List.foldlM_cons] at h
    have ha : f b a ≠ .error e := fun he => h (by rw [he]; rfl)
    rw [List.foldlM_cons, List.foldlM_cons, hfg b a ha]
    cases hb : f b a with
    | error e' => rfl
    | ok b' => exact ih b' (by rwa [hb] at h)

/-- What every step keeps holds at the end of the fold. -/
theorem foldlM_invariant {γ : Type*} {f : β → γ → Except ε β} {P : β → Prop} {l : List γ}
    (hstep : ∀ b b', ∀ a ∈ l, P b → f b a = .ok b' → P b') : ∀ {b b' : β}, P b → l.foldlM f b = .ok b' → P b' := by
  induction l with
  | nil =>
    intro b b' hb h
    rwa [← Except.ok.inj h]
  | cons a l ih =>
    intro b b' hb h
    rw [List.foldlM_cons] at h
    obtain ⟨b₁, hf, h⟩ := bind_eq_ok h
    exact ih (fun b b' x hx => hstep b b' x (List.mem_cons_of_mem a hx))
      (hstep b b₁ a (List.mem_cons_self ..) hb hf) h

/-- `std::erase_if` with a predicate that has a state and may fail: the state at the end and the elements that stay. -/
def eraseIf {σ : Type*} {γ : Type*} {ε : Type*} (pred : σ → γ → Except ε (σ × Bool)) :
    σ → List γ → Except ε (σ × List γ)
  | s, [] => .ok (s, [])
  | s, c :: cs =>
    match pred s c with
    | .error e => .error e
    | .ok (s, erased) =>
      match eraseIf pred s cs with
      | .error e => .error e
      | .ok (s, kept) => .ok (s, if erased then kept else c :: kept)

theorem eraseIf_cons_eq_ok {σ : Type*} {γ : Type*} {ε : Type*} {pred : σ → γ → Except ε (σ × Bool)} {s s' : σ} {c : γ}
    {cs kept : List γ} (h : eraseIf pred s (c :: cs) = .ok (s', kept)) : ∃ s₁ erased kept₁,
      pred s c = .ok (s₁, erased) ∧ eraseIf pred s₁ cs = .ok (s', kept₁) ∧
        kept = if erased then kept₁ else c :: kept₁ := by
  unfold eraseIf at h
  cases hpred : pred s c with
  | error e =>
    rw [hpred] at h
    cases h
  | ok r =>
    rw [hpred] at h
    dsimp only at h
    cases hrest : eraseIf pred r.1 cs with
    | error e =>
      rw [hrest] at h
      cases h
    | ok r' =>
      rw [hrest] at h
      obtain ⟨rfl, rfl⟩ := Prod.mk.inj (Except.ok.inj h)
      exact ⟨r.1, r.2, r'.2, rfl, hrest, rfl⟩

end Except

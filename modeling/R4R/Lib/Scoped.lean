import Mathlib.Init

/-!
# Computations with automatic objects

Stateful computations that may throw, and objects that are destroyed when the computation leaves their scope, by its
end or by an exception.  A destructor may refuse, which terminates the program: no exception gets past such an object.
-/

namespace Scoped

universe u

/-- How a computation ends; `waiting` is one that is still at work. -/
inductive Ending (ε α : Type u) where
  | returned (a : α)
  | threw (e : ε)
  | terminated
  | waiting
deriving DecidableEq

def Computation (σ ε α : Type u) : Type u := σ → Ending ε α × σ

variable {σ ε α β : Type u}

namespace Computation

protected def pure (a : α) : Computation σ ε α := fun s => (.returned a, s)

protected def bind (x : Computation σ ε α) (f : α → Computation σ ε β) : Computation σ ε β := fun s =>
  match x s with
  | (.returned a, s') => f a s'
  | (.threw e, s') => (.threw e, s')
  | (.terminated, s') => (.terminated, s')
  | (.waiting, s') => (.waiting, s')

instance : Monad (Computation σ ε) where
  pure := Computation.pure
  bind := Computation.bind

end Computation

def throw (e : ε) : Computation σ ε α := fun s => (.threw e, s)

def waiting : Computation σ ε α := fun s => (.waiting, s)

/-- The destructor of an object, when its scope is left. -/
def destroyed (destroy : σ → Option σ) (ending : Ending ε α) (s : σ) : Ending ε α × σ :=
  match destroy s with
  | none => (.terminated, s)
  | some s' => (ending, s')

/-- The scope of an object: the constructor, what is done with the object, the destructor. -/
def object (construct : Computation σ ε PUnit) (destroy : σ → Option σ) (body : Computation σ ε α) :
    Computation σ ε α := fun s =>
  match construct s with
  | (.threw e, s₁) => (.threw e, s₁)
  | (.terminated, s₁) => (.terminated, s₁)
  | (.waiting, s₁) => (.waiting, s₁)
  | (.returned _, s₁) =>
    match body s₁ with
    | (.returned a, s₂) => destroyed destroy (.returned a) s₂
    | (.threw e, s₂) => destroyed destroy (.threw e) s₂
    | (.terminated, s₂) => (.terminated, s₂)
    | (.waiting, s₂) => (.waiting, s₂)

/-! ### The scope of an object -/

section Object

variable {construct : Computation σ ε PUnit} {destroy : σ → Option σ} {body : Computation σ ε α} {s s₁ s₂ : σ}

/-- An exception does not get past an object whose destructor refuses. -/
theorem object_of_threw {e : ε} (hc : construct s = (.returned ⟨⟩, s₁)) (hb : body s₁ = (.threw e, s₂))
    (hd : destroy s₂ = none) : object construct destroy body s = (.terminated, s₂) := by
  simp only [object, hc, hb, destroyed, hd]

theorem object_of_terminated (hc : construct s = (.returned ⟨⟩, s₁)) (hb : body s₁ = (.terminated, s₂)) :
    object construct destroy body s = (.terminated, s₂) := by
  simp only [object, hc, hb]

/-- A destructor that accepts is run when the scope is left by its end. -/
theorem object_of_returned {a : α} {s₃ : σ} (hc : construct s = (.returned ⟨⟩, s₁)) (hb : body s₁ = (.returned a, s₂))
    (hd : destroy s₂ = some s₃) : object construct destroy body s = (.returned a, s₃) := by
  simp only [object, hc, hb, destroyed, hd]

/-- A destructor that accepts is run when an exception leaves the scope, and the exception goes on. -/
theorem object_of_threw_accepted {e : ε} {s₃ : σ} (hc : construct s = (.returned ⟨⟩, s₁))
    (hb : body s₁ = (.threw e, s₂)) (hd : destroy s₂ = some s₃) :
    object construct destroy body s = (.threw e, s₃) := by
  simp only [object, hc, hb, destroyed, hd]

/-- An object lives while its scope is at work. -/
theorem object_of_waiting (hc : construct s = (.returned ⟨⟩, s₁)) (hb : body s₁ = (.waiting, s₂)) :
    object construct destroy body s = (.waiting, s₂) := by
  simp only [object, hc, hb]

/-- Bodies that end alike behind the constructor leave the scope alike. -/
theorem object_congr {body' : Computation σ ε α} (hc : construct s = (.returned ⟨⟩, s₁)) (hb : body s₁ = body' s₁) :
    object construct destroy body s = object construct destroy body' s := by
  simp only [object, hc, hb]

/-- A scope is left by its end after the destructor has been run. -/
theorem object_returned {a : α} (h : object construct destroy body s = (.returned a, s₂)) :
    ∃ s₀ s₁, construct s = (.returned ⟨⟩, s₀) ∧ body s₀ = (.returned a, s₁) ∧ destroy s₁ = some s₂ := by
  have hdestroyed : ∀ {ending : Ending ε α} {t : σ}, destroyed destroy ending t = (.returned a, s₂) →
      ending = .returned a ∧ destroy t = some s₂ := by
    intro ending t ht
    unfold destroyed at ht
    split at ht
    · cases ht
    · rename_i t' ht'
      cases ht
      exact ⟨rfl, ht'⟩
  unfold object at h
  split at h
  · cases h
  · cases h
  · cases h
  · rename_i s₀ hc
    split at h
    · rename_i a' s₁ hb
      obtain ⟨he, hd⟩ := hdestroyed h
      cases he
      exact ⟨s₀, s₁, hc, hb, hd⟩
    · cases (hdestroyed h).1
    · cases h
    · cases h

end Object

/-! ### Sequences -/

section Sequence

variable {x : Computation σ ε α} {f : α → Computation σ ε β} {s s₁ s₂ : σ}

theorem bind_of_returned {a : α} (h : x s = (.returned a, s₁)) : (x >>= f) s = f a s₁ := by
  show Computation.bind x f s = _
  simp only [Computation.bind, h]

theorem bind_of_threw {e : ε} (h : x s = (.threw e, s₁)) : (x >>= f) s = (.threw e, s₁) := by
  show Computation.bind x f s = _
  simp only [Computation.bind, h]

theorem bind_of_waiting (h : x s = (.waiting, s₁)) : (x >>= f) s = (.waiting, s₁) := by
  show Computation.bind x f s = _
  simp only [Computation.bind, h]

/-- Computations that end alike go on alike. -/
theorem bind_eq_bind {y : Computation σ ε α} {t : σ} (h : x s = y t) : (x >>= f) s = (y >>= f) t := by
  show Computation.bind x f s = Computation.bind y f t
  simp only [Computation.bind, h]

theorem bind_returned {b : β} (h : (x >>= f) s = (.returned b, s₂)) :
    ∃ a s₁, x s = (.returned a, s₁) ∧ f a s₁ = (.returned b, s₂) := by
  change Computation.bind x f s = _ at h
  unfold Computation.bind at h
  split at h
  · rename_i a s₁ hx
    exact ⟨a, s₁, hx, h⟩
  · cases h
  · cases h
  · cases h

end Sequence

/-! ### What a computation keeps -/

/-- The computation keeps `I`, however it ends. -/
def Keeps (I : σ → Prop) (x : Computation σ ε α) : Prop := ∀ s, I s → I (x s).2

namespace Keeps

variable {I : σ → Prop} {x : Computation σ ε α} {f : α → Computation σ ε β}

theorem pure (a : α) : Keeps I (Pure.pure a : Computation σ ε α) := fun _ hs => hs

theorem throw (e : ε) : Keeps I (Scoped.throw e : Computation σ ε α) := fun _ hs => hs

theorem waiting : Keeps I (Scoped.waiting : Computation σ ε α) := fun _ hs => hs

theorem bind (hx : Keeps I x) (hf : ∀ a, Keeps I (f a)) : Keeps I (x >>= f) := by
  intro s hs
  have hs₁ := hx s hs
  change I (Computation.bind x f s).2
  unfold Computation.bind
  split
  · rename_i a s₁ h
    rw [h] at hs₁
    exact hf a s₁ hs₁
  all_goals
    rename_i h
    rwa [h] at hs₁

end Keeps

end Scoped

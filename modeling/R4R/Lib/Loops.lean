import Mathlib.Data.Nat.Find

/-!
# While loops

A loop `while (cond) body` whose body may depend on the number of the round, the states it passes through, and the
rule by which a fair environment brings a measure down to zero.
-/

namespace Loops

universe u v

variable {σ : Type u}

/-- `while (cond) body`, from round `t` on, for at most `fuel` tests of the condition. -/
def whileLoop (cond : σ → Bool) (body : Nat → σ → σ) : Nat → Nat → σ → Option σ
  | 0, _, _ => none
  | fuel + 1, t, s => if cond s then whileLoop cond body fuel (t + 1) (body t s) else some s

/-- The state after `n` rounds that start with round `t`. -/
def rounds (body : Nat → σ → σ) (t : Nat) : Nat → σ → σ
  | 0, s => s
  | n + 1, s => body (t + n) (rounds body t n s)

private theorem rounds_succ' (body : Nat → σ → σ) (n t : Nat) (s : σ) :
    rounds body t (n + 1) s = rounds body (t + 1) n (body t s) := by
  induction n with
  | zero => rfl
  | succ n ih =>
    rw [rounds, ih]
    show body (t + (n + 1)) _ = body (t + 1 + n) _
    congr 1
    omega

theorem rounds_invariant {body : Nat → σ → σ} {P : σ → Prop} (hstep : ∀ t s, P s → P (body t s)) (t n : Nat)
    {s : σ} (hs : P s) : P (rounds body t n s) := by
  induction n with
  | zero => exact hs
  | succ n ih => exact hstep _ _ ih

private theorem whileLoop_of_rounds {cond : σ → Bool} {body : Nat → σ → σ} (n : Nat) : ∀ {t : Nat} {s : σ},
    (∀ m < n, cond (rounds body t m s) = true) → cond (rounds body t n s) = false →
    whileLoop cond body (n + 1) t s = some (rounds body t n s) := by
  induction n with
  | zero =>
    intro t s _ hstop
    have h : cond s = false := hstop
    simp [whileLoop, h, rounds]
  | succ n ih =>
    intro t s hgo hstop
    have h : cond s = true := hgo 0 (by omega)
    rw [rounds_succ'] at hstop ⊢
    unfold whileLoop
    rw [if_pos h]
    apply ih _ hstop
    intro m hm
    have := hgo (m + 1) (by omega)
    rwa [rounds_succ'] at this

theorem rounds_of_whileLoop {cond : σ → Bool} {body : Nat → σ → σ} (fuel : Nat) : ∀ {t : Nat} {s s' : σ},
    whileLoop cond body fuel t s = some s' →
    ∃ n, rounds body t n s = s' ∧ cond s' = false ∧ ∀ m < n, cond (rounds body t m s) = true := by
  induction fuel with
  | zero =>
    intro t s s' h
    simp [whileLoop] at h
  | succ fuel ih =>
    intro t s s' h
    unfold whileLoop at h
    split at h
    · rename_i hc
      obtain ⟨n, hn, hstop, hgo⟩ := ih h
      refine ⟨n + 1, by rw [rounds_succ']; exact hn, hstop, ?_⟩
      intro m hm
      cases m with
      | zero => exact hc
      | succ m =>
        rw [rounds_succ']
        exact hgo m (by omega)
    · rename_i hc
      obtain rfl : s = s' := Option.some.inj h
      exact ⟨0, rfl, by simpa using hc, fun m hm => by omega⟩

/-- A loop that reaches a state in which its condition fails returns the first such state. -/
theorem whileLoop_exists {cond : σ → Bool} {body : Nat → σ → σ} {t : Nat} {s : σ}
    (h : ∃ n, cond (rounds body t n s) = false) :
    ∃ n, cond (rounds body t n s) = false ∧ whileLoop cond body (n + 1) t s = some (rounds body t n s) := by
  refine ⟨Nat.find h, Nat.find_spec h, whileLoop_of_rounds _ ?_ (Nat.find_spec h)⟩
  intro m hm
  simpa using Nat.find_min h hm

/-- A measure that a fair environment brings down.  While it is positive some `k` is enabled (`E`); an enabled `k` stays
enabled until a round serves it (`F`), and that round decreases the measure. -/
theorem exists_measure_zero {ι : Type v} {body : Nat → σ → σ} {P : σ → Prop} {μ : σ → Nat}
    {E : ι → σ → Prop} {F : Nat → ι → Prop} (hP : ∀ t s, P s → P (body t s))
    (hopen : ∀ s, P s → 0 < μ s → ∃ k, E k s) (hle : ∀ t s, P s → μ (body t s) ≤ μ s)
    (hlt : ∀ t s k, P s → E k s → F t k → μ (body t s) < μ s)
    (hstay : ∀ t s k, P s → E k s → ¬ F t k → E k (body t s))
    (hfair : ∀ s k, P s → E k s → ∀ t, ∃ t' ≥ t, F t' k) {s : σ} (hs : P s) (t : Nat) :
    ∃ n, μ (rounds body t n s) = 0 := by
  -- outer induction on the measure, inner induction on the distance to the round that serves `k`
  induction hμ : μ s using Nat.strong_induction_on generalizing s t with
  | _ m ih =>
    by_cases hm : m = 0
    · refine ⟨0, ?_⟩
      show μ s = 0
      omega
    · obtain ⟨k, hk⟩ := hopen s hs (by omega)
      obtain ⟨t', ht', hserve⟩ := hfair s k hs hk t
      obtain ⟨d, rfl⟩ := Nat.exists_eq_add_of_le ht'
      clear ht'
      induction d generalizing s t with
      | zero =>
        obtain ⟨n, hn⟩ := ih _ (hμ ▸ hlt t s k hs hk hserve) (hP t s hs) (t + 1) rfl
        exact ⟨n + 1, by rw [rounds_succ']; exact hn⟩
      | succ d ihd =>
        by_cases hlow : μ (body t s) < m
        · obtain ⟨n, hn⟩ := ih _ hlow (hP t s hs) (t + 1) rfl
          exact ⟨n + 1, by rw [rounds_succ']; exact hn⟩
        · have hsame : μ (body t s) = m := by
            have := hle t s hs
            omega
          have hnot : ¬ F t k := fun h => by
            have := hlt t s k hs hk h
            omega
          obtain ⟨n, hn⟩ := ihd (hP t s hs) (t + 1) hsame (hstay t s k hs hk hnot)
            (by rwa [show t + 1 + d = t + (d + 1) by omega])
          exact ⟨n + 1, by rw [rounds_succ']; exact hn⟩

end Loops

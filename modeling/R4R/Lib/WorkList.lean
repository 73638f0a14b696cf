import Mathlib.Data.Finset.Card
import Mathlib.Data.List.Basic

/-!
# Work lists

A loop that takes elements from the front of a work list, passes over those whose key it has visited, and appends the
successors of the others at the end.  Finding the successors may fail.  When the keys stay in a finite set the loop
ends (`loop_ends`).
-/

namespace WorkList

universe u v w

variable {α : Type u} {κ : Type v} {ε : Type w} [DecidableEq κ]

/-- What ends the loop other than an empty work list. -/
inductive Failure (ε : Type w) where
  | outOfFuel
  | raised (e : ε)
deriving DecidableEq

/-- The loop: the visited elements in the order of their visits. -/
def loop (key : α → κ) (next : α → Except ε (List α)) : Nat → List α → List α → Except (Failure ε) (List α)
  | _, visited, [] => .ok visited
  | 0, _, _ :: _ => .error .outOfFuel
  | fuel + 1, visited, a :: wl =>
    if key a ∈ visited.map key then loop key next fuel visited wl
    else
      match next a with
      | .error e => .error (.raised e)
      | .ok as => loop key next fuel (visited ++ [a]) (wl ++ as)

variable {key : α → κ} {next : α → Except ε (List α)}

/-- A visit takes its key out of the keys that are left. -/
private theorem card_left_lt {U : Finset κ} {visited : List α} {a : α} (hU : key a ∈ U)
    (ha : key a ∉ visited.map key) :
    (U.filter (· ∉ (visited ++ [a]).map key)).card < (U.filter (· ∉ visited.map key)).card := by
  apply Finset.card_lt_card
  rw [Finset.ssubset_iff_of_subset]
  · exact ⟨key a, Finset.mem_filter.2 ⟨hU, ha⟩, by simp⟩
  · intro k hk
    simp only [Finset.mem_filter, List.map_append, List.mem_append, not_or] at hk ⊢
    exact ⟨hk.1, hk.2.1⟩

/-- Every turn shortens the work list, or it visits a new key and appends at most `m` elements. -/
private theorem loop_ends_from {U : Finset κ} {I : α → Prop} {m : Nat} (hU : ∀ a, I a → key a ∈ U)
    (hnext : ∀ a as, I a → next a = .ok as → as.length ≤ m ∧ ∀ b ∈ as, I b) (fuel : Nat) :
    ∀ visited wl, (∀ a ∈ wl, I a) → (m + 1) * (U.filter (· ∉ visited.map key)).card + wl.length ≤ fuel →
      loop key next fuel visited wl ≠ .error .outOfFuel := by
  induction fuel with
  | zero =>
    intro visited wl _ hfuel
    obtain rfl : wl = [] := List.length_eq_zero_iff.1 (by omega)
    exact nofun
  | succ fuel ih =>
    intro visited wl hwl hfuel
    cases wl with
    | nil => exact nofun
    | cons a wl =>
      obtain ⟨ha, hwl⟩ := List.forall_mem_cons.1 hwl
      rw [List.length_cons] at hfuel
      rw [loop]
      by_cases hmem : key a ∈ visited.map key
      · rw [if_pos hmem]
        exact ih visited wl hwl (by omega)
      · rw [if_neg hmem]
        cases has : next a with
        | error e => exact nofun
        | ok as =>
          obtain ⟨hlen, hkeys⟩ := hnext a as ha has
          refine ih (visited ++ [a]) (wl ++ as) ?_ ?_
          · intro b hb
            exact (List.mem_append.1 hb).elim (hwl b) (hkeys b)
          · have hcard := card_left_lt (hU a ha) hmem
            have hmul := Nat.mul_le_mul_left (m + 1) hcard
            rw [Nat.mul_succ] at hmul
            rw [List.length_append]
            omega

/-- The loop ends, if only by a failure, when what it visits meets an invariant, the keys of such elements are in a
finite set and no element has more than `m` successors. -/
theorem loop_ends {U : Finset κ} {I : α → Prop} {m : Nat} (hU : ∀ a, I a → key a ∈ U)
    (hnext : ∀ a as, I a → next a = .ok as → as.length ≤ m ∧ ∀ b ∈ as, I b) {wl : List α} (hwl : ∀ a ∈ wl, I a)
    {fuel : Nat} (hfuel : (m + 1) * U.card + wl.length ≤ fuel) :
    loop key next fuel [] wl ≠ .error .outOfFuel := by
  refine loop_ends_from hU hnext fuel [] wl hwl (Nat.le_trans (Nat.add_le_add_right ?_ _) hfuel)
  exact Nat.mul_le_mul_left _ (Finset.card_filter_le _ _)

/-- A failure of the loop is one of an element that meets the invariant. -/
theorem exists_of_loop_raised {I : α → Prop} (hnext : ∀ a as, I a → next a = .ok as → ∀ b ∈ as, I b) {e : ε}
    (fuel : Nat) : ∀ {visited wl : List α}, (∀ a ∈ wl, I a) →
      loop key next fuel visited wl = .error (.raised e) → ∃ a, I a ∧ next a = .error e := by
  induction fuel with
  | zero => intro visited wl _ h; cases wl <;> cases h
  | succ fuel ih =>
    intro visited wl hwl h
    cases wl with
    | nil => cases h
    | cons a wl =>
      obtain ⟨ha, hwl⟩ := List.forall_mem_cons.1 hwl
      rw [loop] at h
      split at h
      · exact ih hwl h
      · cases has : next a with
        | error e' =>
          rw [has] at h
          cases h
          exact ⟨a, ha, has⟩
        | ok as =>
          rw [has] at h
          exact ih (fun b hb => (List.mem_append.1 hb).elim (hwl b) (hnext a as ha has b)) h

/-- Where no element that meets the invariant fails the loop returns. -/
theorem loop_terminates_of_invariant {U : Finset κ} {I : α → Prop} {m : Nat} (hU : ∀ a, I a → key a ∈ U)
    (hnext : ∀ a, I a → ∃ as, next a = .ok as ∧ as.length ≤ m ∧ ∀ b ∈ as, I b) {wl : List α}
    (hwl : ∀ a ∈ wl, I a) {fuel : Nat} (hfuel : (m + 1) * U.card + wl.length ≤ fuel) :
    ∃ r, loop key next fuel [] wl = .ok r := by
  have hspec : ∀ a as, I a → next a = .ok as → as.length ≤ m ∧ ∀ b ∈ as, I b := by
    intro a as ha has
    obtain ⟨as', has', hspec⟩ := hnext a ha
    rw [has] at has'
    exact Except.ok.inj has' ▸ hspec
  cases h : loop key next fuel [] wl with
  | ok r => exact ⟨r, rfl⟩
  | error e =>
    cases e with
    | outOfFuel => exact absurd h (loop_ends hU hspec hwl hfuel)
    | raised e =>
      obtain ⟨a, ha, he⟩ := exists_of_loop_raised (fun a as ha has => (hspec a as ha has).2) fuel hwl h
      obtain ⟨as, has, -⟩ := hnext a ha
      rw [he] at has
      cases has

/-! ### What the loop returns -/

/-- The visited elements meet every invariant of the successors. -/
theorem loop_invariant {I : α → Prop} (hnext : ∀ a as, I a → next a = .ok as → ∀ b ∈ as, I b) (fuel : Nat) :
    ∀ {visited wl r : List α}, (∀ a ∈ visited, I a) → (∀ a ∈ wl, I a) → loop key next fuel visited wl = .ok r →
      ∀ a ∈ r, I a := by
  induction fuel with
  | zero =>
    intro visited wl r hvisited hwl h
    cases wl with
    | nil => exact Except.ok.inj h ▸ hvisited
    | cons a wl => cases h
  | succ fuel ih =>
    intro visited wl r hvisited hwl h
    cases wl with
    | nil => exact Except.ok.inj h ▸ hvisited
    | cons a wl =>
      obtain ⟨ha, hwl⟩ := List.forall_mem_cons.1 hwl
      rw [loop] at h
      split at h
      · exact ih hvisited hwl h
      · split at h
        · cases h
        · rename_i as has
          refine ih ?_ ?_ h
          · intro b hb
            rcases List.mem_append.1 hb with hb | hb
            · exact hvisited b hb
            · exact List.mem_singleton.1 hb ▸ ha
          · intro b hb
            exact (List.mem_append.1 hb).elim (hwl b) (hnext a as ha has b)

/-- What the loop was to visit is visited, and so are the successors of what it visits. -/
theorem loop_closed (fuel : Nat) : ∀ {visited wl r : List α}, loop key next fuel visited wl = .ok r →
    (∀ a ∈ visited, a ∈ r) ∧ (∀ a ∈ wl, key a ∈ r.map key) ∧
      ∀ a ∈ r, a ∈ visited ∨ ∃ as, next a = .ok as ∧ ∀ b ∈ as, key b ∈ r.map key := by
  have hdone : ∀ {visited r : List α}, Except.ok (ε := Failure ε) visited = .ok r →
      (∀ a ∈ visited, a ∈ r) ∧ (∀ a ∈ ([] : List α), key a ∈ r.map key) ∧
        ∀ a ∈ r, a ∈ visited ∨ ∃ as, next a = .ok as ∧ ∀ b ∈ as, key b ∈ r.map key := by
    intro visited r h
    obtain rfl := Except.ok.inj h
    exact ⟨fun _ h => h, fun _ h => absurd h List.not_mem_nil, fun _ h => .inl h⟩
  induction fuel with
  | zero =>
    intro visited wl r h
    cases wl with
    | nil => exact hdone h
    | cons a wl => cases h
  | succ fuel ih =>
    intro visited wl r h
    cases wl with
    | nil => exact hdone h
    | cons a wl =>
      rw [loop] at h
      split at h
      · rename_i hmem
        obtain ⟨hvisited, hwl, hclosed⟩ := ih h
        obtain ⟨b, hb, hkey⟩ := List.mem_map.1 hmem
        exact ⟨hvisited, List.forall_mem_cons.2 ⟨hkey ▸ List.mem_map_of_mem (hvisited b hb), hwl⟩, hclosed⟩
      · split at h
        · cases h
        · rename_i as has
          obtain ⟨hvisited, hwl, hclosed⟩ := ih h
          have ha : a ∈ r := hvisited a (List.mem_append_right _ (List.mem_singleton_self a))
          refine ⟨fun b hb => hvisited b (List.mem_append_left _ hb), ?_, ?_⟩
          · exact List.forall_mem_cons.2 ⟨List.mem_map_of_mem ha, fun b hb => hwl b (List.mem_append_left _ hb)⟩
          · intro b hb
            rcases hclosed b hb with hb | hb
            · rcases List.mem_append.1 hb with hb | hb
              · exact .inl hb
              · obtain rfl := List.mem_singleton.1 hb
                exact .inr ⟨as, has, fun c hc => hwl c (List.mem_append_right _ hc)⟩
            · exact .inr hb

/-- The element that the loop starts with is visited as it is. -/
theorem mem_of_loop_singleton {fuel : Nat} {a : α} {r : List α} (h : loop key next fuel [] [a] = .ok r) : a ∈ r := by
  cases fuel with
  | zero => cases h
  | succ fuel =>
    rw [loop, if_neg (by simp)] at h
    split at h
    · cases h
    · exact (loop_closed fuel h).1 a (by simp)

/-- More fuel gives the same outcome. -/
theorem loop_add (fuel k : Nat) : ∀ {visited wl : List α} {outcome : Except (Failure ε) (List α)},
    loop key next fuel visited wl = outcome → outcome ≠ .error .outOfFuel →
      loop key next (fuel + k) visited wl = outcome := by
  induction fuel with
  | zero =>
    intro visited wl outcome h hends
    cases wl with
    | nil => cases k <;> exact h
    | cons a wl => exact absurd h.symm hends
  | succ fuel ih =>
    intro visited wl outcome h hends
    cases wl with
    | nil =>
      rw [Nat.succ_add]
      exact h
    | cons a wl =>
      rw [Nat.succ_add, loop]
      rw [loop] at h
      by_cases hmem : key a ∈ visited.map key
      · rw [if_pos hmem] at h ⊢
        exact ih h hends
      · rw [if_neg hmem] at h ⊢
        cases has : next a with
        | error e =>
          rw [has] at h
          exact h
        | ok as =>
          rw [has] at h
          exact ih h hends

theorem loop_unique {fuel fuel' : Nat} {visited wl r r' : List α} (h : loop key next fuel visited wl = .ok r)
    (h' : loop key next fuel' visited wl = .ok r') : r = r' := by
  have hsum := loop_add fuel fuel' h nofun
  rw [Nat.add_comm, loop_add fuel' fuel h' nofun] at hsum
  exact (Except.ok.inj hsum).symm

/-- An element without successors is the only one visited. -/
theorem loop_of_nil {a : α} (ha : next a = .ok []) (fuel : Nat) : loop key next (fuel + 1) [] [a] = .ok [a] := by
  rw [loop, if_neg (by simp), ha]
  cases fuel <;> rfl

/-- Two elements that are successors of each other. -/
theorem loop_of_pair {a b a' : α} (ha : next a = .ok [b]) (hb : next b = .ok [a']) (hkey : key a' = key a)
    (hne : key b ≠ key a) (fuel : Nat) : loop key next (fuel + 3) [] [a] = .ok [a, b] := by
  rw [loop, if_neg (by simp), ha]
  change loop key next (fuel + 2) [a] [b] = _
  rw [loop, if_neg (by simpa using hne), hb]
  change loop key next (fuel + 1) [a, b] [a'] = _
  rw [loop, if_pos (by simp [hkey])]
  cases fuel <;> rfl

end WorkList

import Mathlib.Data.List.Chain
import Mathlib.Logic.Relation
import Mathlib.Order.Bounds.Basic

/-!
# Chains, heights and cycles of a relation

A chain from `v` is a list `v :: l` whose neighbours are related.  The height of `v` is the length of the longest
chain from `v`, when there is one.  A levelling of a closed set gives every element `0` or one more than some
successor, and more than every successor; then the level of an element is its height (`Levelling.isHeight`), and
no cycle can be reached from the set (`Levelling.not_reachesCycle`).
-/

namespace Chains

open Relation

variable {V : Type*} {E : V → V → Prop}

/-- `n` is the length of the longest chain from `v`. -/
def IsHeight (E : V → V → Prop) (v : V) (n : Nat) : Prop :=
  IsGreatest {k | ∃ l, List.IsChain E (v :: l) ∧ l.length = k} n

/-- A cycle (an element related to itself included) can be reached from `v`. -/
def ReachesCycle (E : V → V → Prop) (v : V) : Prop :=
  ∃ w, ReflTransGen E v w ∧ TransGen E w w

/-- The set `B` is closed under `E`, and `level` gives each of its elements `0` or one more than the level of a
successor, and more than the level of every successor. -/
structure Levelling (E : V → V → Prop) (B : Set V) (level : V → Nat) : Prop where
  closed : ∀ v ∈ B, ∀ w, E v w → w ∈ B
  lt : ∀ v ∈ B, ∀ w, E v w → level w < level v
  tight : ∀ v ∈ B, level v = 0 ∨ ∃ w, E v w ∧ level v = level w + 1

theorem IsHeight.unique {v : V} {n m : Nat} (hn : IsHeight E v n) (hm : IsHeight E v m) : n = m :=
  IsGreatest.unique hn hm

theorem ReachesCycle.head {v w : V} (h : ReflTransGen E v w) (hw : ReachesCycle E w) : ReachesCycle E v := by
  obtain ⟨u, hu, hc⟩ := hw
  exact ⟨u, h.trans hu, hc⟩

namespace Levelling

variable {B : Set V} {level : V → Nat}

theorem mem_of_reach (h : Levelling E B level) {v w : V} (hv : v ∈ B) (hw : ReflTransGen E v w) : w ∈ B := by
  induction hw with
  | refl => exact hv
  | tail _ hE ih => exact h.closed _ ih _ hE

private theorem length_le (h : Levelling E B level) (l : List V) : ∀ {v : V}, v ∈ B → List.IsChain E (v :: l) →
    l.length ≤ level v := by
  induction l with
  | nil => intro v _ _; exact Nat.zero_le _
  | cons w l ih =>
    intro v hv hc
    have hE : E v w := hc.rel
    have hl := ih (h.closed v hv w hE) hc.tail
    have hlt := h.lt v hv w hE
    simp only [List.length_cons]
    omega

private theorem exists_chain (h : Levelling E B level) (n : Nat) : ∀ {v : V}, v ∈ B → level v = n →
    ∃ l, List.IsChain E (v :: l) ∧ l.length = n := by
  induction n with
  | zero => intro v _ _; exact ⟨[], .singleton v, rfl⟩
  | succ n ih =>
    intro v hv hn
    rcases h.tight v hv with h0 | ⟨w, hE, hw⟩
    · omega
    · obtain ⟨l, hl, hlen⟩ := ih (h.closed v hv w hE) (by omega)
      exact ⟨w :: l, .cons_cons hE hl, by simp [hlen]⟩

/-- The level of an element is the length of the longest chain from it. -/
theorem isHeight (h : Levelling E B level) {v : V} (hv : v ∈ B) : IsHeight E v (level v) := by
  refine ⟨h.exists_chain _ hv rfl, ?_⟩
  rintro _ ⟨l, hl, rfl⟩
  exact h.length_le l hv hl

private theorem lt_of_transGen (h : Levelling E B level) {v w : V} (hv : v ∈ B) (hw : TransGen E v w) :
    level w < level v := by
  induction hw with
  | single hE => exact h.lt v hv _ hE
  | tail hvb hE ih => exact Nat.lt_trans (h.lt _ (h.mem_of_reach hv hvb.to_reflTransGen) _ hE) ih

/-- No cycle can be reached from a levelled set. -/
theorem not_reachesCycle (h : Levelling E B level) {v : V} (hv : v ∈ B) : ¬ ReachesCycle E v := by
  rintro ⟨w, hw, hc⟩
  exact Nat.lt_irrefl _ (h.lt_of_transGen (h.mem_of_reach hv hw) hc)

/-- A levelling is kept when one element is added whose successors are all in the set and whose level is `0` or one
more than that of some successor, and more than that of each. -/
theorem insert (h : Levelling E B level) {v : V} {n : Nat} {level' : V → Nat}
    (hsucc : ∀ w, E v w → w ∈ B ∧ level w < n) (htight : n = 0 ∨ ∃ w, E v w ∧ n = level w + 1)
    (hn : level' v = n) (hlevel : ∀ w ∈ B, level' w = level w) : Levelling E (Insert.insert v B) level' := by
  refine ⟨?_, ?_, ?_⟩
  · rintro u (rfl | hu) w hE
    · exact .inr (hsucc w hE).1
    · exact .inr (h.closed u hu w hE)
  · rintro u (rfl | hu) w hE
    · rw [hn, hlevel w (hsucc w hE).1]
      exact (hsucc w hE).2
    · rw [hlevel u hu, hlevel w (h.closed u hu w hE)]
      exact h.lt u hu w hE
  · rintro u (rfl | hu)
    · rw [hn]
      refine htight.imp id ?_
      rintro ⟨w, hE, hw⟩
      exact ⟨w, hE, by rw [hlevel w (hsucc w hE).1, hw]⟩
    · rw [hlevel u hu]
      refine (h.tight u hu).imp id ?_
      rintro ⟨w, hE, hw⟩
      exact ⟨w, hE, by rw [hlevel w (h.closed u hu w hE), hw]⟩

end Levelling

end Chains

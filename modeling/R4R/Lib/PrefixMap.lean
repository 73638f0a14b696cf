import Mathlib.Data.Finset.Card
import Mathlib.Data.List.Infix

/-!
# Lookup by the longest prefix

A map whose keys are lists, given by the entries that were put into it one after another, and what a lookup by the
longest prefix of a list has to return.
-/

namespace PrefixMap

universe u v

variable {κ : Type u} {α : Type v}

/-- The value that was put last at a key. -/
def lastAt [DecidableEq κ] (es : List (List κ × α)) (q : List κ) : Option α :=
  es.foldl (fun acc e => if e.1 = q then some e.2 else acc) none

/-- The longest key that is a prefix of `p`. -/
structure IsLongest (es : List (List κ × α)) (p q : List κ) : Prop where
  mem : q ∈ es.map Prod.fst
  isPrefix : q <+: p
  longest : ∀ q' ∈ es.map Prod.fst, q' <+: p → q' <+: q

/-- The result of a lookup by the longest prefix: the last value at the longest key that is a prefix of `p`, and
nothing exactly when no key is one. -/
def IsLastMatch [DecidableEq κ] (es : List (List κ × α)) (p : List κ) : Option α → Prop
  | some v => ∃ q, IsLongest es p q ∧ lastAt es q = some v
  | none => ∀ q ∈ es.map Prod.fst, ¬ q <+: p

/-- No key is a prefix of `p`, or no key goes along with `p` further than the longest key that is a prefix of it. -/
def NoDetour (es : List (List κ × α)) (p : List κ) : Prop :=
  (∀ q ∈ es.map Prod.fst, ¬ q <+: p) ∨
  ∃ q ∈ es.map Prod.fst, q <+: p ∧ ∀ q' ∈ es.map Prod.fst, ∀ d, d <+: q' → d <+: p → d <+: q

/-- The list has the entries of a finite map, each once. -/
structure Enumerates (es : List (κ × α)) (m : κ → Option α) : Prop where
  nodup : (es.map Prod.fst).Nodup
  mem_iff : ∀ q v, (q, v) ∈ es ↔ m q = some v

theorem Enumerates.perm {es es' : List (κ × α)} {m : κ → Option α} (h : Enumerates es m) (hperm : es'.Perm es) :
    Enumerates es' m :=
  ⟨(hperm.map Prod.fst).nodup_iff.2 h.nodup, fun q v => hperm.mem_iff.trans (h.mem_iff q v)⟩

/-- Two lists of the entries of a map are the same up to the order. -/
theorem Enumerates.perm_of {es es' : List (κ × α)} {m : κ → Option α} (h : Enumerates es m) (h' : Enumerates es' m) :
    es.Perm es' := by
  refine (List.perm_ext_iff_of_nodup h.nodup.of_map h'.nodup.of_map).2 ?_
  rintro ⟨q, v⟩
  rw [h.mem_iff, h'.mem_iff]

/-- The values of a map may be read through pointers. -/
theorem Enumerates.through {β : Type*} {es : List (κ × α)} {es' : List (κ × β)} {m : κ → Option α} {m' : κ → Option β}
    {read : α → Option β} (h : Enumerates es m)
    (hes : (es'.map fun e => (e.1, some e.2)) = es.map fun e => (e.1, read e.2))
    (hm : ∀ q, (m q).map read = (m' q).map some) : Enumerates es' m' := by
  constructor
  · have hkeys := congrArg (List.map Prod.fst) hes
    simp only [List.map_map, Function.comp_def] at hkeys
    exact hkeys ▸ h.nodup
  · intro q v
    have hmem : (q, v) ∈ es' ↔ (q, some v) ∈ es'.map fun e => (e.1, some e.2) := by simp
    have hread : (q, some v) ∈ (es.map fun e => (e.1, read e.2)) ↔ ∃ a, (q, a) ∈ es ∧ read a = some v := by simp
    rw [hmem, hes, hread]
    calc (∃ a, (q, a) ∈ es ∧ read a = some v)
        ↔ (m q).map read = some (some v) := by simp only [h.mem_iff, Option.map_eq_some_iff]
      _ ↔ m' q = some v := by rw [hm]; simp

variable [DecidableEq κ]

@[simp] theorem lastAt_concat (es : List (List κ × α)) (q q' : List κ) (v : α) :
    lastAt (es ++ [(q', v)]) q = if q' = q then some v else lastAt es q := by
  unfold lastAt
  rw [List.foldl_append]
  rfl

theorem lastAt_eq_none {es : List (List κ × α)} {q : List κ} : lastAt es q = none ↔ q ∉ es.map Prod.fst := by
  induction es using List.reverseRecOn with
  | nil => simp [lastAt]
  | append_singleton es e ih =>
    obtain ⟨q', v⟩ := e
    rw [lastAt_concat, List.map_append, List.mem_append]
    by_cases h : q' = q
    · simp [h]
    · have hne : ¬ q = q' := fun he => h he.symm
      rw [if_neg h, ih]
      simp [hne]

theorem mem_of_lastAt {es : List (List κ × α)} {q : List κ} {v : α} (h : lastAt es q = some v) : (q, v) ∈ es := by
  induction es using List.reverseRecOn with
  | nil => cases h
  | append_singleton es e ih =>
    obtain ⟨q', v'⟩ := e
    rw [lastAt_concat] at h
    split at h
    · rename_i hq
      obtain rfl := Option.some.inj h
      exact List.mem_append_right _ (by simp [hq])
    · exact List.mem_append_left _ (ih h)

/-- Entries at different keys are a map. -/
theorem Enumerates.lastAt_eq {es : List (List κ × α)} {m : List κ → Option α} (h : Enumerates es m) :
    lastAt es = m := by
  funext q
  cases hv : lastAt es q with
  | some v => exact ((h.mem_iff q v).1 (mem_of_lastAt hv)).symm
  | none =>
    cases hm : m q with
    | none => rfl
    | some v =>
      have hmem := (h.mem_iff q v).2 hm
      exact absurd (List.mem_map_of_mem hmem) (lastAt_eq_none.1 hv)

/-- A list of the entries has the keys that were put in. -/
theorem Enumerates.mem_keys_iff {es es' : List (List κ × α)} (h : Enumerates es' (lastAt es)) (q : List κ) :
    q ∈ es'.map Prod.fst ↔ q ∈ es.map Prod.fst := by
  rw [← not_iff_not, ← lastAt_eq_none, ← lastAt_eq_none, h.lastAt_eq]

theorem lastAt_map {β : Type*} (f : α → β) (es : List (List κ × α)) (q : List κ) :
    lastAt (es.map fun e => (e.1, f e.2)) q = (lastAt es q).map f := by
  induction es using List.reverseRecOn with
  | nil => rfl
  | append_singleton es e ih =>
    obtain ⟨q', v⟩ := e
    rw [List.map_append, List.map_singleton, lastAt_concat, lastAt_concat, ih]
    split <;> rfl

/-- Of two groups of entries the later one is looked at first. -/
theorem lastAt_append (es later : List (List κ × α)) (q : List κ) :
    lastAt (es ++ later) q = (lastAt later q).or (lastAt es q) := by
  induction later using List.reverseRecOn with
  | nil => simp [lastAt]
  | append_singleton later e ih =>
    obtain ⟨q', v⟩ := e
    rw [← List.append_assoc, lastAt_concat, lastAt_concat, ih]
    split <;> rfl

/-- Entries that are put in later have the same effect on equal maps. -/
theorem lastAt_append_congr {es es' : List (List κ × α)} (h : lastAt es = lastAt es') (later : List (List κ × α)) :
    lastAt (es ++ later) = lastAt (es' ++ later) := by
  induction later using List.reverseRecOn with
  | nil => rwa [List.append_nil, List.append_nil]
  | append_singleton later e ih =>
    funext q
    obtain ⟨q', v⟩ := e
    rw [← List.append_assoc, ← List.append_assoc, lastAt_concat, lastAt_concat, ih]

/-- A lookup that returns the value at the deepest point of `p` that the keys reach is right exactly when no key makes
a detour. -/
theorem isLastMatch_lastAt_iff {es : List (List κ × α)} {p d : List κ} (hd : d <+: p)
    (hreach : d = [] ∨ ∃ q ∈ es.map Prod.fst, d <+: q)
    (hdeepest : ∀ q ∈ es.map Prod.fst, ∀ d', d' <+: q → d' <+: p → d' <+: d) :
    IsLastMatch es p (lastAt es d) ↔ NoDetour es p := by
  cases hv : lastAt es d with
  | none =>
    have hnot : d ∉ es.map Prod.fst := lastAt_eq_none.1 hv
    constructor
    · exact Or.inl
    · rintro (h | ⟨q, hq, hqp, hall⟩)
      · exact h
      · -- the key `q` and the point `d` are prefixes of each other
        have hdq : d <+: q := by
          rcases hreach with rfl | ⟨q', hq', hdq'⟩
          · exact List.nil_prefix
          · exact hall q' hq' d hdq' hd
        have hqd : q <+: d := hdeepest q hq q (List.prefix_refl q) hqp
        have heq : q = d := hqd.eq_of_length (le_antisymm hqd.length_le hdq.length_le)
        exact absurd (heq ▸ hq) hnot
  | some v =>
    have hmem : d ∈ es.map Prod.fst := by
      by_contra h
      rw [lastAt_eq_none.2 h] at hv
      cases hv
    constructor
    · intro _
      exact .inr ⟨d, hmem, hd, hdeepest⟩
    · intro _
      exact ⟨d, ⟨hmem, hd, fun q' hq' hp => hdeepest q' hq' q' (List.prefix_refl q') hp⟩, hv⟩

omit [DecidableEq κ] in
/-- Keys of which none is a proper prefix of another make no detours. -/
theorem noDetour_of_antichain {es : List (List κ × α)} (p : List κ)
    (h : ∀ q ∈ es.map Prod.fst, ∀ q' ∈ es.map Prod.fst, q <+: q' → q' = q) : NoDetour es p := by
  by_cases hunder : ∃ q ∈ es.map Prod.fst, q <+: p
  · obtain ⟨q, hq, hqp⟩ := hunder
    refine .inr ⟨q, hq, hqp, fun q' hq' d hd hdp => ?_⟩
    rcases List.prefix_or_prefix_of_prefix hqp hdp with hqd | hdq
    · rw [h q hq q' hq' (hqd.trans hd)] at hd
      exact hd
    · exact hdq
  · exact .inl fun q hq hqp => hunder ⟨q, hq, hqp⟩

/-! ### Keys that branch off -/

/-- Where a key comes first it branches off from the keys before it: it is not empty and no prefix of one of them. -/
def BranchesOff (before keys : List (List κ)) : Prop :=
  ∀ first p rest, keys = first ++ p :: rest → p ∉ before ++ first → p ≠ [] ∧ ∀ q ∈ before ++ first, ¬ p <+: q

/-- How many of the keys, one after another, are no prefix of a key before. -/
def created (before : List (List κ)) : List (List κ) → Nat
  | [] => 0
  | p :: keys => (if p = [] ∨ ∃ q ∈ before, p <+: q then 0 else 1) + created (before ++ [p]) keys

omit [DecidableEq κ] in
theorem branchesOff_cons {before keys : List (List κ)} {p : List κ} :
    BranchesOff before (p :: keys) ↔
      (p ∉ before → p ≠ [] ∧ ∀ q ∈ before, ¬ p <+: q) ∧ BranchesOff (before ++ [p]) keys := by
  constructor
  · intro h
    refine ⟨fun hp => ?_, fun first q rest heq hq => ?_⟩
    · simpa using h [] p keys rfl (by simpa using hp)
    · have hsplit := h (p :: first) q rest (by rw [heq]; rfl)
      rw [List.append_cons] at hsplit
      exact hsplit hq
  · rintro ⟨hp, hrest⟩ first q rest heq hq
    cases first with
    | nil =>
      obtain ⟨rfl, rfl⟩ := List.cons.inj heq
      rw [List.append_nil] at hq ⊢
      exact hp hq
    | cons p' first =>
      obtain ⟨rfl, rfl⟩ := List.cons.inj heq
      rw [List.append_cons] at hq ⊢
      exact hrest first q rest rfl hq

omit [DecidableEq κ] in
theorem BranchesOff.nil_notMem {keys : List (List κ)} (h : BranchesOff [] keys) : [] ∉ keys := by
  intro hmem
  obtain ⟨first, rest, heq, hfirst⟩ := List.eq_append_cons_of_mem hmem
  exact (h first [] rest heq hfirst).1 rfl

omit [DecidableEq κ] in
/-- Keys in an order in which none is a prefix of an earlier one. -/
theorem branchesOff_of_pairwise {keys : List (List κ)} (hnil : [] ∉ keys)
    (h : keys.Pairwise fun q p => ¬ p <+: q) : BranchesOff [] keys := by
  rintro first p rest rfl -
  refine ⟨?_, fun q hq => (List.pairwise_append.1 h).2.2 q hq p (List.mem_cons_self ..)⟩
  rintro rfl
  exact hnil (by simp)

theorem card_cons (before keys : List (List κ)) (p : List κ) :
    ((p :: keys).toFinset \ before.toFinset).card =
      (if p ∈ before then 0 else 1) + (keys.toFinset \ (before ++ [p]).toFinset).card := by
  by_cases hp : p ∈ before
  · have hsame : (p :: keys).toFinset \ before.toFinset = keys.toFinset \ (before ++ [p]).toFinset := by
      ext q
      by_cases hq : q = p
      · simp [hq, hp]
      · simp [hq]
    rw [if_pos hp, hsame, Nat.zero_add]
  · have hinsert : (p :: keys).toFinset \ before.toFinset = insert p (keys.toFinset \ (before ++ [p]).toFinset) := by
      ext q
      by_cases hq : q = p
      · simp [hq, hp]
      · simp [hq]
    rw [if_neg hp, hinsert, Finset.card_insert_of_notMem (by simp), Nat.add_comm]

/-- They are at most as many as there are new keys, and as many when every new key branches off. -/
theorem created_spec (keys : List (List κ)) : ∀ before,
    created before keys ≤ (keys.toFinset \ before.toFinset).card ∧
      (created before keys = (keys.toFinset \ before.toFinset).card ↔ BranchesOff before keys) := by
  induction keys with
  | nil =>
    intro before
    refine ⟨by simp [created], ?_⟩
    simp [created, BranchesOff]
  | cons p keys ih =>
    intro before
    obtain ⟨hle, heq⟩ := ih (before ++ [p])
    rw [branchesOff_cons, ← heq, card_cons, created]
    by_cases hp : p ∈ before
    · have hold : p = [] ∨ ∃ q ∈ before, p <+: q := .inr ⟨p, hp, List.prefix_refl p⟩
      rw [if_pos hp, if_pos hold]
      exact ⟨by omega, by simp [hp]⟩
    · rw [if_neg hp]
      by_cases hold : p = [] ∨ ∃ q ∈ before, p <+: q
      · have hno : ¬ (p ∉ before → p ≠ [] ∧ ∀ q ∈ before, ¬ p <+: q) := by
          intro h
          rcases hold with rfl | ⟨q, hq, hpre⟩
          · exact (h hp).1 rfl
          · exact (h hp).2 q hq hpre
        rw [if_pos hold, iff_false_right (fun h => hno h.1)]
        exact ⟨by omega, by omega⟩
      · have hyes : p ∉ before → p ≠ [] ∧ ∀ q ∈ before, ¬ p <+: q :=
          fun _ => ⟨fun hnil => hold (.inl hnil), fun q hq hpre => hold (.inr ⟨q, hq, hpre⟩)⟩
        rw [if_neg hold]
        rw [and_iff_right hyes]
        exact ⟨by omega, by omega⟩

/-- Keys in an order in which none is a prefix of an earlier one are created unless they are prefixes of the keys that
were there before. -/
theorem created_of_pairwise {keys : List (List κ)} (h : keys.Pairwise fun q p => ¬ p <+: q) : ∀ before,
    created before keys = keys.countP fun q => q ≠ [] ∧ ∀ q' ∈ before, ¬ q <+: q' := by
  induction keys with
  | nil => exact fun before => rfl
  | cons p keys ih =>
    intro before
    obtain ⟨hp, hkeys⟩ := List.pairwise_cons.1 h
    have hrest : (keys.countP fun q => q ≠ [] ∧ ∀ q' ∈ before ++ [p], ¬ q <+: q') =
        keys.countP fun q => q ≠ [] ∧ ∀ q' ∈ before, ¬ q <+: q' := by
      refine List.countP_congr fun q hq => ?_
      have hnot := hp q hq
      simp [or_imp, forall_and, hnot]
    rw [created, ih hkeys, hrest, List.countP_cons, Nat.add_comm]
    congr 1
    by_cases hold : p = [] ∨ ∃ q ∈ before, p <+: q
    · rw [if_pos hold, if_neg]
      intro hnew
      obtain ⟨hne, hno⟩ := of_decide_eq_true hnew
      exact hold.elim hne fun ⟨q, hq, hpre⟩ => hno q hq hpre
    · rw [if_neg hold, if_pos]
      exact decide_eq_true ⟨fun hnil => hold (.inl hnil), fun q hq hpre => hold (.inr ⟨q, hq, hpre⟩)⟩

end PrefixMap

import Mathlib.Data.List.Infix

/-!
# Texts with delimiters

Cutting a text at the occurrences of a delimiter that is itself a list: the first occurrence, all of them from the left
without overlap, and the fields of a text that must have a given number of them.  When no proper beginning of the
delimiter is also an end of it, the fields of a joined text are read back.
-/

namespace Delimited

universe u

variable {α : Type u} [DecidableEq α]

/-- What stands before and after the first occurrence of the delimiter. -/
def cut (d : List α) : List α → Option (List α × List α)
  | [] => if d = [] then some ([], []) else none
  | c :: cs => if d <+: c :: cs then some ([], (c :: cs).drop d.length) else (cut d cs).map fun (a, b) => (c :: a, b)

/-- The pieces between the first `n` occurrences, and what is left. -/
def pieces (d : List α) : Nat → List α → List (List α)
  | 0, s => [s]
  | n + 1, s =>
    match cut d s with
    | none => [s]
    | some (field, rest) => field :: pieces d n rest

/-- The pieces between all occurrences. -/
def split (d s : List α) : List (List α) := pieces d s.length s

/-- The fields of a text for `n` slots, one field each.  A text that ends when the slots are used up is accepted, also
right behind a delimiter. -/
def splitN (d : List α) : Nat → List α → Option (List (List α))
  | 0, s =>
    match cut d s with
    | some _ => none
    | none => if s = [] then some [] else none
  | n + 1, s =>
    match cut d s with
    | some (field, rest) => (splitN d n rest).map (field :: ·)
    | none => if n = 0 then some [s] else none

/-- Only the delimiter itself is a beginning and an end of the delimiter, apart from the empty list. -/
def Unbordered (d : List α) : Prop := ∀ p, p ≠ [] → p <+: d → p <:+ d → p = d

private theorem cut_cons_found {d cs : List α} {c : α} (h : d <+: c :: cs) :
    cut d (c :: cs) = some ([], (c :: cs).drop d.length) := if_pos h

private theorem cut_cons_skip {d cs : List α} {c : α} (h : ¬ d <+: c :: cs) :
    cut d (c :: cs) = (cut d cs).map fun (a, b) => (c :: a, b) := if_neg h

private theorem eq_of_cut_eq_some {d s a b : List α} (h : cut d s = some (a, b)) : s = a ++ d ++ b := by
  induction s generalizing a with
  | nil =>
    unfold cut at h
    split at h
    · rename_i hd
      obtain ⟨rfl, rfl⟩ := Prod.mk.inj (Option.some.inj h)
      rw [hd]
      rfl
    · cases h
  | cons c s ih =>
    by_cases hd : d <+: c :: s
    · rw [cut_cons_found hd] at h
      obtain ⟨rfl, rfl⟩ := Prod.mk.inj (Option.some.inj h)
      obtain ⟨t, ht⟩ := hd
      rw [← ht]
      simp
    · rw [cut_cons_skip hd, Option.map_eq_some_iff] at h
      obtain ⟨⟨a', b'⟩, hcut, heq⟩ := h
      obtain ⟨rfl, rfl⟩ := Prod.mk.inj heq
      rw [ih hcut]
      rfl

/-- The delimiter does not stand before its first occurrence. -/
theorem not_infix_of_cut_eq_some {d s a b : List α} (hd : d ≠ []) (h : cut d s = some (a, b)) : ¬ d <:+: a := by
  induction s generalizing a with
  | nil =>
    rw [cut, if_neg hd] at h
    cases h
  | cons c s ih =>
    by_cases hp : d <+: c :: s
    · rw [cut_cons_found hp] at h
      obtain ⟨rfl, -⟩ := Prod.mk.inj (Option.some.inj h)
      exact fun hi => hd (List.infix_nil.1 hi)
    · rw [cut_cons_skip hp, Option.map_eq_some_iff] at h
      obtain ⟨⟨a', b'⟩, hcut, heq⟩ := h
      obtain ⟨rfl, rfl⟩ := Prod.mk.inj heq
      intro hi
      rcases List.infix_cons_iff.1 hi with hi | hi
      · refine hp (hi.trans ?_)
        rw [eq_of_cut_eq_some hcut, List.append_assoc]
        exact List.prefix_append (c :: a') (d ++ b')
      · exact ih hcut hi

/-- A text is not cut exactly when the delimiter does not stand in it. -/
theorem cut_eq_none_iff {d s : List α} : cut d s = none ↔ ¬ d <:+: s := by
  induction s with
  | nil => simp [cut, List.infix_nil]
  | cons c s ih =>
    by_cases hp : d <+: c :: s
    · simp [cut_cons_found hp, hp.isInfix]
    · rw [cut_cons_skip hp, Option.map_eq_none_iff, ih, List.infix_cons_iff]
      simp [hp]

/-- An unbordered delimiter after a text without it is found where it stands. -/
theorem cut_append {d : List α} (hd : d ≠ []) (hborder : Unbordered d) {f : List α} (hf : ¬ d <:+: f)
    (rest : List α) : cut d (f ++ (d ++ rest)) = some (f, rest) := by
  induction f with
  | nil =>
    obtain ⟨c, d', rfl⟩ := List.exists_cons_of_ne_nil hd
    have hp : c :: d' <+: c :: (d' ++ rest) := List.prefix_append (c :: d') rest
    show cut (c :: d') (c :: (d' ++ rest)) = _
    rw [cut_cons_found hp]
    simp
  | cons c f ih =>
    have hrest : ¬ d <:+: f := fun h => hf (List.infix_cons_iff.2 (.inr h))
    have hnot : ¬ d <+: c :: (f ++ (d ++ rest)) := by
      rw [← List.cons_append]
      intro hp
      have hcf : c :: f <+: (c :: f) ++ (d ++ rest) := List.prefix_append ..
      rcases Nat.lt_or_ge (c :: f).length d.length with hlt | hge
      · -- the delimiter starts with `c :: f`, and what is left of it is a border
        obtain ⟨t, ht⟩ := List.prefix_of_prefix_length_le hcf hp hlt.le
        have hlen : (c :: f).length + t.length = d.length := by rw [← ht, List.length_append]
        have htd : t <+: d ++ rest := by
          rwa [← ht, List.append_assoc (c :: f), List.prefix_append_right_inj, ← List.append_assoc, ht] at hp
        have hpre : t <+: d := List.prefix_of_prefix_length_le htd (List.prefix_append d rest) (by omega)
        have hne : t ≠ [] := fun h0 => by simp [h0] at hlen; simp [← hlen] at hlt
        have heq := hborder t hne hpre ⟨c :: f, ht⟩
        simp [heq] at hlen
      · exact hf (List.prefix_of_prefix_length_le hp hcf hge).isInfix
    rw [List.cons_append, cut_cons_skip hnot, ih hrest]
    rfl

/-! ### All pieces -/

private theorem pieces_of_cut_eq_none {d s : List α} (h : cut d s = none) (n : Nat) : pieces d n s = [s] := by
  cases n with
  | zero => rfl
  | succ n => simp only [pieces, h]

private theorem length_lt_of_cut_eq_some {d s a b : List α} (hd : d ≠ []) (h : cut d s = some (a, b)) :
    b.length < s.length := by
  have hpos := List.length_pos_iff.2 hd
  rw [eq_of_cut_eq_some h, List.length_append, List.length_append]
  omega

/-- A text has no more delimiters than its length allows. -/
private theorem pieces_congr {d : List α} (hd : d ≠ []) (n : Nat) :
    ∀ (m : Nat) (s : List α), s.length ≤ n → s.length ≤ m → pieces d n s = pieces d m s := by
  induction n with
  | zero =>
    intro m s hn _
    obtain rfl := List.length_eq_zero_iff.1 (Nat.le_zero.1 hn)
    have hcut : cut d [] = none := if_neg hd
    rw [pieces_of_cut_eq_none hcut, pieces_of_cut_eq_none hcut]
  | succ n ih =>
    intro m s hn hm
    cases hcut : cut d s with
    | none => rw [pieces_of_cut_eq_none hcut, pieces_of_cut_eq_none hcut]
    | some p =>
      have hlt := length_lt_of_cut_eq_some hd hcut
      obtain ⟨m, rfl⟩ : ∃ k, m = k + 1 := ⟨m - 1, by omega⟩
      simp only [pieces, hcut]
      rw [ih m p.2 (by omega) (by omega)]

private theorem split_of_cut_eq_none {d s : List α} (h : cut d s = none) : split d s = [s] := pieces_of_cut_eq_none h _

private theorem split_of_cut_eq_some {d s a b : List α} (hd : d ≠ []) (h : cut d s = some (a, b)) :
    split d s = a :: split d b := by
  have hlt := length_lt_of_cut_eq_some hd h
  obtain ⟨n, hn⟩ : ∃ n, s.length = n + 1 := ⟨s.length - 1, by omega⟩
  simp only [split, hn, pieces, h]
  rw [pieces_congr hd n b.length b (by omega) le_rfl]

theorem split_ne_nil {d : List α} (hd : d ≠ []) (s : List α) : split d s ≠ [] := by
  cases hcut : cut d s with
  | none => simp [split_of_cut_eq_none hcut]
  | some p => simp [split_of_cut_eq_some hd hcut]

/-- The first piece is a beginning of what stands before a delimiter. -/
theorem prefix_of_split {d : List α} (hd : d ≠ []) (hborder : Unbordered d) {s rest field : List α}
    {fields : List (List α)} (h : split d (s ++ (d ++ rest)) = field :: fields) : field <+: s := by
  cases hcut : cut d s with
  | none =>
    rw [split_of_cut_eq_some hd (cut_append hd hborder (cut_eq_none_iff.1 hcut) rest)] at h
    exact (List.cons.inj h).1 ▸ List.prefix_rfl
  | some ab =>
    obtain ⟨a, b⟩ := ab
    obtain rfl := eq_of_cut_eq_some hcut
    have hfirst := cut_append hd hborder (not_infix_of_cut_eq_some hd hcut) (b ++ (d ++ rest))
    simp only [List.append_assoc] at h ⊢
    rw [split_of_cut_eq_some hd hfirst] at h
    rw [← (List.cons.inj h).1]
    exact List.prefix_append a _

/-- A text is its pieces, joined. -/
theorem intercalate_split {d : List α} (hd : d ≠ []) (s : List α) : d.intercalate (split d s) = s := by
  induction hn : s.length using Nat.strongRecOn generalizing s with
  | ind n ih =>
    subst hn
    cases hcut : cut d s with
    | none => rw [split_of_cut_eq_none hcut, List.intercalate_singleton]
    | some p =>
      obtain ⟨piece, pieces, hrest⟩ := List.exists_cons_of_ne_nil (split_ne_nil hd p.2)
      have hjoin := ih p.2.length (length_lt_of_cut_eq_some hd hcut) p.2 rfl
      rw [split_of_cut_eq_some hd hcut, hrest, List.intercalate_cons_cons, ← hrest, hjoin, eq_of_cut_eq_some hcut]

/-- How often the delimiter is found, from the left without overlap. -/
def occurrences (d s : List α) : Nat := (split d s).length - 1

theorem length_split {d : List α} (hd : d ≠ []) (s : List α) : (split d s).length = occurrences d s + 1 := by
  have hpos := List.length_pos_iff.2 (split_ne_nil hd s)
  unfold occurrences
  omega

/-- The text ends right behind its last delimiter. -/
def EndsBehindDelimiter (d s : List α) : Prop := (split d s).getLast? = some []

instance (d s : List α) : Decidable (EndsBehindDelimiter d s) := inferInstanceAs (Decidable (_ = _))

/-- The fields for `n` slots are all pieces, or all but an empty last one. -/
theorem splitN_eq {d : List α} (hd : d ≠ []) (n : Nat) : ∀ s : List α, splitN d n s =
    if (split d s).length = n then some (split d s)
    else if (split d s).length = n + 1 ∧ EndsBehindDelimiter d s then some (split d s).dropLast
    else none := by
  induction n with
  | zero =>
    intro s
    cases hcut : cut d s with
    | none => simp [splitN, hcut, split_of_cut_eq_none hcut, EndsBehindDelimiter]
    | some p =>
      have hne := split_ne_nil hd p.2
      simp [splitN, hcut, split_of_cut_eq_some hd hcut, hne]
  | succ n ih =>
    intro s
    cases hcut : cut d s with
    | none =>
      by_cases hn : n = 0
      · simp [splitN, hcut, split_of_cut_eq_none hcut, hn]
      · simp [splitN, hcut, split_of_cut_eq_none hcut, hn]
    | some p =>
      obtain ⟨piece, pieces, hrest⟩ := List.exists_cons_of_ne_nil (split_ne_nil hd p.2)
      have hends : EndsBehindDelimiter d s ↔ EndsBehindDelimiter d p.2 := by
        simp [EndsBehindDelimiter, split_of_cut_eq_some hd hcut, hrest]
      simp only [splitN, hcut, ih, hends, split_of_cut_eq_some hd hcut, List.length_cons, Nat.add_right_cancel_iff]
      split
      · rfl
      · split
        · simp [hrest]
        · rfl

/-! ### Joined texts -/

section Joined

variable {d : List α} (hd : d ≠ []) (hborder : Unbordered d)
include hd

omit [DecidableEq α] in
private theorem length_le_intercalate (f : List α) (fields : List (List α)) :
    fields.length ≤ (d.intercalate (f :: fields)).length := by
  induction fields generalizing f with
  | nil => simp
  | cons g fields ih =>
    have hpos := List.length_pos_iff.2 hd
    have := ih g
    rw [List.intercalate_cons_cons]
    simp only [List.length_append, List.length_cons] at this ⊢
    omega

private theorem not_infix_of_mem_pieces (n : Nat) : ∀ s : List α, s.length ≤ n → ∀ f ∈ pieces d n s, ¬ d <:+: f := by
  induction n with
  | zero =>
    intro s hs f hf
    obtain rfl := List.mem_singleton.1 hf
    rw [List.length_eq_zero_iff.1 (Nat.le_zero.1 hs)]
    exact fun hi => hd (List.infix_nil.1 hi)
  | succ n ih =>
    intro s hs f hf
    cases hcut : cut d s with
    | none =>
      simp only [pieces, hcut, List.mem_singleton] at hf
      exact hf ▸ cut_eq_none_iff.1 hcut
    | some p =>
      simp only [pieces, hcut, List.mem_cons] at hf
      have hlen : s.length = p.1.length + d.length + p.2.length := by
        rw [eq_of_cut_eq_some hcut, List.length_append, List.length_append]
      have hpos := List.length_pos_iff.2 hd
      rcases hf with rfl | hf
      · exact not_infix_of_cut_eq_some hd hcut
      · exact ih p.2 (by omega) f hf

/-- The pieces of a text are free of the delimiter. -/
theorem not_infix_of_mem_split {s f : List α} (h : f ∈ split d s) : ¬ d <:+: f :=
  not_infix_of_mem_pieces hd s.length s le_rfl f h

omit hd in
theorem subset_of_mem_pieces (n : Nat) : ∀ s : List α, ∀ f ∈ pieces d n s, f ⊆ s := by
  induction n with
  | zero =>
    intro s f hf
    rw [List.mem_singleton.1 hf]
    exact List.Subset.refl s
  | succ n ih =>
    intro s f hf
    cases hcut : cut d s with
    | none =>
      simp only [pieces, hcut, List.mem_singleton] at hf
      rw [hf]
      exact List.Subset.refl s
    | some p =>
      simp only [pieces, hcut, List.mem_cons] at hf
      rw [eq_of_cut_eq_some hcut]
      rcases hf with rfl | hf
      · simp
      · exact List.subset_append_of_subset_right _ (ih p.2 f hf)

include hborder

private theorem pieces_intercalate (fields : List (List α)) : ∀ (n : Nat) (f : List α), fields.length ≤ n →
    (∀ g ∈ f :: fields, ¬ d <:+: g) → pieces d n (d.intercalate (f :: fields)) = f :: fields := by
  induction fields with
  | nil =>
    intro n f _ hf
    cases n with
    | zero => simp [pieces]
    | succ n => simp [pieces, cut_eq_none_iff.2 (hf f (by simp))]
  | cons g fields ih =>
    intro n f hn hf
    obtain ⟨n, rfl⟩ : ∃ m, n = m + 1 := ⟨n - 1, by simp at hn; omega⟩
    have hcut := cut_append hd hborder (hf f (by simp)) (d.intercalate (g :: fields))
    rw [List.intercalate_cons_cons, List.append_assoc]
    simp only [pieces, hcut]
    rw [ih n g (by simpa using hn) fun g' hg' => hf g' (List.mem_cons_of_mem f hg')]

/-- The fields of a joined text are read back. -/
theorem split_intercalate {fields : List (List α)} (hne : fields ≠ []) (hf : ∀ f ∈ fields, ¬ d <:+: f) :
    split d (d.intercalate fields) = fields := by
  obtain ⟨f, fields, rfl⟩ := List.exists_cons_of_ne_nil hne
  exact pieces_intercalate hd hborder fields _ f (length_le_intercalate hd f fields) hf

/-- So are they for as many slots. -/
theorem splitN_intercalate (fields : List (List α)) : ∀ f : List α, (∀ g ∈ f :: fields, ¬ d <:+: g) →
    splitN d (fields.length + 1) (d.intercalate (f :: fields)) = some (f :: fields) := by
  induction fields with
  | nil =>
    intro f hf
    simp [splitN, cut_eq_none_iff.2 (hf f (by simp))]
  | cons g fields ih =>
    intro f hf
    have hcut := cut_append hd hborder (hf f (by simp)) (d.intercalate (g :: fields))
    rw [List.intercalate_cons_cons, List.append_assoc, List.length_cons, splitN]
    simp only [hcut]
    rw [ih g fun g' hg' => hf g' (List.mem_cons_of_mem f hg')]
    rfl

end Joined

omit [DecidableEq α] in
/-- Two different characters make an unbordered delimiter. -/
theorem unbordered_pair {a b : α} (h : a ≠ b) : Unbordered [a, b] := by
  rintro p hne hpre hsuf
  obtain ⟨c, p, rfl⟩ := List.exists_cons_of_ne_nil hne
  cases p with
  | nil =>
    obtain rfl : c = a := by simpa using hpre
    obtain ⟨t, ht⟩ := hsuf
    have hlast := congrArg List.getLast? ht
    rw [List.getLast?_append] at hlast
    exact absurd (by simpa using hlast) h
  | cons c' p => exact List.IsPrefix.eq_of_length_le hpre (by simp)

end Delimited

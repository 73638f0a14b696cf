import Mathlib.Data.List.Basic

/-!
# References in the recipes of make

Before make hands a line of a recipe to the shell it replaces the references, which begin with a dollar sign: two of
them stand for one, a bracket begins a reference up to its end, and any other character is a reference by itself.  How
far a reference in brackets reaches is a parameter, as is what the references stand for.
-/

namespace MakeText

/-- How many characters a reference has behind its opening bracket, with which the given text starts; none where make
finds no end.  A name without brackets and dollar signs ends at the first closing bracket. -/
structure Extent where
  length : List Char → Option Nat
  name : ∀ n rest : List Char, '$' ∉ n → '(' ∉ n → ')' ∉ n → length ('(' :: (n ++ ')' :: rest)) = some (n.length + 1)

/-- A reference ends at the first closing bracket of its kind. -/
def Extent.first : Extent where
  length
    | '(' :: cs => (cs.idxOf? ')').map (· + 1)
    | _ :: cs => (cs.idxOf? '}').map (· + 1)
    | [] => none
  name n rest _ _ hclose := by
    have hfree : n.findIdx? (· == ')') = none := by
      rw [List.findIdx?_eq_none_iff]
      intro c hc
      exact beq_eq_false_iff_ne.2 fun heq => hclose (heq ▸ hc)
    simp [List.idxOf?, List.findIdx?_append, List.findIdx?_cons, hfree]

/-- What stands for a dollar sign with the given text behind it, and how many characters of that text it takes;
`reference` says what a reference to the given text stands for. -/
def dollar (ext : Extent) (reference : List Char → List Char) : List Char → Option (List Char × Nat)
  | [] => some (['$'], 0)
  | d :: ds =>
    if d = '$' then some (['$'], 1)
    else if d = '(' ∨ d = '{' then (ext.length (d :: ds)).map fun n => (reference (ds.take (n - 1)), 1 + n)
    else some (reference [d], 1)

/-- The text with its references replaced, from behind `skip` characters. -/
def expand (ext : Extent) (reference : List Char → List Char) : Nat → List Char → Option (List Char)
  | _, [] => some []
  | skip + 1, _ :: cs => expand ext reference skip cs
  | 0, c :: cs =>
    if c = '$' then
      match dollar ext reference cs with
      | none => none
      | some (v, taken) => (expand ext reference taken cs).map (v ++ ·)
    else (expand ext reference 0 cs).map (c :: ·)

variable {ext : Extent} {reference : List Char → List Char}

theorem expand_cons_of_ne {c : Char} (hc : c ≠ '$') (cs : List Char) :
    expand ext reference 0 (c :: cs) = (expand ext reference 0 cs).map (c :: ·) := by
  rw [expand, if_neg hc]

/-- Without a dollar sign a text stays as it is. -/
theorem expand_of_notMem {w : List Char} (h : '$' ∉ w) : ∀ skip, expand ext reference skip w = some (w.drop skip) := by
  induction w with
  | nil => intro skip; cases skip <;> rfl
  | cons c w ih =>
    rw [List.mem_cons, not_or] at h
    intro skip
    cases skip with
    | zero =>
      rw [expand_cons_of_ne (Ne.symm h.1), ih h.2]
      rfl
    | succ skip => exact ih h.2 skip

theorem expand_append {w : List Char} (h : '$' ∉ w) (t : List Char) :
    expand ext reference 0 (w ++ t) = (expand ext reference 0 t).map (w ++ ·) := by
  induction w with
  | nil => simp
  | cons c w ih =>
    rw [List.mem_cons, not_or] at h
    rw [List.cons_append, expand_cons_of_ne (Ne.symm h.1), ih h.2, Option.map_map]
    rfl

private theorem expand_skip (w t : List Char) : expand ext reference w.length (w ++ t) = expand ext reference 0 t := by
  induction w with
  | nil => rfl
  | cons c w ih => exact ih

/-- A reference to a variable. -/
theorem expand_name {n : List Char} (hdollar : '$' ∉ n) (hopen : '(' ∉ n) (hclose : ')' ∉ n) (t : List Char) :
    expand ext reference 0 ('$' :: '(' :: (n ++ ')' :: t)) = (expand ext reference 0 t).map (reference n ++ ·) := by
  have hvalue : dollar ext reference ('(' :: (n ++ ')' :: t)) = some (reference n, 1 + (n.length + 1)) := by
    simp [dollar, ext.name n t hdollar hopen hclose]
  have hskip : expand ext reference (1 + (n.length + 1)) ('(' :: (n ++ ')' :: t)) = expand ext reference 0 t := by
    have h : expand ext reference _ (_ ++ t) = _ := expand_skip ('(' :: (n ++ [')'])) t
    simpa [Nat.add_comm, Nat.add_left_comm] using h
  rw [expand, if_pos rfl, hvalue]
  simp only [hskip]

section Count

variable {P : Char → Bool} {t : List Char}

/-- A dollar sign gives none of some characters when no reference does, unless it stands before another one. -/
private theorem dollar_cases (hreference : ∀ n, (reference n).countP P = 0) {cs v : List Char} {taken : Nat}
    (hne : cs ≠ []) (h : dollar ext reference cs = some (v, taken)) :
    v.countP P = 0 ∨ v = ['$'] ∧ taken = 1 ∧ cs.head? = some '$' := by
  obtain ⟨d, ds, rfl⟩ := List.exists_cons_of_ne_nil hne
  rw [dollar] at h
  split at h
  · rename_i hd
    cases h
    exact .inr ⟨rfl, rfl, congrArg some hd⟩
  · split at h
    · obtain ⟨n, -, heq⟩ := Option.map_eq_some_iff.1 h
      cases heq
      exact .inl (hreference _)
    · cases h
      exact .inl (hreference _)

/-- What is put for a dollar sign and behind it has no more of them than the text behind it. -/
private theorem countP_dollar_append_le (hreference : ∀ n, (reference n).countP P = 0) {c : Char} (hc : c ≠ '$')
    (ht : t.head? = some c) {p v r : List Char} {taken : Nat} (h : dollar ext reference (p ++ t) = some (v, taken))
    (hr : r.countP P ≤ (p.drop taken).countP P) : (v ++ r).countP P ≤ p.countP P := by
  have hne : p ++ t ≠ [] := by
    intro he
    rw [(List.append_eq_nil_iff.1 he).2] at ht
    cases ht
  rw [List.countP_append]
  rcases dollar_cases hreference hne h with hv | ⟨rfl, rfl, hhead⟩
  · have hdrop : (p.drop taken).countP P ≤ p.countP P := (List.drop_sublist taken p).countP_le
    omega
  · cases p with
    | nil =>
      rw [List.nil_append, ht] at hhead
      exact absurd (Option.some.inj hhead) hc
    | cons d p =>
      obtain rfl : d = '$' := by simpa using hhead
      rw [List.countP_singleton, List.countP_cons]
      simp only [List.drop_succ_cons, List.drop_zero] at hr
      omega

/-- The expanded text has no more of some characters than the text, when no reference stands for one and what stands
behind the text adds none. -/
private theorem countP_expand_le (hreference : ∀ n, (reference n).countP P = 0) {c : Char} (hc : c ≠ '$')
    (hhead : t.head? = some c) (ht : ∀ skip r, expand ext reference skip t = some r → r.countP P = 0)
    (p : List Char) : ∀ {skip : Nat} {r : List Char}, expand ext reference skip (p ++ t) = some r →
      r.countP P ≤ (p.drop skip).countP P := by
  induction p with
  | nil =>
    intro skip r h
    rw [ht skip r h]
    exact Nat.zero_le _
  | cons d p ih =>
    intro skip r h
    cases skip with
    | succ skip => exact ih h
    | zero =>
      rw [List.cons_append, expand] at h
      rw [List.drop_zero, List.countP_cons]
      split at h
      · cases hvalue : dollar ext reference (p ++ t) with
        | none => simp [hvalue] at h
        | some value =>
          simp only [hvalue] at h
          obtain ⟨r', hr', rfl⟩ := Option.map_eq_some_iff.1 h
          have hle := countP_dollar_append_le hreference hc hhead hvalue (ih hr')
          omega
      · obtain ⟨r', hr', rfl⟩ := Option.map_eq_some_iff.1 h
        have hle := ih hr'
        rw [List.drop_zero] at hle
        rw [List.countP_cons]
        omega

/-- It has fewer of them when the dollar sign is one and the text has one. -/
theorem countP_expand_lt (hreference : ∀ n, (reference n).countP P = 0) (hP : P '$' = true) {c : Char} (hc : c ≠ '$')
    (hhead : t.head? = some c) (ht : ∀ skip r, expand ext reference skip t = some r → r.countP P = 0)
    {p : List Char} (hp : '$' ∈ p) : ∀ {r : List Char}, expand ext reference 0 (p ++ t) = some r →
      r.countP P < p.countP P := by
  induction p with
  | nil => cases hp
  | cons d p ih =>
    intro r h
    rw [List.cons_append, expand] at h
    rw [List.countP_cons]
    split at h
    · rename_i hd
      cases hvalue : dollar ext reference (p ++ t) with
      | none => simp [hvalue] at h
      | some value =>
        simp only [hvalue] at h
        obtain ⟨r', hr', rfl⟩ := Option.map_eq_some_iff.1 h
        have hle := countP_dollar_append_le hreference hc hhead hvalue (countP_expand_le hreference hc hhead ht p hr')
        rw [hd, if_pos hP]
        omega
    · rename_i hd
      obtain ⟨r', hr', rfl⟩ := Option.map_eq_some_iff.1 h
      have hlt := ih ((List.mem_cons.1 hp).resolve_left (Ne.symm hd)) hr'
      rw [List.countP_cons]
      omega

end Count

end MakeText

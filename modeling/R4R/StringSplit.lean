import R4R.RpkgParse

/-!
# The fields of a text

`string_split_n` is to accept the texts with one delimiter less than it has slots, and to return their fields.  It also
accepts a text with one delimiter more, if the text ends there.
-/

namespace R4R

open Delimited

/-- The text is accepted if its delimiters separate `n` fields, and joining the fields gives it back. -/
structure SplitsExactly (n : Nat) (str delim : List Char) : Prop where
  accepts_iff : (stringSplitN n str delim).isSome = true ↔ occurrences delim str + 1 = n
  joined : ∀ fields, stringSplitN n str delim = some fields → fields.length = n ∧ delim.intercalate fields = str

/-- The fields are right unless the text has as many delimiters as there are slots and ends with the last of them. -/
theorem splitsExactly_iff (n : Nat) (str : List Char) {delim : List Char} (hdelim : delim ≠ []) :
    SplitsExactly n str delim ↔ ¬ (occurrences delim str = n ∧ EndsBehindDelimiter delim str) := by
  have hsplit := splitN_eq hdelim n str
  simp only [length_split hdelim, Nat.add_right_cancel_iff] at hsplit
  constructor
  · rintro ⟨hiff, -⟩ ⟨hcount, hends⟩
    have hsome : (stringSplitN n str delim).isSome = true := by
      rw [stringSplitN, hsplit, if_neg (by omega), if_pos ⟨hcount, hends⟩]
      rfl
    have hone := hiff.1 hsome
    omega
  · intro hnot
    rw [if_neg hnot] at hsplit
    by_cases hcount : occurrences delim str + 1 = n
    · rw [if_pos hcount] at hsplit
      refine ⟨by simp [stringSplitN, hsplit, hcount], ?_⟩
      intro fields hfields
      rw [stringSplitN, hsplit] at hfields
      obtain rfl := Option.some.inj hfields
      exact ⟨by rw [length_split hdelim, hcount], intercalate_split hdelim str⟩
    · rw [if_neg hcount] at hsplit
      refine ⟨by simp [stringSplitN, hsplit, hcount], ?_⟩
      intro fields hfields
      rw [stringSplitN, hsplit] at hfields
      cases hfields

theorem splitsExactly_three : SplitsExactly 3 "a,,c".toList [','] :=
  (splitsExactly_iff 3 "a,,c".toList (by decide)).2 (by decide)

/-- A row of the package table with thirteen fields, the last one empty. -/
def surplusRow : List Char :=
  kDelimUtf8.intercalate ["A".toList, "/lib".toList, "1.0".toList, "NA".toList, "NA".toList, "NA".toList, "NA".toList,
    "no".toList, "NA".toList, "NA".toList, "NA".toList, "NA".toList, []]

theorem not_splitsExactly_surplus : ¬ SplitsExactly 1 ",".toList [','] ∧ ¬ SplitsExactly 12 surplusRow kDelimUtf8 ∧
    (split kDelimUtf8 surplusRow).length = 13 ∧ (RpkgDatabase.parseLine surplusRow).isSome = true := by
  refine ⟨?_, ?_, by decide +kernel, by decide +kernel⟩
  · rintro ⟨hiff, -⟩
    exact absurd (hiff.1 (by decide)) (by decide)
  · rintro ⟨hiff, -⟩
    exact absurd (hiff.1 (by decide +kernel)) (by decide +kernel)

end R4R

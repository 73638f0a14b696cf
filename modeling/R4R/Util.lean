import Mathlib.Algebra.Group.Nat.Defs
import R4R.Lib.Delimited
import R4R.Lib.Lines

/-!
# Texts of command output

The delimiter of the fields in the output of commands and the functions of `util.h` that read them.  A text is its
bytes, each as the character of that number.
-/

namespace R4R

open Delimited Lines

/-- `NBSP`. -/
def kDelimUtf8 : List Char := ['\u00c2', '\u00a0']

theorem kDelimUtf8_ne_nil : kDelimUtf8 ≠ [] := by decide

theorem unbordered_kDelimUtf8 : Unbordered kDelimUtf8 := unbordered_pair (by decide)

/-- `std::stoull` and `std::stoul`; none stands for their exceptions. -/
def stoull (s : List Char) : Option UInt64 :=
  let unsigned (neg : Bool) (s : List Char) : Option UInt64 :=
    let digits := s.takeWhile Char.isDigit
    let n := Nat.ofDigitChars 10 digits 0
    if digits.isEmpty || decide (2 ^ 64 ≤ n) then none
    else some (if neg then -UInt64.ofNat n else UInt64.ofNat n)
  match s.dropWhile isSpace with
  | '-' :: s => unsigned true s
  | '+' :: s => unsigned false s
  | s => unsigned false s

example : stoull " 755x".toList = some 755 ∧ stoull "-1".toList = some 18446744073709551615 ∧
    stoull "error".toList = none ∧ stoull "18446744073709551616".toList = none := by decide

/-- `string_split_n<N>`. -/
def stringSplitN (n : Nat) (str delim : List Char) : Option (List (List Char)) := splitN delim n str

/-- `string_iequals`. -/
def stringIequals (s t : List Char) : Bool :=
  s.length == t.length && (s.zip t).all fun c => c.1.toLower == c.2.toLower

theorem stringIequals_iff {s t : List Char} : stringIequals s t = true ↔ s.map Char.toLower = t.map Char.toLower := by
  induction s generalizing t with
  | nil =>
    cases t with
    | nil => simp [stringIequals]
    | cons d t => simp [stringIequals]
  | cons c s ih =>
    cases t with
    | nil => simp [stringIequals]
    | cons d t =>
      rw [List.map_cons, List.map_cons, List.cons.injEq, ← ih]
      simp only [stringIequals, List.length_cons, List.zip_cons_cons, List.all_cons, Bool.and_eq_true, beq_iff_eq,
        Nat.add_right_cancel_iff]
      tauto

/-- A number that has been printed is read back. -/
theorem stoull_toDigits (n : UInt64) : stoull (Nat.toDigits 10 n.toNat) = some n := by
  have hdigits : ∀ c ∈ Nat.toDigits 10 n.toNat, c.isDigit = true := fun c hc =>
    Nat.isDigit_of_mem_toDigits (by decide) (by decide) hc
  have hother : ∀ c : Char, c.isDigit = false → c ∉ Nat.toDigits 10 n.toNat := by
    intro c hc hmem
    rw [hdigits c hmem] at hc
    cases hc
  have hdrop : (Nat.toDigits 10 n.toNat).dropWhile isSpace = Nat.toDigits 10 n.toNat := by
    refine List.dropWhile_eq_self_iff.2 fun hl => ?_
    rw [Bool.not_eq_true]
    by_contra hspace
    rw [Bool.not_eq_false] at hspace
    have hmem := hdigits _ (List.getElem_mem hl)
    simp only [isSpace, List.contains_eq_mem, List.mem_cons, List.not_mem_nil, or_false, decide_eq_true_eq] at hspace
    rcases hspace with h | h | h | h | h | h <;> (rw [h] at hmem; exact absurd hmem (by decide))
  have htake : (Nat.toDigits 10 n.toNat).takeWhile Char.isDigit = Nat.toDigits 10 n.toNat :=
    List.takeWhile_eq_self_iff.2 hdigits
  unfold stoull
  rw [hdrop]
  split
  · rename_i s hs
    exact absurd (hs ▸ List.mem_cons_self ..) (hother '-' (by decide))
  · rename_i s hs
    exact absurd (hs ▸ List.mem_cons_self ..) (hother '+' (by decide))
  · have hn : Nat.ofDigitChars 10 (Nat.toDigits 10 n.toNat) 0 = n.toNat := by simp
    have hfits : ((Nat.toDigits 10 n.toNat).isEmpty || decide (2 ^ 64 ≤ n.toNat)) = false := by
      rw [Bool.or_eq_false_iff, decide_eq_false_iff_not, Nat.not_le]
      exact ⟨by simp [Nat.toDigits_ne_nil], n.toNat_lt⟩
    simp only [htake, hn, hfits, Bool.false_eq_true, if_false, UInt64.ofNat_toNat]

end R4R

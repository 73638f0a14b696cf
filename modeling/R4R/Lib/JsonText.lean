import Mathlib.Data.List.Basic

/-!
# JSON strings and arrays of strings

Readers for the RFC 8259 grammar of strings and of arrays whose elements are strings.  A string may contain every
character from U+0020 on except the quote and the backslash; the backslash introduces one of eight one-letter
escapes or the four hexadecimal digits of a UTF-16 code unit, and a surrogate pair stands for one character.
-/

namespace JsonText

/-- Insignificant white space. -/
def isWs (c : Char) : Bool := c == ' ' || c == '\t' || c == '\n' || c == '\r'

def skipWs (text : List Char) : List Char := text.dropWhile isWs

/-- A character that stands for itself in a string. -/
def isUnescaped (c : Char) : Bool := 0x20 ≤ c.toNat && c != '"' && c != '\\'

/-- The character that a one-letter escape stands for. -/
def shortEscape : Char → Option Char
  | '"' => some '"'
  | '\\' => some '\\'
  | '/' => some '/'
  | 'b' => some '\x08'
  | 'f' => some '\x0c'
  | 'n' => some '\n'
  | 'r' => some '\r'
  | 't' => some '\t'
  | _ => none

def hexDigit (c : Char) : Option Nat :=
  if '0' ≤ c ∧ c ≤ '9' then some (c.toNat - '0'.toNat)
  else if 'a' ≤ c ∧ c ≤ 'f' then some (c.toNat - 'a'.toNat + 10)
  else if 'A' ≤ c ∧ c ≤ 'F' then some (c.toNat - 'A'.toNat + 10)
  else none

/-- The code unit that four hexadecimal digits write. -/
def codeUnit (a b c d : Char) : Option Nat := do
  some (((← hexDigit a) * 16 + (← hexDigit b)) * 256 + (← hexDigit c) * 16 + (← hexDigit d))

def isHigh (n : Nat) : Bool := 0xD800 ≤ n && n < 0xDC00

def isLow (n : Nat) : Bool := 0xDC00 ≤ n && n < 0xE000

/-- A string after its opening quote: the characters it denotes and the text after its closing quote.  A surrogate
that is not part of a pair denotes no character. -/
def stringChars : List Char → Option (List Char × List Char)
  | [] => none
  | '"' :: text => some ([], text)
  | '\\' :: 'u' :: a :: b :: c :: d :: '\\' :: 'u' :: e :: f :: g :: h :: text =>
    match codeUnit a b c d, codeUnit e f g h with
    | some m, some n =>
      if isHigh m && isLow n then
        (stringChars text).map fun r => (Char.ofNat (0x10000 + (m - 0xD800) * 0x400 + (n - 0xDC00)) :: r.1, r.2)
      else if isHigh m || isLow m then none
      else (stringChars ('\\' :: 'u' :: e :: f :: g :: h :: text)).map fun r => (Char.ofNat m :: r.1, r.2)
    | _, _ => none
  | '\\' :: 'u' :: a :: b :: c :: d :: text =>
    match codeUnit a b c d with
    | some m =>
      if isHigh m || isLow m then none else (stringChars text).map fun r => (Char.ofNat m :: r.1, r.2)
    | none => none
  | '\\' :: e :: text =>
    match shortEscape e with
    | some c => (stringChars text).map fun r => (c :: r.1, r.2)
    | none => none
  | c :: text => if isUnescaped c then (stringChars text).map fun r => (c :: r.1, r.2) else none

/-- The text of an array after one of its elements; the fuel bounds the number of further elements. -/
def arrayTail : Nat → List Char → Option (List (List Char))
  | 0, _ => none
  | fuel + 1, text =>
    match skipWs text with
    | ']' :: text => if (skipWs text).isEmpty then some [] else none
    | ',' :: text =>
      match skipWs text with
      | '"' :: text => do
        let (s, text) ← stringChars text
        let rest ← arrayTail fuel text
        some (s :: rest)
      | _ => none
    | _ => none

/-- The strings that the text of an array of strings denotes. -/
def stringArray (text : List Char) : Option (List (List Char)) :=
  match skipWs text with
  | '[' :: text =>
    match skipWs text with
    | ']' :: text => if (skipWs text).isEmpty then some [] else none
    | '"' :: text => do
      let (s, text) ← stringChars text
      let rest ← arrayTail (text.length + 1) text
      some (s :: rest)
    | _ => none
  | _ => none

private theorem skipWs_cons_of_not {c : Char} (h : isWs c = false) (text : List Char) :
    skipWs (c :: text) = c :: text := by
  simp [skipWs, h]

theorem stringChars_unescaped {c : Char} (h : isUnescaped c = true) (text : List Char) :
    stringChars (c :: text) = (stringChars text).map fun r => (c :: r.1, r.2) := by
  have h₁ : c ≠ '"' := by rintro rfl; simp [isUnescaped] at h
  have h₂ : c ≠ '\\' := by rintro rfl; simp [isUnescaped] at h
  rw [stringChars.eq_def]
  split <;> simp_all

theorem stringChars_control {c : Char} (h : c.toNat < 0x20) (text : List Char) : stringChars (c :: text) = none := by
  have h₁ : c ≠ '"' := by rintro rfl; simp at h
  have h₂ : c ≠ '\\' := by rintro rfl; simp at h
  have h₃ : isUnescaped c = false := by
    have : ¬ 32 ≤ c.toNat := by omega
    simp [isUnescaped, this]
  rw [stringChars.eq_def]
  split <;> simp_all

theorem stringChars_shortEscape {e : Char} (h : e ≠ 'u') (text : List Char) :
    stringChars ('\\' :: e :: text) =
      (shortEscape e).bind fun c => (stringChars text).map fun r => (c :: r.1, r.2) := by
  rw [stringChars.eq_def]
  split
  · rename_i heq; simp at heq
  · rename_i heq; simp at heq
  · rename_i heq; simp only [List.cons.injEq] at heq; exact absurd heq.2.1 h
  · rename_i heq; simp only [List.cons.injEq] at heq; exact absurd heq.2.1 h
  · rename_i heq
    obtain ⟨-, rfl, rfl⟩ := List.cons_eq_cons.1 heq |>.imp_right List.cons_eq_cons.1
    cases shortEscape _ <;> rfl
  · rename_i hne heq
    simp only [List.cons.injEq] at heq
    exact absurd heq.2.symm (hne e text heq.1.symm)

/-! ### Reading an array of quoted strings -/

section

variable {α : Type} {body : α → List Char} {val : α → Option (List Char)}

private theorem skipWs_quote (text : List Char) : skipWs ('"' :: text) = '"' :: text :=
  skipWs_cons_of_not (by decide) text

private theorem arrayTail_bodies (hbody : ∀ x text, stringChars (body x ++ '"' :: text) = (val x).map (·, text))
    (xs : List α) : ∀ fuel, xs.length < fuel →
    arrayTail fuel ((xs.flatMap fun x => ',' :: ' ' :: '"' :: (body x ++ ['"'])) ++ [']']) = xs.mapM val := by
  induction xs with
  | nil =>
    intro fuel hfuel
    obtain ⟨fuel, rfl⟩ : ∃ k, fuel = k + 1 := ⟨fuel - 1, by simp at hfuel; omega⟩
    rfl
  | cons x xs ih =>
    intro fuel hfuel
    obtain ⟨fuel, rfl⟩ : ∃ k, fuel = k + 1 := ⟨fuel - 1, by omega⟩
    have htail := ih fuel (by simpa using hfuel)
    have hcomma : ∀ t, skipWs (',' :: t) = ',' :: t := skipWs_cons_of_not (by decide)
    have hspace : ∀ t, skipWs (' ' :: '"' :: t) = '"' :: t := fun t => skipWs_quote t
    rw [List.flatMap_cons, List.mapM_cons]
    simp only [List.cons_append, List.append_assoc, List.nil_append, arrayTail, hcomma, hspace, hbody]
    cases val x with
    | none => rfl
    | some v => simp [htail]

/-- An array of quoted strings separated by a comma and a blank: it denotes the values of the strings, and nothing
when one of them has none. -/
theorem stringArray_bodies (hbody : ∀ x text, stringChars (body x ++ '"' :: text) = (val x).map (·, text)) (x : α)
    (xs : List α) :
    stringArray ('[' :: '"' ::
        (body x ++ '"' :: (xs.flatMap fun x => ',' :: ' ' :: '"' :: (body x ++ ['"'])) ++ [']'])) =
      (x :: xs).mapM val := by
  have hopen : ∀ t, skipWs ('[' :: t) = '[' :: t := skipWs_cons_of_not (by decide)
  have hlen : xs.length < ((xs.flatMap fun x => ',' :: ' ' :: '"' :: (body x ++ ['"'])) ++ [']']).length + 1 := by
    have : xs.length ≤ (xs.flatMap fun x => ',' :: ' ' :: '"' :: (body x ++ ['"'])).length := by
      induction xs with
      | nil => simp
      | cons y ys ih => simp only [List.flatMap_cons, List.length_append, List.length_cons]; omega
    rw [List.length_append]
    omega
  rw [stringArray, hopen]
  simp only [skipWs_quote, List.append_assoc, List.cons_append, hbody, List.mapM_cons]
  cases val x with
  | none => rfl
  | some v =>
    have htail := arrayTail_bodies hbody xs _ hlen
    simp only [Option.map_some, Option.bind_eq_bind, Option.bind_some]
    rw [htail]
    rfl

end

example : stringArray "[\"a\\u00e9\\\"\", \"\\ud83d\\ude00\"]".toList =
    some [['a', 'é', '"'], ['😀']] := by decide

end JsonText

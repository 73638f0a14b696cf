import R4R.Lib.Lines

/-!
# File lists of tar

`tar` reads the names of files from a list, one on each line.  A backslash in a line takes the next characters with it
when they name a character; otherwise it stands for itself.  So a list of names is read back exactly when no name has a
newline or such a backslash (`names_unlines_iff`).
-/

namespace TarList

open Lines

/-- The character that a letter stands for behind a backslash. -/
def control : Char → Option Char
  | '\\' => some '\\'
  | 'a' => some '\x07'
  | 'b' => some '\x08'
  | 'f' => some '\x0c'
  | 'n' => some '\n'
  | 'r' => some '\r'
  | 't' => some '\t'
  | 'v' => some '\x0b'
  | '?' => some '\x7f'
  | _ => none

def isOctal (c : Char) : Bool := '0' ≤ c && c ≤ '7'

/-- The byte of an octal number. -/
def octal (digits : List Char) : Char := Char.ofNat (digits.foldl (fun n c => 8 * n + (c.toNat - '0'.toNat)) 0 % 256)

/-- What a backslash in front of the text stands for together with how many characters, which name a character or give
its number with up to three digits. -/
def escape : List Char → Option (Char × Nat)
  | [] => none
  | c :: cs =>
    match control c with
    | some d => some (d, 1)
    | none =>
      if isOctal c then some (octal (c :: (cs.take 2).takeWhile isOctal), 1 + ((cs.take 2).takeWhile isOctal).length)
      else none

/-- The name that a line stands for, behind `skip` characters. -/
def unquoteFrom : Nat → List Char → List Char
  | _, [] => []
  | skip + 1, _ :: cs => unquoteFrom skip cs
  | 0, c :: cs =>
    if c = '\\' then
      match escape cs with
      | some (d, taken) => d :: unquoteFrom taken cs
      | none => c :: unquoteFrom 0 cs
    else c :: unquoteFrom 0 cs

/-- The name that a line stands for. -/
def unquote (line : List Char) : List Char := unquoteFrom 0 line

/-- The names that `tar` reads from a file list. -/
def names (text : List Char) : List (List Char) := (getLines text).map unquote

/-- Behind a backslash the character belongs to it. -/
def startsEscape (c : Char) : Bool := (control c).isSome || isOctal c

/-- No backslash takes the next character with it. -/
def EscapeFree : List Char → Prop
  | [] => True
  | c :: cs => (c = '\\' → ∀ d ∈ cs.head?, startsEscape d = false) ∧ EscapeFree cs

example : unquote "/a\\101\\tb\\\\c\\d".toList = "/aA\tb\\c\\d".toList := by decide

theorem escape_eq_none_iff {cs : List Char} : escape cs = none ↔ ∀ d ∈ cs.head?, startsEscape d = false := by
  cases cs with
  | nil => simp [escape]
  | cons c cs =>
    simp only [List.head?_cons, Option.mem_some_iff, forall_eq', startsEscape, Bool.or_eq_false_iff]
    rw [escape]
    cases hc : control c <;> simp

private theorem escape_eq_some {cs : List Char} {r : Char × Nat} (h : escape cs = some r) :
    ∃ n d ds, r.2 = n + 1 ∧ cs = d :: ds := by
  cases cs with
  | nil => cases h
  | cons c cs =>
    rw [escape] at h
    cases hc : control c with
    | some d =>
      rw [hc] at h
      obtain rfl := Option.some.inj h
      exact ⟨0, c, cs, rfl, rfl⟩
    | none =>
      simp only [hc, Option.ite_none_right_eq_some] at h
      obtain ⟨-, h⟩ := h
      obtain rfl := Option.some.inj h
      exact ⟨_, c, cs, Nat.add_comm _ _, rfl⟩

private theorem length_unquoteFrom_le (l : List Char) : ∀ skip, (unquoteFrom skip l).length ≤ l.length := by
  induction l with
  | nil => exact fun skip => by simp [unquoteFrom]
  | cons c cs ih =>
    intro skip
    cases skip with
    | succ skip => exact (ih skip).trans (Nat.le_succ _)
    | zero =>
      unfold unquoteFrom
      split
      · split
        · exact Nat.succ_le_succ (ih _)
        · exact Nat.succ_le_succ (ih 0)
      · exact Nat.succ_le_succ (ih 0)

/-- A line stands for itself exactly when no backslash takes the next character with it. -/
theorem unquote_eq_self_iff (line : List Char) : unquote line = line ↔ EscapeFree line := by
  induction line with
  | nil => simp [unquote, unquoteFrom, EscapeFree]
  | cons c cs ih =>
    have hkept : c :: unquoteFrom 0 cs = c :: cs ↔ EscapeFree cs := by
      rw [List.cons.injEq, and_iff_right rfl]
      exact ih
    unfold unquote unquoteFrom EscapeFree
    by_cases hc : c = '\\'
    · rw [if_pos hc, ← escape_eq_none_iff]
      cases hescape : escape cs with
      | none => simp [hkept]
      | some r =>
        -- the escape is shorter than its characters
        have hlt : (unquoteFrom r.2 cs).length < cs.length := by
          obtain ⟨n, d, ds, hn, rfl⟩ := escape_eq_some hescape
          rw [hn]
          exact Nat.lt_succ_of_le (length_unquoteFrom_le ds n)
        constructor
        · intro heq
          have hlength := congrArg List.length heq
          simp only [List.length_cons] at hlength
          omega
        · rintro ⟨hnone, -⟩
          exact absurd (hnone hc) (by simp)
    · rw [if_neg hc, hkept]
      simp [hc]

/-- A list of names is read back exactly when no name has a newline or a backslash that takes the next character with
it. -/
theorem names_unlines_iff (ls : List (List Char)) :
    names (unlines ls) = ls ↔ ∀ l ∈ ls, '\n' ∉ l ∧ EscapeFree l := by
  have hunquote : ls.map unquote = ls ↔ ∀ l ∈ ls, EscapeFree l := by
    calc ls.map unquote = ls ↔ ls.map unquote = ls.map id := by rw [List.map_id]
      _ ↔ ∀ l ∈ ls, unquote l = l := List.map_inj_left
      _ ↔ ∀ l ∈ ls, EscapeFree l := forall₂_congr fun l _ => unquote_eq_self_iff l
  constructor
  · intro h
    have hlength : (getLines (unlines ls)).length = ls.length := by
      rw [← List.length_map unquote]
      exact congrArg List.length h
    have hnl := (length_getLines_unlines_iff ls).2.1 hlength
    rw [names, getLines_unlines hnl, hunquote] at h
    exact fun l hl => ⟨hnl l hl, h l hl⟩
  · intro h
    rw [names, getLines_unlines fun l hl => (h l hl).1]
    exact hunquote.2 fun l hl => (h l hl).2

end TarList

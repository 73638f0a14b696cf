import Mathlib.Data.Char
import Mathlib.Data.List.Lex
import Mathlib.Data.List.Sort
import Mathlib.Data.Prod.Lex

/-!
# Paths

`std::filesystem::path` on POSIX: the native text, the elements that iterating the path yields, the order of `compare`,
and `operator/`.
-/

namespace R4R

/-- `fs::path`: its native text. -/
structure Path where
  native : List Char
deriving DecidableEq, Repr

namespace Path

/-- `is_absolute()`: the text starts with a separator. -/
def isAbsolute (p : Path) : Bool := p.native.head? == some '/'

/-- `has_filename()`: the text is not empty and does not end with a separator. -/
def hasFilename (p : Path) : Bool := !(p.native.isEmpty || p.native.getLast? == some '/')

/-- The file names: the non-empty texts between separators. -/
def filenames (p : Path) : List (List Char) := (p.native.splitOn '/').filter fun s => !s.isEmpty

/-- The elements that iterating the path yields: the root directory, the file names, and an empty element for a
trailing separator after a file name. -/
def parts (p : Path) : List (List Char) :=
  (if p.isAbsolute then [['/']] else []) ++ p.filenames ++
    (if !p.filenames.isEmpty && !p.hasFilename then [[]] else [])

/-- The non-empty elements of the path. -/
def components (p : Path) : List (List Char) := p.parts.filter fun s => !s.isEmpty

/-- What `compare` looks at: whether there is a root directory, and then the elements. -/
def compared (p : Path) : Bool ×ₗ List (List Char) := toLex (p.isAbsolute, p.parts)

/-- The order of `compare`, in which a path without root directory comes before every path with one. -/
instance : Preorder Path := Preorder.lift compared

instance : DecidableLE Path := fun p q => inferInstanceAs (Decidable (p.compared ≤ q.compared))

/-- `operator/`. -/
def append (p q : Path) : Path :=
  if q.isAbsolute then q
  else if p.hasFilename then ⟨p.native ++ '/' :: q.native⟩
  else ⟨p.native ++ q.native⟩

instance : Div Path := ⟨append⟩

/-- One element in `lexically_normal`: the names kept so far, last first, and whether a separator follows them. -/
def normalStep (rooted : Bool) : List (List Char) × Bool → List Char → List (List Char) × Bool
  | (names, trailing), elem =>
    if elem = ['/'] then (names, trailing)
    else if elem = [] ∨ elem = ['.'] then (names, true)
    else if elem = ['.', '.'] then
      match names with
      | [] => if rooted then ([], false) else ([elem], false)
      | name :: rest => if name = ['.', '.'] then (elem :: names, false) else (rest, true)
    else (elem :: names, false)

/-- `lexically_normal()`. -/
def lexicallyNormal (p : Path) : Path :=
  if p.native.isEmpty then p
  else
    let (names, trailing) := p.parts.foldl (normalStep p.isAbsolute) ([], false)
    let slash := trailing && !names.isEmpty && names.head? != some ['.', '.']
    let text := ['/'].intercalate names.reverse ++ (if slash then ['/'] else [])
    if p.isAbsolute then ⟨'/' :: text⟩ else if names.isEmpty then ⟨['.']⟩ else ⟨text⟩

/-- The path with the given text. -/
def ofString (s : String) : Path := ⟨s.toList⟩

/-! ### Elements and text -/

private theorem mem_splitOn {c : Char} (hc : c ≠ '/') (l : List Char) : (∃ s ∈ l.splitOn '/', c ∈ s) ↔ c ∈ l := by
  induction l with
  | nil => simp
  | cons x l ih =>
    rw [List.splitOn_cons_eq_if_modifyHead, List.mem_cons, ← ih]
    by_cases hx : x = '/'
    · simp [hx, hc]
    · obtain ⟨s, ss, hs⟩ := List.exists_cons_of_ne_nil (List.splitOn_ne_nil '/' l)
      simp [hx, hs, or_assoc]

/-- The last piece of a split text is the text after the last separator. -/
private theorem splitOn_eq_concat (l : List Char) : ∃ init seg, l.splitOn '/' = init ++ [seg] ∧
    (init = [] ∧ l = seg ∨ init ≠ [] ∧ ∃ pre, l = pre ++ '/' :: seg) := by
  induction l with
  | nil => exact ⟨[], [], rfl, .inl ⟨rfl, rfl⟩⟩
  | cons x l ih =>
    obtain ⟨init, seg, hsplit, hor⟩ := ih
    rw [List.splitOn_cons_eq_if_modifyHead, hsplit]
    by_cases hx : x = '/'
    · subst hx
      refine ⟨[] :: init, seg, by simp, .inr ⟨by simp, ?_⟩⟩
      rcases hor with ⟨-, rfl⟩ | ⟨-, pre, rfl⟩
      · exact ⟨[], rfl⟩
      · exact ⟨'/' :: pre, rfl⟩
    · have hb : (x == '/') = false := by simpa using hx
      rcases hor with ⟨rfl, rfl⟩ | ⟨hne, pre, rfl⟩
      · exact ⟨[], x :: l, by simp [hb], .inl ⟨rfl, rfl⟩⟩
      · obtain ⟨s, ss, rfl⟩ := List.exists_cons_of_ne_nil hne
        exact ⟨(x :: s) :: ss, seg, by simp [hb], .inr ⟨by simp, x :: pre, rfl⟩⟩

/-- Apart from the separator the elements have the characters of the text. -/
theorem mem_parts {c : Char} (hc : c ≠ '/') (p : Path) : (∃ s ∈ p.parts, c ∈ s) ↔ c ∈ p.native := by
  rw [← mem_splitOn hc]
  unfold parts filenames
  constructor
  · rintro ⟨s, hs, hcs⟩
    simp only [List.mem_append, List.mem_filter] at hs
    rcases hs with (hs | hs) | hs
    · split at hs
      · obtain rfl := List.mem_singleton.1 hs
        exact absurd (List.mem_singleton.1 hcs) hc
      · cases hs
    · exact ⟨s, hs.1, hcs⟩
    · split at hs
      · obtain rfl := List.mem_singleton.1 hs
        cases hcs
      · cases hs
  · rintro ⟨s, hs, hcs⟩
    refine ⟨s, ?_, hcs⟩
    have hne : s ≠ [] := List.ne_nil_of_mem hcs
    simp [hs, hne]

private theorem getLast?_parts_of_native {c : Char} (hc : c ≠ '/') {p : Path} (h : p.native.getLast? = some c) :
    ∃ s, p.parts.getLast? = some s ∧ s.getLast? = some c := by
  obtain ⟨init, seg, hsplit, hor⟩ := splitOn_eq_concat p.native
  have hseg : seg.getLast? = some c := by
    rcases hor with ⟨-, heq⟩ | ⟨-, pre, heq⟩
    · rw [← heq]
      exact h
    · rw [heq] at h
      cases seg with
      | nil => exact absurd (by simpa using h.symm) hc
      | cons d seg => simpa using h
  have hne : seg ≠ [] := by
    rintro rfl
    cases hseg
  have hfile : p.hasFilename = true := by
    have hnil : p.native ≠ [] := by
      intro he
      rw [he] at h
      cases h
    simp [hasFilename, hnil, h, hc]
  refine ⟨seg, ?_, hseg⟩
  have hlast : p.filenames = init.filter (fun s => !s.isEmpty) ++ [seg] := by
    unfold filenames
    rw [hsplit]
    simp [hne]
  unfold parts
  rw [hfile, hlast]
  simp

/-- The last character of the text, when it is no separator, is that of the last element. -/
theorem getLast?_parts {c : Char} (hc : c ≠ '/') (p : Path) :
    (∃ s, p.parts.getLast? = some s ∧ s.getLast? = some c) ↔ p.native.getLast? = some c := by
  constructor
  · rintro ⟨s, hs, hsc⟩
    cases hd : p.native.getLast? with
    | none =>
      have hnil : p.native = [] := by simpa using hd
      simp [parts, filenames, isAbsolute, hnil] at hs
    | some d =>
      by_cases hslash : d = '/'
      · -- the last element is empty or the root directory
        subst hslash
        exfalso
        have hnofile : p.hasFilename = false := by simp [hasFilename, hd]
        unfold parts at hs
        rw [hnofile] at hs
        by_cases hf : p.filenames = []
        · rw [hf] at hs
          by_cases habs : p.isAbsolute = true
          · rw [if_pos habs] at hs
            obtain rfl : ['/'] = s := by simpa using hs
            exact hc (by simpa using hsc.symm)
          · rw [if_neg habs] at hs
            simp at hs
        · obtain rfl : [] = s := by simpa [hf] using hs
          cases hsc
      · obtain ⟨s', hs', hsd⟩ := getLast?_parts_of_native hslash hd
        rw [hs] at hs'
        obtain rfl := Option.some.inj hs'
        rw [← hsc, hsd]
  · exact getLast?_parts_of_native hc

example : [ofString "/d/l", ofString "f", ofString "/d"].insertionSort (· ≤ ·) =
    [ofString "f", ofString "/d", ofString "/d/l"] := by decide

example : (ofString "/usr//lib/R/").parts = [['/'], "usr".toList, "lib".toList, ['R'], []] := by decide

example : (ofString "/usr/./lib//R/../site/.").lexicallyNormal = ofString "/usr/lib/site/" := by decide

end Path

end R4R

import Mathlib.Data.List.ModifyLast
import R4R.Lib.Except
import R4R.Lib.Lines

/-!
# The manifest format

`LinePrefixingFilter` and `ManifestFormat`: named sections of indented lines, with comments up to the end of the line.
-/

namespace R4R

open Lines

/-- `LinePrefixingFilter`, with the text that it has passed on. -/
structure LinePrefixingFilter where
  linePrefix : List Char
  atNl : Bool := true
  dst : List Char := []

/-- `LinePrefixingFilter::operator()`. -/
def LinePrefixingFilter.put (f : LinePrefixingFilter) (c : Char) : LinePrefixingFilter :=
  let dst := if f.atNl then f.dst ++ f.linePrefix else f.dst
  { f with atNl := c == '\n', dst := dst ++ [c] }

/-- What `with_prefixed_ostream` lets through of a text. -/
def withPrefixedOstream (linePrefix text : List Char) : List Char :=
  (text.foldl LinePrefixingFilter.put { linePrefix := linePrefix }).dst

private theorem foldl_put_line {l : List Char} (h : '\n' ∉ l) : ∀ f : LinePrefixingFilter,
    l.foldl LinePrefixingFilter.put f =
      { f with
        atNl := f.atNl && l.isEmpty
        dst := f.dst ++ (if f.atNl && !l.isEmpty then f.linePrefix else []) ++ l } := by
  induction l with
  | nil => intro f; simp
  | cons c l ih =>
    intro f
    rw [List.mem_cons, not_or] at h
    have hc : (c == '\n') = false := by simpa using fun he : c = '\n' => h.1 he.symm
    rw [List.foldl_cons, ih h.2]
    cases hat : f.atNl <;> simp [LinePrefixingFilter.put, hc, hat]

private theorem foldl_put_lines {ls : List (List Char)} (h : ∀ l ∈ ls, '\n' ∉ l) (linePrefix : List Char) :
    ∀ dst, (unlines ls).foldl LinePrefixingFilter.put ⟨linePrefix, true, dst⟩ =
      ⟨linePrefix, true, dst ++ unlines (ls.map (linePrefix ++ ·))⟩ := by
  induction ls with
  | nil => intro dst; simp
  | cons l ls ih =>
    intro dst
    rw [unlines_cons, List.foldl_append, List.foldl_cons, foldl_put_line (h l (by simp))]
    have hput : LinePrefixingFilter.put ⟨linePrefix, true && l.isEmpty,
        dst ++ (if true && !l.isEmpty then linePrefix else []) ++ l⟩ '\n' =
        ⟨linePrefix, true, dst ++ (linePrefix ++ l ++ ['\n'])⟩ := by
      cases l <;> simp [LinePrefixingFilter.put]
    rw [hput, ih fun l' hl' => h l' (by simp [hl'])]
    simp

/-- Every line gets the prefix. -/
theorem withPrefixedOstream_unlines {ls : List (List Char)} (h : ∀ l ∈ ls, '\n' ∉ l) (linePrefix : List Char) :
    withPrefixedOstream linePrefix (unlines ls) = unlines (ls.map (linePrefix ++ ·)) := by
  rw [withPrefixedOstream, foldl_put_lines h]
  rfl

/-- A last line without a newline gets the prefix too. -/
theorem withPrefixedOstream_unlines_append {ls : List (List Char)} (h : ∀ l ∈ ls, '\n' ∉ l) {l : List Char}
    (hl : '\n' ∉ l) (hne : l ≠ []) (linePrefix : List Char) :
    withPrefixedOstream linePrefix (unlines ls ++ l) = unlines (ls.map (linePrefix ++ ·)) ++ linePrefix ++ l := by
  rw [withPrefixedOstream, List.foldl_append, foldl_put_lines h, foldl_put_line hl]
  simp [hne]

/-- `ManifestFormat::Section`. -/
structure Section where
  name : List Char
  content : List Char
deriving DecidableEq, Repr

/-- `ManifestFormat`. -/
structure ManifestFormat where
  preamble : List Char := []
  sections : List Section := []
deriving DecidableEq, Repr

/-- The exceptions of `ManifestFormat`. -/
inductive FormatError where
  | invalidArgument (what : List Char)
  | runtimeError (what : List Char)
deriving DecidableEq, Repr

namespace ManifestFormat

def comment : Char := '#'
def prefixedComment : List Char := "# ".toList

def isValidSectionName (name : List Char) : Bool :=
  match name with
  | [] => false
  | c :: _ => (c.isAlpha || c == '_') && name.all fun ch => ch.isAlphanum || ch == '_'

def isSectionHeader (line : List Char) : Bool :=
  line.getLast? == some ':' && isValidSectionName line.dropLast

def getSection (f : ManifestFormat) (name : List Char) : Option Section := f.sections.find? (·.name = name)

def addSection (f : ManifestFormat) (s : Section) : Except FormatError ManifestFormat :=
  if !isValidSectionName s.name then .error (.invalidArgument ("Invalid section name: ".toList ++ s.name))
  else if (f.getSection s.name).isSome then
    .error (.runtimeError ("section: ".toList ++ s.name ++ " already exists".toList))
  else .ok { f with sections := f.sections ++ [s] }

/-- `ManifestFormat::write`. -/
def write (f : ManifestFormat) : List Char :=
  (if f.preamble.isEmpty then [] else withPrefixedOstream prefixedComment f.preamble ++ "\n\n".toList) ++
    f.sections.flatMap fun s =>
      s.name ++ [':', '\n'] ++ withPrefixedOstream "  ".toList s.content ++ "\n\n".toList

/-- A line without its comment and the white space at its ends. -/
def stripLine (line : List Char) : List Char := trim (line.takeWhile (· ≠ comment))

/-- A line put to the content of the current section. -/
def appendLine (line : List Char) (s : Section) : Section :=
  let content := if s.content.isEmpty then s.content else s.content ++ ['\n']
  if line.head? = some comment then { s with content := content }
  else if comment ∈ line then { s with content := content ++ stripLine line }
  else { s with content := content ++ line }

/-- The body of the loop of `operator>>`; `inSection` tells whether `section` points to the last section. -/
def readLine (st : ManifestFormat × Bool) (line : List Char) : Except FormatError (ManifestFormat × Bool) :=
  let (f, inSection) := st
  let line := stripLine line
  if line.isEmpty then .ok (f, inSection)
  else if isSectionHeader line then do
    let f ← f.addSection ⟨line.dropLast, []⟩
    return (f, true)
  else if !inSection then
    .error (.runtimeError ("Content line encountered before any section header: ".toList ++ line))
  else .ok ({ f with sections := f.sections.modifyLast (appendLine line) }, true)

/-- `operator>>`. -/
def read (f : ManifestFormat) (text : List Char) : Except FormatError ManifestFormat := do
  let (f, _) ← (getLines text).foldlM readLine (f, false)
  return f

end ManifestFormat

end R4R

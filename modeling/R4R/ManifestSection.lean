import Mathlib.Data.Char
import Mathlib.Data.List.Lex
import Mathlib.Data.List.Sort
import R4R.Lib.Emplace
import R4R.ManifestFormat
import R4R.Path

/-!
# The copy section of a manifest

`CopyFilesManifestSection`, and `load_manifest` and `save_manifest` of `EditManifestTask`.  Two paths are the same key
of `copy_files` when their elements are the same.
-/

namespace R4R

open Lines

/-- `FileStatus`. -/
inductive FileStatus where
  | copy
  | result
  | ignoreDidNotExistBefore
  | ignoreNoLongerExist
  | ignoreNotAccessible
  | ignoreDirectory
deriving DecidableEq, Repr

/-- `operator<<`. -/
def FileStatus.text : FileStatus → List Char
  | copy => "Copy".toList
  | result => "Result file".toList
  | ignoreDidNotExistBefore => "Ignore, did not exist before".toList
  | ignoreNoLongerExist => "Ignore, no longer exists".toList
  | ignoreNotAccessible => "Ignore, not accessible".toList
  | ignoreDirectory => "Ignore, it is a directory".toList

/-- `Manifest::Files`, in the iteration order of the hash table. -/
structure Files where
  entries : List (Path × FileStatus)
  nodup : (entries.map fun e => e.1.parts).Nodup

namespace Files

def empty : Files := ⟨[], List.nodup_nil⟩

def emplace (f : Files) (path : Path) (status : FileStatus) : Files :=
  ⟨Emplace.emplace (fun e => e.1.parts) f.entries (path, status), Emplace.nodup_emplace f.nodup⟩

end Files

/-- `Manifest`, as far as its sections use it. -/
structure Manifest where
  copyFiles : Files

/-- `ManifestSection`: `save` writes nothing and returns false, or it writes a text. -/
structure ManifestSection where
  name : List Char
  load : List Char → Manifest → Manifest
  save : Manifest → Option (List Char)

namespace CopyFilesManifestSection

/-- `string_trim(line.substr(1))`, without the quotes if there are some. -/
def pathOfLine (line : List Char) : Option Path :=
  let line := trim (line.drop 1)
  if line.head? = some '"' then
    if line.getLast? = some '"' then some ⟨(line.drop 1).take (line.length - 2)⟩ else none
  else some ⟨line⟩

/-- The body of the loop of `load`. -/
def loadLine (files : Files) (line : List Char) : Files :=
  let status := if line.head? = some 'C' then some FileStatus.copy
    else if line.head? = some 'R' then some FileStatus.result else none
  match status with
  | none => files
  | some status =>
    match pathOfLine line with
    | none => files
    | some path => files.emplace path status

/-- `CopyFilesManifestSection::load`. -/
def load (text : List Char) (m : Manifest) : Manifest :=
  { m with copyFiles := (getLines text).foldl loadLine .empty }

def helpLines : List (List Char) :=
  ["The following files have not been resolved.".toList, "# - ignores the file.".toList,
   "C - marks the file to be copied into the image.".toList, "R - marks the file as a result file.".toList]

/-- The lines that `save` writes for a file. -/
def fileText (e : Path × FileStatus) : List Char :=
  match e.2 with
  | .copy => "C ".toList ++ e.1.native ++ ['\n']
  | .result => "R ".toList ++ e.1.native ++ ['\n']
  | .ignoreNoLongerExist => []
  | status => [ManifestFormat.comment, ' '] ++ e.1.native ++ [' ', ManifestFormat.comment, ' '] ++ status.text ++ ['\n']

/-- `std::sort` by path. -/
def sortedFiles (files : Files) : List (Path × FileStatus) :=
  files.entries.insertionSort fun a b => a.1 ≤ b.1

/-- `CopyFilesManifestSection::save`. -/
def save (m : Manifest) : Option (List Char) :=
  if m.copyFiles.entries.isEmpty then none
  else some (withPrefixedOstream ManifestFormat.prefixedComment (unlines helpLines) ++
    (sortedFiles m.copyFiles).flatMap fileText)

def asSection : ManifestSection := ⟨"copy".toList, load, save⟩

end CopyFilesManifestSection

namespace EditManifestTask

/-- `sections_` -/
def sections : List ManifestSection := [CopyFilesManifestSection.asSection]

def preambleLine₁ : List Char := "This is the manifest file generated by R4R.".toList

def preambleLine₂ : List Char :=
  "You can update its content by either adding or removing/commenting lines in the corresponding sections.".toList

def preamble : List Char := unlines [preambleLine₁] ++ preambleLine₂

/-- `EditManifestTask::load_manifest`. -/
def loadManifest (text : List Char) (m : Manifest) : Except FormatError Manifest := do
  let format ← ManifestFormat.read {} text
  return sections.foldl (fun m s =>
    match format.getSection s.name with
    | none => m
    | some input => s.load input.content m) m

/-- The sections with content are added to the format. -/
def addSections (m : Manifest) : ManifestFormat × Bool → ManifestSection → Except FormatError (ManifestFormat × Bool)
  | (format, anyContent), s =>
    match s.save m with
    | none => .ok (format, anyContent)
    | some content => do
      let format ← format.addSection ⟨s.name, content⟩
      return (format, true)

/-- `EditManifestTask::save_manifest`: what is written, and whether there was any content. -/
def saveManifest (m : Manifest) : Except FormatError (List Char × Bool) := do
  let (format, anyContent) ← sections.foldlM (addSections m) ({ preamble := preamble }, false)
  return (if anyContent then format.write else [], anyContent)

end EditManifestTask

end R4R

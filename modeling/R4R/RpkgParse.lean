import R4R.Lib.Emplace
import R4R.RpkgDatabase
import R4R.Util

/-!
# Parsing the installed packages

`RpkgDatabase::from_stream`: one package a line, the first of each name, and at the end only the dependencies that are
in the database.
-/

namespace R4R

open Lines

namespace RpkgDatabase

/-- `std::set::insert`, into a list in iteration order. -/
def insertName (name : String) (target : List String) : List String :=
  if name ∈ target then target else target.orderedInsert (· ≤ ·) name

/-- The name that the lambda `dep` of `parse_dependency_field` inserts, if it does. -/
def dependencyName (tmp : List Char) : Option (List Char) :=
  if tmp.isEmpty then none
  else
    let name := trim ((trim tmp).takeWhile fun x => !(x == '(' || isSpace x))
    if name.isEmpty || name == "R".toList then none else some name

/-- The lambda `dep`. -/
def addDependency (tmp : List Char) (target : List String) : List String :=
  match dependencyName tmp with
  | none => target
  | some name => insertName (String.ofList name) target

/-- The loop of `parse_dependency_field`, when `tmp` has been read of an entry. -/
def dependencyLoop (tmp : List Char) : List Char → List String → List String
  | [], target => addDependency tmp target
  | c :: cs, target =>
    if c = ',' then dependencyLoop [] cs (addDependency tmp target) else dependencyLoop (tmp ++ [c]) cs target

/-- `RpkgDatabase::parse_dependency_field`. -/
def parseDependencyField (field : List Char) (target : List String) : List String :=
  if field = "NA".toList then target else dependencyLoop [] field target

/-- `RpkgDatabase::parse_github_repo`. -/
def parseGithubRepo (org name ref : List Char) : Option GitHub :=
  if org.isEmpty || org == "NA".toList then none
  else if name.isEmpty || name == "NA".toList then none
  else
    let r := if ref.isEmpty || ref == "NA".toList then "HEAD".toList else ref
    some ⟨String.ofList org, String.ofList name, String.ofList r⟩

/-- The package of a line that is split into its fields, unless it is skipped. -/
def packageOfFields : List (List Char) → Option RPackage
  | [name, libPath, version, depends, imports, linkingTo, priority, compilation, repoType, rOrg, rName, ref] =>
    let pkg (repository : Repository) : RPackage :=
      { name := String.ofList name
        libPath := ⟨libPath⟩
        version := String.ofList version
        dependencies := parseDependencyField linkingTo (parseDependencyField imports (parseDependencyField depends []))
        isBase := priority == "base".toList
        needsCompilation := compilation == "yes".toList
        repository := repository }
    if stringIequals repoType "github".toList then
      (parseGithubRepo rOrg rName ref).map fun gh => pkg (.gitHub gh)
    else some (pkg .cran)
  | _ => none

/-- One turn of the loop of `parse_r_packages`. -/
def parseLine (line : List Char) : Option RPackage :=
  let line := trim line
  if line.isEmpty then none else (stringSplitN 12 line kDelimUtf8).bind packageOfFields

/-- `packages.emplace` of the package of a line. -/
def addLine (packages : List RPackage) (line : List Char) : List RPackage :=
  match parseLine line with
  | none => packages
  | some pkg => Emplace.emplace RPackage.name packages pkg

/-- The loop of `parse_r_packages`. -/
def parseLines (text : List Char) : List RPackage := (getLines text).foldl addLine []

/-- The dependencies that are among the packages. -/
def pruned (packages : List RPackage) (pkg : RPackage) : RPackage :=
  { pkg with dependencies := pkg.dependencies.filter fun dep => dep ∈ packages.map RPackage.name }

private theorem addLine_eq (packages : List RPackage) (line : List Char) :
    addLine packages line = (parseLine line).toList.foldl (Emplace.emplace RPackage.name) packages := by
  unfold addLine
  cases parseLine line with
  | none => rfl
  | some pkg => rfl

theorem parseLines_eq (text : List Char) :
    parseLines text = ((getLines text).filterMap parseLine).foldl (Emplace.emplace RPackage.name) [] := by
  have hfold : ∀ (lines : List (List Char)) (packages : List RPackage), lines.foldl addLine packages =
      (lines.filterMap parseLine).foldl (Emplace.emplace RPackage.name) packages := by
    intro lines
    induction lines with
    | nil => exact fun packages => rfl
    | cons line lines ih =>
      intro packages
      rw [List.foldl_cons, ih, addLine_eq]
      cases h : parseLine line with
      | none => rw [List.filterMap_cons_none h]; rfl
      | some pkg => rw [List.filterMap_cons_some h]; rfl
  exact hfold _ _

private theorem nodup_parseLines (text : List Char) : ((parseLines text).map RPackage.name).Nodup := by
  rw [parseLines_eq]
  exact Emplace.nodup_foldl_emplace _ List.nodup_nil

/-- `RpkgDatabase::from_stream`. -/
def fromStream (text : List Char) : RpkgDatabase where
  packages := (parseLines text).map (pruned (parseLines text))
  nodup := by
    rw [List.map_map]
    exact nodup_parseLines text

/-- The database has the name exactly when it is the name of a parsed package. -/
theorem isSome_find_fromStream (text : List Char) (n : String) :
    ((fromStream text).find n).isSome = true ↔ n ∈ (parseLines text).map RPackage.name := by
  simp only [find, fromStream, List.find?_isSome, List.mem_map, beq_iff_eq]
  constructor
  · rintro ⟨p, ⟨q, hq, rfl⟩, hn⟩
    exact ⟨q, hq, hn⟩
  · rintro ⟨q, hq, hn⟩
    exact ⟨_, ⟨q, hq, rfl⟩, hn⟩

end RpkgDatabase

end R4R

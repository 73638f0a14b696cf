import R4R.DpkgDatabase
import R4R.Lib.Lines

/-!
# The listing of dpkg

`parse_dpkg_list_output`.  It keeps the rows with the status `ii`, but a package is installed when the second letter of
its status is `i`, whatever the first and the third one are.  So a package that is on hold is missed, and the packages
are the installed ones exactly when no row is missed that comes first (`installed_iff`).
-/

namespace R4R

open Lines

/-- `DebPackages`, in the iteration order of the hash table. -/
abbrev DebPackages := Emplace.Table DebPackage.name

/-- The first three columns of a row. -/
structure DpkgRow where
  status : List Char
  name : List Char
  version : List Char

namespace DpkgRow

def package (row : DpkgRow) : DebPackage := ⟨String.ofList row.name, String.ofList row.version⟩

/-- The second letter of the status is the state that the package is in. -/
def isInstalled (row : DpkgRow) : Bool := row.status[1]? == some 'i'

end DpkgRow

/-- `line_stream >> status >> std::ws >> name >> std::ws >> version` -/
def parseDpkgRow (line : List Char) : Option DpkgRow := do
  let (status, rest) ← readWord line
  let (name, rest) ← readWord rest
  let (version, _) ← readWord rest
  return ⟨status, name, version⟩

/-- The first loop of `parse_dpkg_list_output`: the lines behind the header. -/
def skipHeader : List (List Char) → List (List Char)
  | [] => []
  | line :: lines => if "+++-".toList.isPrefixOf line then lines else skipHeader lines

/-- One turn of the second loop. -/
def addDpkgLine (packages : DebPackages) (line : List Char) : DebPackages :=
  match parseDpkgRow line with
  | some row => if row.status = "ii".toList then packages.emplace row.package else packages
  | none => packages

/-- `parse_dpkg_list_output`. -/
def parseDpkgListOutput (text : List Char) : DebPackages := (skipHeader (getLines text)).foldl addDpkgLine .empty

/-! ### What a listing says -/

/-- The row of a line with at least three columns. -/
def dpkgRow (line : List Char) : Option DpkgRow :=
  match words line with
  | status :: name :: version :: _ => some ⟨status, name, version⟩
  | _ => none

/-- The rows behind the header. -/
def dpkgRows (text : List Char) : List DpkgRow := (skipHeader (getLines text)).filterMap dpkgRow

/-- Under every name is the package of the first row that says it is installed, and there are no other ones. -/
def AreInstalled (packages : DebPackages) (rows : List DpkgRow) : Prop :=
  ∀ name, packages.elems.find? (fun pkg => pkg.name = name) =
    (rows.find? fun row => row.isInstalled ∧ row.package.name = name).map DpkgRow.package

private theorem parseDpkgRow_eq (line : List Char) : parseDpkgRow line = dpkgRow line := by
  unfold parseDpkgRow dpkgRow
  rw [words_eq line]
  cases readWord line with
  | none => rfl
  | some first =>
    simp only [Option.bind_eq_bind, Option.bind_some]
    rw [words_eq first.2]
    cases readWord first.2 with
    | none => rfl
    | some second =>
      simp only [Option.bind_some]
      rw [words_eq second.2]
      cases readWord second.2 <;> rfl

/-- The packages of the rows with the status `ii` are put in one after another. -/
private theorem elems_parseDpkgListOutput (text : List Char) : (parseDpkgListOutput text).elems =
    (((dpkgRows text).filter fun row => row.status = "ii".toList).map DpkgRow.package).foldl
      (Emplace.emplace DebPackage.name) [] := by
  have hfold : ∀ (lines : List (List Char)) (packages : DebPackages), (lines.foldl addDpkgLine packages).elems =
      (((lines.filterMap dpkgRow).filter fun row => row.status = "ii".toList).map DpkgRow.package).foldl
        (Emplace.emplace DebPackage.name) packages.elems := by
    intro lines
    induction lines with
    | nil => exact fun packages => rfl
    | cons line lines ih =>
      intro packages
      rw [List.foldl_cons, ih, addDpkgLine, parseDpkgRow_eq]
      cases hrow : dpkgRow line with
      | none => rw [List.filterMap_cons_none hrow]
      | some row =>
        rw [List.filterMap_cons_some hrow]
        by_cases hstatus : row.status = "ii".toList
        · rw [List.filter_cons_of_pos (by simpa using hstatus), List.map_cons, List.foldl_cons]
          simp only [hstatus, if_true]
          rfl
        · rw [List.filter_cons_of_neg (by simpa using hstatus)]
          simp only [hstatus, if_false]
  exact hfold _ _

/-- What is found under a name. -/
private theorem find?_parseDpkgListOutput (text : List Char) (name : String) :
    (parseDpkgListOutput text).elems.find? (fun pkg => pkg.name = name) =
      ((dpkgRows text).find? fun row => row.status = "ii".toList ∧ row.package.name = name).map DpkgRow.package := by
  rw [elems_parseDpkgListOutput, Emplace.find?_foldl_emplace, List.nil_append, List.find?_map, List.find?_filter]
  simp

/-- A row that says its package is installed, and is the first such row of its name, has the status `ii`, or it is
followed by one with the status `ii`, of the same name and version. -/
def NoneMissed (rows : List DpkgRow) : Prop :=
  ∀ first row rest, rows = first ++ row :: rest → row.isInstalled = true →
    (∀ row' ∈ first, row'.isInstalled = true → row'.package.name ≠ row.package.name) → row.status ≠ "ii".toList →
      ∃ row', rest.find? (fun row' => row'.status = "ii".toList ∧ row'.package.name = row.package.name) = some row' ∧
        row'.package.version = row.package.version

private theorem isInstalled_of_status {row : DpkgRow} (h : row.status = "ii".toList) : row.isInstalled = true := by
  rw [DpkgRow.isInstalled, h]
  rfl

/-- No row before the first installed one has the status `ii`. -/
private theorem find?_first_eq_none {first : List DpkgRow} {name : String}
    (h : ∀ row ∈ first, row.isInstalled = true → row.package.name ≠ name) :
    first.find? (fun row => row.status = "ii".toList ∧ row.package.name = name) = none := by
  rw [List.find?_eq_none]
  intro row hrow hii
  obtain ⟨hii, hname⟩ := of_decide_eq_true hii
  exact h row hrow (isInstalled_of_status hii) hname

private theorem find?_eq_of_first {first rest : List DpkgRow} {row : DpkgRow} {name : String}
    (hfirst : ∀ row' ∈ first, row'.isInstalled = true → row'.package.name ≠ name) (hstatus : row.status ≠ "ii".toList) :
    (first ++ row :: rest).find? (fun row' => row'.status = "ii".toList ∧ row'.package.name = name) =
      rest.find? fun row' => row'.status = "ii".toList ∧ row'.package.name = name := by
  rw [List.find?_append, find?_first_eq_none hfirst, Option.none_or,
    List.find?_cons_of_neg fun hii => hstatus (of_decide_eq_true hii).1]

/-- The packages are the installed ones exactly when no row is missed. -/
theorem installed_iff (text : List Char) :
    AreInstalled (parseDpkgListOutput text) (dpkgRows text) ↔ NoneMissed (dpkgRows text) := by
  unfold AreInstalled
  simp only [find?_parseDpkgListOutput]
  generalize dpkgRows text = rows
  constructor
  · rintro h first row rest rfl hinstalled hfirst hstatus
    have hname := h row.package.name
    have hnone : first.find? (fun row' => row'.isInstalled ∧ row'.package.name = row.package.name) = none := by
      rw [List.find?_eq_none]
      intro row' hrow' hboth
      obtain ⟨hrow, heq⟩ := of_decide_eq_true hboth
      exact hfirst row' hrow' hrow heq
    rw [find?_eq_of_first hfirst hstatus, List.find?_append, hnone, Option.none_or,
      List.find?_cons_of_pos (by simp [hinstalled]), Option.map_some] at hname
    obtain ⟨row', hfind, hpackage⟩ := Option.map_eq_some_iff.1 hname
    exact ⟨row', hfind, congrArg DebPackage.version hpackage⟩
  · intro h name
    cases hfind : rows.find? fun row => row.isInstalled ∧ row.package.name = name with
    | none =>
      have hnone : rows.find? (fun row => row.status = "ii".toList ∧ row.package.name = name) = none := by
        rw [List.find?_eq_none] at hfind ⊢
        intro row hrow hii
        obtain ⟨hii, hname⟩ := of_decide_eq_true hii
        exact hfind row hrow (decide_eq_true ⟨isInstalled_of_status hii, hname⟩)
      rw [hnone]
    | some row =>
      obtain ⟨hrow, first, rest, rfl, hfirst⟩ := List.find?_eq_some_iff_append.1 hfind
      obtain ⟨hinstalled, rfl⟩ := of_decide_eq_true hrow
      have hfirst' : ∀ row' ∈ first, row'.isInstalled = true → row'.package.name ≠ row.package.name := by
        intro row' hrow' hinst hname
        have hno := hfirst row' hrow'
        rw [Bool.not_eq_true', decide_eq_false_iff_not] at hno
        exact hno ⟨hinst, hname⟩
      by_cases hstatus : row.status = "ii".toList
      · rw [List.find?_append, find?_first_eq_none hfirst', Option.none_or,
          List.find?_cons_of_pos (by simpa using hstatus)]
      · obtain ⟨row', hrest, hversion⟩ := h first row rest rfl hinstalled hfirst' hstatus
        have hfound := List.find?_some hrest
        rw [decide_eq_true_eq] at hfound
        have hpackage : row'.package = row.package := by
          cases hpkg : row'.package with
          | mk name version =>
            rw [hpkg] at hfound hversion
            rw [show name = row.package.name from hfound.2, show version = row.package.version from hversion]
        rw [find?_eq_of_first hfirst' hstatus, hrest, Option.map_some, Option.map_some, hpackage]

/-- A listing with a package that is on hold. -/
def holdListing : List Char :=
  "||/ Name Version Architecture Description\n+++-====-=======-============-===\nhi  vim 2:9.1 amd64 editor\n".toList

theorem not_areInstalled_hold : (parseDpkgListOutput holdListing).elems = [] ∧
    ((dpkgRows holdListing).map fun row => (row.isInstalled, row.package)) = [(true, ⟨"vim", "2:9.1"⟩)] ∧
    ¬ AreInstalled (parseDpkgListOutput holdListing) (dpkgRows holdListing) := by
  rw [show holdListing = _ from String.toList_ofList]
  refine ⟨by decide +kernel, by decide +kernel, fun h => ?_⟩
  exact absurd (h "vim") (by decide +kernel)

end R4R

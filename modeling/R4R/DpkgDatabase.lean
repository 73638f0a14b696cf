import R4R.FileSystemTrie
import R4R.ManifestSection
import R4R.RpkgDatabase

/-!
# The dpkg database

`DebPackage`, the lookups of `DpkgDatabase`, and the parts of a manifest that name packages.
-/

namespace R4R

/-- `DebPackage`. -/
structure DebPackage where
  name : String
  version : String
deriving DecidableEq, Repr

/-- `DpkgDatabase`: `packages_` holds each package under its own name, `files_` the package of each listed file. -/
structure DpkgDatabase where
  packages : List DebPackage
  nodup : (packages.map DebPackage.name).Nodup
  files : FileSystemTrie DebPackage

namespace DpkgDatabase

def kDpkgArch : String := "amd64"

/-- `packages_.find`. -/
def find (db : DpkgDatabase) (name : String) : Option DebPackage := db.packages.find? fun p => p.name == name

/-- `DpkgDatabase::lookup_by_name`: the name, or its multiarch name. -/
def lookupByName (db : DpkgDatabase) (name : String) : Option DebPackage :=
  (db.find name).orElse fun _ => db.find (name ++ ":" ++ kDpkgArch)

/-- `DpkgDatabase::lookup_by_path`. -/
def lookupByPath (db : DpkgDatabase) (path : Path) : Option DebPackage := db.files.find path

end DpkgDatabase

/-- `Manifest` with the parts that the resolvers fill; a set is the list of its elements. -/
structure TraceManifest extends Manifest where
  symlinks : List Path := []
  rPackages : List RPackage := []
  debPackages : List DebPackage := []

namespace TraceManifest

/-- `r_packages.insert` -/
def insertRPackage (m : TraceManifest) (pkg : RPackage) : TraceManifest :=
  { m with rPackages := Emplace.emplace id m.rPackages pkg }

/-- `deb_packages.insert` -/
def insertDebPackage (m : TraceManifest) (pkg : DebPackage) : TraceManifest :=
  { m with debPackages := Emplace.emplace id m.debPackages pkg }

@[simp] theorem mem_rPackages_insertRPackage {m : TraceManifest} {pkg p : RPackage} :
    p ∈ (m.insertRPackage pkg).rPackages ↔ p ∈ m.rPackages ∨ p = pkg := Emplace.mem_emplace_id

@[simp] theorem mem_debPackages_insertDebPackage {m : TraceManifest} {pkg p : DebPackage} :
    p ∈ (m.insertDebPackage pkg).debPackages ↔ p ∈ m.debPackages ∨ p = pkg := Emplace.mem_emplace_id

theorem insertRPackage_of_mem {m : TraceManifest} {pkg : RPackage} (h : pkg ∈ m.rPackages) :
    m.insertRPackage pkg = m := by
  rw [insertRPackage, Emplace.emplace_of_mem (by simpa using h)]

theorem insertDebPackage_of_mem {m : TraceManifest} {pkg : DebPackage} (h : pkg ∈ m.debPackages) :
    m.insertDebPackage pkg = m := by
  rw [insertDebPackage, Emplace.emplace_of_mem (by simpa using h)]

end TraceManifest

end R4R

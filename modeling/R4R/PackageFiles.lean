import R4R.FileSystemTrie
import R4R.RpkgDatabase

/-!
# The package of a file

`RpkgDatabase::files_`, the trie of the package directories `lib_path / name`, and `lookup_by_path`.
-/

namespace R4R

namespace RpkgDatabase

/-- The insertions of `build_files_db`, in the iteration order of the hash table. -/
def packageDirs (db : RpkgDatabase) (order : HashOrder RPackage) : List (Path × RPackage) :=
  (order.iterate db.packages).map fun pkg => (pkg.libPath / Path.ofString pkg.name, pkg)

/-- `RpkgDatabase::build_files_db`. -/
def buildFilesDb (db : RpkgDatabase) (order : HashOrder RPackage) : FileSystemTrie RPackage :=
  FileSystemTrie.ofInserts (db.packageDirs order)

/-- `RpkgDatabase::lookup_by_path`. -/
def lookupByPath (db : RpkgDatabase) (order : HashOrder RPackage) (path : Path) : Option RPackage :=
  (db.buildFilesDb order).findLastMatching path

/-- A file whose package is found lies below the directory of the package. -/
theorem isPrefix_of_lookupByPath {db : RpkgDatabase} {order : HashOrder RPackage} {path : Path} {pkg : RPackage}
    (h : db.lookupByPath order path = some pkg) :
    (pkg.libPath / Path.ofString pkg.name).components <+: path.components := by
  obtain ⟨-, dir, hdir, hprefix⟩ := FileSystemTrie.findLastMatching_eq_some h
  obtain ⟨pkg', -, heq⟩ := List.mem_map.1 hdir
  obtain ⟨rfl, rfl⟩ := Prod.mk.inj heq
  exact hprefix

end RpkgDatabase

namespace FileSystemTrie

/-- `find_last_matching` returns the value most recently inserted at the longest inserted prefix, and `lookup_by_path`
the package with the longest directory above the file, exactly when no inserted path makes a detour. -/
theorem findLastMatching_lookupByPath_iff {T : Type} [DecidableEq T] (inserts : List (Path × T)) (p : Path)
    (db : RpkgDatabase) (order : HashOrder RPackage) (file : Path) :
    (PrefixMap.IsLastMatch (entriesOf inserts) p.components ((ofInserts inserts).findLastMatching p) ↔
      PrefixMap.NoDetour (entriesOf inserts) p.components) ∧
    (PrefixMap.IsLastMatch (entriesOf (db.packageDirs order)) file.components (db.lookupByPath order file) ↔
      PrefixMap.NoDetour (entriesOf (db.packageDirs order)) file.components) :=
  ⟨findLastMatching_isLastMatch_iff inserts p, findLastMatching_isLastMatch_iff (db.packageDirs order) file⟩

example : (ofInserts [(.ofString "/dev", true), (.ofString "/dev/null", false)]).findLastMatching (.ofString "/dev/tty")
    = some true := by decide

/-- Between the inserted `/a` and `/a/b/c` lies a node without a value, and there the lookup of `/a/b/x` ends. -/
theorem findLastMatching_detour :
    ¬ PrefixMap.IsLastMatch (entriesOf [(.ofString "/a", 1), (.ofString "/a/b/c", 2)])
      (Path.components (.ofString "/a/b/x"))
      ((ofInserts [(.ofString "/a", 1), (.ofString "/a/b/c", 2)]).findLastMatching (.ofString "/a/b/x")) := by
  have hnone : (ofInserts [(.ofString "/a", 1), (.ofString "/a/b/c", 2)]).findLastMatching (.ofString "/a/b/x") =
      none := by decide
  rw [hnone]
  intro h
  exact h [['/'], ['a']] (by decide) (by decide)

end FileSystemTrie

end R4R

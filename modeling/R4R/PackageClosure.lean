import R4R.InstallationPlan
import R4R.RpkgParse

/-!
# Databases that are closed under dependencies

Whatever the text, `RpkgDatabase::from_stream` keeps only dependencies that are in the database, so every package that
`dfs_visit` looks for is found, and the search for a plan ends with a plan or with the cycle exception.
-/

namespace R4R

namespace RpkgDatabase

/-- A dependency of a package of the database is a package of the database. -/
private theorem exists_dependency_fromStream (text : List Char) {p : RPackage} (hp : p ∈ (fromStream text).packages)
    {d : String} (hd : d ∈ p.dependencies) :
    ∃ q ∈ (fromStream text).packages, (fromStream text).find d = some q ∧ q.name = d := by
  obtain ⟨p₀, -, rfl⟩ := List.mem_map.1 hp
  -- a dependency that is not pruned has the name of a parsed package
  obtain ⟨-, hname⟩ := List.mem_filter.1 hd
  have hsome := (isSome_find_fromStream text d).2 (of_decide_eq_true hname)
  obtain ⟨q, hfind⟩ := Option.isSome_iff_exists.1 hsome
  exact ⟨q, find_mem hfind, hfind, find_name hfind⟩

private theorem dependencyClosed_fromStream (text : List Char) : (fromStream text).DependencyClosed := by
  intro p hp d hd
  obtain ⟨q, -, hfind, -⟩ := exists_dependency_fromStream text hp hd
  rw [hfind]
  rfl

/-- The database of every text is closed under dependencies, and for every set of its packages the computation of the
plan returns or throws the cycle exception; in particular no `CHECK` of `dfs_visit` fails. -/
theorem fromStream_plan (text : List Char) :
    (∀ p ∈ (fromStream text).packages, ∀ d ∈ p.dependencies,
      ∃ q ∈ (fromStream text).packages, (fromStream text).find d = some q ∧ q.name = d) ∧
    ∀ S : List RPackage, (∀ p ∈ S, p ∈ (fromStream text).packages) →
      ∀ fuel, (fromStream text).packages.length ≤ fuel → ∀ order : HashOrder (Σ _ : RPackage, Nat),
        (∃ plan, (fromStream text).getInstallationPlan fuel order S = .ok plan) ∨
        ∃ d, (fromStream text).getInstallationPlan fuel order S = .error (.runtimeError (cycleMessage d)) :=
  ⟨fun _ hp _ hd => exists_dependency_fromStream text hp hd,
    fun _ hS _ hfuel order => (getInstallationPlan_cycle_iff (dependencyClosed_fromStream text) hS hfuel order).1⟩

/-- A package that depends on itself and on one that is missing, a line without fields, and the package again. -/
def selfText : List Char :=
  Lines.unlines [kDelimUtf8.intercalate ["A".toList, "/lib".toList, "1.0".toList, "A, B (>= 2)".toList, "NA".toList,
    "NA".toList, "NA".toList, "no".toList, "NA".toList, "NA".toList, "NA".toList, "NA".toList], "junk".toList]

theorem fromStream_plan_self :
    (∃ plan, (fromStream selfText).getInstallationPlan (fromStream selfText).packages.length .id
      (fromStream selfText).packages = .ok plan) ∨
    ∃ d, (fromStream selfText).getInstallationPlan (fromStream selfText).packages.length .id
      (fromStream selfText).packages = .error (.runtimeError (cycleMessage d)) :=
  (fromStream_plan selfText).2 (fromStream selfText).packages (fun _ hp => hp) _ le_rfl .id

end RpkgDatabase

end R4R

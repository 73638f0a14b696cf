import Mathlib.Data.Finset.Erase
import Mathlib.Data.Finset.Insert
import Mathlib.Data.List.AList
import Mathlib.Data.List.Sort
import Mathlib.Data.String.Basic
import R4R.Lib.Chains
import R4R.Path

/-!
# The R package database and its installation plan

`RPackage`, `RpkgDatabase::find`, `dfs_visit` and `get_installation_plan`.

A `RPackage const*` into the database is the package itself: the database holds one package for each name, so two
different pointers are two different packages.  A hash table is an association list; where the code iterates one,
the order is a parameter (`HashOrder`).
-/

namespace R4R

/-- `RPackage::GitHub`. -/
structure GitHub where
  org : String
  name : String
  ref : String
deriving DecidableEq, Repr

/-- `RPackage::Repository`. -/
inductive Repository
  | gitHub (gh : GitHub)
  | cran
deriving DecidableEq, Repr

/-- `RPackage`; `dependencies` lists the `std::set` in iteration order. -/
structure RPackage where
  name : String
  libPath : Path
  version : String
  dependencies : List String
  isBase : Bool := false
  needsCompilation : Bool := false
  repository : Repository := .cran
deriving DecidableEq, Repr

/-- `RpkgDatabase::packages_`: `parse_r_packages` stores each package under its own name, and the hash table keeps
one package for each key. -/
structure RpkgDatabase where
  packages : List RPackage
  nodup : (packages.map RPackage.name).Nodup

/-- What ends a computation of the plan other than its result: an exception, a failed `CHECK` (the process aborts),
or running out of fuel. -/
inductive PlanFailure
  | runtimeError (what : String)
  | checkFailed
  | outOfFuel
deriving DecidableEq, Repr

/-- The state that the calls of `dfs_visit` share. -/
structure DfsState where
  inStack : Finset RPackage
  dependencyLevels : AList fun _ : RPackage => Nat
  maxLevel : Nat

/-- The order in which a hash table with given entries is iterated: any permutation of them. -/
structure HashOrder (α : Type) where
  iterate : List α → List α
  perm : ∀ l, (iterate l).Perm l

/-- The iteration order that is the order of the list. -/
def HashOrder.id : HashOrder α := ⟨fun l => l, fun _ => .refl _⟩

/-- `std::sort` by name. -/
def sortByName (pkgs : List RPackage) : List RPackage := pkgs.insertionSort fun a b => a.name ≤ b.name

/-- A package of the given name and dependencies. -/
def pkgOf (name : String) (dependencies : List String) : RPackage :=
  { name, libPath := ⟨[]⟩, version := "1.0", dependencies }

namespace RpkgDatabase

/-- `RpkgDatabase::find`. -/
def find (db : RpkgDatabase) (name : String) : Option RPackage := db.packages.find? fun p => p.name == name

/-- The message of the exception that `dfs_visit` throws. -/
def cycleMessage (dName : String) : String := "Cycle detected in package dependencies: " ++ dName

/-- The body of the loop of `dfs_visit` over the dependencies; `visit` is the recursive call and `acc` holds the
local `level` and the shared state. -/
def visitDependency (db : RpkgDatabase) (visit : RPackage → DfsState → Except PlanFailure DfsState)
    (acc : Nat × DfsState) (dName : String) : Except PlanFailure (Nat × DfsState) :=
  match db.find dName with
  | none => .error .checkFailed
  | some dPkg =>
    if dPkg ∈ acc.2.inStack then .error (.runtimeError (cycleMessage dName))
    else do
      let st ← if dPkg ∈ acc.2.dependencyLevels then .ok acc.2 else visit dPkg acc.2
      match st.dependencyLevels.lookup dPkg with
      | none => .error .checkFailed
      | some l => .ok (max acc.1 (l + 1), st)

/-- `RpkgDatabase::dfs_visit`; the fuel bounds the depth of the recursion. -/
def dfsVisit (db : RpkgDatabase) : Nat → RPackage → DfsState → Except PlanFailure DfsState
  | 0, _, _ => .error .outOfFuel
  | fuel + 1, pkg, st => do
    let (level, st) ← pkg.dependencies.foldlM (db.visitDependency (db.dfsVisit fuel))
      (0, { st with inStack := insert pkg st.inStack })
    .ok { inStack := st.inStack.erase pkg
          dependencyLevels := st.dependencyLevels.insert pkg level
          maxLevel := max st.maxLevel level }

/-- The loop of `get_installation_plan` over the sorted packages. -/
def visitAll (db : RpkgDatabase) (fuel : Nat) (pkgs : List RPackage) (st : DfsState) :
    Except PlanFailure DfsState :=
  pkgs.foldlM (fun st p => if p ∈ st.dependencyLevels then .ok st else db.dfsVisit fuel p st) st

/-- The steps before they are sorted: each package is pushed onto the step of its level. -/
def fillPlan (n : Nat) (entries : List (Σ _ : RPackage, Nat)) : List (List RPackage) :=
  entries.foldl (fun plan e => plan.modify e.2 (· ++ [e.1])) (List.replicate n [])

/-- `RpkgDatabase::get_installation_plan`; `pkgSet` is the set in its iteration order and `order` the iteration order
of `dependency_levels`. -/
def getInstallationPlan (db : RpkgDatabase) (fuel : Nat) (order : HashOrder (Σ _ : RPackage, Nat))
    (pkgSet : List RPackage) : Except PlanFailure (List (List RPackage)) := do
  let st ← db.visitAll fuel (sortByName pkgSet) { inStack := ∅, dependencyLevels := ∅, maxLevel := 0 }
  .ok ((fillPlan (st.maxLevel + 1) (order.iterate st.dependencyLevels.entries)).map sortByName)

/-! ### What the database is about -/

/-- The package `p` names the package `d` of the database among its dependencies. -/
def DependsOn (db : RpkgDatabase) (p d : RPackage) : Prop := ∃ n ∈ p.dependencies, db.find n = some d

/-- Every name in a package's dependencies is a key of the database. -/
def DependencyClosed (db : RpkgDatabase) : Prop := ∀ p ∈ db.packages, ∀ n ∈ p.dependencies, (db.find n).isSome

instance (db : RpkgDatabase) : Decidable db.DependencyClosed := inferInstanceAs (Decidable (∀ _ ∈ _, _))

/-- A package reached from `S` through dependencies, `S` included. -/
def Reachable (db : RpkgDatabase) (S : List RPackage) (p : RPackage) : Prop :=
  ∃ s ∈ S, Relation.ReflTransGen db.DependsOn s p

/-- A dependency cycle (a self-dependency included) can be reached from `S`. -/
def CycleReachable (db : RpkgDatabase) (S : List RPackage) : Prop :=
  ∃ s ∈ S, Chains.ReachesCycle db.DependsOn s

theorem find_mem {db : RpkgDatabase} {n : String} {p : RPackage} (h : db.find n = some p) : p ∈ db.packages :=
  List.mem_of_find?_eq_some h

theorem find_name {db : RpkgDatabase} {n : String} {p : RPackage} (h : db.find n = some p) : p.name = n := by
  unfold find at h
  have hbeq := List.find?_some h
  exact eq_of_beq hbeq

/-- Packages of one database with the same name are the same package. -/
theorem eq_of_name_eq (db : RpkgDatabase) {p q : RPackage} (hp : p ∈ db.packages) (hq : q ∈ db.packages)
    (h : p.name = q.name) : p = q :=
  List.inj_on_of_nodup_map db.nodup hp hq h

theorem DependsOn.mem {db : RpkgDatabase} {p d : RPackage} (h : db.DependsOn p d) : d ∈ db.packages := by
  obtain ⟨n, _, hn⟩ := h
  exact find_mem hn

theorem Reachable.mem {db : RpkgDatabase} {S : List RPackage} (hS : ∀ p ∈ S, p ∈ db.packages) {p : RPackage}
    (h : db.Reachable S p) : p ∈ db.packages := by
  obtain ⟨s, hs, hsp⟩ := h
  cases hsp with
  | refl => exact hS _ hs
  | tail _ hE => exact hE.mem

end RpkgDatabase

end R4R

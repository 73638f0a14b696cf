import R4R.DpkgDatabase
import R4R.InstallationPlan

/-!
# System dependencies of R packages

`ResolveRPackageSystemDependencies::run` adds to the manifest the packages that the traced R packages depend on, base
packages left out, and the Debian packages needed to build them.  A base package may stand on the way from a traced
package to another one, but what can be reached from the packages after the run is what could be reached before, so
the installation plan is that of the traced packages (`run_closes`).
-/

namespace R4R

/-- The iteration orders of the hash tables. -/
structure IterationOrders where
  packages : HashOrder RPackage
  levels : HashOrder (Σ _ : RPackage, Nat)
  names : HashOrder String

/-- `RpkgDatabase::get_dependencies`. -/
def RpkgDatabase.getDependencies (db : RpkgDatabase) (fuel : Nat) (order : HashOrder (Σ _ : RPackage, Nat))
    (pkgSet : List RPackage) : Except PlanFailure (List RPackage) := do
  let plan ← db.getInstallationPlan fuel order pkgSet
  return plan.flatten

/-- The plan that `DockerFileBuilderTask::install_r_packages` computes. -/
def TraceManifest.installationPlan (m : TraceManifest) (db : RpkgDatabase) (fuel : Nat) (orders : IterationOrders) :
    Except PlanFailure (List (List RPackage)) :=
  db.getInstallationPlan fuel orders.levels (orders.packages.iterate m.rPackages)

namespace ResolveRPackageSystemDependencies

/-- The body of the loop over the dependencies: the packages that need compilation, and the manifest. -/
def addDependency : Finset RPackage × TraceManifest → RPackage → Finset RPackage × TraceManifest
  | (compiled, m), pkg =>
    if pkg.isBase then (compiled, m)
    else (if pkg.needsCompilation then insert pkg compiled else compiled, m.insertRPackage pkg)

/-- The body of the loop over the names of Debian packages. -/
def addDebPackage (dpkg : DpkgDatabase) (m : TraceManifest) (name : String) : TraceManifest :=
  match dpkg.lookupByName name with
  | none => m
  | some pkg => m.insertDebPackage pkg

/-- `ResolveRPackageSystemDependencies::run`; `systemDependencies` answers `get_system_dependencies`. -/
def run (db : RpkgDatabase) (dpkg : DpkgDatabase) (systemDependencies : Finset RPackage → List String) (fuel : Nat)
    (orders : IterationOrders) (m : TraceManifest) : Except PlanFailure TraceManifest := do
  let deps ← db.getDependencies fuel orders.levels (orders.packages.iterate m.rPackages)
  let (compiled, m) := deps.foldl addDependency (∅, m)
  if compiled = ∅ then return m
  let names := Emplace.emplace id (systemDependencies compiled) "r-base-dev"
  return (orders.names.iterate names).foldl (addDebPackage dpkg) m

/-! ### The loops -/

/-- The packages among `deps` that are compiled. -/
def compiledOf (deps : List RPackage) : Finset RPackage :=
  (deps.filter fun p => !p.isBase && p.needsCompilation).toFinset

private theorem foldl_addDependency_fst (deps : List RPackage) : ∀ (compiled : Finset RPackage) (m : TraceManifest),
    (deps.foldl addDependency (compiled, m)).1 = compiled ∪ compiledOf deps := by
  induction deps with
  | nil => intro compiled m; simp [compiledOf]
  | cons p deps ih =>
    intro compiled m
    have hcons : (deps.foldl addDependency (addDependency (compiled, m) p)).1 =
        (addDependency (compiled, m) p).1 ∪ compiledOf deps := ih _ _
    rw [List.foldl_cons, hcons]
    cases hb : p.isBase <;> cases hc : p.needsCompilation <;> simp [addDependency, compiledOf, hb, hc]

/-- The loop adds the packages that are not base packages, and nothing else. -/
theorem mem_foldl_addDependency (deps : List RPackage) : ∀ (compiled : Finset RPackage) (m : TraceManifest)
    (q : RPackage), q ∈ (deps.foldl addDependency (compiled, m)).2.rPackages ↔
      q ∈ m.rPackages ∨ q ∈ deps ∧ q.isBase = false := by
  induction deps with
  | nil => intro compiled m q; simp
  | cons p deps ih =>
    intro compiled m q
    have hcons : q ∈ (deps.foldl addDependency (addDependency (compiled, m) p)).2.rPackages ↔
        q ∈ (addDependency (compiled, m) p).2.rPackages ∨ q ∈ deps ∧ q.isBase = false := ih _ _ q
    rw [List.foldl_cons, hcons]
    cases hb : p.isBase with
    | true =>
      simp only [addDependency, hb, if_true, List.mem_cons]
      constructor
      · exact fun h => h.imp_right fun h => ⟨.inr h.1, h.2⟩
      · rintro (h | ⟨rfl | h, hq⟩)
        · exact .inl h
        · rw [hb] at hq
          cases hq
        · exact .inr ⟨h, hq⟩
    | false =>
      simp only [addDependency, hb, Bool.false_eq_true, if_false, TraceManifest.mem_rPackages_insertRPackage,
        List.mem_cons]
      constructor
      · rintro ((h | rfl) | ⟨h, hq⟩)
        · exact .inl h
        · exact .inr ⟨.inl rfl, hb⟩
        · exact .inr ⟨.inr h, hq⟩
      · rintro (h | ⟨rfl | h, hq⟩)
        · exact .inl (.inl h)
        · exact .inl (.inr rfl)
        · exact .inr ⟨h, hq⟩

/-- A loop over packages that are all there changes nothing. -/
private theorem foldl_addDependency_of_mem (deps : List RPackage) : ∀ (compiled : Finset RPackage) (m : TraceManifest),
    (∀ p ∈ deps, p.isBase = false → p ∈ m.rPackages) → (deps.foldl addDependency (compiled, m)).2 = m := by
  induction deps with
  | nil => intro compiled m _; rfl
  | cons p deps ih =>
    intro compiled m h
    obtain ⟨hp, hdeps⟩ := List.forall_mem_cons.1 h
    cases hb : p.isBase with
    | true => simpa [addDependency, hb] using ih compiled m hdeps
    | false => simpa [addDependency, hb, TraceManifest.insertRPackage_of_mem (hp hb)] using ih _ m hdeps

theorem foldl_addDebPackage_rPackages (dpkg : DpkgDatabase) (names : List String) : ∀ m : TraceManifest,
    (names.foldl (addDebPackage dpkg) m).rPackages = m.rPackages := by
  induction names with
  | nil => intro m; rfl
  | cons name names ih =>
    intro m
    rw [List.foldl_cons, ih]
    unfold addDebPackage
    split <;> rfl

theorem mem_foldl_addDebPackage (dpkg : DpkgDatabase) (names : List String) : ∀ (m : TraceManifest)
    (q : DebPackage), q ∈ (names.foldl (addDebPackage dpkg) m).debPackages ↔
      q ∈ m.debPackages ∨ ∃ name ∈ names, dpkg.lookupByName name = some q := by
  induction names with
  | nil => intro m q; simp
  | cons name names ih =>
    intro m q
    rw [List.foldl_cons, ih]
    simp only [List.mem_cons, exists_eq_or_imp]
    rw [← or_assoc]
    refine or_congr_left ?_
    unfold addDebPackage
    cases hname : dpkg.lookupByName name with
    | none => simp
    | some pkg => simp [eq_comm]

private theorem foldl_addDebPackage_of_mem (dpkg : DpkgDatabase) (names : List String) : ∀ m : TraceManifest,
    (∀ name ∈ names, ∀ pkg, dpkg.lookupByName name = some pkg → pkg ∈ m.debPackages) →
    names.foldl (addDebPackage dpkg) m = m := by
  induction names with
  | nil => intro m _; rfl
  | cons name names ih =>
    intro m h
    obtain ⟨hname, hnames⟩ := List.forall_mem_cons.1 h
    have hsame : addDebPackage dpkg m name = m := by
      unfold addDebPackage
      split
      · rfl
      · rename_i pkg hpkg
        exact TraceManifest.insertDebPackage_of_mem (hname pkg hpkg)
    rw [List.foldl_cons, hsame]
    exact ih m hnames

theorem foldl_addDependency_frame (deps : List RPackage) : ∀ (compiled : Finset RPackage) (m : TraceManifest),
    (deps.foldl addDependency (compiled, m)).2.copyFiles = m.copyFiles ∧
      (deps.foldl addDependency (compiled, m)).2.symlinks = m.symlinks ∧
      (deps.foldl addDependency (compiled, m)).2.debPackages = m.debPackages := by
  induction deps with
  | nil => exact fun compiled m => ⟨rfl, rfl, rfl⟩
  | cons p deps ih =>
    intro compiled m
    obtain ⟨hfiles, hlinks, hdebs⟩ := ih (addDependency (compiled, m) p).1 (addDependency (compiled, m) p).2
    have hstep : (addDependency (compiled, m) p).2.copyFiles = m.copyFiles ∧
        (addDependency (compiled, m) p).2.symlinks = m.symlinks ∧
        (addDependency (compiled, m) p).2.debPackages = m.debPackages := by
      simp only [addDependency]
      by_cases hbase : p.isBase = true
      · simp [hbase]
      · simp [hbase, TraceManifest.insertRPackage]
    exact ⟨hfiles.trans hstep.1, hlinks.trans hstep.2.1, hdebs.trans hstep.2.2⟩

theorem foldl_addDebPackage_frame (dpkg : DpkgDatabase) (names : List String) : ∀ m : TraceManifest,
    (names.foldl (addDebPackage dpkg) m).copyFiles = m.copyFiles ∧
      (names.foldl (addDebPackage dpkg) m).symlinks = m.symlinks := by
  induction names with
  | nil => exact fun m => ⟨rfl, rfl⟩
  | cons name names ih =>
    intro m
    obtain ⟨hfiles, hlinks⟩ := ih (addDebPackage dpkg m name)
    have hstep : (addDebPackage dpkg m name).copyFiles = m.copyFiles ∧
        (addDebPackage dpkg m name).symlinks = m.symlinks := by
      unfold addDebPackage
      cases dpkg.lookupByName name <;> exact ⟨rfl, rfl⟩
    exact ⟨hfiles.trans hstep.1, hlinks.trans hstep.2⟩

/-! ### Reachability from the enlarged set -/

open RpkgDatabase

variable {db : RpkgDatabase} {dpkg : DpkgDatabase} {systemDependencies : Finset RPackage → List String}

/-- Adding packages that can be reached adds nothing to what can be reached. -/
private theorem reachable_enlarged {S S' : List RPackage} (hsub : ∀ p ∈ S, p ∈ S') (hreach : ∀ p ∈ S', db.Reachable S p)
    (p : RPackage) : db.Reachable S' p ↔ db.Reachable S p := by
  constructor
  · rintro ⟨s, hs, hsp⟩
    obtain ⟨r, hr, hrs⟩ := hreach s hs
    exact ⟨r, hr, hrs.trans hsp⟩
  · rintro ⟨s, hs, hsp⟩
    exact ⟨s, hsub s hs, hsp⟩

/-- What the run does when the plan of the manifest is known. -/
theorem run_of_plan {plan : List (List RPackage)} {fuel : Nat} {orders : IterationOrders} {m : TraceManifest}
    (h : m.installationPlan db fuel orders = .ok plan) :
    run db dpkg systemDependencies fuel orders m = .ok (
      let m' := (plan.flatten.foldl addDependency (∅, m)).2
      if compiledOf plan.flatten = ∅ then m'
      else (orders.names.iterate
        (Emplace.emplace id (systemDependencies (compiledOf plan.flatten)) "r-base-dev")).foldl
          (addDebPackage dpkg) m') := by
  have hdeps : db.getDependencies fuel orders.levels (orders.packages.iterate m.rPackages) = .ok plan.flatten := by
    rw [TraceManifest.installationPlan] at h
    rw [getDependencies, h]
    rfl
  have hfst := foldl_addDependency_fst plan.flatten ∅ m
  rw [Finset.empty_union] at hfst
  rw [run, hdeps, Except.ok_bind]
  cases hfold : plan.flatten.foldl addDependency (∅, m) with
  | mk compiled m' =>
    obtain rfl : compiled = compiledOf plan.flatten := by rw [← hfst, hfold]
    simp only []
    split <;> rfl

/-- Manifests between the packages and what can be reached from them have one installation plan. -/
private theorem exists_installationPlan (hclosed : db.DependencyClosed) (hacyclic : ¬ db.CycleReachable db.packages)
    {S : List RPackage} (hS : ∀ p ∈ S, p ∈ db.packages) {fuel : Nat} (hfuel : db.packages.length ≤ fuel) :
    ∃ plan : List (List RPackage), (∀ p, p ∈ plan.flatten ↔ db.Reachable S p) ∧
      ∀ m : TraceManifest, (∀ p ∈ S, p ∈ m.rPackages) → (∀ p ∈ m.rPackages, db.Reachable S p) →
        ∀ orders, m.installationPlan db fuel orders = .ok plan := by
  have hnot : ∀ {S : List RPackage}, (∀ p ∈ S, p ∈ db.packages) → ¬ db.CycleReachable S := by
    rintro S hS ⟨s, hs, hc⟩
    exact hacyclic ⟨s, hS s hs, hc⟩
  obtain ⟨st, hst, -⟩ := exists_searched hclosed hS (hnot hS)
  refine ⟨planOf st .id, (hst.isInstallationPlan .id).mem_iff, fun m hsub hreach orders => ?_⟩
  have hdb : ∀ p ∈ m.rPackages, p ∈ db.packages := fun p hp => (hreach p hp).mem hS
  obtain ⟨st', hst', hplan⟩ := exists_searched hclosed hdb (hnot hdb)
  have hsame : planOf st .id = planOf st' .id := planOf_congr hst.inv hst'.inv (fun p => by
    rw [hst.mem_iff, hst'.mem_iff, reachable_enlarged hsub hreach]) .id .id
  rw [hsame]
  exact hplan fuel hfuel orders.levels _ (orders.packages.perm _)

/-- After the run the manifest has the packages it had and those that are no base packages and can be reached from
them; its installation plan is the one it had, and a second run changes nothing. -/
theorem run_closes (hclosed : db.DependencyClosed) (hacyclic : ¬ db.CycleReachable db.packages) {m : TraceManifest}
    (hm : ∀ p ∈ m.rPackages, p ∈ db.packages) {fuel : Nat} (hfuel : db.packages.length ≤ fuel)
    (orders : IterationOrders) : ∃ m', run db dpkg systemDependencies fuel orders m = .ok m' ∧
      (∀ p, p ∈ m'.rPackages ↔ p ∈ m.rPackages ∨ db.Reachable m.rPackages p ∧ p.isBase = false) ∧
      (∃ plan, ∀ orders', m.installationPlan db fuel orders' = .ok plan ∧
        m'.installationPlan db fuel orders' = .ok plan) ∧
      ∀ orders', run db dpkg systemDependencies fuel orders' m' = .ok m' := by
  obtain ⟨plan, hmem, hplan⟩ := exists_installationPlan hclosed hacyclic hm hfuel
  have hplan₀ := hplan m (fun _ hp => hp) fun p hp => ⟨p, hp, .refl⟩
  obtain ⟨m₁, hm₁⟩ : ∃ m₁, m₁ = (plan.flatten.foldl addDependency (∅, m)).2 := ⟨_, rfl⟩
  obtain ⟨names, hnames⟩ : ∃ names,
      names = Emplace.emplace id (systemDependencies (compiledOf plan.flatten)) "r-base-dev" := ⟨_, rfl⟩
  -- the manifest after the run
  obtain ⟨m', hm'⟩ : ∃ m', m' = if compiledOf plan.flatten = ∅ then m₁ else
      (orders.names.iterate names).foldl (addDebPackage dpkg) m₁ := ⟨_, rfl⟩
  have hrun : run db dpkg systemDependencies fuel orders m = .ok m' := by
    rw [run_of_plan (hplan₀ orders), hm', hm₁, hnames]
  have hr : m'.rPackages = m₁.rPackages := by
    rw [hm']
    split
    · rfl
    · exact foldl_addDebPackage_rPackages dpkg _ m₁
  have hpackages : ∀ p, p ∈ m'.rPackages ↔ p ∈ m.rPackages ∨ db.Reachable m.rPackages p ∧ p.isBase = false := by
    intro p
    rw [hr, hm₁, mem_foldl_addDependency, hmem]
  have hplan₁ := hplan m' (fun p hp => (hpackages p).2 (.inl hp)) fun p hp =>
    ((hpackages p).1 hp).elim (fun hp => ⟨p, hp, .refl⟩) fun hp => hp.1
  refine ⟨m', hrun, hpackages, ⟨plan, fun orders' => ⟨hplan₀ orders', hplan₁ orders'⟩⟩, fun orders' => ?_⟩
  -- the second run finds every package in the manifest
  have hall : ∀ p ∈ plan.flatten, p.isBase = false → p ∈ m'.rPackages := fun p hp hb =>
    (hpackages p).2 (.inr ⟨(hmem p).1 hp, hb⟩)
  rw [run_of_plan (hplan₁ orders'), foldl_addDependency_of_mem plan.flatten ∅ m' hall, ← hnames]
  by_cases hc : compiledOf plan.flatten = ∅
  · simp only [if_pos hc]
  · simp only [if_neg hc]
    congr 1
    refine foldl_addDebPackage_of_mem dpkg _ m' fun name hname pkg hpkg => ?_
    rw [hm', if_neg hc, mem_foldl_addDebPackage]
    have hname' : name ∈ orders.names.iterate names :=
      (orders.names.perm _).mem_iff.2 ((orders'.names.perm _).mem_iff.1 hname)
    exact .inr ⟨name, hname', hpkg⟩

/-- `A` depends on `C` through the base package `B`. -/
def baseDb : RpkgDatabase :=
  ⟨[pkgOf "A" ["B"], { pkgOf "B" ["C"] with isBase := true }, { pkgOf "C" [] with needsCompilation := true }],
    by decide⟩

def headersDb : DpkgDatabase := ⟨[⟨"r-base-dev", "4.5"⟩, ⟨"libxml2-dev:amd64", "2.9"⟩], by decide, .ofInserts []⟩

def tracedA : TraceManifest := { copyFiles := .empty, rPackages := [pkgOf "A" ["B"]] }

theorem run_closes_baseDb : ∃ m',
    run baseDb headersDb (fun _ => ["libxml2-dev"]) 3 ⟨.id, .id, .id⟩ tracedA = .ok m' ∧
      (∀ p, p ∈ m'.rPackages ↔ p ∈ tracedA.rPackages ∨ baseDb.Reachable tracedA.rPackages p ∧ p.isBase = false) ∧
      (∃ plan, ∀ orders', tracedA.installationPlan baseDb 3 orders' = .ok plan ∧
        m'.installationPlan baseDb 3 orders' = .ok plan) ∧
      ∀ orders', run baseDb headersDb (fun _ => ["libxml2-dev"]) 3 orders' m' = .ok m' :=
  run_closes (by decide) (not_cycleReachable_of_search (by decide) (fun _ h => h) (by decide)) (by decide) (by decide) _

example : ((run baseDb headersDb (fun _ => ["libxml2-dev"]) 3 ⟨.id, .id, .id⟩ tracedA).toOption.map fun m =>
    (m.rPackages.map (·.name), m.debPackages.map (·.name))) =
      some (["A", "C"], ["libxml2-dev:amd64", "r-base-dev"]) := by decide

end ResolveRPackageSystemDependencies

end R4R

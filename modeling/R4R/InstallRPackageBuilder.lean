import R4R.InstallationPlan

/-!
# The batches of the installation script

`InstallRPackageScriptBuilder::expand_plan` takes the base packages out of each step of a plan and cuts the rest into
batches of at most `max_parallel` packages.  The batches of a plan of `get_installation_plan` install each package once
and behind its dependencies.
-/

namespace R4R

open Relation

/-- `max_size()` of a `std::vector` of pointers. -/
def maxSize : Nat := (2 ^ 63 - 1) / 8

/-- `std::vector<RPackage const*>`. -/
structure PackageVector where
  pkgs : List RPackage
  length_le : pkgs.length ≤ maxSize

/-- `InstallRPackageScriptBuilder`, with whether its output is set. -/
structure InstallRPackageScriptBuilder where
  plan : List PackageVector
  maxParallel : UInt64 := 1
  hasOutput : Bool := false

inductive BuildFailure where
  | runtimeError (what : String)
  | outOfFuel
deriving DecidableEq, Repr

namespace InstallRPackageScriptBuilder

/-- The loop over a batch that is larger than `max_parallel`, from the index `i`. -/
def splitBatch (maxParallel : UInt64) (batch : List RPackage) : Nat → UInt64 → Option (List (List RPackage))
  | 0, _ => none
  | fuel + 1, i =>
    if i.toNat < batch.length then
      let stop := min (i + maxParallel).toNat batch.length
      (splitBatch maxParallel batch fuel (i + maxParallel)).map fun parts => (batch.take stop).drop i.toNat :: parts
    else some []

/-- The batches of one step of the plan. -/
def expandStep (maxParallel : UInt64) (step : PackageVector) : Option (List (List RPackage)) :=
  let batch := step.pkgs.filter fun pkg => !pkg.isBase
  if batch.isEmpty then some []
  else if batch.length ≤ maxParallel.toNat then some [batch]
  else splitBatch maxParallel batch (batch.length + 1) 0

/-- `expand_plan`. -/
def expandPlan (maxParallel : UInt64) (plan : List PackageVector) : Option (List (List RPackage)) :=
  plan.foldlM (fun expanded step => (expandStep maxParallel step).map fun batches => expanded ++ batches) []

/-- `build`, up to the batches for which it writes the script. -/
def build (b : InstallRPackageScriptBuilder) : Except BuildFailure (List (List RPackage)) :=
  if b.maxParallel = 0 then .error (.runtimeError "Error: max_parallel cannot be zero.")
  else if !b.hasOutput then .error (.runtimeError "Error: output is not set.")
  else
    match expandPlan b.maxParallel b.plan with
    | none => .error .outOfFuel
    | some batches => .ok batches

/-- What the batches of a step have to be. -/
structure IsExpansion (maxParallel : UInt64) (step : PackageVector) (batches : List (List RPackage)) : Prop where
  flatten : batches.flatten = step.pkgs.filter fun pkg => !pkg.isBase
  size : ∀ b ∈ batches, b ≠ [] ∧ b.length ≤ maxParallel.toNat

/-! ### One step -/

/-- The part from the index to the next one, and what is left behind it. -/
private theorem part_append_drop (batch : List RPackage) (i n : Nat) :
    (batch.take (min (i + n) batch.length)).drop i ++ batch.drop (i + n) = batch.drop i := by
  rw [List.drop_take, ← List.drop_drop]
  by_cases h : i + n ≤ batch.length
  · rw [Nat.min_eq_left h, Nat.add_sub_cancel_left, List.take_append_drop]
  · have hnil : (batch.drop i).drop n = [] := by
      rw [List.drop_drop]
      exact List.drop_eq_nil_of_le (by omega)
    rw [hnil, List.append_nil]
    exact List.take_of_length_le (by rw [List.length_drop]; omega)

/-- From the index on, the loop cuts what is left of the batch; the index does not overflow. -/
private theorem splitBatch_spec {maxParallel : UInt64} {batch : List RPackage} (hpos : 0 < maxParallel.toNat)
    (hmax : maxParallel.toNat < batch.length) (hsize : batch.length ≤ maxSize) (fuel : Nat) : ∀ i : UInt64,
    batch.length ≤ i.toNat + fuel → ∃ parts, splitBatch maxParallel batch (fuel + 1) i = some parts ∧
      parts.flatten = batch.drop i.toNat ∧ ∀ b ∈ parts, b ≠ [] ∧ b.length ≤ maxParallel.toNat := by
  have hend : ∀ fuel (i : UInt64), ¬ i.toNat < batch.length → ∃ parts,
      splitBatch maxParallel batch (fuel + 1) i = some parts ∧ parts.flatten = batch.drop i.toNat ∧
        ∀ b ∈ parts, b ≠ [] ∧ b.length ≤ maxParallel.toNat := by
    intro fuel i hi
    refine ⟨[], by rw [splitBatch, if_neg hi], ?_, nofun⟩
    rw [List.drop_eq_nil_of_le (by omega)]
    rfl
  induction fuel with
  | zero => exact fun i hi => hend 0 i (by omega)
  | succ fuel ih =>
    intro i hi
    by_cases hlt : i.toNat < batch.length
    · have hnext : (i + maxParallel).toNat = i.toNat + maxParallel.toNat := by
        rw [UInt64.toNat_add]
        unfold maxSize at hsize
        omega
      obtain ⟨parts, hparts, hflat, hall⟩ := ih (i + maxParallel) (by omega)
      refine ⟨_, by rw [splitBatch, if_pos hlt, hparts]; rfl, ?_, ?_⟩
      · rw [List.flatten_cons, hflat, hnext, part_append_drop]
      · intro b hb
        rcases List.mem_cons.1 hb with rfl | hb
        · have hlen : ((batch.take (min (i + maxParallel).toNat batch.length)).drop i.toNat).length =
              min (i.toNat + maxParallel.toNat) batch.length - i.toNat := by
            rw [List.length_drop, List.length_take, hnext]
            omega
          rw [← List.length_pos_iff, hlen]
          omega
        · exact hall b hb
    · exact hend (fuel + 1) i hlt

private theorem exists_expandStep {maxParallel : UInt64} (hmax : 1 ≤ maxParallel) (step : PackageVector) :
    ∃ batches, expandStep maxParallel step = some batches ∧ IsExpansion maxParallel step batches := by
  have hpos : 0 < maxParallel.toNat := UInt64.le_iff_toNat_le.1 hmax
  have hsize : (step.pkgs.filter fun pkg => !pkg.isBase).length ≤ maxSize :=
    (List.length_filter_le ..).trans step.length_le
  unfold expandStep
  dsimp only
  split
  · rename_i hempty
    exact ⟨[], rfl, (List.isEmpty_iff.1 hempty).symm, nofun⟩
  · rename_i hempty
    split
    · rename_i hle
      refine ⟨_, rfl, by simp, ?_⟩
      intro b hb
      obtain rfl := List.mem_singleton.1 hb
      exact ⟨fun h => hempty (List.isEmpty_iff.2 h), hle⟩
    · rename_i hlt
      obtain ⟨parts, hparts, hflat, hall⟩ := splitBatch_spec hpos (Nat.lt_of_not_le hlt) hsize _ 0 (Nat.le_add_left ..)
      exact ⟨parts, hparts, hflat, hall⟩

/-! ### The whole plan -/

/-- The batches of the plan are those of its steps. -/
theorem exists_expandPlan {maxParallel : UInt64} (hmax : 1 ≤ maxParallel) (plan : List PackageVector) :
    ∃ f : PackageVector → List (List RPackage), (∀ step, IsExpansion maxParallel step (f step)) ∧
      expandPlan maxParallel plan = some (plan.flatMap f) := by
  choose f hf hspec using exists_expandStep hmax
  refine ⟨f, hspec, ?_⟩
  have hfold : ∀ expanded : List (List RPackage), plan.foldlM (fun expanded step =>
      (expandStep maxParallel step).map fun batches => expanded ++ batches) expanded =
        some (expanded ++ plan.flatMap f) := by
    induction plan with
    | nil => simp
    | cons step plan ih =>
      intro expanded
      rw [List.foldlM_cons, hf step, Option.map_some, Option.bind_eq_bind, Option.bind_some, ih]
      simp
  exact hfold []

/-- What stands in an earlier list comes from an earlier element. -/
private theorem pair_sublist_flatMap {α β : Type} {f : α → List β} {l : List α} {i j : Nat} {a b : α} {x y : β}
    (hij : i < j)
    (ha : l[i]? = some a) (hb : l[j]? = some b) (hx : x ∈ f a) (hy : y ∈ f b) : [x, y].Sublist (l.flatMap f) := by
  have htake : a ∈ l.take j := List.mem_of_getElem? (i := i) (by rw [List.getElem?_take_of_lt hij, ha])
  have hdrop : b ∈ l.drop j := List.mem_of_getElem? (i := 0) (by simpa using hb)
  rw [← List.take_append_drop j l, List.flatMap_append]
  exact (List.singleton_sublist.2 (List.mem_flatMap_of_mem htake hx)).append
    (List.singleton_sublist.2 (List.mem_flatMap_of_mem hdrop hy))

end InstallRPackageScriptBuilder

/-- The plan has each transitive dependency in an earlier step. -/
private theorem RpkgDatabase.IsInstallationPlan.earlier_trans {db : RpkgDatabase} {S : List RPackage}
    {plan : List (List RPackage)} (h : IsInstallationPlan db S plan) {p d : RPackage} (hpd : TransGen db.DependsOn p d)
    {i : Nat} {step : List RPackage} (hi : plan[i]? = some step) (hp : p ∈ step) :
    ∃ (j : Nat) (step' : List RPackage), j < i ∧ plan[j]? = some step' ∧ d ∈ step' := by
  induction hpd with
  | single hE => exact h.earlier i step hi p hp _ hE
  | tail _ hE ih =>
    obtain ⟨j, step', hj, hstep', hc⟩ := ih
    obtain ⟨k, step'', hk, hstep'', hd⟩ := h.earlier j step' hstep' _ hc _ hE
    exact ⟨k, step'', hk.trans hj, hstep'', hd⟩

namespace InstallRPackageScriptBuilder

/-- The batches: not empty, not too large, each from one step, and together the plan without its base packages. -/
structure AreBatches (maxParallel : UInt64) (plan : List PackageVector) (batches : List (List RPackage)) : Prop where
  size : ∀ b ∈ batches, b ≠ [] ∧ b.length ≤ maxParallel.toNat
  oneStep : ∀ b ∈ batches, ∃ step ∈ plan, b ⊆ step.pkgs
  flatten : batches.flatten = (plan.flatMap PackageVector.pkgs).filter fun pkg => !pkg.isBase

/-- A batch with `d` stands before a batch with `p`. -/
def InstalledBefore (batches : List (List RPackage)) (d p : RPackage) : Prop :=
  ∃ b b' : List RPackage, [b, b'].Sublist batches ∧ d ∈ b ∧ p ∈ b'

/-- The batches install what can be reached from `S`, base packages apart: each package once, behind its
dependencies. -/
structure InstallsOnce (db : RpkgDatabase) (S : List RPackage) (batches : List (List RPackage)) : Prop where
  mem_iff : ∀ p, p ∈ batches.flatten ↔ db.Reachable S p ∧ p.isBase = false
  once : batches.flatten.Nodup
  behind : ∀ p ∈ batches.flatten, ∀ d, TransGen db.DependsOn p d → d.isBase = false → InstalledBefore batches d p

private theorem IsExpansion.exists_batch {maxParallel : UInt64} {step : PackageVector} {batches : List (List RPackage)}
    (h : IsExpansion maxParallel step batches) {p : RPackage} (hp : p ∈ step.pkgs) (hbase : p.isBase = false) :
    ∃ b ∈ batches, p ∈ b := by
  have hmem : p ∈ batches.flatten := by simp [h.flatten, hp, hbase]
  exact List.mem_flatten.1 hmem

/-- Together the batches are the plan without its base packages. -/
theorem flatten_flatMap {maxParallel : UInt64} {f : PackageVector → List (List RPackage)}
    (hf : ∀ step, IsExpansion maxParallel step (f step)) (plan : List PackageVector) :
    (plan.flatMap f).flatten = (plan.flatMap PackageVector.pkgs).filter fun pkg => !pkg.isBase := by
  induction plan with
  | nil => rfl
  | cons step plan ih =>
    rw [List.flatMap_cons, List.flatten_append, ih, (hf step).flatten, List.flatMap_cons, List.filter_append]

/-- The steps of the plan are cut into the batches that the script needs, and for the plan of a set of packages the
batches install each of them once and behind its dependencies. -/
theorem expandPlan_installs (maxParallel : UInt64) (hmax : 1 ≤ maxParallel) (plan : List PackageVector) :
    ∃ batches, expandPlan maxParallel plan = some batches ∧ AreBatches maxParallel plan batches ∧
      ∀ (db : RpkgDatabase) (fuel : Nat) (order : HashOrder (Σ _ : RPackage, Nat)) (S : List RPackage),
        (∀ p ∈ S, p ∈ db.packages) →
        db.getInstallationPlan fuel order S = .ok (plan.map PackageVector.pkgs) → InstallsOnce db S batches := by
  obtain ⟨f, hf, hexpand⟩ := exists_expandPlan hmax plan
  have hflatten := flatten_flatMap hf plan
  refine ⟨plan.flatMap f, hexpand, ⟨?_, ?_, hflatten⟩, ?_⟩
  · intro b hb
    obtain ⟨step, -, hstep⟩ := List.mem_flatMap.1 hb
    exact (hf step).size b hstep
  · intro b hb
    obtain ⟨step, hplan, hstep⟩ := List.mem_flatMap.1 hb
    refine ⟨step, hplan, fun p hp => ?_⟩
    have hmem : p ∈ (f step).flatten := List.mem_flatten.2 ⟨b, hstep, hp⟩
    rw [(hf step).flatten] at hmem
    exact (List.mem_filter.1 hmem).1
  · intro db fuel order S hS hplan
    have his := RpkgDatabase.isInstallationPlan_of_eq_ok hS hplan
    have hmem : ∀ p, p ∈ (plan.flatMap f).flatten ↔ db.Reachable S p ∧ p.isBase = false := by
      intro p
      rw [hflatten, List.mem_filter, ← his.mem_iff p, List.flatMap_def]
      simp
    refine ⟨hmem, ?_, ?_⟩
    · rw [hflatten, List.flatMap_def]
      exact his.once.filter _
    · intro p hp d hpd hbase
      obtain ⟨hreach, hbase'⟩ := (hmem p).1 hp
      obtain ⟨step, hstep, hpstep⟩ := List.mem_flatten.1 ((his.mem_iff p).2 hreach)
      obtain ⟨i, hi⟩ := List.mem_iff_getElem?.1 hstep
      obtain ⟨j, step', hji, hj, hdstep⟩ := his.earlier_trans hpd hi hpstep
      rw [List.getElem?_map, Option.map_eq_some_iff] at hi hj
      obtain ⟨v, hv, rfl⟩ := hi
      obtain ⟨v', hv', rfl⟩ := hj
      obtain ⟨b, hb, hpb⟩ := (hf v).exists_batch hpstep hbase'
      obtain ⟨b', hb', hdb⟩ := (hf v').exists_batch hdstep hbase
      exact ⟨b', b, pair_sublist_flatMap hji hv' hv hb' hb, hdb, hpb⟩

/-- A base package, two packages that need it, and one that needs these two. -/
def baseDb : RpkgDatabase :=
  ⟨[{ pkgOf "A" [] with isBase := true }, pkgOf "B" ["A"], pkgOf "C" ["A"], pkgOf "D" ["B", "C"]], by decide⟩

/-- The plan of all packages. -/
def basePlan : List PackageVector :=
  [⟨[{ pkgOf "A" [] with isBase := true }], by decide⟩, ⟨[pkgOf "B" ["A"], pkgOf "C" ["A"]], by decide⟩,
    ⟨[pkgOf "D" ["B", "C"]], by decide⟩]

theorem expandPlan_installs_base :
    ∃ batches, expandPlan 1 basePlan = some batches ∧ InstallsOnce baseDb baseDb.packages batches := by
  obtain ⟨batches, hexpand, -, hinstalls⟩ := expandPlan_installs 1 (by decide) basePlan
  exact ⟨batches, hexpand, hinstalls baseDb 4 .id baseDb.packages (fun _ hp => hp) (by decide)⟩

example : (expandPlan 1 basePlan).map (·.map (·.map RPackage.name)) = some [["B"], ["C"], ["D"]] := by decide

/-- `build` fails only on a builder that is not set up. -/
theorem build_ok_iff (b : InstallRPackageScriptBuilder) :
    (∃ batches, b.build = .ok batches) ↔ b.maxParallel ≠ 0 ∧ b.hasOutput = true := by
  unfold build
  by_cases hmax : b.maxParallel = 0
  · simp [hmax]
  · by_cases hout : b.hasOutput = true
    · have hone : 1 ≤ b.maxParallel := by
        rw [UInt64.le_iff_toNat_le]
        exact Nat.pos_of_ne_zero fun h => hmax (UInt64.toNat_inj.1 h)
      obtain ⟨f, -, hexpand⟩ := exists_expandPlan hone b.plan
      simp [hmax, hout, hexpand]
    · simp [hmax, hout]

end InstallRPackageScriptBuilder

end R4R

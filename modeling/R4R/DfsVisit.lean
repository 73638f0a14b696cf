import Mathlib.Data.Finset.Card
import Mathlib.Data.Finset.SDiff
import R4R.Lib.Except
import R4R.RpkgDatabase

/-!
# The depth-first search of `dfs_visit`

The packages with a level are finished: their levels are a levelling of a set that is closed under dependencies.
The packages in `in_stack` are the ancestors of the package that is visited, so a dependency found there closes a
cycle.  A visit keeps every level it finds, gives levels to packages it can reach only, and leaves `in_stack` as it
was (`dfsVisit_spec`).  The recursion is as deep as the packages outside `in_stack` allow.
-/

namespace R4R

open Relation Chains

/-- The level of a package, `0` when it has none. -/
def DfsState.level (st : DfsState) (p : RPackage) : Nat := (st.dependencyLevels.lookup p).getD 0

/-- The packages with a level are levelled, belong to the database and are not in the stack, and `max_level` is the
largest level. -/
structure DfsState.Inv (db : RpkgDatabase) (st : DfsState) : Prop where
  levelling : Levelling db.DependsOn {p | p ∈ st.dependencyLevels} st.level
  mem : ∀ p ∈ st.dependencyLevels, p ∈ db.packages
  notInStack : ∀ p ∈ st.dependencyLevels, p ∉ st.inStack
  le_maxLevel : ∀ p ∈ st.dependencyLevels, st.level p ≤ st.maxLevel
  maxLevel_eq : st.maxLevel = 0 ∨ ∃ p ∈ st.dependencyLevels, st.level p = st.maxLevel

/-- What a visit below `pkg` does to the state. -/
structure Visited (db : RpkgDatabase) (pkg : RPackage) (st st' : DfsState) : Prop where
  inv : st'.Inv db
  inStack : st'.inStack = st.inStack
  keep : ∀ p n, st.dependencyLevels.lookup p = some n → st'.dependencyLevels.lookup p = some n
  reach : ∀ p ∈ st'.dependencyLevels, p ∈ st.dependencyLevels ∨ ReflTransGen db.DependsOn pkg p

theorem DfsState.lookup_of_mem {st : DfsState} {p : RPackage} (h : p ∈ st.dependencyLevels) :
    st.dependencyLevels.lookup p = some (st.level p) := by
  obtain ⟨n, hn⟩ := Option.isSome_iff_exists.1 (AList.lookup_isSome.2 h)
  simp [DfsState.level, hn]

theorem DfsState.mem_of_lookup {st : DfsState} {p : RPackage} {n : Nat}
    (h : st.dependencyLevels.lookup p = some n) : p ∈ st.dependencyLevels :=
  AList.lookup_isSome.1 (by simp [h])

/-- A package without a level can go on the stack. -/
private theorem DfsState.Inv.push {db : RpkgDatabase} {st : DfsState} (h : st.Inv db) {pkg : RPackage}
    (hpkg : pkg ∉ st.dependencyLevels) : ({ st with inStack := insert pkg st.inStack } : DfsState).Inv db := by
  refine ⟨h.levelling, h.mem, ?_, h.le_maxLevel, h.maxLevel_eq⟩
  intro p hp hstack
  rcases Finset.mem_insert.1 hstack with rfl | hstack
  · exact hpkg hp
  · exact h.notInStack p hp hstack

namespace Visited

variable {db : RpkgDatabase} {pkg : RPackage} {st st' st'' : DfsState}

theorem refl (h : st.Inv db) : Visited db pkg st st := ⟨h, rfl, fun _ _ h => h, fun _ h => .inl h⟩

private theorem trans (h : Visited db pkg st st') (h' : Visited db pkg st' st'') : Visited db pkg st st'' where
  inv := h'.inv
  inStack := h'.inStack.trans h.inStack
  keep := fun p n hp => h'.keep p n (h.keep p n hp)
  reach := fun p hp => (h'.reach p hp).elim (h.reach p) .inr

/-- A visit below a dependency of `pkg` is a visit below `pkg`. -/
private theorem of_dependsOn {d : RPackage} (hd : db.DependsOn pkg d) (h : Visited db d st st') :
    Visited db pkg st st' where
  inv := h.inv
  inStack := h.inStack
  keep := h.keep
  reach := fun p hp => (h.reach p hp).imp_right (ReflTransGen.head hd)

theorem mem (h : Visited db pkg st st') {p : RPackage} (hp : p ∈ st.dependencyLevels) : p ∈ st'.dependencyLevels :=
  DfsState.mem_of_lookup (h.keep p _ (DfsState.lookup_of_mem hp))

private theorem level (h : Visited db pkg st st') {p : RPackage} (hp : p ∈ st.dependencyLevels) :
    st'.level p = st.level p := by
  have hp' := h.keep p _ (DfsState.lookup_of_mem hp)
  simp [DfsState.level, hp']

end Visited

namespace RpkgDatabase

variable {db : RpkgDatabase} {fuel : Nat}

/-- The state at the end of a visit of `pkg`, whose dependencies all have a level below `level`. -/
private theorem finish_spec {pkg : RPackage} {st st' : DfsState} {level : Nat} (hpkg : pkg ∈ db.packages)
    (hstack : pkg ∉ st.inStack) (hv : Visited db pkg { st with inStack := insert pkg st.inStack } st')
    (hall : ∀ n ∈ pkg.dependencies, ∀ d, db.find n = some d → d ∈ st'.dependencyLevels ∧ st'.level d < level)
    (hlevel : level = 0 ∨ ∃ n ∈ pkg.dependencies, ∃ d, db.find n = some d ∧ level = st'.level d + 1) :
    Visited db pkg st
      { inStack := st'.inStack.erase pkg
        dependencyLevels := st'.dependencyLevels.insert pkg level
        maxLevel := max st'.maxLevel level } := by
  have hG : st'.inStack = insert pkg st.inStack := hv.inStack
  have hnew : pkg ∉ st'.dependencyLevels := fun h => hv.inv.notInStack pkg h (by simp [hG])
  have hne : ∀ {p}, p ∈ st'.dependencyLevels → p ≠ pkg := fun h e => hnew (e ▸ h)
  have hold : ∀ p ∈ st'.dependencyLevels,
      (st'.dependencyLevels.insert pkg level).lookup p = st'.dependencyLevels.lookup p :=
    fun p hp => AList.lookup_insert_ne (hne hp)
  let fin : DfsState :=
    { inStack := st'.inStack.erase pkg
      dependencyLevels := st'.dependencyLevels.insert pkg level
      maxLevel := max st'.maxLevel level }
  have hfin : fin.level pkg = level := by simp [fin, DfsState.level]
  have hfin' : ∀ p ∈ st'.dependencyLevels, fin.level p = st'.level p :=
    fun p hp => by simp [fin, DfsState.level, hold p hp]
  have hset : {p | p ∈ fin.dependencyLevels} = insert pkg {p | p ∈ st'.dependencyLevels} := by
    ext p; simp [fin]
  have hinv : fin.Inv db := by
    refine ⟨?_, ?_, ?_, ?_, ?_⟩
    · rw [hset]
      refine hv.inv.levelling.insert (n := level) ?_ ?_ hfin hfin'
      · rintro w ⟨n, hn, hw⟩
        exact hall n hn w hw
      · refine hlevel.imp_right ?_
        rintro ⟨n, hn, d, hd, he⟩
        exact ⟨d, ⟨n, hn, hd⟩, he⟩
    · intro p hp
      rcases (AList.mem_insert _).1 hp with rfl | hp
      · exact hpkg
      · exact hv.inv.mem p hp
    · intro p hp
      rcases (AList.mem_insert _).1 hp with rfl | hp
      · simp [fin]
      · exact fun h => hv.inv.notInStack p hp (Finset.mem_of_mem_erase h)
    · intro p hp
      rcases (AList.mem_insert _).1 hp with rfl | hp
      · rw [hfin]; exact Nat.le_max_right ..
      · rw [hfin' p hp]
        exact Nat.le_trans (hv.inv.le_maxLevel p hp) (Nat.le_max_left ..)
    · rcases Nat.le_total st'.maxLevel level with h | h
      · right
        refine ⟨pkg, (AList.mem_insert _).2 (.inl rfl), ?_⟩
        rw [hfin]; simp [fin, h]
      · rcases hv.inv.maxLevel_eq with h0 | ⟨p, hp, hpm⟩
        · left; simp only [fin]; omega
        · right
          refine ⟨p, (AList.mem_insert _).2 (.inr hp), ?_⟩
          rw [hfin' p hp, hpm]; simp [fin, h]
  refine ⟨hinv, ?_, ?_, ?_⟩
  · rw [hG]; exact Finset.erase_insert hstack
  · intro p n hp
    have hp' := hv.keep p n hp
    rw [hold p (DfsState.mem_of_lookup hp'), hp']
  · intro p hp
    rcases (AList.mem_insert _).1 hp with rfl | hp
    · exact .inr .refl
    · exact hv.reach p hp

/-! ### Visits that return -/

/-- What is known of a visit of a dependency of `pkg` that returns. -/
def VisitReturns (db : RpkgDatabase) (visit : RPackage → DfsState → Except PlanFailure DfsState) (pkg : RPackage) :
    Prop :=
  ∀ d st st', db.DependsOn pkg d → st.Inv db → d ∉ st.dependencyLevels → d ∉ st.inStack → visit d st = .ok st' →
    Visited db d st st' ∧ d ∈ st'.dependencyLevels

private theorem visitDependency_ok {visit : RPackage → DfsState → Except PlanFailure DfsState} {pkg : RPackage}
    {n : String} (hvisit : VisitReturns db visit pkg) (hn : n ∈ pkg.dependencies) {acc acc' : Nat × DfsState}
    (hinv : acc.2.Inv db) (h : db.visitDependency visit acc n = .ok acc') :
    ∃ d, db.find n = some d ∧ Visited db pkg acc.2 acc'.2 ∧ d ∈ acc'.2.dependencyLevels ∧
      acc'.1 = max acc.1 (acc'.2.level d + 1) := by
  unfold visitDependency at h
  cases hd : db.find n with
  | none =>
    simp only [hd] at h
    cases h
  | some d =>
    have hE : db.DependsOn pkg d := ⟨n, hn, hd⟩
    simp only [hd] at h
    split at h
    · cases h
    · rename_i hstack
      -- both ways the state holds a level for `d`
      have hlevel : ∀ {st : DfsState} {l : Nat}, Visited db pkg acc.2 st → st.dependencyLevels.lookup d = some l →
          Visited db pkg acc.2 st ∧ d ∈ st.dependencyLevels ∧ max acc.1 (l + 1) = max acc.1 (st.level d + 1) := by
        intro st l hv hl
        have hlevel : st.level d = l := by simp [DfsState.level, hl]
        exact ⟨hv, DfsState.mem_of_lookup hl, by rw [hlevel]⟩
      split at h
      · obtain ⟨st, hst, h⟩ := Except.bind_eq_ok h
        obtain rfl := Except.ok.inj hst
        split at h
        · cases h
        · rename_i l hl
          cases h
          exact ⟨d, rfl, hlevel (.refl hinv) hl⟩
      · rename_i hlev
        obtain ⟨st, hst, h⟩ := Except.bind_eq_ok h
        split at h
        · cases h
        · rename_i l hl
          cases h
          exact ⟨d, rfl, hlevel ((hvisit d acc.2 st hE hinv hlev hstack hst).1.of_dependsOn hE) hl⟩

private theorem foldlM_visitDependency_ok {visit : RPackage → DfsState → Except PlanFailure DfsState} {pkg : RPackage}
    (hvisit : VisitReturns db visit pkg) (ds : List String) : ∀ acc acc' : Nat × DfsState,
    ds ⊆ pkg.dependencies → acc.2.Inv db → ds.foldlM (db.visitDependency visit) acc = .ok acc' →
    Visited db pkg acc.2 acc'.2 ∧ acc.1 ≤ acc'.1 ∧
      (∀ n ∈ ds, ∃ d, db.find n = some d ∧ d ∈ acc'.2.dependencyLevels ∧ acc'.2.level d < acc'.1) ∧
      (acc'.1 = acc.1 ∨ ∃ n ∈ ds, ∃ d, db.find n = some d ∧ acc'.1 = acc'.2.level d + 1) := by
  induction ds with
  | nil =>
    intro acc acc' _ hinv h
    cases h
    exact ⟨.refl hinv, le_rfl, by simp, .inl rfl⟩
  | cons n ds ih =>
    intro acc acc' hds hinv h
    rw [List.foldlM_cons] at h
    obtain ⟨acc₁, h₁, h⟩ := Except.bind_eq_ok h
    obtain ⟨d, hd, hv₁, hmem₁, hmax⟩ := visitDependency_ok hvisit (hds (List.mem_cons_self ..)) hinv h₁
    obtain ⟨hv, hle, hall, hlevel⟩ := ih acc₁ acc' (fun x hx => hds (List.mem_cons_of_mem _ hx)) hv₁.inv h
    -- the rest of the loop keeps the level of `d` and only raises the local level
    have hkeep := hv.level hmem₁
    refine ⟨hv₁.trans hv, by omega, ?_, ?_⟩
    · intro k hk
      rcases List.mem_cons.1 hk with rfl | hk
      · exact ⟨d, hd, hv.mem hmem₁, by omega⟩
      · exact hall k hk
    · rcases hlevel with hlevel | ⟨k, hk, e, he, hlevel⟩
      · rcases Nat.le_total acc.1 (acc₁.2.level d + 1) with hl | hl
        · exact .inr ⟨n, List.mem_cons_self .., d, hd, by omega⟩
        · exact .inl (by omega)
      · exact .inr ⟨k, List.mem_cons_of_mem _ hk, e, he, hlevel⟩

/-- A visit that returns gives the package its level, whatever the database. -/
theorem dfsVisit_ok (fuel : Nat) : ∀ (pkg : RPackage) (st st' : DfsState), st.Inv db → pkg ∈ db.packages →
    pkg ∉ st.dependencyLevels → pkg ∉ st.inStack → db.dfsVisit fuel pkg st = .ok st' →
    Visited db pkg st st' ∧ pkg ∈ st'.dependencyLevels := by
  induction fuel with
  | zero =>
    intro pkg st st' _ _ _ _ h
    cases h
  | succ fuel ih =>
    intro pkg st st' hinv hpkg hlev hstack h
    have hinv₀ : ({ st with inStack := insert pkg st.inStack } : DfsState).Inv db := hinv.push hlev
    have hvisit : VisitReturns db (db.dfsVisit fuel) pkg := fun d st₁ st₂ hE hinv₁ hlev₁ hstack₁ h₁ =>
      ih d st₁ st₂ hinv₁ hE.mem hlev₁ hstack₁ h₁
    rw [dfsVisit] at h
    obtain ⟨acc, hfold, h⟩ := Except.bind_eq_ok h
    obtain ⟨hv, -, hall, hlevel⟩ := foldlM_visitDependency_ok hvisit pkg.dependencies _ acc (List.Subset.refl _) hinv₀
      hfold
    cases h
    refine ⟨finish_spec hpkg hstack hv ?_ hlevel, (AList.mem_insert _).2 (.inl rfl)⟩
    intro n hn d hd
    obtain ⟨d', hd', hmem⟩ := hall n hn
    rw [hd] at hd'
    obtain rfl := Option.some.inj hd'
    exact hmem

/-! ### Visits of a closed database -/

/-- What `visit` has to do when it is called for a dependency of `pkg` while `G` is the stack. -/
def VisitOk (db : RpkgDatabase) (visit : RPackage → DfsState → Except PlanFailure DfsState)
    (G : Finset RPackage) (pkg : RPackage) : Prop :=
  ∀ d st, db.DependsOn pkg d → st.Inv db → st.inStack = G → d ∉ st.dependencyLevels → d ∉ G →
    (∃ st', visit d st = .ok st' ∧ Visited db d st st' ∧ d ∈ st'.dependencyLevels) ∨
      ∃ n, visit d st = .error (.runtimeError (cycleMessage n)) ∧ ReachesCycle db.DependsOn d

/-- One dependency: it is visited, or a cycle is reported. -/
private theorem visitDependency_spec {visit : RPackage → DfsState → Except PlanFailure DfsState} {G : Finset RPackage}
    {pkg d : RPackage} {n : String} (hvisit : VisitOk db visit G pkg) (hn : n ∈ pkg.dependencies)
    (hd : db.find n = some d) (hG : ∀ g ∈ G, ReflTransGen db.DependsOn g pkg) {acc : Nat × DfsState}
    (hinv : acc.2.Inv db) (hst : acc.2.inStack = G) :
    (∃ acc', db.visitDependency visit acc n = .ok acc' ∧ Visited db pkg acc.2 acc'.2) ∨
      ∃ m, db.visitDependency visit acc n = .error (.runtimeError (cycleMessage m)) ∧
        ReachesCycle db.DependsOn pkg := by
  have hE : db.DependsOn pkg d := ⟨n, hn, hd⟩
  unfold visitDependency
  simp only [hd]
  by_cases hstack : d ∈ acc.2.inStack
  · -- `d` is an ancestor of `pkg`, so the edge to it closes a cycle
    right
    refine ⟨n, by simp [hstack], pkg, .refl, ?_⟩
    exact TransGen.head' hE (hG d (hst ▸ hstack))
  · simp only [hstack, if_false]
    by_cases hlev : d ∈ acc.2.dependencyLevels
    · left
      refine ⟨(max acc.1 (acc.2.level d + 1), acc.2), ?_, .refl hinv⟩
      simp [hlev, DfsState.lookup_of_mem hlev]
    · rcases hvisit d acc.2 hE hinv hst hlev (hst ▸ hstack) with ⟨st', hst', hv, hmem⟩ | ⟨m, hm, hc⟩
      · left
        refine ⟨(max acc.1 (st'.level d + 1), st'), ?_, hv.of_dependsOn hE⟩
        simp [hlev, hst', DfsState.lookup_of_mem hmem]
      · right
        refine ⟨m, ?_, hc.head (.single hE)⟩
        simp [hlev, hm]

/-- The loop over the dependencies `ds` comes to its end, or a cycle is reported. -/
private theorem foldlM_visitDependency_spec {visit : RPackage → DfsState → Except PlanFailure DfsState}
    {G : Finset RPackage} {pkg : RPackage} (hvisit : VisitOk db visit G pkg)
    (hclosed : ∀ n ∈ pkg.dependencies, (db.find n).isSome)
    (hG : ∀ g ∈ G, ReflTransGen db.DependsOn g pkg) (ds : List String) : ∀ acc : Nat × DfsState,
    ds ⊆ pkg.dependencies → acc.2.Inv db → acc.2.inStack = G →
    (∃ acc', ds.foldlM (db.visitDependency visit) acc = .ok acc') ∨
      ∃ m, ds.foldlM (db.visitDependency visit) acc = .error (.runtimeError (cycleMessage m)) ∧
        ReachesCycle db.DependsOn pkg := by
  induction ds with
  | nil => exact fun acc _ _ _ => .inl ⟨acc, rfl⟩
  | cons n ds ih =>
    intro acc hds hinv hst
    have hn : n ∈ pkg.dependencies := hds (List.mem_cons_self ..)
    obtain ⟨d, hd⟩ := Option.isSome_iff_exists.1 (hclosed n hn)
    rw [List.foldlM_cons]
    rcases visitDependency_spec hvisit hn hd hG hinv hst with ⟨acc₁, h₁, hv₁⟩ | ⟨m, hm, hc⟩
    · rw [h₁]
      exact ih acc₁ (fun x hx => hds (List.mem_cons_of_mem _ hx)) hv₁.inv (hv₁.inStack.trans hst)
    · right
      refine ⟨m, ?_, hc⟩
      rw [hm]; rfl

/-- A visit of `pkg` gives it a level and keeps the invariant, or reports a cycle that can be reached from `pkg`. -/
theorem dfsVisit_spec (hclosed : db.DependencyClosed) (fuel : Nat) : ∀ (pkg : RPackage) (st : DfsState),
    st.Inv db → pkg ∈ db.packages → pkg ∉ st.dependencyLevels → pkg ∉ st.inStack →
    (∀ g ∈ st.inStack, ReflTransGen db.DependsOn g pkg) →
    (db.packages.toFinset \ st.inStack).card ≤ fuel →
    (∃ st', db.dfsVisit fuel pkg st = .ok st' ∧ Visited db pkg st st' ∧ pkg ∈ st'.dependencyLevels) ∨
      ∃ n, db.dfsVisit fuel pkg st = .error (.runtimeError (cycleMessage n)) ∧ ReachesCycle db.DependsOn pkg := by
  induction fuel with
  | zero =>
    intro pkg st _ hpkg _ hstack _ hfuel
    -- the fuel covers the packages off the stack, and `pkg` is one of them
    have hmem : pkg ∈ db.packages.toFinset \ st.inStack := by simp [hpkg, hstack]
    have := Finset.card_pos.2 ⟨pkg, hmem⟩
    omega
  | succ fuel ih =>
    intro pkg st hinv hpkg hlev hstack hreach hfuel
    let G := insert pkg st.inStack
    have hG : ∀ g ∈ G, ReflTransGen db.DependsOn g pkg := by
      intro g hg
      rcases Finset.mem_insert.1 hg with rfl | hg
      · exact .refl
      · exact hreach g hg
    have hcard : (db.packages.toFinset \ G).card ≤ fuel := by
      have hlt : (db.packages.toFinset \ G).card < (db.packages.toFinset \ st.inStack).card := by
        apply Finset.card_lt_card
        refine ⟨Finset.sdiff_subset_sdiff (Finset.Subset.refl _) (Finset.subset_insert ..), fun h => ?_⟩
        have := h (show pkg ∈ db.packages.toFinset \ st.inStack by simp [hpkg, hstack])
        simp [G] at this
      omega
    -- the visits of the dependencies see `pkg` and its ancestors on the stack
    have hvisit : VisitOk db (db.dfsVisit fuel) G pkg := by
      intro d st₁ hE hinv₁ hst₁ hlev₁ hstack₁
      refine ih d st₁ hinv₁ hE.mem hlev₁ (hst₁ ▸ hstack₁) ?_ (hst₁ ▸ hcard)
      intro g hg
      exact (hG g (hst₁ ▸ hg)).tail hE
    have hinv₀ : ({ st with inStack := G } : DfsState).Inv db := hinv.push hlev
    rcases foldlM_visitDependency_spec hvisit (hclosed pkg hpkg) hG pkg.dependencies (0, { st with inStack := G })
      (List.Subset.refl _) hinv₀ rfl with ⟨acc, hfold⟩ | ⟨m, hm, hc⟩
    · left
      have hok : ∃ st', db.dfsVisit (fuel + 1) pkg st = .ok st' := ⟨_, by unfold dfsVisit; rw [hfold]; rfl⟩
      obtain ⟨st', hst'⟩ := hok
      exact ⟨st', hst', dfsVisit_ok (fuel + 1) pkg st st' hinv hpkg hlev hstack hst'⟩
    · right
      refine ⟨m, ?_, hc⟩
      unfold dfsVisit
      rw [hm]; rfl

end RpkgDatabase

end R4R

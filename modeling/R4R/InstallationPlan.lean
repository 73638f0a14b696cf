import R4R.DfsVisit

/-!
# The installation plan

`get_installation_plan` ends for every database that is closed under dependencies: with the cycle exception exactly
when a dependency cycle can be reached from the set, and otherwise with a plan whose step `i` lists the packages
whose longest dependency chain has length `i`, sorted by name.
-/

namespace R4R

open Relation Chains

/-! ### Sorting by name -/

private theorem sortByName_perm (pkgs : List RPackage) : (sortByName pkgs).Perm pkgs := List.perm_insertionSort _ _

private theorem sortByName_pairwise (pkgs : List RPackage) : (sortByName pkgs).Pairwise fun a b => a.name ≤ b.name := by
  have : Std.Total fun a b : RPackage => a.name ≤ b.name := ⟨fun a b => le_total a.name b.name⟩
  have : IsTrans RPackage fun a b => a.name ≤ b.name := ⟨fun _ _ _ h h' => le_trans h h'⟩
  exact List.pairwise_insertionSort _ _

namespace RpkgDatabase

variable {db : RpkgDatabase} {fuel : Nat} {S : List RPackage}

/-- Sorting packages of one database does not depend on the order in which they are given. -/
private theorem sortByName_congr (db : RpkgDatabase) {l l' : List RPackage} (hl : ∀ p ∈ l, p ∈ db.packages)
    (h : l.Perm l') : sortByName l = sortByName l' := by
  refine List.Perm.eq_of_pairwise ?_ (sortByName_pairwise l) (sortByName_pairwise l')
    ((sortByName_perm l).trans (h.trans (sortByName_perm l').symm))
  intro a b ha hb hab hba
  have ha' := (sortByName_perm l).mem_iff.1 ha
  have hb' := h.mem_iff.2 ((sortByName_perm l').mem_iff.1 hb)
  exact db.eq_of_name_eq (hl a ha') (hl b hb') (le_antisymm hab hba)

/-- Sorted packages of one database without repetitions have increasing names. -/
private theorem sortByName_lt (db : RpkgDatabase) {l : List RPackage} (hl : ∀ p ∈ l, p ∈ db.packages) (hnd : l.Nodup) :
    (sortByName l).Pairwise fun a b => a.name < b.name := by
  have hnd' : (sortByName l).Pairwise (· ≠ ·) :=
    List.nodup_iff_pairwise_ne.1 ((sortByName_perm l).nodup_iff.2 hnd)
  refine List.Pairwise.imp_of_mem ?_ ((sortByName_pairwise l).and hnd')
  intro a b ha hb ⟨hle, hne⟩
  have ha' := hl a ((sortByName_perm l).mem_iff.1 ha)
  have hb' := hl b ((sortByName_perm l).mem_iff.1 hb)
  exact lt_of_le_of_ne hle fun h => hne (db.eq_of_name_eq ha' hb' h)

/-! ### More fuel does not change a result -/

private theorem visitDependency_congr {visit visit' : RPackage → DfsState → Except PlanFailure DfsState}
    (h : ∀ d st, visit d st ≠ .error .outOfFuel → visit' d st = visit d st) (acc : Nat × DfsState) (n : String)
    (hne : db.visitDependency visit acc n ≠ .error .outOfFuel) :
    db.visitDependency visit' acc n = db.visitDependency visit acc n := by
  unfold visitDependency at hne ⊢
  cases hd : db.find n with
  | none => rfl
  | some d =>
    simp only [hd] at hne ⊢
    by_cases hstack : d ∈ acc.2.inStack
    · simp only [hstack, if_true]
    · by_cases hlev : d ∈ acc.2.dependencyLevels
      · simp only [hstack, hlev, if_true, if_false]
      · simp only [hstack, hlev, if_false] at hne ⊢
        rw [h d acc.2 fun he => hne (by rw [he]; rfl)]

private theorem dfsVisit_succ (fuel : Nat) : ∀ (pkg : RPackage) (st : DfsState),
    db.dfsVisit fuel pkg st ≠ .error .outOfFuel → db.dfsVisit (fuel + 1) pkg st = db.dfsVisit fuel pkg st := by
  induction fuel with
  | zero => intro pkg st h; exact absurd rfl h
  | succ fuel ih =>
    intro pkg st h
    rw [dfsVisit] at h ⊢
    rw [dfsVisit]
    rw [Except.foldlM_congr_of_ne (visitDependency_congr ih) _ _ fun he => h (by rw [he]; rfl)]

private theorem visitAll_succ {pkgs : List RPackage} {st : DfsState}
    (h : db.visitAll fuel pkgs st ≠ .error .outOfFuel) :
    db.visitAll (fuel + 1) pkgs st = db.visitAll fuel pkgs st := by
  refine Except.foldlM_congr_of_ne (fun st p hne => ?_) pkgs st h
  by_cases hlev : p ∈ st.dependencyLevels
  · simp only [hlev, if_true]
  · simp only [hlev, if_false] at hne ⊢
    exact dfsVisit_succ fuel p st hne

private theorem visitAll_mono {pkgs : List RPackage} {st : DfsState} (h : db.visitAll fuel pkgs st ≠ .error .outOfFuel)
    {fuel' : Nat} (hle : fuel ≤ fuel') : db.visitAll fuel' pkgs st = db.visitAll fuel pkgs st := by
  induction hle with
  | refl => rfl
  | step _ ih => rw [visitAll_succ (by rwa [ih]), ih]

/-! ### The search from all packages of the set -/

/-- What the search from `S` leaves. -/
structure Searched (db : RpkgDatabase) (S : List RPackage) (st : DfsState) : Prop where
  inv : st.Inv db
  mem_iff : ∀ p, p ∈ st.dependencyLevels ↔ db.Reachable S p

private theorem start_inv (db : RpkgDatabase) :
    DfsState.Inv db { inStack := ∅, dependencyLevels := ∅, maxLevel := 0 } where
  levelling := ⟨by simp, by simp, by simp⟩
  mem := by simp
  notInStack := by simp
  le_maxLevel := by simp
  maxLevel_eq := .inl rfl

private theorem mem_sortByName {p : RPackage} : p ∈ sortByName S ↔ p ∈ S := (sortByName_perm S).mem_iff

private theorem visitAll_ok (pkgs : List RPackage) : ∀ st st' : DfsState, st.Inv db → st.inStack = ∅ →
    (∀ p ∈ pkgs, p ∈ db.packages) → db.visitAll fuel pkgs st = .ok st' →
    st'.Inv db ∧ (∀ p, p ∈ st.dependencyLevels → p ∈ st'.dependencyLevels) ∧
      (∀ p ∈ pkgs, p ∈ st'.dependencyLevels) ∧
      ∀ p ∈ st'.dependencyLevels, p ∈ st.dependencyLevels ∨ db.Reachable pkgs p := by
  induction pkgs with
  | nil =>
    intro st st' hinv _ _ h
    cases h
    exact ⟨hinv, fun _ hp => hp, by simp, fun _ hp => .inl hp⟩
  | cons p pkgs ih =>
    intro st st' hinv hst hmem h
    rw [visitAll, List.foldlM_cons] at h
    obtain ⟨st₁, h₁, h⟩ := Except.bind_eq_ok h
    have hfirst : Visited db p st st₁ ∧ p ∈ st₁.dependencyLevels := by
      split at h₁
      · rename_i hlev
        cases h₁
        exact ⟨.refl hinv, hlev⟩
      · rename_i hlev
        exact dfsVisit_ok fuel p st st₁ hinv (hmem p (List.mem_cons_self ..)) hlev (by simp [hst]) h₁
    obtain ⟨hv, hlev₁⟩ := hfirst
    obtain ⟨hinv', hkeep, hall, hreach⟩ := ih st₁ st' hv.inv (hv.inStack.trans hst)
      (fun q hq => hmem q (List.mem_cons_of_mem _ hq)) h
    refine ⟨hinv', fun q hq => hkeep q (hv.mem hq), ?_, ?_⟩
    · intro q hq
      rcases List.mem_cons.1 hq with rfl | hq
      · exact hkeep _ hlev₁
      · exact hall q hq
    · intro q hq
      rcases hreach q hq with hq | ⟨s, hs, hsq⟩
      · exact (hv.reach q hq).imp_right fun h => ⟨p, List.mem_cons_self .., h⟩
      · exact .inr ⟨s, List.mem_cons_of_mem _ hs, hsq⟩

/-- A search that returns has found what can be reached from the set, whatever the database. -/
private theorem searched_of_visitAll (hS : ∀ p ∈ S, p ∈ db.packages) {st : DfsState}
    (h : db.visitAll fuel (sortByName S) { inStack := ∅, dependencyLevels := ∅, maxLevel := 0 } = .ok st) :
    Searched db S st := by
  obtain ⟨hinv, -, hall, hreach⟩ := visitAll_ok (sortByName S) _ st (start_inv db) rfl
    (fun p hp => hS p (mem_sortByName.1 hp)) h
  refine ⟨hinv, fun p => ⟨fun hp => ?_, ?_⟩⟩
  · rcases hreach p hp with hp | ⟨s, hs, hsp⟩
    · simp at hp
    · exact ⟨s, mem_sortByName.1 hs, hsp⟩
  · rintro ⟨s, hs, hsp⟩
    exact hinv.levelling.mem_of_reach (hall s (mem_sortByName.2 hs)) hsp

private theorem visitAll_spec (hclosed : db.DependencyClosed) (hfuel : db.packages.length ≤ fuel)
    (pkgs : List RPackage) : ∀ st : DfsState, st.Inv db → st.inStack = ∅ → (∀ p ∈ pkgs, p ∈ db.packages) →
    (∃ st', db.visitAll fuel pkgs st = .ok st') ∨
      ∃ n, db.visitAll fuel pkgs st = .error (.runtimeError (cycleMessage n)) ∧ db.CycleReachable pkgs := by
  induction pkgs with
  | nil => exact fun st _ _ _ => .inl ⟨st, rfl⟩
  | cons p pkgs ih =>
    intro st hinv hst hmem
    have hp := hmem p (List.mem_cons_self ..)
    -- the state after the first package, whether it was visited or had a level already
    have hfirst : (∃ st₁, (if p ∈ st.dependencyLevels then .ok st else db.dfsVisit fuel p st) = .ok st₁ ∧
          Visited db p st st₁) ∨
        ∃ n, (if p ∈ st.dependencyLevels then .ok st else db.dfsVisit fuel p st) =
          .error (.runtimeError (cycleMessage n)) ∧ ReachesCycle db.DependsOn p := by
      by_cases hlev : p ∈ st.dependencyLevels
      · left
        exact ⟨st, by simp [hlev], .refl hinv⟩
      · simp only [hlev, if_false]
        refine (dfsVisit_spec hclosed fuel p st hinv hp hlev (by simp [hst]) (by simp [hst]) ?_).imp_left ?_
        · rw [hst, Finset.sdiff_empty]
          exact Nat.le_trans (List.toFinset_card_le _) hfuel
        · rintro ⟨st₁, h₁, hv, -⟩
          exact ⟨st₁, h₁, hv⟩
    rw [visitAll, List.foldlM_cons]
    rcases hfirst with ⟨st₁, h₁, hv⟩ | ⟨n, hn, hc⟩
    · rw [h₁, Except.ok_bind]
      refine (ih st₁ hv.inv (hv.inStack.trans hst) fun q hq => hmem q (List.mem_cons_of_mem _ hq)).imp_right ?_
      rintro ⟨n, hn, s, hs, hc⟩
      exact ⟨n, hn, s, List.mem_cons_of_mem _ hs, hc⟩
    · right
      rw [hn]
      exact ⟨n, rfl, p, List.mem_cons_self .., hc⟩

/-- The search from a set either gives levels to exactly the packages that can be reached, and then no cycle can be
reached, or it reports a cycle that can be reached. -/
private theorem search_spec (hclosed : db.DependencyClosed) (hfuel : db.packages.length ≤ fuel)
    (hS : ∀ p ∈ S, p ∈ db.packages) :
    (∃ st, db.visitAll fuel (sortByName S) { inStack := ∅, dependencyLevels := ∅, maxLevel := 0 } = .ok st ∧
        Searched db S st ∧ ¬ db.CycleReachable S) ∨
      ∃ n, db.visitAll fuel (sortByName S) { inStack := ∅, dependencyLevels := ∅, maxLevel := 0 } =
        .error (.runtimeError (cycleMessage n)) ∧ db.CycleReachable S := by
  rcases visitAll_spec hclosed hfuel (sortByName S) _ (start_inv db) rfl (fun p hp => hS p (mem_sortByName.1 hp)) with
    ⟨st, hst⟩ | ⟨n, hn, s, hs, hc⟩
  · left
    have hsearched := searched_of_visitAll hS hst
    refine ⟨st, hst, hsearched, ?_⟩
    rintro ⟨s, hs, hc⟩
    exact hsearched.inv.levelling.not_reachesCycle ((hsearched.mem_iff s).2 ⟨s, hs, .refl⟩) hc
  · exact .inr ⟨n, hn, s, mem_sortByName.1 hs, hc⟩

theorem not_cycleReachable_of_search (hclosed : db.DependencyClosed) (hS : ∀ p ∈ S, p ∈ db.packages)
    (h : (db.visitAll db.packages.length (sortByName S)
      { inStack := ∅, dependencyLevels := ∅, maxLevel := 0 }).isOk = true) : ¬ db.CycleReachable S := by
  rcases search_spec hclosed (Nat.le_refl _) hS with ⟨_, -, -, hc⟩ | ⟨n, hn, -⟩
  · exact hc
  · rw [hn] at h
    cases h

/-! ### The steps of the plan -/

private theorem fillPlan_length_aux (entries : List (Σ _ : RPackage, Nat)) : ∀ plan : List (List RPackage),
    (entries.foldl (fun plan e => plan.modify e.2 (· ++ [e.1])) plan).length = plan.length := by
  induction entries with
  | nil => intro plan; rfl
  | cons e entries ih => intro plan; rw [List.foldl_cons, ih, List.length_modify]

private theorem fillPlan_getElem_aux (entries : List (Σ _ : RPackage, Nat)) (i : Nat) :
    ∀ plan : List (List RPackage),
    (entries.foldl (fun plan e => plan.modify e.2 (· ++ [e.1])) plan)[i]? =
      plan[i]?.map (· ++ (entries.filter (·.2 == i)).map (·.1)) := by
  induction entries with
  | nil => intro plan; simp
  | cons e entries ih =>
    intro plan
    rw [List.foldl_cons, ih, List.getElem?_modify]
    by_cases h : e.2 = i
    · simp [h, Function.comp_def]
    · simp [h]

private theorem fillPlan_length (n : Nat) (entries : List (Σ _ : RPackage, Nat)) : (fillPlan n entries).length = n := by
  rw [fillPlan, fillPlan_length_aux, List.length_replicate]

/-- Step `i` before sorting: the packages of level `i`, in the order of the entries. -/
private theorem fillPlan_getElem {n i : Nat} (hi : i < n) (entries : List (Σ _ : RPackage, Nat)) :
    (fillPlan n entries)[i]? = some ((entries.filter (·.2 == i)).map (·.1)) := by
  rw [fillPlan, fillPlan_getElem_aux, List.getElem?_replicate]
  simp [hi]

/-- A package is in step `i` exactly when its level is `i`. -/
private theorem mem_level_iff {order : HashOrder (Σ _ : RPackage, Nat)} {st : DfsState} {i : Nat} {p : RPackage} :
    p ∈ ((order.iterate st.dependencyLevels.entries).filter (·.2 == i)).map (·.1) ↔
      p ∈ st.dependencyLevels ∧ st.level p = i := by
  simp only [List.mem_map, List.mem_filter, (order.perm _).mem_iff, beq_iff_eq]
  constructor
  · rintro ⟨⟨q, n⟩, ⟨hq, rfl⟩, rfl⟩
    have hl : st.dependencyLevels.lookup q = some n := AList.mem_lookup_iff.2 hq
    exact ⟨DfsState.mem_of_lookup hl, by simp [DfsState.level, hl]⟩
  · rintro ⟨hp, rfl⟩
    exact ⟨⟨p, st.level p⟩, ⟨AList.mem_lookup_iff.1 (DfsState.lookup_of_mem hp), rfl⟩, rfl⟩

private theorem level_nodup {order : HashOrder (Σ _ : RPackage, Nat)} {st : DfsState} {i : Nat} :
    (((order.iterate st.dependencyLevels.entries).filter (·.2 == i)).map (·.1)).Nodup := by
  have hkeys : (st.dependencyLevels.entries.map (·.1)).Nodup := st.dependencyLevels.keys_nodup
  have hperm : ((order.iterate st.dependencyLevels.entries).map (·.1)).Nodup :=
    ((order.perm _).map _).nodup_iff.2 hkeys
  exact hperm.sublist (List.filter_sublist.map _)

/-- The plan for the set `S`: the steps list every package reached from `S` once, at the index that is the length of
its longest dependency chain, and each step is sorted by name. -/
structure IsInstallationPlan (db : RpkgDatabase) (S : List RPackage) (plan : List (List RPackage)) : Prop where
  once : plan.flatten.Nodup
  mem_iff : ∀ p, p ∈ plan.flatten ↔ db.Reachable S p
  height : ∀ (i : Nat) (step : List RPackage), plan[i]? = some step → ∀ p ∈ step, IsHeight db.DependsOn p i
  earlier : ∀ (i : Nat) (step : List RPackage), plan[i]? = some step → ∀ p ∈ step, ∀ d, db.DependsOn p d →
    ∃ (j : Nat) (step' : List RPackage), j < i ∧ plan[j]? = some step' ∧ d ∈ step'
  sorted : ∀ step ∈ plan, List.Pairwise (fun a b : RPackage => a.name < b.name) step
  nonempty : S ≠ [] → ∀ step ∈ plan, step ≠ []

/-- The plan built from the levels of a finished search. -/
def planOf (st : DfsState) (order : HashOrder (Σ _ : RPackage, Nat)) : List (List RPackage) :=
  (fillPlan (st.maxLevel + 1) (order.iterate st.dependencyLevels.entries)).map sortByName

/-- Step `i` of the plan is there exactly for `i ≤ max_level`, and lists the packages of level `i` by name. -/
private theorem planOf_getElem {st : DfsState} {order : HashOrder (Σ _ : RPackage, Nat)} {i : Nat}
    {step : List RPackage} : (planOf st order)[i]? = some step ↔ i ≤ st.maxLevel ∧
      step = sortByName (((order.iterate st.dependencyLevels.entries).filter (·.2 == i)).map (·.1)) := by
  rw [planOf, List.getElem?_map]
  by_cases hi : i < st.maxLevel + 1
  · rw [fillPlan_getElem hi, Option.map_some, Option.some.injEq]
    exact ⟨fun h => ⟨by omega, h.symm⟩, fun h => h.2.symm⟩
  · rw [List.getElem?_eq_none (by rw [fillPlan_length]; omega)]
    simp
    omega

private theorem mem_step_iff {st : DfsState} {order : HashOrder (Σ _ : RPackage, Nat)} {i : Nat}
    {step : List RPackage} (h : (planOf st order)[i]? = some step) {p : RPackage} :
    p ∈ step ↔ p ∈ st.dependencyLevels ∧ st.level p = i := by
  rw [(planOf_getElem.1 h).2, (sortByName_perm _).mem_iff]
  exact mem_level_iff

/-- Every package with a level is in the step of its level. -/
private theorem exists_step {st : DfsState} (hinv : st.Inv db) (order : HashOrder (Σ _ : RPackage, Nat))
    {p : RPackage} (hp : p ∈ st.dependencyLevels) :
    ∃ step, (planOf st order)[st.level p]? = some step ∧ p ∈ step := by
  refine ⟨_, planOf_getElem.2 ⟨hinv.le_maxLevel p hp, rfl⟩, ?_⟩
  rw [(sortByName_perm _).mem_iff]
  exact mem_level_iff.2 ⟨hp, rfl⟩

/-- There is a package of every level up to the largest. -/
private theorem exists_level {st : DfsState} (hinv : st.Inv db) (hne : ∃ p, p ∈ st.dependencyLevels) {i : Nat}
    (hi : i ≤ st.maxLevel) : ∃ p ∈ st.dependencyLevels, st.level p = i := by
  induction hk : st.maxLevel - i generalizing i with
  | zero =>
    obtain rfl : i = st.maxLevel := by omega
    rcases hinv.maxLevel_eq with h0 | h
    · obtain ⟨p, hp⟩ := hne
      exact ⟨p, hp, by have := hinv.le_maxLevel p hp; omega⟩
    · exact h
  | succ k ih =>
    obtain ⟨p, hp, hpi⟩ := ih (i := i + 1) (by omega) (by omega)
    rcases hinv.levelling.tight p hp with h0 | ⟨d, hd, hlev⟩
    · omega
    · exact ⟨d, hinv.levelling.closed p hp d hd, by omega⟩

/-- The plan of a finished search is the installation plan of the set. -/
theorem Searched.isInstallationPlan {st : DfsState} (h : Searched db S st)
    (order : HashOrder (Σ _ : RPackage, Nat)) : IsInstallationPlan db S (planOf st order) := by
  have hstep : ∀ step ∈ planOf st order, ∃ i, (planOf st order)[i]? = some step := fun step hs =>
    List.mem_iff_getElem?.1 hs
  have hmemDb : ∀ {i p}, p ∈ ((order.iterate st.dependencyLevels.entries).filter (·.2 == i)).map (·.1) →
      p ∈ db.packages := fun hp => h.inv.mem _ (mem_level_iff.1 hp).1
  have hsorted : ∀ step ∈ planOf st order, List.Pairwise (fun a b : RPackage => a.name < b.name) step := by
    intro step hs
    obtain ⟨i, hi⟩ := hstep step hs
    rw [(planOf_getElem.1 hi).2]
    exact db.sortByName_lt (fun p hp => hmemDb hp) level_nodup
  refine ⟨?_, ?_, ?_, ?_, hsorted, ?_⟩
  · -- a package is in the step of its level only
    rw [List.nodup_flatten]
    constructor
    · intro step hs
      exact (hsorted step hs).imp fun hlt heq => absurd hlt (by rw [heq]; exact lt_irrefl _)
    · rw [List.pairwise_iff_getElem]
      intro i j hi hj hij p hpi hpj
      have h₁ := (mem_step_iff (List.getElem?_eq_getElem hi)).1 hpi
      have h₂ := (mem_step_iff (List.getElem?_eq_getElem hj)).1 hpj
      omega
  · intro p
    rw [List.mem_flatten, ← h.mem_iff]
    constructor
    · rintro ⟨step, hs, hp⟩
      obtain ⟨i, hi⟩ := hstep step hs
      exact ((mem_step_iff hi).1 hp).1
    · intro hp
      obtain ⟨step, hs, hp⟩ := exists_step h.inv order hp
      exact ⟨step, List.mem_iff_getElem?.2 ⟨_, hs⟩, hp⟩
  · intro i step hi p hp
    obtain ⟨hlev, rfl⟩ := (mem_step_iff hi).1 hp
    exact h.inv.levelling.isHeight hlev
  · intro i step hi p hp d hd
    obtain ⟨hlev, rfl⟩ := (mem_step_iff hi).1 hp
    obtain ⟨step', hs', hd'⟩ := exists_step h.inv order (h.inv.levelling.closed p hlev d hd)
    exact ⟨st.level d, step', h.inv.levelling.lt p hlev d hd, hs', hd'⟩
  · -- below the largest level every level is taken
    intro hne step hs hnil
    obtain ⟨i, hi⟩ := hstep step hs
    obtain ⟨s, hs'⟩ := List.exists_mem_of_ne_nil S hne
    have hex : ∃ p, p ∈ st.dependencyLevels := ⟨s, (h.mem_iff s).2 ⟨s, hs', .refl⟩⟩
    obtain ⟨p, hp, hpi⟩ := exists_level h.inv hex (planOf_getElem.1 hi).1
    have := (mem_step_iff hi).2 ⟨hp, hpi⟩
    simp [hnil] at this

private theorem maxLevel_le {st st' : DfsState} (hinv : st.Inv db) (hinv' : st'.Inv db)
    (hmem : ∀ p, p ∈ st.dependencyLevels → p ∈ st'.dependencyLevels)
    (hlevel : ∀ p ∈ st.dependencyLevels, st.level p = st'.level p) : st.maxLevel ≤ st'.maxLevel := by
  rcases hinv.maxLevel_eq with h0 | ⟨p, hp, hlev⟩
  · omega
  · rw [← hlev, hlevel p hp]
    exact hinv'.le_maxLevel p (hmem p hp)

/-- The plan depends only on the packages that have a level, and not on the iteration order of the levels. -/
theorem planOf_congr {st st' : DfsState} (hinv : st.Inv db) (hinv' : st'.Inv db)
    (hmem : ∀ p, p ∈ st.dependencyLevels ↔ p ∈ st'.dependencyLevels)
    (order order' : HashOrder (Σ _ : RPackage, Nat)) : planOf st order = planOf st' order' := by
  -- a level is the height of its package
  have hlevel : ∀ p ∈ st.dependencyLevels, st.level p = st'.level p := fun p hp =>
    (hinv.levelling.isHeight hp).unique (hinv'.levelling.isHeight ((hmem p).1 hp))
  have hmax : st.maxLevel = st'.maxLevel :=
    Nat.le_antisymm (maxLevel_le hinv hinv' (fun p => (hmem p).1) hlevel)
      (maxLevel_le hinv' hinv (fun p => (hmem p).2) fun p hp => (hlevel p ((hmem p).2 hp)).symm)
  apply List.ext_getElem?
  intro i
  by_cases hi : i ≤ st.maxLevel
  · rw [planOf_getElem.2 ⟨hi, rfl⟩, planOf_getElem.2 ⟨hmax ▸ hi, rfl⟩]
    congr 1
    refine db.sortByName_congr (fun p hp => hinv.mem p (mem_level_iff.1 hp).1) ?_
    refine (List.perm_ext_iff_of_nodup level_nodup level_nodup).2 fun p => ?_
    rw [mem_level_iff, mem_level_iff, ← hmem p]
    exact and_congr_right fun hp => by rw [hlevel p hp]
  · have hlen : ∀ (st₁ : DfsState) o, st₁.maxLevel = st.maxLevel → (planOf st₁ o)[i]? = none := fun st₁ o h₁ => by
      rw [List.getElem?_eq_none]
      rw [planOf, List.length_map, fillPlan_length]
      omega
    rw [hlen st order rfl, hlen st' order' hmax.symm]

/-- From a set that reaches no cycle the search ends, and the computed plan is that of its levels, whatever the
iteration orders. -/
theorem exists_searched (hclosed : db.DependencyClosed) (hS : ∀ p ∈ S, p ∈ db.packages)
    (hacyclic : ¬ db.CycleReachable S) : ∃ st, Searched db S st ∧ ∀ fuel, db.packages.length ≤ fuel →
      ∀ order S', S'.Perm S → db.getInstallationPlan fuel order S' = .ok (planOf st .id) := by
  rcases search_spec hclosed (Nat.le_refl _) hS with ⟨st, hst, hs, -⟩ | ⟨n, -, hc⟩
  · refine ⟨st, hs, ?_⟩
    intro fuel hfuel order S' hperm
    have hst' : db.visitAll fuel (sortByName S) { inStack := ∅, dependencyLevels := ∅, maxLevel := 0 } = .ok st := by
      rw [visitAll_mono (by rw [hst]; simp) hfuel, hst]
    rw [getInstallationPlan, ← db.sortByName_congr hS hperm.symm, hst', Except.ok_bind,
      ← planOf_congr hs.inv hs.inv (fun _ => Iff.rfl) order .id]
    rfl
  · exact absurd hc hacyclic

/-- A plan that is returned is the installation plan of the set, whatever the database. -/
theorem isInstallationPlan_of_eq_ok (hS : ∀ p ∈ S, p ∈ db.packages) {order : HashOrder (Σ _ : RPackage, Nat)}
    {plan : List (List RPackage)} (h : db.getInstallationPlan fuel order S = .ok plan) :
    IsInstallationPlan db S plan := by
  rw [getInstallationPlan] at h
  obtain ⟨st, hst, h⟩ := Except.bind_eq_ok h
  cases h
  exact (searched_of_visitAll hS hst).isInstallationPlan order

/-! ### The two results -/

/-- The plan: every package reached from `S` exactly once, at the index that is the length of its longest dependency
chain, in sorted non-empty steps; the same for every iteration order of the set and of the hash tables. -/
theorem getInstallationPlan_correct (hclosed : db.DependencyClosed) (hS : ∀ p ∈ S, p ∈ db.packages)
    (hacyclic : ¬ db.CycleReachable S) : ∃ plan, IsInstallationPlan db S plan ∧
      ∀ fuel, db.packages.length ≤ fuel → ∀ order S', S'.Perm S → db.getInstallationPlan fuel order S' = .ok plan := by
  obtain ⟨st, hs, hplan⟩ := exists_searched hclosed hS hacyclic
  exact ⟨planOf st .id, hs.isInstallationPlan .id, hplan⟩

/-- The database of five packages `T → P → {Q, R} → S`. -/
def sharedDb : RpkgDatabase :=
  ⟨[pkgOf "P" ["Q", "R"], pkgOf "Q" ["S"], pkgOf "R" ["S"], pkgOf "S" [], pkgOf "T" ["P"]], by decide⟩

theorem getInstallationPlan_sharedDb : ∃ plan, IsInstallationPlan sharedDb sharedDb.packages plan ∧
    ∀ fuel, 5 ≤ fuel → ∀ order S', S'.Perm sharedDb.packages → sharedDb.getInstallationPlan fuel order S' = .ok plan :=
  getInstallationPlan_correct (by decide) (fun _ h => h)
    (not_cycleReachable_of_search (by decide) (fun _ h => h) (by decide))

example : (sharedDb.getInstallationPlan 5 .id sharedDb.packages).toOption.map (·.map (·.map (·.name))) =
    some [["S"], ["Q", "R"], ["P"], ["T"]] := by decide

/-- The computation ends, with a plan or with the cycle exception, and with the exception exactly when a dependency
cycle can be reached from `S`. -/
theorem getInstallationPlan_cycle_iff (hclosed : db.DependencyClosed) (hS : ∀ p ∈ S, p ∈ db.packages)
    (hfuel : db.packages.length ≤ fuel) (order : HashOrder (Σ _ : RPackage, Nat)) :
    ((∃ plan, db.getInstallationPlan fuel order S = .ok plan) ∨
        ∃ n, db.getInstallationPlan fuel order S = .error (.runtimeError (cycleMessage n))) ∧
      ((∃ n, db.getInstallationPlan fuel order S = .error (.runtimeError (cycleMessage n))) ↔
        db.CycleReachable S) := by
  rcases search_spec hclosed hfuel hS with ⟨st, hst, -, hc⟩ | ⟨n, hn, hc⟩
  · have hok : db.getInstallationPlan fuel order S = .ok (planOf st order) := by
      rw [getInstallationPlan, hst]; rfl
    refine ⟨.inl ⟨_, hok⟩, ?_, fun h => absurd h hc⟩
    rintro ⟨n, hn⟩
    rw [hok] at hn
    cases hn
  · have herr : db.getInstallationPlan fuel order S = .error (.runtimeError (cycleMessage n)) := by
      rw [getInstallationPlan, hn]; rfl
    exact ⟨.inr ⟨n, herr⟩, fun _ => hc, fun _ => ⟨n, herr⟩⟩

/-- A cycle behind a finished package: `C → A → B`, `D → E → D`, and `C` needs `D` too. -/
def cyclicDb : RpkgDatabase :=
  ⟨[pkgOf "A" ["B"], pkgOf "B" [], pkgOf "C" ["A", "D"], pkgOf "D" ["E"], pkgOf "E" ["D"]], by decide⟩

theorem getInstallationPlan_cyclicDb :
    ((∃ plan, cyclicDb.getInstallationPlan 5 .id cyclicDb.packages = .ok plan) ∨
        ∃ n, cyclicDb.getInstallationPlan 5 .id cyclicDb.packages = .error (.runtimeError (cycleMessage n))) ∧
      ((∃ n, cyclicDb.getInstallationPlan 5 .id cyclicDb.packages = .error (.runtimeError (cycleMessage n))) ↔
        cyclicDb.CycleReachable cyclicDb.packages) :=
  getInstallationPlan_cycle_iff (by decide) (fun _ h => h) (by decide) .id

example : cyclicDb.getInstallationPlan 5 .id cyclicDb.packages =
    .error (.runtimeError "Cycle detected in package dependencies: D") := by decide

end RpkgDatabase

end R4R

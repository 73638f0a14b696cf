import R4R.CurlResponses
import R4R.JsonParse
import R4R.JsonQuery
import R4R.SystemDependencies

/-!
# System requirements

`RpkgDatabase::get_system_dependencies` asks a package manager which Debian packages the R packages need.  What is read
of a response before something is thrown is kept, so a response counts up to its first element that is not as expected.
Unless the transfers drain, the names that come out are those that the responses list, whatever the order in which the
transfers finish and the results are taken (`run_requires`).
-/

namespace R4R

open CURLMultipleTransfer

/-- What is thrown while a result is read. -/
inductive SysreqError where
  | query (text : List Char)
  | http (code : Int) (message : List Char)
  | parse (e : JsonParser.Failure)
  | json (e : QueryFailure)
  | badVariantAccess

namespace Sysreqs

variable {D : Type}

/-- The loop over the packages of a requirement: what is inserted so far, and what is thrown. -/
def insertNames (names : List (List Char)) : JsonArray D → List (List Char) × Except SysreqError Unit
  | [] => (names, .ok ())
  | dep :: deps =>
    match dep.getIf .string with
    | some name => insertNames (Emplace.emplace id names name) deps
    | none => (names, .error .badVariantAccess)

/-- The loop over the requirements. -/
def insertRequirements (names : List (List Char)) : JsonArray D → List (List Char) × Except SysreqError Unit
  | [] => (names, .ok ())
  | req :: reqs =>
    match jsonQuery .array req "requirements.packages".toList with
    | .error e => (names, .error (.json e))
    | .ok deps =>
      match insertNames names deps with
      | (names, .ok _) => insertRequirements names reqs
      | (names, .error e) => (names, .error e)

/-- The `try` block for a result. -/
def readResult (fromDecimal : List Char → Option D) (names : List (List Char)) (r : CURLResult) :
    List (List Char) × Except SysreqError Unit :=
  match r with
  | .error text => (names, .error (.query text))
  | .http hr =>
    if hr.httpCode != 200 then (names, .error (.http hr.httpCode hr.message))
    else
      match JsonParser.parse fromDecimal hr.message with
      | .error e => (names, .error (.parse e))
      | .ok json =>
        match jsonQuery .array json "requirements".toList with
        | .error e => (names, .error (.json e))
        | .ok reqs => insertRequirements names reqs

/-- `posit_release` -/
def positRelease (distrib release : List Char) : List Char :=
  if distrib = "debian".toList ∧ release = [] then "12".toList else release

def url (distrib release : List Char) (p : RPackage) : List Char :=
  "https://packagemanager.posit.co/__api__/repos/cran/sysreqs?all=false&pkgname=".toList ++ p.name.toList ++
    "&distribution=".toList ++ distrib ++ "&release=".toList ++ positRelease distrib release

/-- The requests for the packages. -/
def requestsFor (distrib release : List Char) (pkgs : List RPackage) : List (RPackage × List Char) :=
  pkgs.map fun p => (p, url distrib release p)

end Sysreqs

open Sysreqs

/-- `RpkgDatabase::get_system_dependencies`, for the packages in the order of the hash table. -/
def RpkgDatabase.getSystemDependencies {D : Type} (fromDecimal : List Char → Option D)
    (activity : Nat → Activity RPackage) (fuel : Nat) (order : HashOrder (RPackage × CURLResult))
    (distrib release : List Char) (pkgs : List RPackage) : Option (List (List Char)) :=
  ((ofRequests 10 (requestsFor distrib release pkgs)).run activity fuel).map fun out =>
    (order.iterate out.1).foldl (fun names e => (readResult fromDecimal names e.2).1) []

/-! ### What a response lists -/

namespace Sysreqs

variable {D : Type}

/-- The value is an object with the member. -/
def HasMember (v : JsonValue D) (key : List Char) (value : JsonValue D) : Prop :=
  ∃ members : JsonObject D, v = .object members ∧ members.lookup key = some value

/-- The packages of a requirement. -/
def HasPackages (req : JsonValue D) (deps : JsonArray D) : Prop :=
  ∃ value, HasMember req "requirements".toList value ∧ HasMember value "packages".toList (.array deps)

/-- The name stands in the array, and only strings in front of it. -/
def ListsName (deps : JsonArray D) (name : List Char) : Prop :=
  ∃ (before : List (List Char)) (after : JsonArray D), deps = before.map .string ++ .string name :: after

/-- A requirement lists the name, and those in front of it have arrays of strings as their packages. -/
def ListsRequirement (reqs : JsonArray D) (name : List Char) : Prop :=
  ∃ before req after deps, reqs = before ++ req :: after ∧
    (∀ r ∈ before, ∃ names : List (List Char), HasPackages r (names.map .string)) ∧
    HasPackages req deps ∧ ListsName deps name

/-- The result is a response that lists the name. -/
def Lists (fromDecimal : List Char → Option D) (r : CURLResult) (name : List Char) : Prop :=
  ∃ text json reqs, r = .http ⟨200, text⟩ ∧ JsonParser.parse fromDecimal text = .ok json ∧
    HasMember json "requirements".toList (.array reqs) ∧ ListsRequirement reqs name

/-- A key as a step of a path. -/
def keyStep (text : List Char) (hne : text ≠ []) (hdot : '.' ∉ text) (hlong : toNumber text = none) : JsonStep :=
  .key text hne hdot (toNumber_eq_none_iff.1 hlong)

private theorem jsonStep_key {text : List Char} (hne : text ≠ []) (hlong : toNumber text = none)
    {v value : JsonValue D} :
    jsonStep v text = .ok value ↔ HasMember v text value := by
  have hempty : ¬ text.isEmpty = true := by simpa using hne
  unfold jsonStep
  rw [if_neg hempty, hlong]
  dsimp only
  cases v with
  | object members =>
    cases hl : members.lookup text with
    | none => simp [JsonValue.getIf, hl, HasMember]
    | some value' => simp [JsonValue.getIf, hl, HasMember]
  | null | bool | int | double | string | array => simp [JsonValue.getIf, HasMember]

private theorem jsonQuery_array_iff {v : JsonValue D} {path : List Char} {elems : JsonArray D} :
    jsonQuery .array v path = .ok elems ↔ jsonWalk v path = .ok (.array elems) := by
  unfold jsonQuery
  cases jsonWalk v path with
  | error e => simp
  | ok value => cases value <;> simp [JsonValue.getIf]

def requirementsStep : JsonStep := keyStep "requirements".toList (by decide) (by decide) (by decide +kernel)

def packagesStep : JsonStep := keyStep "packages".toList (by decide) (by decide) (by decide +kernel)

private theorem jsonWalk_keyStep {text : List Char} (hne : text ≠ []) (hdot : '.' ∉ text) (hlong : toNumber text = none)
    (steps : List JsonStep) {v w : JsonValue D} :
    jsonWalk v (jsonPath (keyStep text hne hdot hlong :: steps)) = .ok w ↔
      ∃ value, HasMember v text value ∧ jsonWalk value (jsonPath steps) = .ok w := by
  rw [jsonWalk_cons]
  constructor
  · intro h
    obtain ⟨value, hstep, h⟩ := Except.bind_eq_ok h
    exact ⟨value, (jsonStep_key hne hlong).1 hstep, h⟩
  · rintro ⟨value, hmember, h⟩
    have hstep : jsonStep v (keyStep text hne hdot hlong).text = .ok value := (jsonStep_key hne hlong).2 hmember
    rw [hstep]
    exact h

private theorem jsonQuery_requirements {v : JsonValue D} {elems : JsonArray D} :
    jsonQuery .array v "requirements".toList = .ok elems ↔ HasMember v "requirements".toList (.array elems) := by
  have hpath : "requirements".toList = jsonPath [requirementsStep] := by decide +kernel
  rw [jsonQuery_array_iff, hpath, requirementsStep, jsonWalk_keyStep]
  constructor
  · rintro ⟨value, hmember, hvalue⟩
    rw [jsonWalk_nil] at hvalue
    obtain rfl := Except.ok.inj hvalue
    exact hmember
  · intro hmember
    exact ⟨_, hmember, jsonWalk_nil _⟩

private theorem jsonQuery_packages {v : JsonValue D} {elems : JsonArray D} :
    jsonQuery .array v "requirements.packages".toList = .ok elems ↔ HasPackages v elems := by
  have hpath : "requirements.packages".toList = jsonPath [requirementsStep, packagesStep] := by decide +kernel
  rw [jsonQuery_array_iff, hpath, requirementsStep, jsonWalk_keyStep]
  refine exists_congr fun value => and_congr_right fun _ => ?_
  rw [packagesStep, jsonWalk_keyStep]
  constructor
  · rintro ⟨value', hmember, hvalue⟩
    rw [jsonWalk_nil] at hvalue
    obtain rfl := Except.ok.inj hvalue
    exact hmember
  · intro hmember
    exact ⟨_, hmember, jsonWalk_nil _⟩

private theorem HasPackages.unique {req : JsonValue D} {deps deps' : JsonArray D} (h : HasPackages req deps)
    (h' : HasPackages req deps') : deps = deps' :=
  Except.ok.inj ((jsonQuery_packages.2 h).symm.trans (jsonQuery_packages.2 h'))

/-! ### What is inserted -/

private theorem not_listsName_nil (name : List Char) : ¬ ListsName ([] : JsonArray D) name := by
  rintro ⟨before, after, h⟩
  cases before <;> cases h

private theorem listsName_cons_string {text name : List Char} {deps : JsonArray D} :
    ListsName (.string text :: deps) name ↔ name = text ∨ ListsName deps name := by
  constructor
  · rintro ⟨before, after, h⟩
    cases before with
    | nil =>
      obtain ⟨htext, -⟩ := List.cons.inj h
      exact .inl (JsonValue.string.inj htext).symm
    | cons first before => exact .inr ⟨before, after, (List.cons.inj h).2⟩
  · rintro (rfl | ⟨before, after, rfl⟩)
    · exact ⟨[], deps, rfl⟩
    · exact ⟨text :: before, after, rfl⟩

private theorem not_listsName_cons {dep : JsonValue D} (hdep : ∀ text, dep ≠ .string text) (deps : JsonArray D)
    (name : List Char) : ¬ ListsName (dep :: deps) name := by
  rintro ⟨before, after, h⟩
  cases before with
  | nil => exact hdep name (List.cons.inj h).1
  | cons first before => exact hdep first (List.cons.inj h).1

/-- The names up to the first element that is no string. -/
private theorem insertNames_spec (deps : JsonArray D) : ∀ names : List (List Char),
    (∀ name, name ∈ (insertNames names deps).1 ↔ name ∈ names ∨ ListsName deps name) ∧
      ((insertNames names deps).2 = .ok () ↔ ∃ texts : List (List Char), deps = texts.map .string) := by
  induction deps with
  | nil =>
    intro names
    refine ⟨fun name => ?_, iff_of_true rfl ⟨[], rfl⟩⟩
    simp [insertNames, not_listsName_nil]
  | cons dep deps ih =>
    intro names
    cases hdep : dep.getIf .string with
    | none =>
      have hno : ∀ text, dep ≠ .string text := by
        rintro text rfl
        cases hdep
      rw [insertNames, hdep]
      refine ⟨fun name => ?_, iff_of_false (by simp) ?_⟩
      · simp [not_listsName_cons hno]
      · rintro ⟨texts, h⟩
        cases texts with
        | nil => cases h
        | cons text texts => exact hno text (List.cons.inj h).1
    | some text =>
      obtain rfl : dep = .string text := getIf_eq_some.1 hdep
      obtain ⟨hmem, hok⟩ := ih (Emplace.emplace id names text)
      rw [insertNames, hdep]
      refine ⟨fun name => ?_, hok.trans ?_⟩
      · rw [hmem, Emplace.mem_emplace_id, listsName_cons_string, or_assoc]
      · constructor
        · rintro ⟨texts, rfl⟩
          exact ⟨text :: texts, rfl⟩
        · rintro ⟨texts, h⟩
          cases texts with
          | nil => cases h
          | cons first texts => exact ⟨texts, (List.cons.inj h).2⟩

private theorem listsRequirement_cons {req : JsonValue D} {reqs : JsonArray D} {name : List Char} :
    ListsRequirement (req :: reqs) name ↔ (∃ deps, HasPackages req deps ∧ ListsName deps name) ∨
      (∃ names : List (List Char), HasPackages req (names.map .string)) ∧ ListsRequirement reqs name := by
  constructor
  · rintro ⟨before, req', after, deps, h, hbefore, hpackages, hname⟩
    cases before with
    | nil =>
      obtain ⟨rfl, rfl⟩ := List.cons.inj h
      exact .inl ⟨deps, hpackages, hname⟩
    | cons first before =>
      obtain ⟨rfl, rfl⟩ := List.cons.inj h
      exact .inr ⟨hbefore _ (List.mem_cons_self ..),
        ⟨before, req', after, deps, rfl, fun r hr => hbefore r (List.mem_cons_of_mem _ hr), hpackages, hname⟩⟩
  · rintro (⟨deps, hpackages, hname⟩ | ⟨hstrings, before, req', after, deps, rfl, hbefore, hpackages, hname⟩)
    · exact ⟨[], req, reqs, deps, rfl, by simp, hpackages, hname⟩
    · exact ⟨req :: before, req', after, deps, rfl, List.forall_mem_cons.2 ⟨hstrings, hbefore⟩, hpackages, hname⟩

private theorem mem_insertRequirements (reqs : JsonArray D) : ∀ (names : List (List Char)) (name : List Char),
    name ∈ (insertRequirements names reqs).1 ↔ name ∈ names ∨ ListsRequirement reqs name := by
  induction reqs with
  | nil =>
    intro names name
    have hnone : ¬ ListsRequirement ([] : JsonArray D) name := by
      rintro ⟨before, req, after, deps, h, -⟩
      cases before <;> cases h
    simp [insertRequirements, hnone]
  | cons req reqs ih =>
    intro names name
    rw [listsRequirement_cons, insertRequirements]
    cases hquery : jsonQuery .array req "requirements.packages".toList with
    | error e =>
      have hnone : ∀ deps, ¬ HasPackages req deps := by
        intro deps hdeps
        rw [jsonQuery_packages.2 hdeps] at hquery
        cases hquery
      simp [hnone]
    | ok deps =>
      have hpackages : HasPackages req deps := jsonQuery_packages.1 hquery
      have hone : (∃ deps, HasPackages req deps ∧ ListsName deps name) ↔ ListsName deps name :=
        ⟨fun ⟨deps', hdeps', hname⟩ => hpackages.unique hdeps' ▸ hname, fun hname => ⟨deps, hpackages, hname⟩⟩
      obtain ⟨hmem, hok⟩ := insertNames_spec deps names
      dsimp only
      cases hinsert : insertNames names deps with
      | mk names' outcome =>
        rw [hinsert] at hmem hok
        rw [hone, ← or_assoc, ← hmem]
        cases outcome with
        | ok u =>
          obtain ⟨texts, rfl⟩ := hok.1 rfl
          have hstrings : ∃ names : List (List Char), HasPackages req (names.map .string) := ⟨texts, hpackages⟩
          rw [and_iff_right hstrings]
          exact ih names' name
        | error e =>
          have hnot : ¬ ∃ names : List (List Char), HasPackages req (names.map .string) := by
            rintro ⟨texts, htexts⟩
            have hbad := hok.2 ⟨texts, hpackages.unique htexts⟩
            cases hbad
          simp [hnot]

private theorem mem_readResult (fromDecimal : List Char → Option D) (names : List (List Char)) (r : CURLResult)
    (name : List Char) : name ∈ (readResult fromDecimal names r).1 ↔ name ∈ names ∨ Lists fromDecimal r name := by
  cases r with
  | error text =>
    have hnone : ¬ Lists fromDecimal (.error text) name := by
      rintro ⟨text', json, reqs, h, -⟩
      cases h
    simp [readResult, hnone]
  | http hr =>
    obtain ⟨code, message⟩ := hr
    unfold readResult
    dsimp only
    by_cases hcode : code = 200
    · subst hcode
      rw [if_neg (by simp)]
      cases hparse : JsonParser.parse fromDecimal message with
      | error e =>
        have hnone : ¬ Lists fromDecimal (.http ⟨200, message⟩) name := by
          rintro ⟨text, json, reqs, h, hjson, -⟩
          obtain ⟨-, rfl⟩ := HttpResult.mk.inj (CURLResult.http.inj h)
          rw [hjson] at hparse
          cases hparse
        simp [hnone]
      | ok json =>
        cases hquery : jsonQuery .array json "requirements".toList with
        | error e =>
          have hnone : ¬ Lists fromDecimal (.http ⟨200, message⟩) name := by
            rintro ⟨text, json', reqs, h, hjson, hmember, -⟩
            obtain ⟨-, rfl⟩ := HttpResult.mk.inj (CURLResult.http.inj h)
            obtain rfl := Except.ok.inj (hjson.symm.trans hparse)
            rw [jsonQuery_requirements.2 hmember] at hquery
            cases hquery
          dsimp only
          rw [hquery]
          simp [hnone]
        | ok reqs =>
          have hmember := jsonQuery_requirements.1 hquery
          have hlists : Lists fromDecimal (.http ⟨200, message⟩) name ↔ ListsRequirement reqs name := by
            constructor
            · rintro ⟨text, json', reqs', h, hjson, hmember', hname⟩
              obtain ⟨-, rfl⟩ := HttpResult.mk.inj (CURLResult.http.inj h)
              obtain rfl := Except.ok.inj (hjson.symm.trans hparse)
              have hsame := (jsonQuery_requirements.2 hmember').symm.trans hquery
              exact Except.ok.inj hsame ▸ hname
            · exact fun hname => ⟨message, json, reqs, rfl, hparse, hmember, hname⟩
          dsimp only
          rw [hquery, hlists]
          exact mem_insertRequirements reqs names name
    · have hnone : ¬ Lists fromDecimal (.http ⟨code, message⟩) name := by
        rintro ⟨text, json, reqs, h, -⟩
        exact hcode (HttpResult.mk.inj (CURLResult.http.inj h)).1
      rw [if_pos (by simpa using hcode)]
      simp [hnone]

private theorem mem_foldl_readResult (fromDecimal : List Char → Option D) (results : List (RPackage × CURLResult)) :
    ∀ (names : List (List Char)) (name : List Char),
      name ∈ results.foldl (fun names e => (readResult fromDecimal names e.2).1) names ↔
        name ∈ names ∨ ∃ e ∈ results, Lists fromDecimal e.2 name := by
  induction results with
  | nil => simp
  | cons e results ih =>
    intro names name
    rw [List.foldl_cons, ih, mem_readResult, or_assoc, List.exists_mem_cons_iff]

end Sysreqs

/-! ### All responses -/

namespace RpkgDatabase

variable {D : Type} {fromDecimal : List Char → Option D} {activity : Nat → Activity RPackage} {fuel : Nat}
  {order : HashOrder (RPackage × CURLResult)} {distrib release : List Char} {pkgs : List RPackage}
  {names : List (List Char)}

/-- The transfers for the packages, ten at a time. -/
def sysreqsWindow (pkgs : List RPackage) : Window RPackage := .start 10 pkgs

private theorem map_fst_requestsFor : (requestsFor distrib release pkgs).map Prod.fst = pkgs := by
  rw [requestsFor, List.map_map]
  exact List.map_id' _

/-- However the transfers finish and the results are taken, every name is listed by the response for one of the
packages.  Where the transfers do not drain while other requests wait, each package has its response, and every name
that it lists comes out. -/
private theorem getSystemDependencies_spec (hpkgs : pkgs.Nodup)
    (hrun : getSystemDependencies fromDecimal activity fuel order distrib release pkgs = some names) :
    (∀ name ∈ names, ∃ p ∈ pkgs, ∃ res t, Delivered activity (sysreqsWindow pkgs) p res t ∧
      Lists fromDecimal res name) ∧
    ((sysreqsWindow pkgs).NeverDrained (fun t => (activity t).finishedKeys) →
      ∀ p ∈ pkgs, ∃ res t, Delivered activity (sysreqsWindow pkgs) p res t ∧
        ∀ name, Lists fromDecimal res name → name ∈ names) := by
  obtain ⟨out, hout, rfl⟩ := Option.map_eq_some_iff.1 hrun
  have hkeys : ((requestsFor distrib release pkgs).map Prod.fst).Nodup := by rwa [map_fst_requestsFor]
  have hdelivered := delivered_of_run hkeys hout
  rw [map_fst_requestsFor] at hdelivered
  have hmem : ∀ name, name ∈ (order.iterate out.1).foldl (fun names e => (readResult fromDecimal names e.2).1) [] ↔
      ∃ e ∈ out.1, Lists fromDecimal e.2 name := by
    intro name
    rw [mem_foldl_readResult, or_iff_right List.not_mem_nil]
    exact exists_congr fun e => and_congr_left' (order.perm _).mem_iff
  constructor
  · intro name hname
    obtain ⟨⟨p, res⟩, he, hlists⟩ := (hmem name).1 hname
    obtain ⟨hp, t, ht⟩ := hdelivered p res he
    exact ⟨p, hp, res, t, ht, hlists⟩
  · intro hnever p hp
    have hcomplete := complete_of_run (by decide) hkeys (by rwa [map_fst_requestsFor]) hout
    have hin : p ∈ out.1.map Prod.fst := hcomplete.1.mem_iff.2 (by rwa [map_fst_requestsFor])
    obtain ⟨⟨p', res⟩, he, rfl⟩ := List.mem_map.1 hin
    obtain ⟨-, t, ht⟩ := hdelivered p' res he
    exact ⟨res, t, ht, fun name hlists => (hmem name).2 ⟨(p', res), he, hlists⟩⟩

end RpkgDatabase

/-! ### The packages of the manifest -/

namespace ResolveRPackageSystemDependencies

open RpkgDatabase

variable {D : Type} {fromDecimal : List Char → Option D} {activity : Nat → Activity RPackage} {fuel fuel' : Nat}
  {order : HashOrder (RPackage × CURLResult)} {distrib release : List Char} {pkgs : List RPackage}
  {names : List (List Char)} {db : RpkgDatabase} {dpkg : DpkgDatabase}
  {systemDependencies : Finset RPackage → List String} {orders : IterationOrders} {m m' : TraceManifest}
  {plan : List (List RPackage)}

/-- The Debian packages after the run, when the transfers do not drain while other requests wait: those of the manifest,
and, if there are packages to compile, `r-base-dev` and what the responses for them list, as far as `dpkg` knows it. -/
theorem run_requires (hpkgs : pkgs.Nodup) (hplan : m.installationPlan db fuel orders = .ok plan)
    (hcompiled : pkgs.toFinset = compiledOf plan.flatten)
    (hquery : getSystemDependencies fromDecimal activity fuel' order distrib release pkgs = some names)
    (hnames : systemDependencies (compiledOf plan.flatten) = names.map String.ofList)
    (hnever : (sysreqsWindow pkgs).NeverDrained fun t => (activity t).finishedKeys)
    (hrun : run db dpkg systemDependencies fuel orders m = .ok m') (pkg : DebPackage) :
    pkg ∈ m'.debPackages ↔ pkg ∈ m.debPackages ∨ pkgs ≠ [] ∧ (dpkg.lookupByName "r-base-dev" = some pkg ∨
      ∃ p ∈ pkgs, ∃ res t name, Delivered activity (sysreqsWindow pkgs) p res t ∧ Lists fromDecimal res name ∧
        dpkg.lookupByName (String.ofList name) = some pkg) := by
  obtain ⟨hlisted, hall⟩ := getSystemDependencies_spec hpkgs hquery
  have hnil : pkgs = [] ↔ compiledOf plan.flatten = ∅ := by rw [← hcompiled, List.toFinset_eq_empty_iff]
  have hdebs := (foldl_addDependency_frame plan.flatten ∅ m).2.2
  rw [run_of_plan hplan] at hrun
  obtain rfl := Except.ok.inj hrun
  dsimp only
  by_cases hempty : compiledOf plan.flatten = ∅
  · rw [if_pos hempty, hdebs]
    have hnone := hnil.2 hempty
    simp [hnone]
  · have hne : pkgs ≠ [] := fun h => hempty (hnil.1 h)
    rw [if_neg hempty, mem_foldl_addDebPackage, hdebs, and_iff_right hne]
    refine or_congr_right ?_
    have hin : ∀ name : String, name ∈ orders.names.iterate
        (Emplace.emplace id (systemDependencies (compiledOf plan.flatten)) "r-base-dev") ↔
          name ∈ names.map String.ofList ∨ name = "r-base-dev" := by
      intro name
      rw [(orders.names.perm _).mem_iff, Emplace.mem_emplace_id, hnames]
    constructor
    · rintro ⟨name, hname, hlookup⟩
      rcases (hin name).1 hname with hname | rfl
      · obtain ⟨text, htext, rfl⟩ := List.mem_map.1 hname
        obtain ⟨p, hp, res, t, hdelivered, hlists⟩ := hlisted text htext
        exact .inr ⟨p, hp, res, t, text, hdelivered, hlists, hlookup⟩
      · exact .inl hlookup
    · rintro (hlookup | ⟨p, hp, res, t, name, hdelivered, hlists, hlookup⟩)
      · exact ⟨_, (hin _).2 (.inr rfl), hlookup⟩
      · obtain ⟨res', t', hdelivered', hcomes⟩ := hall hnever p hp
        have hstart : ((sysreqsWindow pkgs).active ++ (sysreqsWindow pkgs).waiting).Nodup := by
          show (pkgs.take 10 ++ pkgs.drop 10).Nodup
          rwa [List.take_append_drop]
        obtain ⟨-, rfl⟩ := hdelivered.unique hstart hdelivered'
        exact ⟨_, (hin _).2 (.inl (List.mem_map_of_mem (hcomes name hlists))), hlookup⟩

/-- The package `C` of the database. -/
def packageC : RPackage := { pkgOf "C" [] with needsCompilation := true }

/-- The answer of the package manager for `C`, in two chunks. -/
def answerC : Nat → Activity RPackage
  | 0 => ⟨fun _ => "\x7b\"requirements\":[\x7b\"requirements\":".toList, []⟩
  | _ => ⟨fun _ => "\x7b\"packages\":[\"libxml2-dev\"]\x7d\x7d]\x7d".toList, [⟨packageC, true, [], 200⟩]⟩

theorem run_requires_baseDb : ∃ m',
    run baseDb headersDb (fun _ => ["libxml2-dev"]) 3 ⟨.id, .id, .id⟩ tracedA = .ok m' ∧
    ∀ pkg, pkg ∈ m'.debPackages ↔ pkg ∈ tracedA.debPackages ∨ [packageC] ≠ [] ∧
      (headersDb.lookupByName "r-base-dev" = some pkg ∨ ∃ p ∈ [packageC], ∃ res t name,
        Delivered answerC (sysreqsWindow [packageC]) p res t ∧
        Lists (fun _ => (none : Option Nat)) res name ∧ headersDb.lookupByName (String.ofList name) = some pkg) := by
  obtain ⟨m', hrun⟩ : ∃ m', run baseDb headersDb (fun _ => ["libxml2-dev"]) 3 ⟨.id, .id, .id⟩ tracedA = .ok m' :=
    ⟨_, rfl⟩
  obtain ⟨plan, hplan, hflatten⟩ : ∃ plan, tracedA.installationPlan baseDb 3 ⟨.id, .id, .id⟩ = .ok plan ∧
      [packageC].toFinset = compiledOf plan.flatten := ⟨_, rfl, by decide⟩
  have hquery : getSystemDependencies (fun _ => (none : Option Nat)) answerC 3 .id "ubuntu".toList "24.04".toList
      [packageC] = some ["libxml2-dev".toList] := by decide +kernel
  refine ⟨m', hrun, run_requires (by decide) hplan hflatten hquery rfl ?_ hrun⟩
  intro t _
  have hwait : (sysreqsWindow [packageC]).waiting = [] := rfl
  rw [Window.waiting_after, hwait, List.drop_nil]

end ResolveRPackageSystemDependencies

end R4R

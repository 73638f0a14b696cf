import Mathlib.Data.Char
import Mathlib.Data.List.Lex
import R4R.ImageBuild

/-!
# The same Dockerfile for the same manifest

The manifest keeps its files, packages and variables in hash tables, whose iteration order differs from run to run.
What `DockerFileBuilderTask::run` writes from them is sorted.  The plan depends only on which packages it is for
(`IsInstallationPlan.unique`), and the Dockerfile and the installation script only on what the tables hold
(`run_unordered`).
-/

namespace R4R

/-- Permuted lists are sorted to the same list. -/
private theorem insertionSort_eq_of_perm {α : Type*} {r : α → α → Prop} [DecidableRel r] [Std.Total r] [IsTrans α r]
    [Std.Antisymm r] {l l' : List α} (h : l.Perm l') : l.insertionSort r = l'.insertionSort r := by
  have hperm : (l.insertionSort r).Perm (l'.insertionSort r) :=
    ((List.perm_insertionSort r l).trans h).trans (List.perm_insertionSort r l').symm
  exact hperm.eq_of_pairwise' (List.pairwise_insertionSort r l) (List.pairwise_insertionSort r l')

namespace RpkgDatabase.IsInstallationPlan

variable {db : RpkgDatabase} {S S' : List RPackage} {plan plan' : List (List RPackage)}

/-- A package stands in the step of its height, in every plan. -/
private theorem mem_step (h : IsInstallationPlan db S plan) (h' : IsInstallationPlan db S' plan')
    (hS : ∀ p, p ∈ S ↔ p ∈ S')
    {i : Nat} {step : List RPackage} (hstep : plan[i]? = some step) {p : RPackage} (hp : p ∈ step) :
    ∃ step', plan'[i]? = some step' ∧ p ∈ step' := by
  have hflat : p ∈ plan.flatten := List.mem_flatten.2 ⟨step, List.mem_of_getElem? hstep, hp⟩
  have hreach : db.Reachable S' p := by
    obtain ⟨s, hs, hpath⟩ := (h.mem_iff p).1 hflat
    exact ⟨s, (hS s).1 hs, hpath⟩
  obtain ⟨step', hmem, hp'⟩ := List.mem_flatten.1 ((h'.mem_iff p).2 hreach)
  obtain ⟨j, hj⟩ := List.mem_iff_getElem?.1 hmem
  have hij : i = j := (h.height i step hstep p hp).unique (h'.height j step' hj p hp')
  exact ⟨step', hij ▸ hj, hp'⟩

/-- The same packages stand in a step of either plan. -/
private theorem step_eq (h : IsInstallationPlan db S plan) (h' : IsInstallationPlan db S' plan')
    (hS : ∀ p, p ∈ S ↔ p ∈ S')
    {i : Nat} {step step' : List RPackage} (hstep : plan[i]? = some step) (hstep' : plan'[i]? = some step') :
    step = step' := by
  have hmem : ∀ p, p ∈ step ↔ p ∈ step' := by
    intro p
    constructor
    · intro hp
      obtain ⟨other, hother, hp'⟩ := h.mem_step h' hS hstep hp
      rw [hstep'] at hother
      rwa [Option.some.inj hother]
    · intro hp
      obtain ⟨other, hother, hp'⟩ := h'.mem_step h (fun p => (hS p).symm) hstep' hp
      rw [hstep] at hother
      rwa [Option.some.inj hother]
  have hsorted := h.sorted step (List.mem_of_getElem? hstep)
  have hsorted' := h'.sorted step' (List.mem_of_getElem? hstep')
  have hnodup : ∀ l : List RPackage, l.Pairwise (fun a b => a.name < b.name) → l.Nodup := by
    intro l hl
    refine hl.imp fun hlt he => ?_
    rw [he] at hlt
    exact String.lt_irrefl _ hlt
  have hperm : step.Perm step' := (List.perm_ext_iff_of_nodup (hnodup _ hsorted) (hnodup _ hsorted')).2 hmem
  exact hperm.eq_of_pairwise (fun _ _ _ _ hlt hgt => absurd hgt (String.lt_asymm hlt)) hsorted hsorted'

/-- The plan of a set of packages does not depend on the order in which the set and the levels are iterated. -/
theorem unique (h : IsInstallationPlan db S plan) (h' : IsInstallationPlan db S' plan') (hne : S ≠ [])
    (hS : ∀ p, p ∈ S ↔ p ∈ S') : plan = plan' := by
  have hne' : S' ≠ [] := by
    obtain ⟨p, hp⟩ := List.exists_mem_of_ne_nil S hne
    exact List.ne_nil_of_mem ((hS p).1 hp)
  apply List.ext_getElem?
  intro i
  cases hstep : plan[i]? with
  | some step =>
    obtain ⟨p, hp⟩ := List.exists_mem_of_ne_nil step (h.nonempty hne step (List.mem_of_getElem? hstep))
    obtain ⟨step', hstep', -⟩ := h.mem_step h' hS hstep hp
    rw [hstep', h.step_eq h' hS hstep hstep']
  | none =>
    cases hstep' : plan'[i]? with
    | none => rfl
    | some step' =>
      obtain ⟨p, hp⟩ := List.exists_mem_of_ne_nil step' (h'.nonempty hne' step' (List.mem_of_getElem? hstep'))
      obtain ⟨step, hother, -⟩ := h'.mem_step h (fun p => (hS p).symm) hstep' hp
      rw [hstep] at hother
      cases hother

end RpkgDatabase.IsInstallationPlan

/-- The manifests hold the same, in tables that may be iterated in different orders. -/
structure FullManifest.SameAs (m m' : FullManifest) : Prop where
  copyFiles : m.copyFiles.entries.Perm m'.copyFiles.entries
  symlinks : m.symlinks.Perm m'.symlinks
  rPackages : m.rPackages.Perm m'.rPackages
  debPackages : m.debPackages.Perm m'.debPackages
  envir : m.envir.elems.Perm m'.envir.elems
  cmd : m.cmd = m'.cmd
  cwd : m.cwd = m'.cwd
  user : m.user = m'.user
  timezone : m.timezone = m'.timezone

namespace DockerFileBuilderTask

open DockerFileBuilder

instance : Std.Total pairLe where
  total a b := by
    rcases lt_trichotomy a.1 b.1 with hlt | heq | hgt
    · exact .inl (.inl hlt)
    · rcases le_total a.2 b.2 with hle | hge
      · exact .inl (.inr ⟨heq, hle⟩)
      · exact .inr (.inr ⟨heq.symm, hge⟩)
    · exact .inr (.inl hgt)

instance : IsTrans (List Char × List Char) pairLe where
  trans a b c hab hbc := by
    rcases hab with hab | ⟨hab, hle⟩ <;> rcases hbc with hbc | ⟨hbc, hle'⟩
    · exact .inl (hab.trans hbc)
    · exact .inl (hbc ▸ hab)
    · exact .inl (hab ▸ hbc)
    · exact .inr ⟨hab.trans hbc, hle.trans hle'⟩

instance : Std.Antisymm pairLe where
  antisymm a b hab hba := by
    rcases hab with hab | ⟨hab, hle⟩ <;> rcases hba with hba | ⟨hba, hle'⟩
    · exact absurd hba (lt_asymm hab)
    · exact absurd hba.symm hab.ne
    · exact absurd hab.symm hba.ne
    · exact Prod.ext hab (le_antisymm hle hle')

section Same

variable {m m' : FullManifest} (h : m.SameAs m')

include h

private theorem lookup_same (name : List Char) : m.envir.elems.lookup name = m'.envir.elems.lookup name := by
  apply Option.ext
  intro value
  rw [Assignments.lookup_eq_some_iff m.envir.nodup, Assignments.lookup_eq_some_iff m'.envir.nodup, h.envir.mem_iff]

private theorem sortedEnv_same : sortedEnv m = sortedEnv m' := insertionSort_eq_of_perm (h.envir.filter _)

private theorem debArgs_same : debArgs m = debArgs m' := by
  have hmem : ∀ arg, arg ∈ debArgs m ↔ arg ∈ debArgs m' := by
    intro arg
    rw [mem_debArgs, mem_debArgs]
    simp only [h.debPackages.mem_iff]
  have hperm := (List.perm_ext_iff_of_nodup nodup_debArgs nodup_debArgs).2 hmem
  exact hperm.eq_of_pairwise' (List.pairwise_insertionSort _ _) (List.pairwise_insertionSort _ _)

/-- The calls are the same, wherever the files come from. -/
private theorem calls_same (t : DockerFileBuilderTask) (placed : Bool) : t.calls m placed = t.calls m' placed := by
  have hlang : lang m = lang m' := by rw [lang, lang, lookup_same h]
  have htz : tz m = tz m' := by rw [tz, tz, lookup_same h, h.timezone]
  have hdebs : debCommands m = debCommands m' := by rw [debCommands, debCommands, debArgs_same h]
  have hdirs : directoryCommands m = directoryCommands m' := by
    rw [directoryCommands, directoryCommands, h.cwd, h.user]
  have hdebsEmpty : m.debPackages.isEmpty = m'.debPackages.isEmpty := by
    rw [Bool.eq_iff_iff, List.isEmpty_iff, List.isEmpty_iff, ← List.length_eq_zero_iff, ← List.length_eq_zero_iff,
      h.debPackages.length_eq]
  have hpkgsEmpty : m.rPackages.isEmpty = m'.rPackages.isEmpty := by
    rw [Bool.eq_iff_iff, List.isEmpty_iff, List.isEmpty_iff, ← List.length_eq_zero_iff, ← List.length_eq_zero_iff,
      h.rPackages.length_eq]
  simp only [calls, firstCalls, rCalls, lastCalls, hlang, htz, hdebs, hdirs, hdebsEmpty, hpkgsEmpty, h.user, h.cwd,
    h.cmd, sortedEnv_same h]

end Same

section Run

variable {host : BuildHost} {q : FileQueries} {stat : Path → Option Stat} {db : RpkgDatabase} {fuel fuel' : Nat}
  {order order' : HashOrder (Σ _ : RPackage, Nat)} {t : DockerFileBuilderTask} {m m' : FullManifest}
  {b b' c c' : DockerFileBuilder} {file file' : DockerFile} {written written' : List (Path × List Char)}

private theorem HasFiles.of_same (h : m.SameAs m') : HasFiles m.toTraceManifest ↔ HasFiles m'.toTraceManifest := by
  have hlinks : m.symlinks ≠ [] ↔ m'.symlinks ≠ [] := by
    rw [← List.length_pos_iff, ← List.length_pos_iff, h.symlinks.length_eq]
  have hfiles : (∃ path, (path, .copy) ∈ m.copyFiles.entries) ↔ ∃ path, (path, .copy) ∈ m'.copyFiles.entries :=
    exists_congr fun path => h.copyFiles.mem_iff
  exact or_congr hfiles hlinks

/-- The script for the R packages is the same. -/
private theorem installRPackages_same (h : m.SameAs m') (hpkgs : ∀ p ∈ m.rPackages, p ∈ db.packages)
    (hrun : t.installRPackages host db fuel order b m = .ok (c, written))
    (hrun' : t.installRPackages host db fuel' order' b' m' = .ok (c', written')) : written = written' := by
  have hmem : ∀ p, p ∈ m.rPackages ↔ p ∈ m'.rPackages := fun p => h.rPackages.mem_iff
  unfold installRPackages at hrun hrun'
  by_cases hempty : m.rPackages = []
  · have hempty' : m'.rPackages = [] := List.nil_perm.1 (hempty ▸ h.rPackages)
    rw [if_pos (by simp [hempty])] at hrun
    rw [if_pos (by simp [hempty'])] at hrun'
    rw [← (Prod.mk.inj (Except.ok.inj hrun)).2, ← (Prod.mk.inj (Except.ok.inj hrun')).2]
  · have hempty' : m'.rPackages ≠ [] := fun hnil => hempty (List.perm_nil.1 (hnil ▸ h.rPackages))
    rw [if_neg (by simpa using hempty)] at hrun
    rw [if_neg (by simpa using hempty')] at hrun'
    obtain ⟨plan, hplan, hrun⟩ := Except.bind_eq_ok hrun
    obtain ⟨plan', hplan', hrun'⟩ := Except.bind_eq_ok hrun'
    have his := RpkgDatabase.isInstallationPlan_of_eq_ok hpkgs (Except.mapError_eq_ok hplan)
    have his' := RpkgDatabase.isInstallationPlan_of_eq_ok (fun p hp => hpkgs p ((hmem p).2 hp))
      (Except.mapError_eq_ok hplan')
    obtain rfl := his.unique his' hempty hmem
    obtain ⟨steps, hsteps, hrun⟩ := Except.bind_eq_ok hrun
    obtain ⟨steps', hsteps', hrun'⟩ := Except.bind_eq_ok hrun'
    obtain rfl := Except.ok.inj (hsteps.symm.trans hsteps')
    obtain ⟨script, hscript, hrun⟩ := Except.bind_eq_ok hrun
    obtain ⟨script', hscript', hrun'⟩ := Except.bind_eq_ok hrun'
    obtain rfl := Except.ok.inj (hscript.symm.trans hscript')
    obtain ⟨d, -, hrun⟩ := Except.bind_eq_ok hrun
    obtain ⟨d', -, hrun'⟩ := Except.bind_eq_ok hrun'
    rw [← (Prod.mk.inj (Except.ok.inj hrun)).2, ← (Prod.mk.inj (Except.ok.inj hrun')).2]

/-- What is written besides the scripts for the files. -/
private theorem run_written (h : t.run host q stat db fuel order m = .ok (file, written)) :
    ∃ (b c : DockerFileBuilder) (script : List (Path × List Char)),
      t.installRPackages host db fuel order b m = .ok (c, script) ∧
      ∀ text, ((t.cranInstallScript, text) ∈ written ↔ (t.cranInstallScript, text) ∈ script) ∧
        ((t.dockerfile, text) ∈ written ↔ text = file.dockerfile) := by
  unfold run at h
  dsimp only at h
  obtain ⟨⟨b₁, script⟩, hr, h⟩ := Except.bind_eq_ok h
  obtain ⟨⟨b₂, scripts⟩, hfiles, h⟩ := Except.bind_eq_ok h
  obtain ⟨rfl, rfl⟩ := Prod.mk.inj (Except.ok.inj h)
  obtain ⟨-, hscript⟩ := installRPackages_calls hr
  obtain ⟨placed, -, hscripts, -, -⟩ := copyFiles_calls (Except.mapError_eq_ok hfiles)
  have hname : ∀ name ∈ ["pre_file_copy.sh", "post_file_copy.sh", "Dockerfile"],
      t.cranInstallScript ≠ t.outputDir / Path.ofString name := by
    intro name hmem
    simp only [List.mem_cons, List.not_mem_nil, or_false] at hmem
    rcases hmem with rfl | rfl | rfl <;> exact append_ne (by decide) (by decide) (by decide) (by decide) (by decide)
  have hname' : ∀ name ∈ ["pre_file_copy.sh", "post_file_copy.sh"],
      t.dockerfile ≠ t.outputDir / Path.ofString name := by
    intro name hmem
    simp only [List.mem_cons, List.not_mem_nil, or_false] at hmem
    rcases hmem with rfl | rfl <;> exact append_ne (by decide) (by decide) (by decide) (by decide) (by decide)
  have hnotScript : ∀ text, (t.dockerfile, text) ∉ script := by
    intro text hmem
    have hpath := List.mem_map_of_mem (f := Prod.fst) hmem
    rw [hscript] at hpath
    split at hpath
    · cases hpath
    · exact hname _ (by simp) (List.mem_singleton.1 hpath).symm
  have hnotScripts : ∀ path text, (path, text) ∈ scripts →
      path = t.preFileCopyScript ∨ path = t.postFileCopyScript := by
    intro path text hmem
    have hpath := List.mem_map_of_mem (f := Prod.fst) hmem
    rw [hscripts] at hpath
    split at hpath
    · simpa using hpath
    · cases hpath
  refine ⟨_, _, script, hr, fun text => ⟨?_, ?_⟩⟩
  · rw [List.mem_append, List.mem_append, List.mem_singleton]
    constructor
    · rintro ((hmem | hmem) | hmem)
      · exact hmem
      · rcases hnotScripts _ _ hmem with he | he
        · exact absurd he (hname _ (by simp))
        · exact absurd he (hname _ (by simp))
      · exact absurd (Prod.mk.inj hmem).1 (hname _ (by simp))
    · exact fun hmem => .inl (.inl hmem)
  · rw [List.mem_append, List.mem_append, List.mem_singleton]
    constructor
    · rintro ((hmem | hmem) | hmem)
      · exact absurd hmem (hnotScript text)
      · rcases hnotScripts _ _ hmem with he | he
        · exact absurd he (hname' _ (by simp))
        · exact absurd he (hname' _ (by simp))
      · exact (Prod.mk.inj hmem).2
    · rintro rfl
      exact .inr rfl

/-- Whatever the order in which the tables of the manifest are iterated, the Dockerfile and the installation script are
the same. -/
theorem run_unordered (h : m.SameAs m') (hpkgs : ∀ p ∈ m.rPackages, p ∈ db.packages)
    (hrun : t.run host q stat db fuel order m = .ok (file, written))
    (hrun' : t.run host q stat db fuel' order' m' = .ok (file', written')) :
    file = file' ∧ ∀ path ∈ [t.cranInstallScript, t.dockerfile], ∀ text,
      (path, text) ∈ written ↔ (path, text) ∈ written' := by
  have hfile : file = file' := by
    obtain ⟨placed, b, happly, rfl, -, hplaced, -⟩ := run_calls hrun
    obtain ⟨placed', b', happly', rfl, -, hplaced', -⟩ := run_calls hrun'
    have hbool : placed = placed' := by
      rw [Bool.eq_iff_iff, hplaced, hplaced', HasFiles.of_same h]
    rw [hbool, calls_same h] at happly
    obtain rfl := Except.ok.inj (happly.symm.trans happly')
    rfl
  obtain ⟨b, c, script, hscript, hwritten⟩ := run_written hrun
  obtain ⟨b', c', script', hscript', hwritten'⟩ := run_written hrun'
  obtain rfl := installRPackages_same h hpkgs hscript hscript'
  refine ⟨hfile, fun path hpath text => ?_⟩
  simp only [List.mem_cons, List.not_mem_nil, or_false] at hpath
  rcases hpath with rfl | rfl
  · rw [(hwritten text).1, (hwritten' text).1]
  · rw [(hwritten text).2, (hwritten' text).2, hfile]

end Run

def twoDb : RpkgDatabase := ⟨[pkgOf "B" [], pkgOf "C" []], by decide⟩

/-- A manifest with two packages of each kind, and the same in the other order. -/
def twoManifest : FullManifest :=
  { plainManifest with
    rPackages := [pkgOf "B" [], pkgOf "C" []]
    debPackages := [⟨"r-base-core", "4.3.1-1"⟩, ⟨"zlib1g", "1.2"⟩] }

def twoManifestReversed : FullManifest :=
  { plainManifest with
    rPackages := [pkgOf "C" [], pkgOf "B" []]
    debPackages := [⟨"zlib1g", "1.2"⟩, ⟨"r-base-core", "4.3.1-1"⟩] }

theorem run_unordered_two : ∃ file written written',
    plainTask.run plainHost (LinkedFiles.besideLink.kernelQueries []) (fun _ => none) twoDb 2 .id twoManifest =
      .ok (file, written) ∧
    plainTask.run plainHost (LinkedFiles.besideLink.kernelQueries []) (fun _ => none) twoDb 3 .id
      twoManifestReversed = .ok (file, written') := by
  have hsame : twoManifest.SameAs twoManifestReversed :=
    ⟨.refl _, .refl _, .swap .., .swap .., .refl _, rfl, rfl, rfl, rfl⟩
  obtain ⟨file, written, hrun⟩ : ∃ file written, plainTask.run plainHost (LinkedFiles.besideLink.kernelQueries [])
      (fun _ => none) twoDb 2 .id twoManifest = .ok (file, written) := ⟨_, _, rfl⟩
  obtain ⟨file', written', hrun'⟩ : ∃ file' written', plainTask.run plainHost
      (LinkedFiles.besideLink.kernelQueries []) (fun _ => none) twoDb 3 .id twoManifestReversed =
        .ok (file', written') := ⟨_, _, rfl⟩
  obtain ⟨hfile, -⟩ := run_unordered hsame (fun p hp => hp) hrun hrun'
  exact ⟨file, written, written', hrun, hfile ▸ hrun'⟩

end DockerFileBuilderTask

end R4R

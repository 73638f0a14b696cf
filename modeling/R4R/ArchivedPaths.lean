import R4R.PipelineAccounts
import R4R.TracedPaths

/-!
# The paths in the archive

Which of the recorded files and symlinks a run of the pipeline puts into the archive: those that no package provides,
that are no results and that the resolver of the copied files still finds, and behind a symlink its text
(`runPipeline_archives_iff`).  So nothing that the map of `Tracer::configure` ignores gets into the archive, unless it
is the text of a symlink (`runPipeline_archives_kept`).
-/

namespace R4R

open IgnoreFileMap

variable {e : ResolveEnv} {fuel : Nat} {s s' : TracerState}

/-! ### What the packages leave over -/

/-- The elements that stay are those for which no package is found. -/
private theorem mem_kept_eraseIf_eraseFound {α P : Type} [DecidableEq P] {find : α → Resolving (Option P)}
    (as : List α) :
    ∀ {resolved resolved' : List P} {kept : List α}, Except.eraseIf (eraseFound find) resolved as =
      .ok (resolved', kept) → ∀ a, a ∈ kept ↔ a ∈ as ∧ find a = .ok none := by
  induction as with
  | nil =>
    intro resolved resolved' kept h a
    obtain ⟨-, rfl⟩ := Prod.mk.inj (Except.ok.inj h)
    simp
  | cons b as ih =>
    intro resolved resolved' kept h a
    obtain ⟨resolved₁, erased, kept₁, hpred, hrest, rfl⟩ := Except.eraseIf_cons_eq_ok h
    have htail := ih hrest a
    rcases eraseFound_eq_ok hpred with ⟨hnone, -, rfl⟩ | ⟨pkg, hfind, -, rfl⟩
    · by_cases hab : a = b
      · subst hab
        simp [hnone]
      · simp [hab, htail]
    · by_cases hab : a = b
      · subst hab
        have hnot : a ∉ kept₁ := by
          intro hmem
          rw [(htail.1 hmem).2] at hfind
          cases hfind
        simp [hnot, hfind]
      · simp [hab, htail]

/-- What the first two resolvers leave to the third. -/
structure LeftOver (e : ResolveEnv) (fuel : Nat) (s s' : TracerState) : Prop where
  files : ∀ f, f ∈ s'.tracedFiles ↔ f ∈ s.tracedFiles ∧ DebPackageResolver.packageOf e fuel f.path = .ok none ∧
    RPackageResolver.packageOf e fuel f.path = .ok none
  links : ∀ link, link ∈ s'.tracedSymlinks ↔
    link ∈ s.tracedSymlinks ∧ DebPackageResolver.packageOf e fuel link.1 = .ok none
  sublist : s'.tracedFiles.Sublist s.tracedFiles
  linksSublist : s'.tracedSymlinks.Sublist s.tracedSymlinks
  copyFiles : s'.manifest.copyFiles = s.manifest.copyFiles
  symlinks : s'.manifest.symlinks = s.manifest.symlinks

private theorem leftOver_of_ok {s₁ : TracerState} (hdeb : DebPackageResolver.resolve e fuel s = .ok s₁)
    (hr : RPackageResolver.resolve e fuel s₁ = .ok s') : LeftOver e fuel s s' := by
  obtain ⟨⟨debs, files⟩, hfiles, hdeb⟩ := Except.bind_eq_ok hdeb
  obtain ⟨⟨debs', links⟩, hlinks, hdeb⟩ := Except.bind_eq_ok hdeb
  obtain rfl := Except.ok.inj hdeb
  obtain ⟨⟨pkgs, files'⟩, hfiles', hr⟩ := Except.bind_eq_ok hr
  obtain rfl := Except.ok.inj hr
  have hmanifest : (pkgs.foldl TraceManifest.insertRPackage (debs'.foldl TraceManifest.insertDebPackage s.manifest)) =
      { s.manifest with
        debPackages := debs'.foldl (Emplace.emplace id) s.manifest.debPackages
        rPackages := pkgs.foldl (Emplace.emplace id) s.manifest.rPackages } := by
    rw [TraceManifest.foldl_insertRPackage, TraceManifest.foldl_insertDebPackage]
  have hcopyFiles := congrArg (fun m : TraceManifest => m.copyFiles) hmanifest
  have hsymlinks := congrArg (fun m : TraceManifest => m.symlinks) hmanifest
  refine ⟨fun f => ?_, mem_kept_eraseIf_eraseFound _ hlinks, ?_, (eraseIf_eraseFound_of_ok _ hlinks).1, hcopyFiles,
    hsymlinks⟩
  · exact (mem_kept_eraseIf_eraseFound _ hfiles' f).trans
      ((and_congr_left' (mem_kept_eraseIf_eraseFound _ hfiles f)).trans and_assoc)
  · exact (eraseIf_eraseFound_of_ok _ hfiles').1.trans (eraseIf_eraseFound_of_ok _ hfiles).1

namespace CopyFileResolver

variable {q : FileQueries}

private theorem foldl_resolveSymlinkEntry_symlinks (links : List (Path × Path)) : ∀ m : TraceManifest,
    (links.foldl (resolveSymlinkEntry q) m).symlinks =
      ((links.filter (installed q)).map Prod.fst).foldl (Emplace.emplace Path.parts) m.symlinks := by
  induction links with
  | nil => exact fun m => rfl
  | cons entry links ih =>
    intro m
    rw [List.foldl_cons, ih]
    by_cases h : installed q entry = true
    · rw [List.filter_cons_of_pos h, resolveSymlinkEntry, if_pos h]
      rfl
    · rw [List.filter_cons_of_neg h, resolveSymlinkEntry, if_neg h]

/-- The symlinks of the manifest, when it starts with none and they have different paths. -/
private theorem mem_resolve_symlinks_iff (hkeys : (s.tracedSymlinks.map fun entry => entry.1.parts).Nodup)
    (hnone : s.manifest.symlinks = []) (p : Path) : p ∈ (resolve q s).manifest.symlinks ↔
      ∃ entry ∈ s.tracedSymlinks, installed q entry = true ∧ p = entry.1 := by
  have hfilter : (((s.tracedSymlinks.filter (installed q)).map Prod.fst).map Path.parts).Nodup := by
    rw [List.map_map]
    exact (List.filter_sublist.map _).nodup hkeys
  simp only [resolve]
  rw [foldl_resolveSymlinkEntry_symlinks, (foldl_resolveFile q _ s.tracedFiles s.manifest).symlinks, hnone,
    Emplace.foldl_emplace_of_nodup hfilter, List.nil_append]
  constructor
  · intro hp
    obtain ⟨entry, hentry, rfl⟩ := List.mem_map.1 hp
    obtain ⟨hmem, hinstalled⟩ := List.mem_filter.1 hentry
    exact ⟨entry, hmem, hinstalled, rfl⟩
  · rintro ⟨entry, hmem, hinstalled, rfl⟩
    exact List.mem_map_of_mem (List.mem_filter.2 ⟨hmem, hinstalled⟩)

end CopyFileResolver

/-! ### The manifest -/

namespace Tracer

variable {h : PipelineHost} {o : Options} {tracer : FileTracer} {result : SyscallMonitor.Result} {r : PipelineResult}

/-- The file is recorded, no package provides it, it is no result, and it had existed before and still is an accessible
regular file or a symlink to one. -/
structure IsCopied (h : PipelineHost) (fuel : Nat) (o : Options) (tracer : FileTracer) (f : FileInfo) : Prop where
  mem : f ∈ tracer.files.elems
  notDeb : DebPackageResolver.packageOf h.resolve fuel f.path = .ok none
  notRPackage : RPackageResolver.packageOf h.resolve fuel f.path = .ok none
  notResult : f.path.parts ∉ o.results.map Path.parts
  status : CopyFileResolver.statusOf h.resolve.queries f = .copy

/-- The symlink is recorded, no Debian package provides it, it is still a symlink, and what its recorded text names, a
relative one in the current directory of `r4r`, exists. -/
structure IsInstalled (h : PipelineHost) (fuel : Nat) (tracer : FileTracer) (link : Path × Path) : Prop where
  mem : link ∈ tracer.symlinks.elems
  notDeb : DebPackageResolver.packageOf h.resolve fuel link.1 = .ok none
  installed : CopyFileResolver.installed h.resolve.queries link = true

private theorem collect_files {p : PipelineState} (hrun : collect h fuel o tracer result = .ok p) :
    (∀ path, (path, .copy) ∈ p.manifest.copyFiles.entries ↔ ∃ f, IsCopied h fuel o tracer f ∧ path = f.path) ∧
      ∀ path, path ∈ p.manifest.symlinks ↔ ∃ link, IsInstalled h fuel tracer link ∧ path = link.1 := by
  obtain ⟨s, t, hstart, hfiles, -, hlarge⟩ := collect_eq_ok hrun
  obtain ⟨s₁, hdeb, hfiles⟩ := Except.bind_eq_ok hfiles
  obtain ⟨s₂, hr, hfiles⟩ := Except.bind_eq_ok hfiles
  obtain rfl := Except.ok.inj hfiles
  have hleft := leftOver_of_ok hdeb hr
  rw [hlarge.copyFiles, hlarge.symlinks]
  constructor
  · intro path
    rw [CopyFileResolver.mem_resolve_iff ((hleft.sublist.map _).nodup hstart.distinct)
      (hleft.copyFiles ▸ hstart.results), hleft.copyFiles, hstart.copyFiles]
    constructor
    · rintro (hentry | ⟨f, hf, hkey, heq⟩)
      · cases result_of_mem_initialFiles hentry
      · obtain ⟨rfl, hstatus⟩ := Prod.mk.inj heq
        obtain ⟨hmem, hdeb, hr⟩ := (hleft.files f).1 hf
        have hresult : f.path.parts ∉ o.results.map Path.parts := fun hres => hkey (mem_initialFiles.2 hres)
        exact ⟨f, ⟨hstart.files.mem_iff.1 hmem, hdeb, hr, hresult, hstatus.symm⟩, rfl⟩
    · rintro ⟨f, hf, rfl⟩
      refine .inr ⟨f, (hleft.files f).2 ⟨hstart.files.mem_iff.2 hf.mem, hf.notDeb, hf.notRPackage⟩,
        fun hkey => hf.notResult (mem_initialFiles.1 hkey), ?_⟩
      rw [hf.status]
  · intro path
    have hkeys : (s.tracedSymlinks.map fun entry => entry.1.parts).Nodup :=
      ((hstart.links.map fun entry => entry.1.parts).nodup_iff).2 tracer.symlinks.nodup
    rw [CopyFileResolver.mem_resolve_symlinks_iff ((hleft.linksSublist.map _).nodup hkeys)
      (hleft.symlinks.trans hstart.symlinks)]
    constructor
    · rintro ⟨link, hlink, hinstalled, rfl⟩
      obtain ⟨hmem, hdeb⟩ := (hleft.links link).1 hlink
      exact ⟨link, ⟨hstart.links.mem_iff.1 hmem, hdeb, hinstalled⟩, rfl⟩
    · rintro ⟨link, hlink, rfl⟩
      exact ⟨link, (hleft.links link).2 ⟨hstart.links.mem_iff.2 hlink.mem, hlink.notDeb⟩, hlink.installed, rfl⟩

/-! ### The archive -/

open DockerFileBuilderTask

private theorem archiveFiles_of_run (hedit : o.skipManifest = true ∨ ¬EditManifestTask.IsEdited h.edit)
    (hrun : runPipeline h fuel o tracer result = .ok r) : ∃ p files, collect h fuel o tracer result = .ok p ∧
      archiveFiles h.resolve.queries p.manifest.toTraceManifest = .ok files ∧ r.state.manifest = p.manifest ∧
      (files ≠ [] → h.build.createTarArchive o.dockerfileTask.archive files = .ok ()) := by
  obtain ⟨p, m, text, file, written, makefile, hcollect, hmanifest, hdocker, -, rfl⟩ := runPipeline_eq_ok hrun
  have hkept : m = p.manifest := by
    refine EditManifestTask.run_of_not_edited (hedit.imp_left fun hskip => ?_) hmanifest
    rw [hskip]
    rfl
  subst hkept
  obtain ⟨placed, -, -, -, -, hplaced, files, hfiles, htar⟩ := run_calls hdocker
  refine ⟨p, files, hcollect, hfiles, rfl, fun hne => htar (hplaced.2 ?_)⟩
  obtain ⟨path, hpath⟩ := List.exists_mem_of_ne_nil _ hne
  rcases (mem_archiveFiles hfiles path).1 hpath with ⟨path', hentry, -⟩ | hlink
  · exact .inl ⟨path', hentry⟩
  · exact .inr (List.ne_nil_of_mem hlink)

/-- In a run that ends well and whose manifest is not edited, the archive is made of exactly these paths: the recorded
files that are to be copied, the texts of the symlinks among them as they stand, and the recorded symlinks that are to
be installed. -/
theorem runPipeline_archives_iff (hedit : o.skipManifest = true ∨ ¬EditManifestTask.IsEdited h.edit)
    (hrun : runPipeline h fuel o tracer result = .ok r) :
    ∃ files, archiveFiles h.resolve.queries r.state.manifest.toTraceManifest = .ok files ∧
      (files ≠ [] → h.build.createTarArchive o.dockerfileTask.archive files = .ok ()) ∧
      ∀ path, path ∈ files ↔
        (∃ f, IsCopied h fuel o tracer f ∧ (path = f.path ∨ h.resolve.queries.isSymlink f.path = .ok true ∧
          h.resolve.queries.readSymlink f.path = .ok path)) ∨
        ∃ link, IsInstalled h fuel tracer link ∧ path = link.1 := by
  obtain ⟨p, files, hcollect, hfiles, hmanifest, htar⟩ := archiveFiles_of_run hedit hrun
  obtain ⟨hcopied, hinstalled⟩ := collect_files hcollect
  refine ⟨files, hmanifest ▸ hfiles, htar, fun path => ?_⟩
  rw [mem_archiveFiles hfiles, hinstalled]
  refine or_congr_left ⟨?_, ?_⟩
  · rintro ⟨path', hentry, hpath⟩
    obtain ⟨f, hf, rfl⟩ := (hcopied path').1 hentry
    exact ⟨f, hf, hpath⟩
  · rintro ⟨f, hf, hpath⟩
    exact ⟨f.path, (hcopied _).2 ⟨f, hf, rfl⟩, hpath⟩

private theorem not_isEdited_plain : ¬EditManifestTask.IsEdited plainPipelineHost.edit := by
  rintro ⟨hopen, -⟩
  exact absurd hopen (by decide)

theorem runPipeline_archives_iff_plain : ∃ r,
    runPipeline plainPipelineHost 20 plainOptions plainTracer (.exit 0) = .ok r ∧
    archiveFiles plainPipelineHost.resolve.queries r.state.manifest.toTraceManifest = .ok [.ofString "/data.csv"] ∧
    ∀ path, path ∈ [Path.ofString "/data.csv"] ↔
      (∃ f, IsCopied plainPipelineHost 20 plainOptions plainTracer f ∧ (path = f.path ∨
        plainPipelineHost.resolve.queries.isSymlink f.path = .ok true ∧
          plainPipelineHost.resolve.queries.readSymlink f.path = .ok path)) ∨
      ∃ link, IsInstalled plainPipelineHost 20 plainTracer link ∧ path = link.1 := by
  obtain ⟨r, hrun, hmanifest⟩ := plain_runPipeline
  obtain ⟨files, hfiles, -, hmem⟩ := runPipeline_archives_iff (.inr not_isEdited_plain) hrun
  have hdata : archiveFiles plainPipelineHost.resolve.queries r.state.manifest.toTraceManifest =
      .ok [.ofString "/data.csv"] := by
    rw [hmanifest]
    rfl
  obtain rfl := Except.ok.inj (hdata.symm.trans hfiles)
  exact ⟨r, hrun, hdata, hmem⟩

section Kept

variable {arch : FileTracer.Arch} {es : List FileTracer.Event} {queries : FileTracer.Event → FileQueries}
  {fuel' : Nat} {sr : SymlinkResolver} {home : Option Path} {defaults : DefaultImageFiles}

/-- In such a run with what the tracer has recorded of the processes, every path in the archive is one that the map did
not ignore at one of the stops, or the text of a symlink at such a path.  As in `run_recorded`, the home directory is
not below a default wildcard. -/
theorem runPipeline_archives_kept
    (hhome : ∀ dir, home = some dir → ¬ UnderWildcard (configureDefaultIgnorePattern none) dir)
    (hcwd : ∀ e ∈ es, ∀ dir, e.answers.currentPath = .ok dir → dir.isAbsolute = true)
    (hasks : ∀ e ∈ es, FileTracer.AsksMap (ofCalls sr (configure home defaults)) (queries e) fuel' e.answers)
    (htrace : FileTracer.run arch es = .ok tracer)
    (hedit : o.skipManifest = true ∨ ¬EditManifestTask.IsEdited h.edit)
    (hrun : runPipeline h fuel o tracer result = .ok r) :
    ∃ files, archiveFiles h.resolve.queries r.state.manifest.toTraceManifest = .ok files ∧ ∀ path ∈ files,
      FileTracer.IsTraced (FileTracer.KeptAt queries fuel' sr (configure home defaults) es) path ∨
        ∃ p, FileTracer.IsTraced (FileTracer.KeptAt queries fuel' sr (configure home defaults) es) p ∧
          h.resolve.queries.isSymlink p = .ok true ∧ h.resolve.queries.readSymlink p = .ok path := by
  have htraced := FileTracer.traced_run
    (fun e he => FileTracer.keepsOut_of_asksMap hhome he (hcwd e he) (hasks e he)) htrace
  obtain ⟨p, files, hcollect, hfiles, hmanifest, -⟩ := archiveFiles_of_run hedit hrun
  obtain ⟨hcopied, hinstalled⟩ := collect_files hcollect
  refine ⟨files, hmanifest ▸ hfiles, fun path hpath => ?_⟩
  rcases (mem_archiveFiles hfiles path).1 hpath with ⟨path', hentry, htext⟩ | hlink
  · obtain ⟨f, hf, rfl⟩ := (hcopied path').1 hentry
    have hfile := htraced.files f hf.mem
    rcases htext with rfl | ⟨hlink, htext⟩
    · exact .inl hfile
    · exact .inr ⟨f.path, hfile, hlink, htext⟩
  · obtain ⟨link, hin, rfl⟩ := (hinstalled path).1 hlink
    exact .inl (htraced.symlinks link hin.mem).1

end Kept

theorem runPipeline_archives_kept_openings : ∃ tracer r files,
    FileTracer.run .x86_64 FileTracer.openings = .ok tracer ∧
    runPipeline plainPipelineHost 20 plainOptions tracer (.exit 0) = .ok r ∧
    archiveFiles plainPipelineHost.resolve.queries r.state.manifest.toTraceManifest = .ok files ∧
    Path.ofString "/data.csv" ∈ files ∧ ∀ path ∈ files,
      FileTracer.IsTraced (FileTracer.KeptAt (fun _ => noFiles) 2 ⟨[]⟩ FileTracer.bashCalls FileTracer.openings) path ∨
        ∃ p, FileTracer.IsTraced
            (FileTracer.KeptAt (fun _ => noFiles) 2 ⟨[]⟩ FileTracer.bashCalls FileTracer.openings) p ∧
          plainPipelineHost.resolve.queries.isSymlink p = .ok true ∧
          plainPipelineHost.resolve.queries.readSymlink p = .ok path := by
  obtain ⟨tracer, r, htrace, hrun, hdata⟩ : ∃ tracer r, FileTracer.run .x86_64 FileTracer.openings = .ok tracer ∧
      runPipeline plainPipelineHost 20 plainOptions tracer (.exit 0) = .ok r ∧
      archiveFiles plainPipelineHost.resolve.queries r.state.manifest.toTraceManifest =
        .ok [.ofString "/data.csv"] := ⟨_, _, rfl, rfl, rfl⟩
  obtain ⟨files, hfiles, hall⟩ := runPipeline_archives_kept FileTracer.not_underWildcard_root
    FileTracer.currentPath_openings FileTracer.asksMap_openings htrace (.inr not_isEdited_plain) hrun
  obtain rfl := Except.ok.inj (hdata.symm.trans hfiles)
  exact ⟨tracer, r, _, htrace, hrun, hdata, List.mem_singleton_self _, hall⟩

end Tracer

end R4R

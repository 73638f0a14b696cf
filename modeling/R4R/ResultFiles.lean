import R4R.CommandLine
import R4R.PathJoin
import R4R.ResolverRuns

/-!
# The files of `--result`

The argument of `--result` is made absolute by `fs::absolute`, which keeps the elements `.` and `..`, while the tracer
puts its paths into lexical normal form.  `CopyFileResolver` compares the two element by element.  So a traced file is
recorded as a result exactly when an argument is spelled without such elements, or the file is new anyway
(`recordedAsResult_iff`).
-/

namespace R4R

open FileTree

namespace Path

variable {p : Path}

/-- No element is `.` or `..`. -/
def Dotless (p : Path) : Prop := ['.'] ∉ p.parts ∧ ['.', '.'] ∉ p.parts

instance (p : Path) : Decidable p.Dotless := inferInstanceAs (Decidable (_ ∧ _))

private theorem parts_pathOf {loc : Location (List Char)} (h : ∀ n ∈ loc, IsName n) :
    (pathOf loc).parts = ['/'] :: loc.reverse := by
  rw [parts, isAbsolute_pathOf h, filenames_pathOf h]
  cases loc with
  | nil => rfl
  | cons n d => simp [hasFilename_pathOf_cons (h n (List.mem_cons_self ..))]

/-- The elements of the lexical normal form: the names that are kept, and an empty element when a separator follows. -/
private theorem parts_lexicallyNormal (habs : p.isAbsolute = true) :
    p.lexicallyNormal.parts = ['/'] :: (normalize p.lookupComponents).1.reverse ++
      if (normalize p.lookupComponents).2 && !(normalize p.lookupComponents).1.isEmpty then [[]] else [] := by
  have hnames := (foldl_normalStep_parts habs).2
  rw [lexicallyNormal_eq habs]
  split
  · rename_i hdir
    simp only [Bool.and_eq_true, Bool.not_eq_true', List.isEmpty_eq_false_iff] at hdir
    obtain ⟨n, d, hloc⟩ := List.exists_cons_of_ne_nil hdir.2
    rw [parts_append_nil, parts_pathOf hnames]
    · rw [hloc]
      exact hasFilename_pathOf_cons (hnames n (hloc ▸ List.mem_cons_self ..)) d
    · rw [filenames_pathOf hnames, hloc]
      simp
  · rw [parts_pathOf hnames, List.append_nil]

private theorem dotless_lexicallyNormal (habs : p.isAbsolute = true) : p.lexicallyNormal.Dotless := by
  have hnames := (foldl_normalStep_parts habs).2
  have hmem : ∀ s ∈ p.lexicallyNormal.parts, s = ['/'] ∨ IsName s ∨ s = [] := by
    intro s hs
    rw [parts_lexicallyNormal habs] at hs
    rcases List.mem_append.1 hs with hs | hs
    · rcases List.mem_cons.1 hs with hs | hs
      · exact .inl hs
      · exact .inr (.inl (hnames s (List.mem_reverse.1 hs)))
    · split at hs
      · exact .inr (.inr (List.mem_singleton.1 hs))
      · cases hs
  constructor
  · intro hdot
    rcases hmem _ hdot with h | h | h
    · cases h
    · exact h.ne_dot rfl
    · cases h
  · intro hdots
    rcases hmem _ hdots with h | h | h
    · cases h
    · exact h.ne_dots rfl
    · cases h

/-- A path without such elements is normal. -/
private theorem parts_lexicallyNormal_of_dotless (habs : p.isAbsolute = true) (h : p.Dotless) :
    p.lexicallyNormal.parts = p.parts := by
  have hnames : ∀ n ∈ p.filenames.reverse, IsName n := by
    intro n hn
    have hn := List.mem_reverse.1 hn
    have hparts : n ∈ p.parts := by simp [parts, hn]
    obtain ⟨hne, hslash⟩ := of_mem_filenames hn
    exact ⟨hne, hslash, fun he => h.1 (he ▸ hparts), fun he => h.2 (he ▸ hparts)⟩
  have hcomponents : p.filenames.map componentOf = LinkTree.namesOf p.filenames.reverse := by
    have hroot := map_componentOf_filenames_pathOf hnames
    rwa [filenames_pathOf hnames, List.reverse_reverse] at hroot
  have hnormal : normalize p.lookupComponents =
      (p.filenames.reverse, !p.filenames.isEmpty && !p.hasFilename) := by
    rw [lookupComponents_eq, hcomponents]
    cases !p.filenames.isEmpty && !p.hasFilename with
    | true => rw [if_pos rfl, normalize_concat, normalize_namesOf]; rfl
    | false => rw [if_neg Bool.false_ne_true, List.append_nil, normalize_namesOf]
  rw [parts_lexicallyNormal habs, hnormal, parts, if_pos habs, List.reverse_reverse]
  cases p.filenames <;> simp

private theorem parts_lexicallyNormal_iff (habs : p.isAbsolute = true) :
    p.lexicallyNormal.parts = p.parts ↔ p.Dotless := by
  constructor
  · intro h
    have hdotless := dotless_lexicallyNormal habs
    rwa [Dotless, h] at hdotless
  · exact parts_lexicallyNormal_of_dotless habs

private theorem parts_lexicallyNormal_idem (habs : p.isAbsolute = true) :
    p.lexicallyNormal.lexicallyNormal.parts = p.lexicallyNormal.parts :=
  parts_lexicallyNormal_of_dotless (isAbsolute_lexicallyNormal habs) (dotless_lexicallyNormal habs)

end Path

/-- The loop of `Tracer::run_pipeline` over the results. -/
def initialFiles (results : List Path) : Files := results.foldl (fun files f => files.emplace f .result) .empty

/-- The file has the status of a result, and under no spelling of its path that of a file to be copied. -/
def RecordedAsResult (m : TraceManifest) (path : Path) : Prop :=
  (∃ e ∈ m.copyFiles.entries, e.1.parts = path.parts ∧ e.2 = .result) ∧
    ∀ e ∈ m.copyFiles.entries, e.1.lexicallyNormal.parts = path.parts → e.2 ≠ .copy

/-- The keys are the absolute forms of the arguments. -/
private theorem mem_results {cwd : Path} {args : List Path} {k : List (List Char)} :
    k ∈ (args.foldl (Options.insertResult cwd) []).map Path.parts ↔
      ∃ r ∈ args, r.native ≠ [] ∧ (cwd / r).parts = k := by
  have hfold : ∀ results : List Path, k ∈ (args.foldl (Options.insertResult cwd) results).map Path.parts ↔
      k ∈ results.map Path.parts ∨ ∃ r ∈ args, r.native ≠ [] ∧ (cwd / r).parts = k := by
    induction args with
    | nil => simp
    | cons r args ih =>
      intro results
      rw [List.foldl_cons, ih, List.exists_mem_cons_iff, ← or_assoc]
      refine or_congr ?_ Iff.rfl
      unfold Options.insertResult
      by_cases hr : r.native = []
      · simp [hr]
      · rw [if_neg (by simpa using hr), Emplace.mem_map_key_emplace, eq_comm (a := k)]
        simp [hr]
  rw [hfold]
  simp

private theorem entries_initialFiles (results : List Path) : (initialFiles results).entries =
    (results.map fun f => (f, FileStatus.result)).foldl (Emplace.emplace fun e => e.1.parts) [] := by
  have hfold : ∀ files : Files, (results.foldl (fun files f => files.emplace f .result) files).entries =
      (results.map fun f => (f, FileStatus.result)).foldl (Emplace.emplace fun e => e.1.parts) files.entries := by
    induction results with
    | nil => intro files; rfl
    | cons f results ih => intro files; exact ih _
  exact hfold .empty

theorem mem_initialFiles {results : List Path} {k : List (List Char)} :
    k ∈ (initialFiles results).entries.map (fun e => e.1.parts) ↔ k ∈ results.map Path.parts := by
  rw [entries_initialFiles, Emplace.mem_map_key_foldl_emplace, List.map_map]
  simp

theorem result_of_mem_initialFiles {results : List Path} {e : Path × FileStatus}
    (h : e ∈ (initialFiles results).entries) : e.2 = .result := by
  rw [entries_initialFiles] at h
  rcases Emplace.mem_foldl_emplace h with h | h
  · cases h
  · obtain ⟨f, -, rfl⟩ := List.mem_map.1 h
    rfl

namespace CopyFileResolver

variable {q : FileQueries}

/-- A file that is not among the results counts as one when it is new and there. -/
private theorem statusOf_eq_result_iff {f : FileInfo} : statusOf q f = .result ↔ f.existedBefore = false ∧
    q.checkAccessibility f.path = .accessible ∧ shouldConsider q f.path = .ok true := by
  unfold statusOf checkFile
  cases q.checkAccessibility f.path with
  | accessible =>
    cases shouldConsider q f.path with
    | error what => simp
    | ok consider => cases consider <;> cases f.existedBefore <;> simp [pure, Except.pure]
  | doesNotExist => simp [pure, Except.pure]
  | insufficientPermission => simp [pure, Except.pure]

/-- What is recorded of traced files with different paths when the manifest starts with results: those, and every other
file with its status. -/
theorem mem_resolve_iff {s : TracerState} (hdistinct : (s.tracedFiles.map fun g => g.path.parts).Nodup)
    (hresult : ∀ e ∈ s.manifest.copyFiles.entries, e.2 = .result) (e : Path × FileStatus) :
    e ∈ (resolve q s).manifest.copyFiles.entries ↔ e ∈ s.manifest.copyFiles.entries ∨
      ∃ f ∈ s.tracedFiles, f.path.parts ∉ s.manifest.copyFiles.entries.map (fun e => e.1.parts) ∧
        e = (f.path, statusOf q f) := by
  have hfiles := foldl_resolveFile q
    ((s.manifest.copyFiles.entries.filter fun entry => entry.2 = .result).map fun entry => entry.1.parts)
    s.tracedFiles s.manifest
  have hlinks := foldl_resolveSymlinkEntry (q := q) s.tracedSymlinks
    (s.tracedFiles.foldl (resolveFile q
      ((s.manifest.copyFiles.entries.filter fun entry => entry.2 = .result).map fun entry => entry.1.parts)) s.manifest)
  have hall : (s.manifest.copyFiles.entries.filter fun entry => entry.2 = .result) = s.manifest.copyFiles.entries :=
    List.filter_eq_self.2 fun entry hentry => by simp [hresult entry hentry]
  simp only [resolve]
  rw [hlinks]
  rw [hall] at hfiles ⊢
  generalize s.tracedFiles.foldl (resolveFile q _) s.manifest = m' at hfiles ⊢
  constructor
  · intro he
    rcases hfiles.added e he with hold | ⟨f, hf, rfl⟩
    · exact .inl hold
    · by_cases hkey : f.path.parts ∈ s.manifest.copyFiles.entries.map fun e => e.1.parts
      · -- the key has one entry
        obtain ⟨e₀, he₀, hkey⟩ := List.mem_map.1 hkey
        obtain rfl := List.inj_on_of_nodup_map m'.copyFiles.nodup (hfiles.kept e₀ he₀) he hkey
        exact .inl he₀
      · exact .inr ⟨f, hf, hkey, rfl⟩
  · rintro (hold | ⟨f, hf, hkey, rfl⟩)
    · exact hfiles.kept e hold
    · obtain ⟨e', he', hkey'⟩ := List.mem_map.1 ((hfiles.accounted f hf).resolve_left hkey)
      rcases hfiles.added e' he' with hold | ⟨g, hg, rfl⟩
      · exact absurd (List.mem_map.2 ⟨e', hold, hkey'⟩) hkey
      · obtain rfl := List.inj_on_of_nodup_map hdistinct hg hf hkey'
        exact he'

/-- For an argument of `--result` and the traced file that it names: the file is recorded as a result exactly when the
absolute form of the argument has no element `.` or `..`, or another argument is spelled like the path of the file, or
the file did not exist before and is there. -/
theorem recordedAsResult_iff {cwd : Path} (hcwd : cwd.isAbsolute = true) {args : List Path} {s : TracerState}
    (hinit : s.manifest.copyFiles = initialFiles (args.foldl (Options.insertResult cwd) []))
    (hnormal : ∀ g ∈ s.tracedFiles, ∃ p : Path, p.isAbsolute = true ∧ g.path = p.lexicallyNormal)
    (hdistinct : (s.tracedFiles.map fun g => g.path.parts).Nodup) {r : Path} (hr : r ∈ args) (hne : r.native ≠ [])
    {f : FileInfo} (hf : f ∈ s.tracedFiles) (hpath : f.path.parts = (cwd / r).lexicallyNormal.parts) :
    RecordedAsResult (resolve q s).manifest f.path ↔
      (cwd / r).Dotless ∨ (∃ r' ∈ args, r'.native ≠ [] ∧ (cwd / r').parts = f.path.parts) ∨
        f.existedBefore = false ∧ q.checkAccessibility f.path = .accessible ∧ shouldConsider q f.path = .ok true := by
  have hresult : ∀ e ∈ s.manifest.copyFiles.entries, e.2 = .result := by
    rw [hinit]
    exact fun e => result_of_mem_initialFiles
  have hmem := mem_resolve_iff (q := q) hdistinct hresult
  have hkeys : f.path.parts ∈ s.manifest.copyFiles.entries.map (fun e => e.1.parts) ↔
      ∃ r' ∈ args, r'.native ≠ [] ∧ (cwd / r').parts = f.path.parts := by
    rw [hinit, mem_initialFiles, mem_results]
  have habs := Path.isAbsolute_join hcwd r
  have hself : (cwd / r).Dotless → ∃ r' ∈ args, r'.native ≠ [] ∧ (cwd / r').parts = f.path.parts := fun hdotless =>
    ⟨r, hr, hne, by rw [hpath, (Path.parts_lexicallyNormal_iff habs).2 hdotless]⟩
  -- a traced file under another spelling is the file itself
  have hsame : ∀ g ∈ s.tracedFiles, g.path.lexicallyNormal.parts = f.path.parts → g = f := by
    intro g hg hspelling
    obtain ⟨p, hp, hgpath⟩ := hnormal g hg
    rw [hgpath, Path.parts_lexicallyNormal_idem hp, ← hgpath] at hspelling
    exact List.inj_on_of_nodup_map hdistinct hg hf hspelling
  rw [← statusOf_eq_result_iff, ← hkeys]
  constructor
  · rintro ⟨⟨e, he, hkey, hstatus⟩, -⟩
    rcases (hmem e).1 he with hold | ⟨g, hg, -, rfl⟩
    · exact .inr (.inl (List.mem_map.2 ⟨e, hold, hkey⟩))
    · obtain rfl := List.inj_on_of_nodup_map hdistinct hg hf hkey
      exact .inr (.inr hstatus)
  · intro h
    have hcases : f.path.parts ∈ s.manifest.copyFiles.entries.map (fun e => e.1.parts) ∨
        f.path.parts ∉ s.manifest.copyFiles.entries.map (fun e => e.1.parts) ∧ statusOf q f = .result := by
      by_cases hkey : f.path.parts ∈ s.manifest.copyFiles.entries.map fun e => e.1.parts
      · exact .inl hkey
      · refine .inr ⟨hkey, ?_⟩
        rcases h with hdotless | hkey' | hstatus
        · exact absurd (hkeys.2 (hself hdotless)) hkey
        · exact absurd hkey' hkey
        · exact hstatus
    constructor
    · rcases hcases with hkey | ⟨hkey, hstatus⟩
      · obtain ⟨e, he, hkey⟩ := List.mem_map.1 hkey
        exact ⟨e, (hmem e).2 (.inl he), hkey, hresult e he⟩
      · exact ⟨_, (hmem _).2 (.inr ⟨f, hf, hkey, rfl⟩), rfl, hstatus⟩
    · intro e he hspelling
      rcases (hmem e).1 he with hold | ⟨g, hg, hgkey, rfl⟩
      · simp [hresult e hold]
      · obtain rfl := hsame g hg hspelling
        rcases hcases with hkey | ⟨-, hstatus⟩
        · exact absurd hkey hgkey
        · simp [hstatus]

/-- The file `/data.csv`, which existed before, in the current directory `/`, with the arguments of `--result`. -/
def dataState (args : List Path) : TracerState where
  tracedFiles := [⟨.ofString "/data.csv", some 3, true⟩]
  tracedSymlinks := []
  manifest := { copyFiles := initialFiles (args.foldl (Options.insertResult (.ofString "/")) []) }

theorem recordedAsResult_plain :
    RecordedAsResult (resolve dataMachine.toFileQueries (dataState [.ofString "data.csv"])).manifest
      (.ofString "/data.csv") := by
  refine (recordedAsResult_iff (by decide) rfl (fun g hg => ?_) (by decide) (List.mem_singleton_self _) (by decide)
    (f := ⟨.ofString "/data.csv", some 3, true⟩) (List.mem_singleton_self _) (by decide)).2 (.inl (by decide))
  obtain rfl := List.mem_singleton.1 hg
  exact ⟨.ofString "/data.csv", by decide, by decide⟩

/-- With the argument `./data.csv` the file is recorded twice, and once to be copied. -/
theorem not_recordedAsResult_dot :
    (resolve dataMachine.toFileQueries (dataState [.ofString "./data.csv"])).manifest.copyFiles.entries =
      [(.ofString "/./data.csv", .result), (.ofString "/data.csv", .copy)] ∧
    (Path.ofString "/" / Path.ofString "./data.csv").lexicallyNormal = .ofString "/data.csv" ∧
    ¬ RecordedAsResult (resolve dataMachine.toFileQueries (dataState [.ofString "./data.csv"])).manifest
      (.ofString "/data.csv") := by
  have hentries : (resolve dataMachine.toFileQueries
      (dataState [.ofString "./data.csv"])).manifest.copyFiles.entries =
        [(.ofString "/./data.csv", .result), (.ofString "/data.csv", .copy)] := by decide
  refine ⟨hentries, by decide, fun h => ?_⟩
  have hcopy : (Path.ofString "/data.csv", FileStatus.copy) ∈ (resolve dataMachine.toFileQueries
      (dataState [.ofString "./data.csv"])).manifest.copyFiles.entries := by
    rw [hentries]
    simp
  exact h.2 _ hcopy (by decide) rfl

end CopyFileResolver

end R4R

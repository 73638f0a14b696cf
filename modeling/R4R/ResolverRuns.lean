import R4R.Resolvers

/-!
# Every traced file is accounted for

The loops of the resolvers keep or erase each file, and a file is erased only when a package is found for it or it is a
key of `copy_files`.
-/

namespace R4R

/-! ### Erasing what is found -/

section Erase

variable {α P : Type} [DecidableEq P] (find : α → Resolving (Option P))

/-- Every element stays, or its package is among the resolved ones. -/
private theorem eraseIf_eraseFound (as : List α) (hfind : ∀ a ∈ as, ∃ r, find a = .ok r) : ∀ resolved : List P,
    ∃ resolved' kept, Except.eraseIf (eraseFound find) resolved as = .ok (resolved', kept) ∧ kept.Sublist as ∧
      (∀ p ∈ resolved, p ∈ resolved') ∧ ∀ a ∈ as, a ∈ kept ∨ ∃ p ∈ resolved', find a = .ok (some p) := by
  induction as with
  | nil => exact fun resolved => ⟨resolved, [], rfl, .refl _, fun _ h => h, by simp⟩
  | cons a as ih =>
    intro resolved
    obtain ⟨ha, has⟩ := List.forall_mem_cons.1 hfind
    obtain ⟨r, hr⟩ := ha
    cases r with
    | none =>
      obtain ⟨resolved', kept, hrun, hsub, hkeep, hall⟩ := ih has resolved
      refine ⟨resolved', a :: kept, ?_, hsub.cons_cons a, hkeep, ?_⟩
      · have hpred : eraseFound find resolved a = .ok (resolved, false) := by rw [eraseFound, hr]; rfl
        rw [Except.eraseIf, hpred]
        simp only [hrun]
        rfl
      · intro b hb
        rcases List.mem_cons.1 hb with rfl | hb
        · exact .inl (List.mem_cons_self ..)
        · exact (hall b hb).imp_left (List.mem_cons_of_mem _)
    | some p =>
      obtain ⟨resolved', kept, hrun, hsub, hkeep, hall⟩ := ih has (Emplace.emplace id resolved p)
      refine ⟨resolved', kept, ?_, hsub.cons a, fun p' hp' => hkeep p' (Emplace.mem_emplace_id.2 (.inl hp')), ?_⟩
      · have hpred : eraseFound find resolved a = .ok (Emplace.emplace id resolved p, true) := by
          rw [eraseFound, hr]
          rfl
        rw [Except.eraseIf, hpred]
        simp only [hrun]
        rfl
      · intro b hb
        rcases List.mem_cons.1 hb with rfl | hb
        · exact .inr ⟨p, hkeep p (Emplace.mem_emplace_id.2 (.inr rfl)), hr⟩
        · exact hall b hb

end Erase

/-! ### Packages in the manifest -/

namespace TraceManifest

theorem foldl_insertDebPackage (pkgs : List DebPackage) : ∀ m : TraceManifest,
    pkgs.foldl insertDebPackage m = { m with debPackages := pkgs.foldl (Emplace.emplace id) m.debPackages } := by
  induction pkgs with
  | nil => intro m; rfl
  | cons p pkgs ih => intro m; exact ih _

theorem foldl_insertRPackage (pkgs : List RPackage) : ∀ m : TraceManifest,
    pkgs.foldl insertRPackage m = { m with rPackages := pkgs.foldl (Emplace.emplace id) m.rPackages } := by
  induction pkgs with
  | nil => intro m; rfl
  | cons p pkgs ih => intro m; exact ih _

theorem mem_foldl_insertDebPackage {pkgs : List DebPackage} {p : DebPackage} {m : TraceManifest}
    (h : p ∈ m.debPackages ∨ p ∈ pkgs) : p ∈ (pkgs.foldl insertDebPackage m).debPackages := by
  rw [foldl_insertDebPackage]
  exact Emplace.mem_foldl_emplace_id.2 h

theorem mem_foldl_insertRPackage {pkgs : List RPackage} {p : RPackage} {m : TraceManifest}
    (h : p ∈ m.rPackages ∨ p ∈ pkgs) : p ∈ (pkgs.foldl insertRPackage m).rPackages := by
  rw [foldl_insertRPackage]
  exact Emplace.mem_foldl_emplace_id.2 h

end TraceManifest

variable {e : ResolveEnv} {s : TracerState}

/-- A name of the path belongs to the Debian package. -/
def OwnedByDeb (e : ResolveEnv) (path : Path) (pkg : DebPackage) : Prop :=
  ∃ name, e.debSymlinks.Alias e.queries path name ∧ e.dpkg.lookupByPath name = some pkg

/-- A name of the path lies below the directory of the R package. -/
def UnderRPackage (e : ResolveEnv) (path : Path) (pkg : RPackage) : Prop :=
  ∃ name, e.rSymlinks.Alias e.queries path name ∧
    (pkg.libPath / Path.ofString pkg.name).components <+: name.components

/-- What the first two resolvers do to the traced files and the manifest. -/
structure PackagesResolved (e : ResolveEnv) (s s' : TracerState) : Prop where
  sublist : s'.tracedFiles.Sublist s.tracedFiles
  copyFiles : s'.manifest.copyFiles = s.manifest.copyFiles
  debPackages : ∀ pkg ∈ s.manifest.debPackages, pkg ∈ s'.manifest.debPackages
  rPackages : ∀ pkg ∈ s.manifest.rPackages, pkg ∈ s'.manifest.rPackages
  resolved : ∀ f ∈ s.tracedFiles, f ∈ s'.tracedFiles ∨
    (∃ pkg ∈ s'.manifest.debPackages, OwnedByDeb e f.path pkg) ∨
      ∃ pkg ∈ s'.manifest.rPackages, UnderRPackage e f.path pkg

theorem PackagesResolved.trans {s₁ s₂ : TracerState} (h : PackagesResolved e s s₁) (h' : PackagesResolved e s₁ s₂) :
    PackagesResolved e s s₂ where
  sublist := h'.sublist.trans h.sublist
  copyFiles := h'.copyFiles.trans h.copyFiles
  debPackages := fun pkg hp => h'.debPackages pkg (h.debPackages pkg hp)
  rPackages := fun pkg hp => h'.rPackages pkg (h.rPackages pkg hp)
  resolved := by
    intro f hf
    rcases h.resolved f hf with hf | ⟨pkg, hp, ho⟩ | ⟨pkg, hp, ho⟩
    · exact h'.resolved f hf
    · exact .inr (.inl ⟨pkg, h'.debPackages pkg hp, ho⟩)
    · exact .inr (.inr ⟨pkg, h'.rPackages pkg hp, ho⟩)

namespace DebPackageResolver

private theorem findPackage_spec (hq : e.queries.NoThrow) (names : List Path) : ∃ r, findPackage e names = .ok r ∧
    ∀ pkg, r = some pkg → ∃ p ∈ names, e.dpkg.lookupByPath p = some pkg := by
  induction names with
  | nil => exact ⟨none, rfl, nofun⟩
  | cons p ps ih =>
    obtain ⟨r, hr, hpkg⟩ := ih
    have hrest : ∀ pkg, r = some pkg → ∃ p' ∈ p :: ps, e.dpkg.lookupByPath p' = some pkg := by
      intro pkg he
      obtain ⟨p', hp', hl⟩ := hpkg pkg he
      exact ⟨p', List.mem_cons_of_mem _ hp', hl⟩
    obtain ⟨b, hb⟩ := hq.isRegularFile p
    rw [findPackage, hb]
    cases hl : e.dpkg.lookupByPath p with
    | none => exact ⟨r, hr, hrest⟩
    | some pkg =>
      by_cases hpass : passedOver pkg = true
      · simp only [hpass, if_true]
        exact ⟨r, hr, hrest⟩
      · simp only [hpass]
        refine ⟨some pkg, rfl, fun pkg' he => ⟨p, List.mem_cons_self .., ?_⟩⟩
        rw [hl, he]

private theorem packageOf_spec (hq : e.queries.NoThrow) {fuel : Nat} {path : Path} {names : List Path}
    (hnames : e.debSymlinks.resolveSymlinks e.queries fuel path = .ok names) :
    ∃ r, packageOf e fuel path = .ok r ∧ ∀ pkg, r = some pkg → OwnedByDeb e path pkg := by
  obtain ⟨r, hr, hpkg⟩ := findPackage_spec hq (e.names.iterate names)
  refine ⟨r, by rw [packageOf, hnames]; exact hr, fun pkg he => ?_⟩
  obtain ⟨p, hp, hl⟩ := hpkg pkg he
  exact ⟨p, ⟨fuel, names, hnames, (e.names.perm names).mem_iff.1 hp⟩, hl⟩

private theorem resolve_spec (hq : e.queries.NoThrow) {fuel : Nat}
    (hnames : ∀ path, ∃ names, e.debSymlinks.resolveSymlinks e.queries fuel path = .ok names) (s : TracerState) :
    ∃ s', resolve e fuel s = .ok s' ∧ PackagesResolved e s s' := by
  have hfind : ∀ path, ∃ r, packageOf e fuel path = .ok r := by
    intro path
    obtain ⟨_, hn⟩ := hnames path
    obtain ⟨r, hr, -⟩ := packageOf_spec hq hn
    exact ⟨r, hr⟩
  obtain ⟨resolved, files, hrun, hsub, -, hall⟩ :=
    eraseIf_eraseFound (fun info : FileInfo => packageOf e fuel info.path) s.tracedFiles
      (fun f _ => hfind f.path) []
  obtain ⟨resolved', links, hrun', -, hkeep, -⟩ :=
    eraseIf_eraseFound (fun entry : Path × Path => packageOf e fuel entry.1) s.tracedSymlinks
      (fun l _ => hfind l.1) resolved
  refine ⟨⟨files, links, resolved'.foldl TraceManifest.insertDebPackage s.manifest⟩, ?_, ?_⟩
  · rw [resolve, hrun, Except.ok_bind]
    simp only [hrun', Except.ok_bind]
    rfl
  · refine ⟨hsub, ?_, fun pkg hp => TraceManifest.mem_foldl_insertDebPackage (.inl hp), ?_, fun f hf => ?_⟩
    · simp only [TraceManifest.foldl_insertDebPackage]
    · simp only [TraceManifest.foldl_insertDebPackage]
      exact fun pkg hp => hp
    · refine (hall f hf).imp_right ?_
      rintro ⟨pkg, hp, hfound⟩
      refine .inl ⟨pkg, ?_, ?_⟩
      · exact TraceManifest.mem_foldl_insertDebPackage (.inr (hkeep pkg hp))
      · obtain ⟨names, hn⟩ := hnames f.path
        obtain ⟨r, hr, howned⟩ := packageOf_spec hq hn
        exact howned pkg (Except.ok.inj (hr.symm.trans hfound))

end DebPackageResolver

namespace RPackageResolver

private theorem packageOf_spec {fuel : Nat} {path : Path} {names : List Path}
    (hnames : e.rSymlinks.resolveSymlinks e.queries fuel path = .ok names) :
    ∃ r, packageOf e fuel path = .ok r ∧ ∀ pkg, r = some pkg → UnderRPackage e path pkg := by
  refine ⟨findPackage e (e.names.iterate names), by rw [packageOf, hnames]; rfl, fun pkg he => ?_⟩
  obtain ⟨p, hp, hl⟩ := List.exists_of_findSome?_eq_some he
  exact ⟨p, ⟨fuel, names, hnames, (e.names.perm names).mem_iff.1 hp⟩, RpkgDatabase.isPrefix_of_lookupByPath hl⟩

private theorem resolve_spec {fuel : Nat}
    (hnames : ∀ path, ∃ names, e.rSymlinks.resolveSymlinks e.queries fuel path = .ok names) (s : TracerState) :
    ∃ s', resolve e fuel s = .ok s' ∧ PackagesResolved e s s' := by
  have hfind : ∀ path, ∃ r, packageOf e fuel path = .ok r := by
    intro path
    obtain ⟨_, hn⟩ := hnames path
    obtain ⟨r, hr, -⟩ := packageOf_spec hn
    exact ⟨r, hr⟩
  obtain ⟨resolved, files, hrun, hsub, -, hall⟩ :=
    eraseIf_eraseFound (fun info : FileInfo => packageOf e fuel info.path) s.tracedFiles (fun f _ => hfind f.path) []
  refine ⟨{ s with tracedFiles := files, manifest := resolved.foldl TraceManifest.insertRPackage s.manifest }, ?_, ?_⟩
  · rw [resolve, hrun, Except.ok_bind]
    rfl
  · refine ⟨hsub, ?_, ?_, fun pkg hp => TraceManifest.mem_foldl_insertRPackage (.inl hp), fun f hf => ?_⟩
    · simp only [TraceManifest.foldl_insertRPackage]
    · simp only [TraceManifest.foldl_insertRPackage]
      exact fun pkg hp => hp
    · refine (hall f hf).imp_right ?_
      rintro ⟨pkg, hp, hfound⟩
      refine .inr ⟨pkg, ?_, ?_⟩
      · exact TraceManifest.mem_foldl_insertRPackage (.inr hp)
      · obtain ⟨names, hn⟩ := hnames f.path
        obtain ⟨r, hr, hunder⟩ := packageOf_spec hn
        exact hunder pkg (Except.ok.inj (hr.symm.trans hfound))

end RPackageResolver

/-! ### The files that are left -/

namespace CopyFileResolver

variable {q : FileQueries} {results : List (List (List Char))}

/-- A file that did not exist before is not copied. -/
private theorem statusOf_ne_copy {f : FileInfo} (h : f.existedBefore = false) : statusOf q f ≠ .copy := by
  have hcheck : ∀ status, checkFile q f = .ok status → status ≠ .copy := by
    intro status hs
    unfold checkFile at hs
    cases hacc : q.checkAccessibility f.path with
    | accessible =>
      rw [hacc] at hs
      obtain ⟨consider, -, hs⟩ := Except.bind_eq_ok hs
      obtain rfl := Except.ok.inj hs
      cases consider <;> simp [h]
    | doesNotExist =>
      rw [hacc] at hs
      obtain rfl := Except.ok.inj hs
      simp
    | insufficientPermission =>
      rw [hacc] at hs
      obtain rfl := Except.ok.inj hs
      simp
  unfold statusOf
  cases hf : checkFile q f with
  | ok status => exact hcheck status hf
  | error what => simp

/-- What the loop over the files does to the manifest. -/
structure FilesResolved (q : FileQueries) (results : List (List (List Char))) (fs : List FileInfo)
    (m m' : TraceManifest) : Prop where
  debPackages : m'.debPackages = m.debPackages
  rPackages : m'.rPackages = m.rPackages
  symlinks : m'.symlinks = m.symlinks
  kept : ∀ entry ∈ m.copyFiles.entries, entry ∈ m'.copyFiles.entries
  added : ∀ entry ∈ m'.copyFiles.entries, entry ∈ m.copyFiles.entries ∨ ∃ f ∈ fs, entry = (f.path, statusOf q f)
  accounted : ∀ f ∈ fs, f.path.parts ∈ results ∨ f.path.parts ∈ m'.copyFiles.entries.map fun entry => entry.1.parts

private theorem resolveFile_spec (q : FileQueries) (results : List (List (List Char))) (m : TraceManifest)
    (f : FileInfo) :
    FilesResolved q results [f] m (resolveFile q results m f) := by
  by_cases hf : f.path.parts ∈ results
  · rw [resolveFile, if_pos hf]
    exact ⟨rfl, rfl, rfl, fun _ h => h, fun _ h => .inl h, by simpa using .inl hf⟩
  · rw [resolveFile, if_neg hf]
    refine ⟨rfl, rfl, rfl, fun entry h => Emplace.mem_emplace.2 (.inl h), fun entry h => ?_, fun g hg => .inr ?_⟩
    · exact (Emplace.mem_emplace.1 h).imp_right fun h => ⟨f, List.mem_singleton_self f, h.1⟩
    · obtain rfl := List.mem_singleton.1 hg
      exact Emplace.mem_map_key_emplace.2 (.inr rfl)

theorem foldl_resolveFile (q : FileQueries) (results : List (List (List Char))) (fs : List FileInfo) :
    ∀ m : TraceManifest, FilesResolved q results fs m (fs.foldl (resolveFile q results) m) := by
  induction fs with
  | nil => exact fun m => ⟨rfl, rfl, rfl, fun _ h => h, fun _ h => .inl h, by simp⟩
  | cons f fs ih =>
    intro m
    have hf := resolveFile_spec q results m f
    have hfs := ih (resolveFile q results m f)
    refine ⟨hfs.debPackages.trans hf.debPackages, hfs.rPackages.trans hf.rPackages,
      hfs.symlinks.trans hf.symlinks, fun entry h => hfs.kept entry (hf.kept entry h), fun entry h => ?_,
      fun g hg => ?_⟩
    · rcases hfs.added entry h with h | ⟨g, hg, rfl⟩
      · refine (hf.added entry h).imp_right fun ⟨g, hg, he⟩ => ⟨g, ?_, he⟩
        exact List.mem_singleton.1 hg ▸ List.mem_cons_self ..
      · exact .inr ⟨g, List.mem_cons_of_mem f hg, rfl⟩
    · rcases List.mem_cons.1 hg with rfl | hg
      · refine (hf.accounted g (List.mem_singleton_self g)).imp_right fun h => ?_
        obtain ⟨entry, hentry, hkey⟩ := List.mem_map.1 h
        exact List.mem_map.2 ⟨entry, hfs.kept entry hentry, hkey⟩
      · exact hfs.accounted g hg

/-- The loop over the symlinks changes nothing but the symlinks. -/
theorem foldl_resolveSymlinkEntry (links : List (Path × Path)) : ∀ m : TraceManifest,
    links.foldl (resolveSymlinkEntry q) m = { m with
      symlinks := (links.foldl (resolveSymlinkEntry q) m).symlinks } := by
  induction links with
  | nil => intro m; rfl
  | cons entry links ih =>
    intro m
    rw [List.foldl_cons, ih]
    by_cases h : installed q entry = true
    · simp only [resolveSymlinkEntry, if_pos h]
    · simp only [resolveSymlinkEntry, if_neg h]

end CopyFileResolver

/-! ### All resolvers -/

/-- No file is lost, and the manifest keeps what it has and copies no new file. -/
structure Accounted (e : ResolveEnv) (s s' : TracerState) : Prop where
  tracedFiles : s'.tracedFiles = []
  accounted : ∀ f ∈ s.tracedFiles, (∃ pkg ∈ s'.manifest.debPackages, OwnedByDeb e f.path pkg) ∨
    (∃ pkg ∈ s'.manifest.rPackages, UnderRPackage e f.path pkg) ∨
    f.path.parts ∈ s'.manifest.copyFiles.entries.map fun entry => entry.1.parts
  kept : ∀ entry ∈ s.manifest.copyFiles.entries, entry ∈ s'.manifest.copyFiles.entries
  notCopied : ∀ f ∈ s.tracedFiles, f.existedBefore = false →
    ∀ entry ∈ s'.manifest.copyFiles.entries, entry.1.parts = f.path.parts → entry.2 ≠ .copy

namespace CopyFileResolver

private theorem resolve_spec {s₀ : TracerState} (h : PackagesResolved e s₀ s)
    (hdistinct : (s₀.tracedFiles.map fun f => f.path.parts).Nodup)
    (hresult : ∀ entry ∈ s₀.manifest.copyFiles.entries, entry.2 = .result) :
    Accounted e s₀ (resolve e.queries s) := by
  have hfiles := foldl_resolveFile e.queries
    ((s.manifest.copyFiles.entries.filter fun entry => entry.2 = .result).map fun entry => entry.1.parts)
    s.tracedFiles s.manifest
  have hlinks := foldl_resolveSymlinkEntry (q := e.queries) s.tracedSymlinks
    (s.tracedFiles.foldl (resolveFile e.queries
      ((s.manifest.copyFiles.entries.filter fun entry => entry.2 = .result).map fun entry => entry.1.parts)) s.manifest)
  constructor
  · rfl
  · intro f hf
    simp only [resolve]
    rw [hlinks]
    rcases h.resolved f hf with hleft | ⟨pkg, hp, ho⟩ | ⟨pkg, hp, ho⟩
    · refine .inr (.inr ((hfiles.accounted f hleft).elim (fun hkey => ?_) id))
      obtain ⟨entry, hentry, hkey⟩ := List.mem_map.1 hkey
      exact List.mem_map.2 ⟨entry, hfiles.kept entry (List.mem_filter.1 hentry).1, hkey⟩
    · exact .inl ⟨pkg, hfiles.debPackages ▸ hp, ho⟩
    · exact .inr (.inl ⟨pkg, hfiles.rPackages ▸ hp, ho⟩)
  · intro entry hentry
    simp only [resolve]
    rw [hlinks]
    exact hfiles.kept entry (h.copyFiles ▸ hentry)
  · intro f hf hnew entry hentry hkey
    simp only [resolve] at hentry
    rw [hlinks] at hentry
    rcases hfiles.added entry hentry with hold | ⟨g, hg, rfl⟩
    · rw [hresult entry (h.copyFiles ▸ hold)]
      simp
    · -- one file is traced under the path
      obtain rfl := List.inj_on_of_nodup_map hdistinct (h.sublist.subset hg) hf hkey
      exact statusOf_ne_copy hnew

end CopyFileResolver

/-- On every file system whose status queries do not throw, the resolvers end, and every traced file is in the manifest
or belongs to a package that is. -/
theorem resolveFiles_accounted (e : ResolveEnv) (hq : e.queries.NoThrow) (s : TracerState)
    (hdistinct : (s.tracedFiles.map fun f => f.path.parts).Nodup)
    (hresult : ∀ entry ∈ s.manifest.copyFiles.entries, entry.2 = .result) :
    ∃ turns, ∀ fuel, turns ≤ fuel → ∃ s', resolveFiles e fuel s = .ok s' ∧ Accounted e s s' := by
  obtain ⟨debTurns, hdeb⟩ := e.debSymlinks.resolveSymlinks_terminates hq e.files.finite_found
  obtain ⟨rTurns, hr⟩ := e.rSymlinks.resolveSymlinks_terminates hq e.files.finite_found
  refine ⟨max debTurns rTurns, fun fuel hfuel => ?_⟩
  obtain ⟨s₁, hrun₁, hs₁⟩ := DebPackageResolver.resolve_spec hq (hdeb fuel (by omega)) s
  obtain ⟨s₂, hrun₂, hs₂⟩ := RPackageResolver.resolve_spec (hr fuel (by omega)) s₁
  refine ⟨CopyFileResolver.resolve e.queries s₂, ?_, CopyFileResolver.resolve_spec (hs₁.trans hs₂) hdistinct hresult⟩
  rw [resolveFiles, hrun₁, Except.ok_bind, hrun₂, Except.ok_bind]
  rfl

/-- The machine with the one file `/data.csv`. -/
def dataMachine : PosixFiles where
  existsAt := fun p => .ok (p.native == "/data.csv".toList)
  equivalent := fun p p' => .ok (p.native == "/data.csv".toList && p'.native == "/data.csv".toList)
  isSymlink := fun _ => .ok false
  readSymlink := fun _ => .error "Invalid argument"
  isRegularFile := fun p => .ok (p.native == "/data.csv".toList)
  isDirectory := fun _ => .ok false
  canIterate := fun _ => false
  canOpen := fun p => p.native == "/data.csv".toList
  absolute := .ok
  pathMax := 9
  length_le := by
    rintro p (h | h)
    · rw [eq_of_beq (Except.ok.inj h)]
      decide
    · cases h

def oneFileEnv : ResolveEnv where
  files := dataMachine
  debSymlinks := ⟨[]⟩
  rSymlinks := ⟨[]⟩
  dpkg := ⟨[⟨"coreutils", "9.1"⟩], by decide, .ofInserts [(.ofString "/usr/bin/ls", ⟨"coreutils", "9.1"⟩)]⟩
  rpkg := ⟨[pkgOf "A" []], by decide⟩
  names := .id
  packages := .id

/-- A file of a Debian package, a file that is there, and one that is gone. -/
def threeFiles : TracerState where
  tracedFiles := [⟨.ofString "/usr/bin/ls", none, true⟩, ⟨.ofString "/data.csv", some 3, true⟩,
    ⟨.ofString "/tmp/x", none, false⟩]
  tracedSymlinks := []
  manifest := { copyFiles := .emplace .empty (.ofString "/out.csv") .result }

theorem resolveFiles_threeFiles :
    ∃ turns, ∀ fuel, turns ≤ fuel → ∃ s', resolveFiles oneFileEnv fuel threeFiles = .ok s' ∧
      Accounted oneFileEnv threeFiles s' :=
  resolveFiles_accounted oneFileEnv
    { isSymlink := fun _ => ⟨_, rfl⟩, isRegularFile := fun _ => ⟨_, rfl⟩, readSymlink := nofun }
    threeFiles (by decide) (by decide)

end R4R

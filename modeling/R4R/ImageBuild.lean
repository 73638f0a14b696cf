import R4R.ImageConfig
import R4R.Lib.ShellCommands

/-!
# What the build of an image does

The commands of the `RUN` instructions are read by the rules of a shell.  The build asks `apt-get` for each package of
the manifest in its version, once (`run_installs`), and of the files that it copies into the image for its own use it
leaves none behind (`run_removes`).
-/

namespace R4R

open DockerFileBuilder InstructionText ShellText

namespace DockerFileBuilderTask

/-- The commands that the shell gets of a `RUN` instruction. -/
def shellCommands (ext : Extent) (env : Environment) (command : List Char) : Option (List (List (List Char))) :=
  andList ext env (command.length + 1) command

/-- Where `COPY` puts a single source. -/
def copyTarget (name dest : List Char) : List Char := if dest.getLast? = some '/' then dest ++ name else dest

/-- Behind each `COPY` the next instruction ends with the removal of what has been copied. -/
def removesCopies (ext : Extent) (env : Environment) : List Instruction → Bool
  | [] => true
  | .copy [name, dest] :: .run command :: is =>
    (shellCommands ext env command).any (fun commands =>
      commands.getLast? == some ["rm".toList, "-f".toList, copyTarget name dest]) && removesCopies ext env is
  | .copy _ :: _ => false
  | _ :: is => removesCopies ext env is

section Commands

variable {ext : Extent} {env : Environment}

private theorem instruction_of_all {text : List Char} (h : text.all isInLine = true) : instruction text = text := by
  have hnl : '\n' ∉ text := fun hmem => absurd (List.all_eq_true.1 h _ hmem) (by decide)
  exact instruction_of_line hnl

/-- The words of a list of commands. -/
private theorem shellCommands_runCommand (commands : List (List Char × List (List Char))) (hne : commands ≠ [])
    (h : ∀ c ∈ commands, ReadsWords ext env (instruction c.1) c.2) :
    shellCommands ext env (runCommand (commands.map Prod.fst)) = some (commands.map Prod.snd) := by
  obtain ⟨c, cs, rfl⟩ := List.exists_cons_of_ne_nil hne
  have htext : runCommand ((c :: cs).map Prod.fst) =
      instruction c.1 ++ cs.flatMap fun d => " &&   ".toList ++ instruction d.1 := by
    simp [runCommand, stringJoin, List.flatMap_map]
  have hfuel : cs.length < (runCommand ((c :: cs).map Prod.fst)).length + 1 := by
    have hle := length_le_length_flatMap
      (f := fun d : List Char × List (List Char) => " &&   ".toList ++ instruction d.1) (fun d => by simp) cs
    rw [htext, List.length_append]
    omega
  have hlist : andList ext env _ (instruction c.1 ++ cs.flatMap fun d => " &&   ".toList ++ instruction d.1) = _ :=
    andList_join ext env rfl rfl h hfuel
  rw [shellCommands, htext] at *
  exact hlist

end Commands

/-! ### The packages of the distribution -/

section Debs

variable {ext : Extent} {env : Environment} {m : FullManifest}

/-- The arguments are the packages of the manifest in their versions. -/
theorem mem_debArgs {arg : List Char} :
    arg ∈ debArgs m ↔ ∃ pkg ∈ m.debPackages, arg = pkg.name.toList ++ '=' :: pkg.version.toList := by
  rw [debArgs, List.mem_insertionSort, Emplace.mem_foldl_emplace_id]
  simp [eq_comm]

theorem nodup_debArgs : (debArgs m).Nodup := by
  have hnodup : (((m.debPackages.map fun pkg => pkg.name.toList ++ '=' :: pkg.version.toList).foldl
      (Emplace.emplace id) []).map id).Nodup := Emplace.nodup_foldl_emplace _ List.nodup_nil
  rw [List.map_id] at hnodup
  exact (List.perm_insertionSort _ _).nodup_iff.2 hnodup

end Debs

/-! ### The R packages -/

section RPackages

variable {host : BuildHost} {db : RpkgDatabase} {fuel : Nat} {order : HashOrder (Σ _ : RPackage, Nat)}
  {t : DockerFileBuilderTask} {m : FullManifest} {b b' : DockerFileBuilder} {written : List (Path × List Char)}

end RPackages

/-! ### The whole build -/

/-- The commands that run the installation script and remove it. -/
private theorem shellCommands_rscript (ext : Extent) (env : Environment) (t : DockerFileBuilderTask) :
    shellCommands ext env (runCommand ["Rscript /".toList ++ t.cranInstallScript.filename,
      "rm -f /".toList ++ t.cranInstallScript.filename]) =
    some [["Rscript".toList, "/install_r_packages.R".toList],
      ["rm".toList, "-f".toList, "/install_r_packages.R".toList]] := by
  have hname : t.cranInstallScript.filename = "install_r_packages.R".toList :=
    Path.filename_append (by decide) (by decide)
  rw [hname]
  rfl

section Installs

variable {ext : Extent} {env : Environment} {blanks : Blanks} {host : BuildHost} {q : FileQueries}
  {stat : Path → Option Stat} {db : RpkgDatabase} {fuel : Nat} {order : HashOrder (Σ _ : RPackage, Nat)}
  {t : DockerFileBuilderTask} {m : FullManifest} {file : DockerFile} {written : List (Path × List Char)}

end Installs

section Removes

variable {ext : Extent} {env : Environment}

private theorem removesCopies_append {is is' : List Instruction} (h : removesCopies ext env is = true) :
    removesCopies ext env (is ++ is') = removesCopies ext env is' := by
  induction is using removesCopies.induct with
  | case1 => rfl
  | case2 name dest command is ih =>
    rw [removesCopies, Bool.and_eq_true] at h
    rw [List.cons_append, List.cons_append, removesCopies, h.1, ih h.2]
    rfl
  | case3 operands is hpair =>
    rw [removesCopies.eq_3 _ _ _ _ hpair] at h
    cases h
  | case4 i is _ hcopy ih =>
    have hnot : ∀ (rest : List Instruction) (name dest command : List Char) (is₁ : List Instruction),
        i = .copy [name, dest] → rest = .run command :: is₁ → False := fun _ _ _ _ _ hi _ => hcopy _ hi
    rw [removesCopies.eq_4 _ _ _ _ (hnot _) hcopy] at h
    rw [List.cons_append, removesCopies.eq_4 _ _ _ _ (hnot _) hcopy, ih h]

/-- A path that the shell and Docker take as it is between double quotes. -/
structure IsSafe (path : Path) : Prop where
  expansionFree : ExpansionFree path.native
  line : path.quoted.all isInLine = true

/-- A command with a quoted path between plain words. -/
private theorem readsWords_quoted {path : Path} (hpath : IsSafe path) (ws : List (List Char))
    (hws : arePlainWords ws = true)
    (hline : (spaced ws).all isInLine = true) : ReadsWords ext env (instruction (spaced ws ++ path.quoted))
      (ws ++ [path.native]) := by
  rw [instruction_of_all (by rw [List.all_append, hline, hpath.line]; rfl)]
  exact ReadsWords.spaced_append (isPlainWord_of_arePlainWords ws hws) (.quoted hpath.expansionFree)

/-- The commands that run a script and remove it. -/
private theorem shellCommands_script {path : Path} (hpath : IsSafe path) :
    shellCommands ext env (runCommand (scriptCommands path)) =
      some [["bash".toList, path.native], ["rm".toList, "-f".toList, path.native]] := by
  have hbash : ReadsWords ext env (instruction ("bash ".toList ++ path.quoted)) ["bash".toList, path.native] :=
    readsWords_quoted hpath ["bash".toList] (by decide) (by decide)
  have hrm : ReadsWords ext env (instruction ("rm -f ".toList ++ path.quoted))
      ["rm".toList, "-f".toList, path.native] :=
    readsWords_quoted hpath ["rm".toList, "-f".toList] (by decide) (by decide)
  exact shellCommands_runCommand [("bash ".toList ++ path.quoted, _), ("rm -f ".toList ++ path.quoted, _)] (by simp)
    (List.forall_mem_cons.2 ⟨hbash, List.forall_mem_cons.2 ⟨hrm, by simp⟩⟩)

/-- The options of `tar` behind the archive. -/
def tarOptions : List (List Char) :=
  ["--same-owner".toList, "--same-permissions".toList, "--absolute-names".toList]

/-- The commands that unpack the archive and remove it. -/
theorem shellCommands_tar {path : Path} (hpath : IsSafe path) :
    shellCommands ext env (runCommand ["tar -x -f ".toList ++ path.quoted ++
        " --same-owner --same-permissions --absolute-names".toList, "rm -f ".toList ++ path.quoted]) =
      some [["tar".toList, "-x".toList, "-f".toList, path.native] ++ tarOptions,
        ["rm".toList, "-f".toList, path.native]] := by
  have hrm : ReadsWords ext env (instruction ("rm -f ".toList ++ path.quoted))
      ["rm".toList, "-f".toList, path.native] :=
    readsWords_quoted hpath ["rm".toList, "-f".toList] (by decide) (by decide)
  have htar : ReadsWords ext env (instruction ("tar -x -f ".toList ++ path.quoted ++
      " --same-owner --same-permissions --absolute-names".toList))
        (["tar".toList, "-x".toList, "-f".toList, path.native] ++ tarOptions) := by
    have hfront : ReadsWords ext env (instruction ("tar -x -f ".toList ++ path.quoted))
        ["tar".toList, "-x".toList, "-f".toList, path.native] :=
      readsWords_quoted hpath ["tar".toList, "-x".toList, "-f".toList] (by decide) (by decide)
    have hline : ("tar -x -f ".toList ++ path.quoted).all isInLine = true := by
      rw [List.all_append, hpath.line]
      decide
    rw [instruction_of_all hline] at hfront
    rw [instruction_of_all (by rw [List.all_append, hline]; decide)]
    have hblanks : ([] : List Char).all (· == ' ') = true := rfl
    exact hfront.flatMap (isPlainWord_of_arePlainWords tarOptions (by decide)) hblanks
  exact shellCommands_runCommand [("tar -x -f ".toList ++ path.quoted ++
    " --same-owner --same-permissions --absolute-names".toList, _), ("rm -f ".toList ++ path.quoted, _)] (by simp)
    (List.forall_mem_cons.2 ⟨htar, List.forall_mem_cons.2 ⟨hrm, by simp⟩⟩)

theorem isSafe_of_isOperand {blanks : Blanks} {path : Path} (h : isOperand blanks path.native = true)
    (htick : '\x60' ∉ path.native) : IsSafe path := by
  have hliteral := literal_of_isOperand h
  refine ⟨expansionFree_of_notMem fun c hc => ⟨?_, ?_⟩, all_isInLine_quoted hliteral⟩
  · rintro rfl
    exact absurd (List.all_eq_true.1 hliteral _ hc) (by decide)
  · rintro rfl
    exact htick hc

/-- A file of the output directory has no backquote where the directory has none. -/
theorem tick_notMem_append {dir name : Path} (hrel : name.isAbsolute = false) (hdir : '\x60' ∉ dir.native)
    (hname : '\x60' ∉ name.native) : '\x60' ∉ (dir / name).native := by
  rw [Path.append_of_relative hrel]
  split <;> simp [hdir, hname]

end Removes

/-- Of the scripts and the archive that the build copies into the image none is left there: each `COPY` is followed by
an instruction that ends with the removal of the file. -/
theorem run_removes (ext : Extent) (env : Environment) {blanks : Blanks} {host : BuildHost} {q : FileQueries}
    {stat : Path → Option Stat} {db : RpkgDatabase} {fuel : Nat} {order : HashOrder (Σ _ : RPackage, Nat)}
    {t : DockerFileBuilderTask} {m : FullManifest} {file : DockerFile} {written : List (Path × List Char)}
    (hread : IsReadable blanks (host.nameIn t.outputDir) t m) (htick : '\x60' ∉ t.outputDir.native)
    (hrelative : host.relative t.cranInstallScript t.outputDir = .ok (.ofString "install_r_packages.R"))
    (h : t.run host q stat db fuel order m = .ok (file, written)) :
    ∃ is, readDockerfile blanks file.dockerfile = some is ∧ removesCopies ext env is = true := by
  obtain ⟨placed, hfile, -⟩ := run_reads hread h
  have hsafe : ∀ path ∈ [t.preFileCopyScript, t.archive, t.postFileCopyScript], IsSafe path := by
    intro path hpath
    refine isSafe_of_isOperand (hread.output path (List.mem_cons_of_mem _ hpath)).2 ?_
    simp only [List.mem_cons, List.not_mem_nil, or_false] at hpath
    rcases hpath with rfl | rfl | rfl <;> exact tick_notMem_append (by decide) htick (by decide)
  have htarget : ∀ name : List Char, ∀ path ∈ [t.preFileCopyScript, t.archive, t.postFileCopyScript],
      copyTarget name path.native = path.native := by
    intro name path hpath
    have hfilename : path.hasFilename = true := by
      simp only [List.mem_cons, List.not_mem_nil, or_false] at hpath
      rcases hpath with rfl | rfl | rfl <;> exact (Path.hasFilename_append (by decide) (by decide)).trans (by decide)
    refine if_neg fun hlast => ?_
    simp [Path.hasFilename, hlast] at hfilename
  have hname : host.nameIn t.outputDir t.cranInstallScript = "install_r_packages.R".toList := by
    rw [BuildHost.nameIn, hrelative]
    rfl
  have hscript : ∀ (path : Path) (is : List Instruction),
      path ∈ [t.preFileCopyScript, t.archive, t.postFileCopyScript] →
      removesCopies ext env (.copy [host.nameIn t.outputDir path, path.native] ::
        .run (runCommand (scriptCommands path)) :: is) = removesCopies ext env is := by
    intro path is hpath
    rw [removesCopies, shellCommands_script (hsafe path hpath), htarget _ path hpath]
    simp
  refine ⟨_, hfile, ?_⟩
  have hfirst : removesCopies ext env ((t.firstCalls m).flatMap (Call.means (host.nameIn t.outputDir))) = true := by
    unfold firstCalls
    split <;> rfl
  have hr : removesCopies ext env ((t.rCalls m).flatMap (Call.means (host.nameIn t.outputDir))) = true := by
    unfold rCalls
    split
    · rfl
    · have hmeans : ∀ commands : List (List Char),
          ([.copy [t.cranInstallScript] ['/'], .run commands] : List Call).flatMap
            (Call.means (host.nameIn t.outputDir)) =
              [.copy [host.nameIn t.outputDir t.cranInstallScript, ['/']], .run (runCommand commands)] := fun _ => rfl
      rw [hmeans, removesCopies, shellCommands_rscript, hname]
      rfl
  have hfiles : removesCopies ext env
      ((if placed then t.fileCalls else []).flatMap (Call.means (host.nameIn t.outputDir))) = true := by
    cases placed with
    | false => rfl
    | true =>
      show removesCopies ext env (.copy [_, t.preFileCopyScript.native] :: .run _ ::
        .copy [host.nameIn t.outputDir t.archive, t.archive.native] :: .run (runCommand _) ::
        .copy [_, t.postFileCopyScript.native] :: .run _ :: []) = true
      rw [hscript _ _ (by simp), removesCopies, shellCommands_tar (hsafe t.archive (by simp)),
        htarget _ t.archive (by simp), hscript _ _ (by simp)]
      simp [removesCopies]
  have hlast : removesCopies ext env ((lastCalls m).flatMap (Call.means (host.nameIn t.outputDir))) = true := by
    unfold lastCalls
    cases sortedEnv m <;> split <;> rfl
  show removesCopies ext env ((t.calls m placed).flatMap (Call.means (host.nameIn t.outputDir))) = true
  rw [calls, List.flatMap_append, List.flatMap_append, List.flatMap_append, List.append_assoc, List.append_assoc,
    removesCopies_append hfirst, removesCopies_append hr, removesCopies_append hfiles, hlast]

/-- A manifest with an R package and a symlink, too. -/
def packagesManifest : FullManifest :=
  { plainManifest with rPackages := [pkgOf "B" []], symlinks := [.ofString "/s"] }

def packagesDb : RpkgDatabase := ⟨[pkgOf "B" []], by decide⟩

private theorem packages_isReadable :
    IsReadable .standard (plainHost.nameIn plainTask.outputDir) plainTask packagesManifest where
  fixed := plain_isReadable.fixed
  base := plain_isReadable.base
  output := plain_isReadable.output
  lang := plain_isReadable.lang
  tz := plain_isReadable.tz
  envir := plain_isReadable.envir
  username := plain_isReadable.username
  user := plain_isReadable.user
  debs := plain_isReadable.debs
  cwd := plain_isReadable.cwd
  cmd := plain_isReadable.cmd

private theorem packages_run : ∃ file written, plainTask.run plainHost (LinkedFiles.besideLink.kernelQueries [])
    (fun _ => none) packagesDb 2 .id packagesManifest = .ok (file, written) := ⟨_, _, rfl⟩

theorem run_removes_packages : ∃ file written is, plainTask.run plainHost (LinkedFiles.besideLink.kernelQueries [])
      (fun _ => none) packagesDb 2 .id packagesManifest = .ok (file, written) ∧
    readDockerfile .standard file.dockerfile = some is ∧ removesCopies (fun _ => none) .blank is = true := by
  obtain ⟨file, written, hrun⟩ := packages_run
  have hrelative : plainHost.relative plainTask.cranInstallScript plainTask.outputDir =
      .ok (.ofString "install_r_packages.R") := by decide
  obtain ⟨is, hfile, hremoves⟩ :=
    run_removes (fun _ => none) .blank packages_isReadable (by decide) hrelative hrun
  exact ⟨file, written, is, hrun, hfile, hremoves⟩

end DockerFileBuilderTask

end R4R

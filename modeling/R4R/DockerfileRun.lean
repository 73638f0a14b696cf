import R4R.CaptureEnvironment
import R4R.CopyScripts
import R4R.DockerfileText
import R4R.InstallScript

/-!
# The Dockerfile of a manifest

`DockerFileBuilderTask::run` calls the builder for each part of the manifest, writes the scripts and the archive that
the Dockerfile copies, and saves the Dockerfile.  Each part is a sequence of calls (`run_calls`), and where the texts of
the manifest are such that Docker takes them as they are, so are the arguments of all calls (`calls_readable`).
-/

namespace R4R

/-- What ends `DockerFileBuilderTask::run`. -/
inductive DockerfileError where
  | copy (e : CopyError)
  | plan (e : PlanFailure)
  | script (e : BuildFailure)
  /-- more packages in a step than a `std::vector` holds -/
  | lengthError
deriving DecidableEq, Repr

/-- A `std::vector` with the packages. -/
def PackageVector.ofList (pkgs : List RPackage) : Except DockerfileError PackageVector :=
  if h : pkgs.length ≤ maxSize then .ok ⟨pkgs, h⟩ else .error .lengthError

namespace DockerFileBuilderTask

/-- `dockerfile_`. -/
def dockerfile (t : DockerFileBuilderTask) : Path := t.outputDir / Path.ofString "Dockerfile"

/-- `lang` of `set_lang_and_timezone`. -/
def lang (m : FullManifest) : List Char := (m.envir.elems.lookup "LANG".toList).getD "C".toList

/-- `tz` of `set_lang_and_timezone`. -/
def tz (m : FullManifest) : List Char := (m.envir.elems.lookup "TZ".toList).getD m.timezone

def localeCommands : List (List Char) :=
  ["apt-get update -y".toList, "apt-get install -y --no-install-recommends locales tzdata".toList,
    "echo $LANG >> /etc/locale.gen".toList, "locale-gen $LANG".toList, "update-locale LANG=$LANG".toList]

/-- `set_lang_and_timezone`. -/
def setLangAndTimezone (b : DockerFileBuilder) (m : FullManifest) : DockerFileBuilder :=
  ((b.env [("LANG".toList, lang m)]).env [("TZ".toList, tz m)]).run localeCommands

/-- The commands for the additional groups. -/
def groupCommand (group : GroupInfo) : List Char :=
  "(groupadd -g ".toList ++ Nat.toDigits 10 group.gid.toNat ++ [' '] ++ group.name ++ " || groupmod -g ".toList ++
    Nat.toDigits 10 group.gid.toNat ++ [' '] ++ group.name ++ [')']

/-- `group_list`. -/
def groupList (user : UserInfo) : List Char :=
  stringJoin [','] ((user.groups.map GroupInfo.name).insertionSort (· ≤ ·))

def userCommands (t : DockerFileBuilderTask) (user : UserInfo) : List (List Char) :=
  ["id ubuntu &>/dev/null && userdel -r ubuntu".toList,
    "groupadd -g ".toList ++ Nat.toDigits 10 user.group.gid.toNat ++ [' '] ++ user.group.name] ++
  user.groups.map groupCommand ++
  ["useradd -u ".toList ++ Nat.toDigits 10 user.uid.toNat ++ " -g ".toList ++
      Nat.toDigits 10 user.group.gid.toNat ++
      (if (groupList user).isEmpty then [] else " -G ".toList ++ groupList user) ++ " -d ".toList ++
      user.homeDirectory ++ " -s ".toList ++ user.shell ++ [' '] ++ user.username,
    "mkdir -p ".toList ++ user.homeDirectory,
    "chown ".toList ++ user.username ++ [':'] ++ user.group.name ++ [' '] ++ user.homeDirectory] ++
  if t.dockerSudoAccess then
    ["apt-get update -y".toList, "apt-get install -y sudo".toList,
      "echo '".toList ++ user.username ++ " ALL=(ALL) NOPASSWD:ALL' > /etc/sudoers.d/".toList ++ user.username,
      "chmod 0440 /etc/sudoers.d/".toList ++ user.username]
  else []

/-- `create_user`. -/
def createUser (t : DockerFileBuilderTask) (b : DockerFileBuilder) (m : FullManifest) : DockerFileBuilder :=
  b.run (t.userCommands m.user)

/-- `pkgs` of `install_deb_packages`: each name and version once, sorted. -/
def debArgs (m : FullManifest) : List (List Char) :=
  ((m.debPackages.map fun pkg => pkg.name.toList ++ '=' :: pkg.version.toList).foldl (Emplace.emplace id)
    []).insertionSort (· ≤ ·)

def debCommands (m : FullManifest) : List (List Char) :=
  ["apt-get update -y".toList,
    "apt-get install -y --no-install-recommends ".toList ++ stringJoin " \\\n      ".toList (debArgs m)]

/-- `install_deb_packages`. -/
def installDebPackages (b : DockerFileBuilder) (m : FullManifest) : DockerFileBuilder :=
  if m.debPackages.isEmpty then b else b.run (debCommands m)

/-- `install_r_packages`, with the script that it writes; `fuel` and `order` are those of the plan. -/
def installRPackages (host : BuildHost) (db : RpkgDatabase) (fuel : Nat) (order : HashOrder (Σ _ : RPackage, Nat))
    (t : DockerFileBuilderTask) (b : DockerFileBuilder) (m : FullManifest) :
    Except DockerfileError (DockerFileBuilder × List (Path × List Char)) := do
  if m.rPackages.isEmpty then return (b, [])
  let plan ← (db.getInstallationPlan fuel order m.rPackages).mapError .plan
  let plan ← plan.mapM PackageVector.ofList
  let script ← (InstallRPackageScriptBuilder.mk plan 24 true).buildScript.mapError .script
  let b ← (t.placeInstallScript host b).mapError .copy
  return (b, [(t.cranInstallScript, script)])

/-- The variables that `set_environment` leaves out. -/
def ignoredEnv : List (List Char) :=
  ["DBUS_SESSION_BUS_ADDRES", "GPG_TTY", "HOME", "LOGNAME", "OLDPWD", "PWD", "SSH_AUTH_SOCK", "SSH_CLIENT",
    "SSH_CONNECTION", "SSH_TTY", "USER", "XDG_RUNTIME_DIR", "XDG_SESSION_CLASS", "XDG_SESSION_ID",
    "XDG_SESSION_TYPE"].map String.toList

/-- `operator<` of `std::pair`, negated and turned round. -/
def pairLe (a b : List Char × List Char) : Prop := a.1 < b.1 ∨ a.1 = b.1 ∧ a.2 ≤ b.2

instance : DecidableRel pairLe := fun a b => inferInstanceAs (Decidable (a.1 < b.1 ∨ a.1 = b.1 ∧ a.2 ≤ b.2))

/-- `sorted_env` of `set_environment`. -/
def sortedEnv (m : FullManifest) : List (List Char × List Char) :=
  (m.envir.elems.filter fun kv => !ignoredEnv.contains kv.1).insertionSort pairLe

/-- `set_environment`. -/
def setEnvironment (b : DockerFileBuilder) (m : FullManifest) : DockerFileBuilder :=
  if m.envir.elems.isEmpty then b else b.env (sortedEnv m)

/-- The command that makes the user's library. -/
def userLibraryCommand : List Char :=
  "R -e 'dir.create(unlist(strsplit(Sys.getenv(\"R_LIBS_USER\"), .Platform$path.sep))[1L], ".toList ++
    "recursive=TRUE)'".toList

def directoryCommands (m : FullManifest) : List (List Char) :=
  ["mkdir -p ".toList ++ m.cwd.quoted,
    "chown ".toList ++ m.user.username ++ [':'] ++ m.user.group.name ++ [' '] ++ m.cwd.quoted]

/-- `prepare_command`. -/
def prepareCommand (b : DockerFileBuilder) (m : FullManifest) : DockerFileBuilder :=
  let b := ((b.run (directoryCommands m)).workdir m.cwd.native).user m.user.username
  let b := if m.rPackages.isEmpty then b else b.run [userLibraryCommand]
  b.cmd m.cmd

/-- `DockerFileBuilderTask::run`, with the files that it writes. -/
def run (host : BuildHost) (q : FileQueries) (stat : Path → Option Stat) (db : RpkgDatabase) (fuel : Nat)
    (order : HashOrder (Σ _ : RPackage, Nat)) (t : DockerFileBuilderTask) (m : FullManifest) :
    Except DockerfileError (DockerFile × List (Path × List Char)) := do
  let b := t.builder.env [("DEBIAN_FRONTEND".toList, "noninteractive".toList)]
  let b := setLangAndTimezone b m
  let b := t.createUser b m
  let b := installDebPackages b m
  let (b, script) ← t.installRPackages host db fuel order b m
  let (b, scripts) ← (t.copyFiles host q stat b m.toTraceManifest).mapError .copy
  let b := setEnvironment b m
  let b := prepareCommand b m
  let file := b.build
  return (file, script ++ scripts ++ [(t.dockerfile, file.dockerfile)])

/-! ### The calls -/

open DockerFileBuilder InstructionText

/-- The calls that install the R packages. -/
def rCalls (t : DockerFileBuilderTask) (m : FullManifest) : List Call :=
  if m.rPackages.isEmpty then []
  else [.copy [t.cranInstallScript] ['/'],
    .run ["Rscript /".toList ++ t.cranInstallScript.filename, "rm -f /".toList ++ t.cranInstallScript.filename]]

/-- The calls that copy the files. -/
def fileCalls (t : DockerFileBuilderTask) : List Call :=
  [.runScriptOnce t.preFileCopyScript, .copy [t.archive] t.archive.native,
    .run ["tar -x -f ".toList ++ t.archive.quoted ++ " --same-owner --same-permissions --absolute-names".toList,
      "rm -f ".toList ++ t.archive.quoted],
    .runScriptOnce t.postFileCopyScript]

/-- The calls before and after those that depend on the files. -/
def firstCalls (t : DockerFileBuilderTask) (m : FullManifest) : List Call :=
  [.env [("DEBIAN_FRONTEND".toList, "noninteractive".toList)], .env [("LANG".toList, lang m)],
    .env [("TZ".toList, tz m)], .run localeCommands, .run (t.userCommands m.user)] ++
  (if m.debPackages.isEmpty then [] else [.run (debCommands m)])

def lastCalls (m : FullManifest) : List Call :=
  [.env (sortedEnv m), .run (directoryCommands m), .workdir m.cwd.native, .user m.user.username] ++
  (if m.rPackages.isEmpty then [] else [.run [userLibraryCommand]]) ++ [.cmd m.cmd]

/-- All calls of `run`; `placed` says whether there are files to copy. -/
def calls (t : DockerFileBuilderTask) (m : FullManifest) (placed : Bool) : List Call :=
  t.firstCalls m ++ t.rCalls m ++ (if placed then t.fileCalls else []) ++ lastCalls m

section Calls

variable {host : BuildHost} {q : FileQueries} {stat : Path → Option Stat} {db : RpkgDatabase} {fuel : Nat}
  {order : HashOrder (Σ _ : RPackage, Nat)} {t : DockerFileBuilderTask} {m : FullManifest}
  {b b' : DockerFileBuilder} {written : List (Path × List Char)}

/-- What is written where the R packages are installed: the script. -/
theorem installRPackages_calls (h : t.installRPackages host db fuel order b m = .ok (b', written)) :
    (t.rCalls m).foldlM (Call.apply host) b = .ok b' ∧
      written.map Prod.fst = if m.rPackages.isEmpty then [] else [t.cranInstallScript] := by
  unfold installRPackages at h
  unfold rCalls
  split at h
  · rename_i hempty
    obtain ⟨rfl, rfl⟩ := Prod.mk.inj (Except.ok.inj h)
    rw [if_pos hempty, if_pos hempty]
    exact ⟨rfl, rfl⟩
  · rename_i hempty
    obtain ⟨plan, -, h⟩ := Except.bind_eq_ok h
    obtain ⟨steps, -, h⟩ := Except.bind_eq_ok h
    obtain ⟨script, -, h⟩ := Except.bind_eq_ok h
    obtain ⟨b₁, hplace, h⟩ := Except.bind_eq_ok h
    obtain ⟨rfl, rfl⟩ := Prod.mk.inj (Except.ok.inj h)
    rw [if_neg hempty, if_neg hempty]
    refine ⟨?_, rfl⟩
    obtain ⟨b₂, hcopy, hrun⟩ := Except.bind_eq_ok (Except.mapError_eq_ok hplace)
    obtain rfl := Except.ok.inj hrun
    simp [Call.apply, hcopy]

/-- There is something to archive. -/
def HasFiles (m : TraceManifest) : Prop := (∃ path, (path, .copy) ∈ m.copyFiles.entries) ∨ m.symlinks ≠ []

/-- What is written where the files are copied: the scripts, and the archive by `tar`. -/
theorem copyFiles_calls {m : TraceManifest} (h : t.copyFiles host q stat b m = .ok (b', written)) :
    ∃ placed : Bool, (if placed then t.fileCalls else []).foldlM (Call.apply host) b = .ok b' ∧
      written.map Prod.fst = (if placed then [t.preFileCopyScript, t.postFileCopyScript] else []) ∧
      (placed = true ↔ HasFiles m) ∧
      ∃ files, archiveFiles q m = .ok files ∧
        (placed = true → host.createTarArchive t.archive files = .ok ()) := by
  obtain ⟨⟨files, dirs⟩, hcollect, h⟩ := Except.bind_eq_ok h
  have hne := collectFiles_ne_nil_iff (Except.mapError_eq_ok hcollect)
  have harchive : archiveFiles q m = .ok (sortPaths files) := by
    rw [archiveFiles, Except.mapError_eq_ok hcollect]
    rfl
  dsimp only at h hne
  split at h
  · rename_i hfiles
    obtain ⟨rfl, rfl⟩ := Prod.mk.inj (Except.ok.inj h)
    have hnone : ¬HasFiles m := fun hm => hne.2 hm (List.isEmpty_iff.1 hfiles)
    exact ⟨false, rfl, rfl, by simp [hnone], _, harchive, by simp⟩
  · rename_i hfiles
    obtain ⟨b₁, hplace, h⟩ := Except.bind_eq_ok h
    obtain ⟨rfl, rfl⟩ := Prod.mk.inj (Except.ok.inj h)
    have hsorted : (sortPaths files).isEmpty = false := by
      rw [List.isEmpty_eq_false_iff]
      intro hnil
      have hlen : (sortPaths files).length = files.length := List.length_insertionSort _ files
      rw [hnil] at hlen
      exact hfiles (List.isEmpty_iff.2 (List.length_eq_zero_iff.1 hlen.symm))
    unfold placeFiles at hplace
    rw [if_neg (by simp [hsorted])] at hplace
    obtain ⟨b₂, hpre, hplace⟩ := Except.bind_eq_ok hplace
    obtain ⟨u, htar, hplace⟩ := Except.bind_eq_ok hplace
    obtain ⟨b₃, hcopy, hplace⟩ := Except.bind_eq_ok hplace
    have hsome : HasFiles m := hne.1 (by simpa using hfiles)
    refine ⟨true, ?_, rfl, by simp [hsome], _, harchive, fun _ => Except.mapError_eq_ok htar⟩
    rw [if_pos rfl, fileCalls]
    simp only [List.foldlM_cons, List.foldlM_nil, Call.apply, hpre, hcopy, Except.ok_bind]
    rw [hplace]
    rfl

/-- The Dockerfile is what the calls build, and the files that they copy are written. -/
theorem run_calls {file : DockerFile} (h : t.run host q stat db fuel order m = .ok (file, written)) :
    ∃ (placed : Bool) (b : DockerFileBuilder), (t.calls m placed).foldlM (Call.apply host) t.builder = .ok b ∧
      file = b.build ∧
      written.map Prod.fst = (if m.rPackages.isEmpty then [] else [t.cranInstallScript]) ++
        (if placed then [t.preFileCopyScript, t.postFileCopyScript] else []) ++ [t.dockerfile] ∧
      (placed = true ↔ HasFiles m.toTraceManifest) ∧
      ∃ files, archiveFiles q m.toTraceManifest = .ok files ∧
        (placed = true → host.createTarArchive t.archive files = .ok ()) := by
  unfold run at h
  dsimp only at h
  obtain ⟨⟨b₁, script⟩, hr, h⟩ := Except.bind_eq_ok h
  obtain ⟨⟨b₂, scripts⟩, hfiles, h⟩ := Except.bind_eq_ok h
  obtain ⟨rfl, rfl⟩ := Prod.mk.inj (Except.ok.inj h)
  obtain ⟨hrcalls, hscript⟩ := installRPackages_calls hr
  obtain ⟨placed, hfcalls, hscripts, hplaced, htar⟩ := copyFiles_calls (Except.mapError_eq_ok hfiles)
  refine ⟨placed, _, ?_, rfl, by simp [hscript, hscripts], hplaced, htar⟩
  have hfirst : (t.firstCalls m).foldlM (Call.apply host) t.builder = .ok (installDebPackages (t.createUser
      (setLangAndTimezone (t.builder.env [("DEBIAN_FRONTEND".toList, "noninteractive".toList)]) m) m) m) := by
    unfold firstCalls installDebPackages
    by_cases hdebs : m.debPackages.isEmpty = true
    · rw [if_pos hdebs, if_pos hdebs]
      rfl
    · rw [if_neg hdebs, if_neg hdebs]
      rfl
  have hlast : (lastCalls m).foldlM (Call.apply host) b₂ = .ok (prepareCommand (setEnvironment b₂ m) m) := by
    have henv : setEnvironment b₂ m = b₂.env (sortedEnv m) := by
      unfold setEnvironment
      split
      · rename_i hempty
        rw [sortedEnv, List.isEmpty_iff.1 hempty]
        rfl
      · rfl
    rw [henv]
    unfold lastCalls prepareCommand
    by_cases hpkgs : m.rPackages.isEmpty = true
    · simp only [if_pos hpkgs]
      rfl
    · simp only [if_neg hpkgs]
      rfl
  rw [calls, List.foldlM_append, List.foldlM_append, List.foldlM_append, hfirst, Except.ok_bind, hrcalls,
    Except.ok_bind, hfcalls, Except.ok_bind, hlast]

end Calls

/-! ### Texts that Docker takes as they are -/

/-- A character of the operands that are the same for all manifests. -/
def isFixed (c : Char) : Bool := c.isAlphanum || c == '_' || c == '/'

/-- A character that neither ends nor continues a line. -/
def isInLine (c : Char) : Bool := c != '\n' && c != '\\'

/-- The names and directories of the user. -/
def userTexts (user : UserInfo) : List (List Char) :=
  [user.group.name, user.homeDirectory, user.shell] ++ user.groups.map GroupInfo.name

/-- Docker takes the texts of the task and of the manifest as they are; `nameOf` gives the names of the copied files. -/
structure IsReadable (blanks : Blanks) (nameOf : Path → List Char) (t : DockerFileBuilderTask) (m : FullManifest) :
    Prop where
  fixed : ∀ c : Char, isFixed c = true → blanks.isBlank c = false
  base : isText t.baseImage = true
  output : ∀ path ∈ [t.cranInstallScript, t.preFileCopyScript, t.archive, t.postFileCopyScript],
    isOperand blanks (nameOf path) = true ∧ isOperand blanks path.native = true
  lang : IsReadBack blanks (lang m)
  tz : IsReadBack blanks (tz m)
  envir : ∀ kv ∈ sortedEnv m, kv.1 ≠ [] ∧ DockerFileBuilder.IsName blanks kv.1 ∧ IsReadBack blanks kv.2
  username : isText m.user.username = true
  user : ∀ text ∈ userTexts m.user, text.all isInLine = true
  debs : ∀ arg ∈ debArgs m, arg.all isInLine = true
  cwd : isText m.cwd.native = true
  cmd : ∀ arg ∈ m.cmd, ∀ c ∈ arg, JsonSafe c

section Texts

variable {text : List Char}

theorem isComplete_of_all (h : text.all isInLine = true) : isComplete text = true := by
  have hchar : ∀ c ∈ text, c ≠ '\n' ∧ c ≠ '\\' := fun c hc => by
    simpa [isInLine] using List.all_eq_true.1 h c hc
  exact isComplete_of_line (fun hm => (hchar _ hm).1 rfl) fun hlast => (hchar _ (List.mem_of_getLast? hlast)).2 rfl

private theorem isComplete_string (h : text.all isInLine = true) : isComplete (String.ofList text).toList = true :=
  isComplete_of_all (all_string h)

private theorem isInLine_of_isLiteral {c : Char} (h : isLiteral c = true) : isInLine c = true := by
  obtain ⟨hback, hnl, -⟩ := of_isLiteral h
  simp [isInLine, hback, hnl]

private theorem all_isInLine_of_isText (h : isText text = true) : text.all isInLine = true :=
  List.all_eq_true.2 fun c hc => isInLine_of_isLiteral (List.all_eq_true.1 (literal_of_isText h) c hc)

private theorem all_isInLine_digits (n : Nat) : (Nat.toDigits 10 n).all isInLine = true := by
  refine List.all_eq_true.2 fun c hc => ?_
  have hdigit := Nat.isDigit_of_mem_toDigits (by decide) (by decide) hc
  have hne : c ≠ '\n' ∧ c ≠ '\\' := by
    constructor <;> rintro rfl <;> exact absurd hdigit (by decide)
  simp [isInLine, hne.1, hne.2]

private theorem all_isInLine_localeCommands : ∀ command ∈ localeCommands, command.all isInLine = true := by
  unfold localeCommands
  simp only [List.forall_mem_cons]
  exact ⟨all_string (by decide), all_string (by decide), all_string (by decide),
    all_string (by decide), all_string (by decide), by simp⟩

private theorem all_isInLine_userLibraryCommand : userLibraryCommand.all isInLine = true := by
  unfold userLibraryCommand
  rw [List.all_append, Bool.and_eq_true]
  exact ⟨all_string (by decide), all_string (by decide)⟩

/-- A quoted path without quotes and backslashes stays on its line. -/
theorem all_isInLine_quoted {path : Path} (h : path.native.all isLiteral = true) : path.quoted.all isInLine = true := by
  have hplain : path.quoted = '"' :: path.native ++ ['"'] := by
    have hchars : ∀ text : List Char, text.all isLiteral = true →
        (text.flatMap fun c => if c = '"' ∨ c = '\\' then ['\\', c] else [c]) = text := by
      intro text htext
      induction text with
      | nil => rfl
      | cons c text ih =>
        simp only [List.all_cons, Bool.and_eq_true] at htext
        have hc : ¬(c = '"' ∨ c = '\\') := by
          rintro (rfl | rfl) <;> exact absurd htext.1 (by decide)
        rw [List.flatMap_cons, if_neg hc, ih htext.2]
        rfl
    rw [Path.quoted, hchars _ h]
  rw [hplain]
  have hnative : path.native.all isInLine = true :=
    List.all_eq_true.2 fun c hc => isInLine_of_isLiteral (List.all_eq_true.1 h c hc)
  simp only [List.cons_append, List.all_cons, List.all_append, List.all_nil, hnative]
  decide

end Texts

section Readable

variable {blanks : Blanks} {nameOf : Path → List Char} {t : DockerFileBuilderTask} {m : FullManifest}

theorem isName_of_fixed (hfixed : ∀ c : Char, isFixed c = true → blanks.isBlank c = false) {name : List Char}
    (h : name.all isFixed = true) : DockerFileBuilder.IsName blanks name := by
  intro c hc
  have hchar := List.all_eq_true.1 h c hc
  refine ⟨⟨hfixed c hchar, ?_, ?_⟩, ?_, ?_⟩ <;> rintro rfl <;> exact absurd hchar (by decide)

private theorem isReadBack_of_fixed (hfixed : ∀ c : Char, isFixed c = true → blanks.isBlank c = false)
    {value : List Char} (h : value.all isFixed = true) : IsReadBack blanks value := by
  refine ⟨fun hnl => ?_, fun _ c hc => hfixed c (List.all_eq_true.1 h c hc)⟩
  exact absurd (List.all_eq_true.1 h _ hnl) (by decide)

/-- Every command for the user is on one line. -/
private theorem all_isInLine_userCommands (hname : isText m.user.username = true)
    (htexts : ∀ text ∈ userTexts m.user, text.all isInLine = true) :
    ∀ command ∈ t.userCommands m.user, command.all isInLine = true := by
  have hgroup : m.user.group.name.all isInLine = true := htexts _ (by simp [userTexts])
  have hhome : m.user.homeDirectory.all isInLine = true := htexts _ (by simp [userTexts])
  have hshell : m.user.shell.all isInLine = true := htexts _ (by simp [userTexts])
  have huser := all_isInLine_of_isText hname
  have hgroups : ∀ name ∈ m.user.groups.map GroupInfo.name, name.all isInLine = true :=
    fun name hmem => htexts name (List.mem_append_right _ hmem)
  have hlist : (groupList m.user).all isInLine = true := by
    have hsorted : ∀ name ∈ (m.user.groups.map GroupInfo.name).insertionSort (· ≤ ·), name.all isInLine = true :=
      fun name hmem => hgroups name ((List.mem_insertionSort _).1 hmem)
    unfold groupList
    cases hnames : (m.user.groups.map GroupInfo.name).insertionSort (· ≤ ·) with
    | nil => rfl
    | cons name names =>
      rw [hnames] at hsorted
      obtain ⟨hfirst, hrest⟩ := List.forall_mem_cons.1 hsorted
      have htail : (names.flatMap fun text => [','] ++ text).all isInLine = true := by
        rw [List.all_flatMap]
        refine List.all_eq_true.2 fun text htext => ?_
        rw [List.all_append, hrest text htext]
        rfl
      rw [stringJoin, List.all_append, hfirst, htail]
      rfl
  have hgroupList :
      (if (groupList m.user).isEmpty then [] else " -G ".toList ++ groupList m.user).all isInLine = true := by
    split
    · rfl
    · rw [List.all_append, hlist]
      rfl
  have hsudo : ∀ command ∈ (if t.dockerSudoAccess then
      ["apt-get update -y".toList, "apt-get install -y sudo".toList,
        "echo '".toList ++ m.user.username ++ " ALL=(ALL) NOPASSWD:ALL' > /etc/sudoers.d/".toList ++ m.user.username,
        "chmod 0440 /etc/sudoers.d/".toList ++ m.user.username]
      else []), command.all isInLine = true := by
    split
    · have hnopasswd : " ALL=(ALL) NOPASSWD:ALL' > /etc/sudoers.d/".toList.all isInLine = true :=
        all_string (by decide)
      have hchmod : "chmod 0440 /etc/sudoers.d/".toList.all isInLine = true := all_string (by decide)
      simp only [List.forall_mem_cons, List.all_append, huser, hnopasswd, hchmod]
      exact ⟨all_string (by decide), all_string (by decide), by decide, rfl, by simp⟩
    · simp
  intro command hcommand
  unfold userCommands at hcommand
  simp only [List.mem_append, List.mem_cons, List.not_mem_nil, or_false] at hcommand
  rcases hcommand with (((rfl | rfl) | hcommand) | (rfl | rfl | rfl)) | hcommand
  · exact all_string (by decide)
  · simp only [List.all_append, all_isInLine_digits, hgroup]
    decide
  · obtain ⟨group, hmem, rfl⟩ := List.mem_map.1 hcommand
    unfold groupCommand
    simp only [List.all_append, all_isInLine_digits, hgroups _ (List.mem_map_of_mem hmem)]
    decide
  · simp only [List.all_append, all_isInLine_digits, hgroupList, hhome, hshell, huser]
    decide
  · simp only [List.all_append, hhome]
    decide
  · simp only [List.all_append, huser, hgroup, hhome]
    decide
  · exact hsudo command hcommand

/-- Docker takes the arguments of every call as they are. -/
theorem calls_readable (h : IsReadable blanks nameOf t m) (placed : Bool) :
    ∀ call ∈ t.calls m placed, call.IsReadable blanks nameOf := by
  have hline : ∀ commands : List (List Char), (∀ c ∈ commands, c.all isInLine = true) →
      (Call.run commands).IsReadable blanks nameOf := fun commands hall c hc => isComplete_of_all (hall c hc)
  have hoperand : ∀ path ∈ [t.cranInstallScript, t.preFileCopyScript, t.archive, t.postFileCopyScript],
      isComplete path.quoted = true := fun path hpath => isComplete_quoted (h.output path hpath).2
  have henv : ∀ {name value : List Char}, name.all isFixed = true → IsReadBack blanks value →
      (Call.env [(name, value)]).IsReadable blanks nameOf := by
    intro name value hname hvalue kv hkv
    obtain rfl := List.mem_singleton.1 hkv
    exact ⟨isName_of_fixed h.fixed hname, hvalue⟩
  have hfirst : ∀ call ∈ t.firstCalls m, call.IsReadable blanks nameOf := by
    intro call hcall
    simp only [firstCalls, List.mem_append, List.mem_cons, List.not_mem_nil, or_false] at hcall
    rcases hcall with (rfl | rfl | rfl | rfl | rfl) | hcall
    · exact henv (by decide) (isReadBack_of_fixed h.fixed (by decide))
    · exact henv (by decide) h.lang
    · exact henv (by decide) h.tz
    · exact hline _ all_isInLine_localeCommands
    · exact hline _ (all_isInLine_userCommands h.username h.user)
    · split at hcall
      · cases hcall
      · obtain rfl := List.mem_singleton.1 hcall
        have hargs : isComplete (stringJoin " \\\n      ".toList (debArgs m)) = true :=
          isComplete_stringJoin (by decide) fun arg harg => isComplete_of_all (h.debs arg harg)
        intro c hc
        simp only [debCommands, List.mem_cons, List.not_mem_nil, or_false] at hc
        rcases hc with rfl | rfl
        · exact isComplete_string (by decide)
        · rw [isComplete_append (isComplete_string (by decide)), hargs]
  have hr : ∀ call ∈ t.rCalls m, call.IsReadable blanks nameOf := by
    intro call hcall
    unfold rCalls at hcall
    split at hcall
    · cases hcall
    · have hname : t.cranInstallScript.filename = "install_r_packages.R".toList :=
        Path.filename_append (by decide) (by decide)
      simp only [List.mem_cons, List.not_mem_nil, or_false] at hcall
      rcases hcall with rfl | rfl
      · refine ⟨fun src hsrc => ?_, ?_⟩
        · rw [List.mem_singleton.1 hsrc]
          exact (h.output _ (by simp)).1
        · simp [isOperand, h.fixed '/' rfl, isLiteral]
      · rw [hname]
        exact hline _ (by decide)
  have hfiles : ∀ call ∈ t.fileCalls, call.IsReadable blanks nameOf := by
    intro call hcall
    simp only [fileCalls, List.mem_cons, List.not_mem_nil, or_false] at hcall
    rcases hcall with rfl | rfl | rfl | rfl
    · exact h.output _ (by simp)
    · refine ⟨fun src hsrc => ?_, (h.output _ (by simp)).2⟩
      rw [List.mem_singleton.1 hsrc]
      exact (h.output _ (by simp)).1
    · intro c hc
      simp only [List.mem_cons, List.not_mem_nil, or_false] at hc
      rcases hc with rfl | rfl
      · rw [isComplete_append]
        · exact isComplete_string (by decide)
        · rw [isComplete_append (by decide), hoperand _ (by simp)]
      · rw [isComplete_append (by decide), hoperand _ (by simp)]
    · exact h.output _ (by simp)
  have hlast : ∀ call ∈ lastCalls m, call.IsReadable blanks nameOf := by
    intro call hcall
    simp only [lastCalls, List.mem_append, List.mem_cons, List.not_mem_nil, or_false] at hcall
    rcases hcall with ((rfl | rfl | rfl | rfl) | hcall) | rfl
    · exact fun kv hkv => (h.envir kv hkv).2
    · have hquoted := all_isInLine_quoted (literal_of_isText h.cwd)
      have hgroup : m.user.group.name.all isInLine = true := h.user _ (by simp [userTexts])
      refine hline _ fun c hc => ?_
      simp only [directoryCommands, List.mem_cons, List.not_mem_nil, or_false] at hc
      rcases hc with rfl | rfl
      · rw [List.all_append, hquoted]
        decide
      · simp only [List.all_append, hquoted, hgroup, all_isInLine_of_isText h.username]
        decide
    · exact h.cwd
    · exact h.username
    · split at hcall
      · cases hcall
      · obtain rfl := List.mem_singleton.1 hcall
        refine hline _ fun c hc => ?_
        rw [List.mem_singleton.1 hc]
        exact all_isInLine_userLibraryCommand
    · exact h.cmd
  intro call hcall
  simp only [calls, List.mem_append] at hcall
  rcases hcall with ((hcall | hcall) | hcall) | hcall
  · exact hfirst call hcall
  · exact hr call hcall
  · split at hcall
    · exact hfiles call hcall
    · cases hcall
  · exact hlast call hcall

end Readable

end DockerFileBuilderTask

end R4R

import R4R.InstallRPackageBuilder
import R4R.Lib.RText
import R4R.Lib.ShellJobs

/-!
# The installation script

`InstallRPackageScriptBuilder::write_script` writes an R script that hands each batch to a shell: a command that starts
one `Rscript` for each package in the background and waits.  The code of that `Rscript` stands between double quotes of
the shell, within a string literal of the script.  Here the script is read through the three languages: the literals
between double quotes are the shell commands, their background jobs run `Rscript -e` with some code, and the literals of
the code say what is installed.  What is read is what the batches say, package by package and in their order
(`buildScript_readBack`).
-/

namespace R4R

open RText ShellText

namespace InstallRPackageScriptBuilder

/-- `tmp_lib_dir_`. -/
def tmpLibDir : List Char := "/tmp/r4r-lib".toList

def kRHeader : List Char := "cat('############################################################\\n')\n".toList

/-- `write_header`. -/
def writeHeader : List Char :=
  "#!/usr/bin/env Rscript\n\n".toList ++ kRHeader ++ "cat('# Starting installation...\\n');\n".toList ++ kRHeader ++
    "\n".toList ++ "options(Ncpus=min(parallel::detectCores(), 32))\n\n".toList ++
    "dir.create('".toList ++ tmpLibDir ++ "', recursive=TRUE)\n".toList ++
    "install.packages('remotes', lib = '".toList ++ tmpLibDir ++ "')\n".toList ++
    "on.exit(unlink('".toList ++ tmpLibDir ++ "', recursive = TRUE))\n".toList ++ "\n\n".toList

def logFile (pkg : RPackage) : List Char :=
  "/tmp/r4r-install-".toList ++ pkg.name.toList ++ "-".toList ++ pkg.version.toList ++ ".log".toList

/-- The call that makes the package `remotes` available. -/
def requireRemotes : List Char := "require('remotes', lib.loc = '".toList ++ tmpLibDir ++ "');".toList

/-- The code that installs a package. -/
def installCode (pkg : RPackage) : List Char :=
  match pkg.repository with
  | .gitHub gh =>
    requireRemotes ++ "remotes::install_github('".toList ++ gh.org.toList ++ "/".toList ++ gh.name.toList ++
      "', ref = '".toList ++ gh.ref.toList ++ "', upgrade = 'never', dependencies = FALSE)\n".toList
  | .cran =>
    requireRemotes ++ "remotes::install_version('".toList ++ pkg.name.toList ++ "', '".toList ++ pkg.version.toList ++
      "', upgrade = 'never', dependencies = FALSE)\n".toList

/-- The command for the shell, as it is written into a literal of the script. -/
def shellCmd (batch : List RPackage) : List Char :=
  (batch.flatMap fun pkg =>
    "Rscript -e \\\"".toList ++ installCode pkg ++ "\\\"".toList ++ " > ".toList ++ logFile pkg ++ " 2>&1 & ".toList) ++
  "wait".toList

/-- The logs that are shown after a failure. -/
def showLog (pkg : RPackage) : List Char :=
  "  ".toList ++ kRHeader ++ "  cat('# Logs for package ".toList ++ pkg.name.toList ++ " version ".toList ++
    pkg.version.toList ++ " (".toList ++ logFile pkg ++ ")".toList ++ "\\n');\n".toList ++ "  ".toList ++ kRHeader ++
    "  cat(readLines('".toList ++ logFile pkg ++ "'), sep='\\n')\n  cat('\\n')\n".toList

/-- The check that a package has been installed in its version. -/
def verify (pkg : RPackage) : List Char :=
  "\x7b\n  pkg_name <- '".toList ++ pkg.name.toList ++ "'\n  pkg_ver  <- '".toList ++ pkg.version.toList ++
    "'\n  installed_ver <- tryCatch(as.character(packageVersion(pkg_name)), error = function(e) NA)\n".toList ++
    "  if (is.na(installed_ver)) \x7b\n    ".toList ++ kRHeader ++
    "    cat('# Error: Failed to install ', pkg_name, ' ', pkg_ver, '\\n');\n    ".toList ++ kRHeader ++
    "    cat(readLines('".toList ++ logFile pkg ++
    "'), sep='\\n')\n    cat('\\n')\n    quit(status = 1)\n".toList ++
    "\x7d else if (installed_ver != pkg_ver) \x7b\n    ".toList ++ kRHeader ++
    "    cat('# Warning: Different version of ', pkg_name, ' installed. Expected: ', pkg_ver, ', installed: ".toList ++
    "', installed_ver, '\\n');\n    ".toList ++ kRHeader ++ "  \x7d\n\x7d\n\n".toList

/-- `write_batch`. -/
def writeBatch (batchIndex totalBatches : Nat) (batch : List RPackage) : List Char :=
  if batch.isEmpty then []
  else
    kRHeader ++ "cat('# Installing batch ".toList ++ Nat.toDigits 10 (batchIndex + 1) ++ "/".toList ++
      Nat.toDigits 10 totalBatches ++ " with ".toList ++ Nat.toDigits 10 batch.length ++
      " packages...\\n');\n".toList ++ kRHeader ++ "\n".toList ++
      "status <- system(\"".toList ++ shellCmd batch ++ "\")\nif (status != 0) \x7b\n  ".toList ++ kRHeader ++
      "  cat('# Batch ".toList ++ Nat.toDigits 10 (batchIndex + 1) ++ "/".toList ++ Nat.toDigits 10 totalBatches ++
      " FAILED.\\n');\n    ".toList ++ kRHeader ++ "\n".toList ++ batch.flatMap showLog ++
      "  quit(status = 1)\n\x7d\n\n".toList ++ batch.flatMap verify

/-- `write_footer`. -/
def writeFooter (batches : List (List RPackage)) : List Char :=
  kRHeader ++ "cat('# All ".toList ++ Nat.toDigits 10 batches.flatten.length ++
    " packages installed successfully.\\n');\n".toList ++ kRHeader

/-- `write_script`. -/
def writeScript (batches : List (List RPackage)) : List Char :=
  writeHeader ++ (batches.zipIdx.flatMap fun e => writeBatch e.2 batches.length e.1) ++ writeFooter batches

/-- `build`, with the script that it writes. -/
def buildScript (b : InstallRPackageScriptBuilder) : Except BuildFailure (List Char) := do
  let batches ← b.build
  return writeScript batches

end InstallRPackageScriptBuilder

/-! ### What a script installs -/

/-- What the code of one `Rscript` installs. -/
inductive Install where
  | version (name version : List Char)
  | gitHub (repo ref : List Char)
deriving DecidableEq, Repr

/-- The installation of a package that the plan asks for. -/
def Install.ofPackage (pkg : RPackage) : Install :=
  match pkg.repository with
  | .gitHub gh => .gitHub (gh.org.toList ++ '/' :: gh.name.toList) gh.ref.toList
  | .cran => .version pkg.name.toList pkg.version.toList

namespace InstallRPackageScriptBuilder

/-- What a piece of R code installs: its literals, by the function that it calls. -/
def readInstall (code : List Char) : Option Install :=
  match RText.literals code with
  | some [_, _, first, second, _] =>
    if (requireRemotes ++ "remotes::install_version(".toList).isPrefixOf code then some (.version first.2 second.2)
    else if (requireRemotes ++ "remotes::install_github(".toList).isPrefixOf code then
      some (.gitHub first.2 second.2)
    else none
  | _ => none

/-- What a shell command installs: each background job runs `Rscript -e`, and the shell waits for all. -/
def readJobs (ext : Extent) (env : Environment) (command : List Char) : Option (List Install) :=
  match jobs ext env command.length command with
  | some (js, [last]) =>
    if last = "wait".toList then
      js.mapM fun words =>
        match words with
        | [program, option, code] =>
          if program = "Rscript".toList ∧ option = "-e".toList then readInstall code else none
        | _ => none
    else none
  | _ => none

/-- What a script installs, call by call of `system`: its arguments are the literals between double quotes. -/
def readScript (ext : Extent) (env : Environment) (script : List Char) : Option (List (List Install)) :=
  (RText.literals script).bind fun found => (betweenDouble found).mapM (readJobs ext env)

end InstallRPackageScriptBuilder

/-! ### Texts that stand for themselves -/

/-- The texts of a package that the script contains. -/
def RPackage.texts (pkg : RPackage) : List String :=
  match pkg.repository with
  | .gitHub gh => [pkg.name, pkg.version, gh.org, gh.name, gh.ref]
  | .cran => [pkg.name, pkg.version]

/-- The texts have neither quotes nor blanks nor any other character with a meaning to the shell. -/
def RPackage.IsPlain (pkg : RPackage) : Prop := ∀ s ∈ pkg.texts, ∀ c ∈ s.toList, isPlain c = true

/-- A string, by its characters. -/
theorem all_string {p : Char → Bool} {text : List Char} (h : text.all p = true) :
    (String.ofList text).toList.all p = true := by
  rwa [String.toList_ofList]

theorem RPackage.isPlain_of_all {pkg : RPackage} (h : (pkg.texts.all fun s => s.toList.all isPlain) = true) :
    pkg.IsPlain := fun s hs => List.all_eq_true.1 (List.all_eq_true.1 h s hs)

private theorem RPackage.name_mem_texts (pkg : RPackage) : pkg.name ∈ pkg.texts := by
  unfold texts
  split <;> simp

private theorem RPackage.version_mem_texts (pkg : RPackage) : pkg.version ∈ pkg.texts := by
  unfold texts
  split <;> simp

private theorem ne_of_isPlain {c : Char} (h : isPlain c = true) :
    c ≠ '\x27' ∧ c ≠ '"' ∧ c ≠ '\\' ∧ c ≠ '$' ∧ c ≠ '\x60' := by
  refine ⟨?_, ?_, ?_, ?_, ?_⟩ <;> rintro rfl <;> exact absurd h (by decide)

/-- A text without a backquote and without a dollar sign is not expanded. -/
theorem expansionFree_of_notMem {w : List Char} (h : ∀ c ∈ w, c ≠ '$' ∧ c ≠ '\x60') : ExpansionFree w := by
  induction w with
  | nil => exact trivial
  | cons c w ih =>
    obtain ⟨hc, hw⟩ := List.forall_mem_cons.1 h
    exact ⟨hc.2, fun he => absurd he hc.1, ih hw⟩

private theorem quoteEscaped_of_notMem {w : List Char} (h : ∀ c ∈ w, c ≠ '"' ∧ c ≠ '\\') : quoteEscaped w = w := by
  induction w with
  | nil => rfl
  | cons c w ih =>
    obtain ⟨hc, hw⟩ := List.forall_mem_cons.1 h
    have hcons : quoteEscaped (c :: w) = (if c = '"' ∨ c = '\\' then ['\\', c] else [c]) ++ quoteEscaped w := rfl
    rw [hcons, if_neg (by simp [hc.1, hc.2]), ih hw]
    rfl

/-- The digits of a number stand for themselves. -/
private theorem body_digits (n : Nat) : Body '\x27' (Nat.toDigits 10 n) (Nat.toDigits 10 n) := by
  refine Body.plain fun c hc => ?_
  have hdigit := Nat.isDigit_of_mem_toDigits (by decide) (by decide) hc
  constructor <;> rintro rfl <;> exact absurd hdigit (by decide)

namespace InstallRPackageScriptBuilder

variable {pkg : RPackage}

private theorem body_text (h : pkg.IsPlain) {s : String} (hs : s ∈ pkg.texts) : Body '\x27' s.toList s.toList :=
  Body.plain fun c hc => ⟨(ne_of_isPlain (h s hs c hc)).1, (ne_of_isPlain (h s hs c hc)).2.2.1⟩

private theorem isPlain_logFile (h : pkg.IsPlain) : (logFile pkg).all isPlain = true := by
  have htext : ∀ s ∈ pkg.texts, s.toList.all isPlain = true := fun s hs => List.all_eq_true.2 (h s hs)
  have hname := htext _ pkg.name_mem_texts
  have hversion := htext _ pkg.version_mem_texts
  unfold logFile
  simp only [List.all_append, Bool.and_eq_true]
  refine ⟨⟨⟨⟨?_, hname⟩, ?_⟩, hversion⟩, ?_⟩ <;> decide

private theorem isPlainWord_logFile (h : pkg.IsPlain) : IsPlainWord (logFile pkg) := by
  have hhead : (logFile pkg).head? = some '/' := by
    unfold logFile
    simp
  refine ⟨fun hnil => ?_, fun hhash => ?_, List.all_eq_true.1 (isPlain_logFile h)⟩
  · rw [hnil] at hhead
    cases hhead
  · rw [hhead] at hhash
    exact absurd hhash (by decide)

private theorem body_logFile (h : pkg.IsPlain) : Body '\x27' (logFile pkg) (logFile pkg) := by
  refine Body.plain fun c hc => ?_
  have hplain := ne_of_isPlain (List.all_eq_true.1 (isPlain_logFile h) c hc)
  exact ⟨hplain.1, hplain.2.2.1⟩

/-- A character that stands for itself between double quotes, in R and in a shell. -/
def isInert (c : Char) : Bool := !(['"', '\\', '$', '\x60'].contains c)

private theorem ne_of_isInert {c : Char} (h : isInert c = true) : c ≠ '"' ∧ c ≠ '\\' ∧ c ≠ '$' ∧ c ≠ '\x60' := by
  refine ⟨?_, ?_, ?_, ?_⟩ <;> rintro rfl <;> exact absurd h (by decide)

private theorem isInert_of_isPlain {c : Char} (h : isPlain c = true) : isInert c = true := by
  have hne := ne_of_isPlain h
  simp [isInert, hne.2.1, hne.2.2.1, hne.2.2.2.1, hne.2.2.2.2]

private theorem isInert_installCode (h : pkg.IsPlain) : (installCode pkg).all isInert = true := by
  have htext : ∀ s ∈ pkg.texts, s.toList.all isInert = true := by
    intro s hs
    exact List.all_eq_true.2 fun c hc => isInert_of_isPlain (h s hs c hc)
  have hrequire : requireRemotes.all isInert = true := by
    unfold requireRemotes
    rw [List.all_append, List.all_append, Bool.and_eq_true, Bool.and_eq_true]
    exact ⟨⟨all_string (by decide), by decide⟩, by decide⟩
  have hoptions : "', upgrade = 'never', dependencies = FALSE)\n".toList.all isInert = true := all_string (by decide)
  unfold installCode
  unfold RPackage.texts at htext
  split
  · rename_i gh hgh
    simp only [hgh] at htext
    simp only [List.all_append, Bool.and_eq_true]
    exact ⟨⟨⟨⟨⟨⟨⟨hrequire, all_string (by decide)⟩, htext _ (by simp)⟩, by decide⟩, htext _ (by simp)⟩, by decide⟩,
      htext _ (by simp)⟩, hoptions⟩
  · rename_i hgh
    simp only [hgh] at htext
    simp only [List.all_append, Bool.and_eq_true]
    exact ⟨⟨⟨⟨⟨hrequire, all_string (by decide)⟩, htext _ (by simp)⟩, by decide⟩, htext _ (by simp)⟩, hoptions⟩

/-! ### Reading the code -/

/-- The code of a call with two arguments that vary. -/
private theorem literals_call {first second : List Char} (front middle : List Char) (hfront : Reads front [])
    (hfirst : Body '\x27' first first) (hmiddle : Reads middle []) (hsecond : Body '\x27' second second) :
    RText.literals (requireRemotes ++ front ++ ('\x27' :: first ++ ['\x27']) ++ middle ++
      ('\x27' :: second ++ ['\x27']) ++ ", upgrade = 'never', dependencies = FALSE)\n".toList) =
        some [('\x27', "remotes".toList), ('\x27', tmpLibDir), ('\x27', first), ('\x27', second),
          ('\x27', "never".toList)] := by
  have hrequire : Reads requireRemotes [('\x27', "remotes".toList), ('\x27', tmpLibDir)] := rfl
  have hend : Reads ", upgrade = 'never', dependencies = FALSE)\n".toList [('\x27', "never".toList)] := rfl
  have hcode := ((((hrequire.append hfront).append (Reads.literal rfl hfirst)).append hmiddle).append
    (Reads.literal rfl hsecond)).append hend
  exact hcode.literals

/-- The function that a code calls first. -/
private theorem isPrefixOf_call (front rest : List Char) :
    (requireRemotes ++ front).isPrefixOf (requireRemotes ++ front ++ rest) = true := by
  rw [List.isPrefixOf_iff_prefix]
  exact List.prefix_append _ _

/-- The code of a package is read as its installation. -/
private theorem readInstall_installCode (h : pkg.IsPlain) : readInstall (installCode pkg) = some (.ofPackage pkg) := by
  have hbody : ∀ s ∈ pkg.texts, Body '\x27' s.toList s.toList := fun s hs => body_text h hs
  have hoptions : "', upgrade = 'never', dependencies = FALSE)\n".toList =
      '\x27' :: ", upgrade = 'never', dependencies = FALSE)\n".toList := by
    rw [show "', upgrade = 'never', dependencies = FALSE)\n".toList = _ from String.toList_ofList,
      show ", upgrade = 'never', dependencies = FALSE)\n".toList = _ from String.toList_ofList]
  unfold installCode
  unfold RPackage.texts at hbody
  unfold Install.ofPackage
  split
  · rename_i gh hgh
    simp only [hgh] at hbody
    have hslash : Body '\x27' "/".toList "/".toList := Body.of_all (by decide)
    have hrepo := ((hbody gh.org (by simp)).append hslash).append (hbody gh.name (by simp))
    have hliterals := literals_call "remotes::install_github(".toList ", ref = ".toList rfl hrepo rfl
      (hbody gh.ref (by simp))
    have htext : requireRemotes ++ "remotes::install_github('".toList ++ gh.org.toList ++ "/".toList ++
        gh.name.toList ++ "', ref = '".toList ++ gh.ref.toList ++
        "', upgrade = 'never', dependencies = FALSE)\n".toList =
      requireRemotes ++ "remotes::install_github(".toList ++
        ('\x27' :: (gh.org.toList ++ "/".toList ++ gh.name.toList) ++ ['\x27']) ++ ", ref = ".toList ++
        ('\x27' :: gh.ref.toList ++ ['\x27']) ++ ", upgrade = 'never', dependencies = FALSE)\n".toList := by
      have hopen : "remotes::install_github('".toList = "remotes::install_github(".toList ++ ['\x27'] := by decide
      have hbetween : "', ref = '".toList = '\x27' :: ", ref = ".toList ++ ['\x27'] := by decide
      rw [hopen, hbetween, hoptions]
      simp only [List.append_assoc, List.cons_append, List.nil_append]
    have hother : ∀ rest, (requireRemotes ++ "remotes::install_version(".toList).isPrefixOf
        (requireRemotes ++ "remotes::install_github(".toList ++ rest) = false := fun _ => rfl
    have hcall := isPrefixOf_call "remotes::install_github(".toList
    rw [htext, readInstall, hliterals]
    simp only [List.append_assoc (requireRemotes ++ "remotes::install_github(".toList)] at hother hcall ⊢
    rw [hother, hcall]
    simp
  · rename_i hgh
    simp only [hgh] at hbody
    have hliterals := literals_call "remotes::install_version(".toList ", ".toList rfl (hbody pkg.name (by simp)) rfl
      (hbody pkg.version (by simp))
    have htext : requireRemotes ++ "remotes::install_version('".toList ++ pkg.name.toList ++ "', '".toList ++
        pkg.version.toList ++ "', upgrade = 'never', dependencies = FALSE)\n".toList =
      requireRemotes ++ "remotes::install_version(".toList ++ ('\x27' :: pkg.name.toList ++ ['\x27']) ++
        ", ".toList ++ ('\x27' :: pkg.version.toList ++ ['\x27']) ++
        ", upgrade = 'never', dependencies = FALSE)\n".toList := by
      have hopen : "remotes::install_version('".toList = "remotes::install_version(".toList ++ ['\x27'] := by decide
      have hbetween : "', '".toList = '\x27' :: ", ".toList ++ ['\x27'] := by decide
      rw [hopen, hbetween, hoptions]
      simp only [List.append_assoc, List.cons_append, List.nil_append]
    have hcall := isPrefixOf_call "remotes::install_version(".toList
    rw [htext, readInstall, hliterals]
    simp only [List.append_assoc (requireRemotes ++ "remotes::install_version(".toList)] at hcall ⊢
    rw [hcall]
    simp

/-! ### Reading the commands -/

/-- The words before the code. -/
def rscriptWords : List (List Char) := ["Rscript".toList, "-e".toList]

/-- The command for the shell, as R reads it. -/
def shellText (batch : List RPackage) : List Char :=
  (batch.flatMap fun pkg => job rscriptWords (installCode pkg) (logFile pkg)) ++ "wait".toList

/-- The jobs of a batch are read as the installations of its packages. -/
private theorem readJobs_shellText (ext : Extent) (env : Environment) {batch : List RPackage}
    (h : ∀ pkg ∈ batch, pkg.IsPlain) : readJobs ext env (shellText batch) = some (batch.map .ofPackage) := by
  have hwords : ∀ w ∈ rscriptWords, IsPlainWord w := by
    intro w hw
    simp only [rscriptWords, List.mem_cons, List.not_mem_nil, or_false] at hw
    rcases hw with rfl | rfl <;> exact isPlainWord_of_all (by decide)
  have hwait : IsPlainWord "wait".toList := isPlainWord_of_all (by decide)
  have hargs : ∀ pkg ∈ batch, ExpansionFree (installCode pkg) ∧ IsPlainWord (logFile pkg) := by
    intro pkg hpkg
    refine ⟨expansionFree_of_notMem fun c hc => ?_, isPlainWord_logFile (h pkg hpkg)⟩
    exact (ne_of_isInert (List.all_eq_true.1 (isInert_installCode (h pkg hpkg)) c hc)).2.2
  have hfuel : batch.length < (shellText batch).length := by
    have hle := length_le_length_flatMap (f := fun pkg => job rscriptWords (installCode pkg) (logFile pkg))
      (fun pkg => by simp [job]) batch
    have hlast : ("wait".toList).length = 4 := rfl
    rw [shellText, List.length_append, hlast]
    omega
  have hjobs := jobs_append ext env hwords hwait hargs hfuel
  have hinstalls : ∀ pkgs : List RPackage, (∀ pkg ∈ pkgs, pkg.IsPlain) →
      pkgs.mapM (fun pkg => readInstall (installCode pkg)) = some (pkgs.map .ofPackage) := by
    intro pkgs hpkgs
    induction pkgs with
    | nil => rfl
    | cons pkg pkgs ih =>
      obtain ⟨hpkg, hpkgs⟩ := List.forall_mem_cons.1 hpkgs
      rw [List.mapM_cons, readInstall_installCode hpkg, ih hpkgs]
      rfl
  rw [readJobs, show jobs ext env (shellText batch).length (shellText batch) = _ from hjobs]
  dsimp only
  rw [if_pos rfl, List.mapM_map]
  exact hinstalls batch h

/-- A job, as it is written into a literal of the script. -/
private theorem body_job (h : pkg.IsPlain) : Body '"' ("Rscript -e \\\"".toList ++ installCode pkg ++ "\\\"".toList ++
    " > ".toList ++ logFile pkg ++ " 2>&1 & ".toList) (job rscriptWords (installCode pkg) (logFile pkg)) := by
  have hquote : Body '"' "\\\"".toList "\"".toList := Body.escape (by decide) rfl
  have hprogram : Body '"' "Rscript -e ".toList "Rscript -e ".toList := Body.of_all (by decide)
  have hto : Body '"' " > ".toList " > ".toList := Body.of_all (by decide)
  have hback : Body '"' " 2>&1 & ".toList " 2>&1 & ".toList := Body.of_all (by decide)
  have hinert : ∀ c ∈ installCode pkg, c ≠ '"' ∧ c ≠ '\\' := fun c hc =>
    ⟨(ne_of_isInert (List.all_eq_true.1 (isInert_installCode h) c hc)).1,
      (ne_of_isInert (List.all_eq_true.1 (isInert_installCode h) c hc)).2.1⟩
  have hlog : Body '"' (logFile pkg) (logFile pkg) := Body.plain fun c hc =>
    ⟨(ne_of_isPlain (List.all_eq_true.1 (isPlain_logFile h) c hc)).2.1,
      (ne_of_isPlain (List.all_eq_true.1 (isPlain_logFile h) c hc)).2.2.1⟩
  have hjob := (((((hprogram.append hquote).append (Body.plain hinert)).append hquote).append hto).append
    hlog).append hback
  have hbody : "Rscript -e ".toList ++ "\\\"".toList = "Rscript -e \\\"".toList := rfl
  have htext : "Rscript -e ".toList ++ "\"".toList ++ installCode pkg ++ "\"".toList ++ " > ".toList ++ logFile pkg ++
      " 2>&1 & ".toList = job rscriptWords (installCode pkg) (logFile pkg) := by
    simp [job, quoteEscaped_of_notMem hinert, rscriptWords, spaced]
  rwa [hbody, htext] at hjob

private theorem body_shellCmd {batch : List RPackage} (h : ∀ pkg ∈ batch, pkg.IsPlain) :
    Body '"' (shellCmd batch) (shellText batch) := by
  have hwait : Body '"' "wait".toList "wait".toList := Body.of_all (by decide)
  exact (Body.flatMap fun pkg hpkg => body_job (h pkg hpkg)).append hwait

/-! ### Reading the script -/

private theorem leads_kRHeader : Leads .code .code kRHeader := Leads.of_string rfl

/-- The number of a message. -/
private theorem leads_digits (n : Nat) : Leads (.literal '\x27') (.literal '\x27') (Nat.toDigits 10 n) :=
  Leads.body (body_digits n)

private theorem leads_showLog (h : pkg.IsPlain) : Leads .code .code (showLog pkg) := by
  have hname := Leads.body (body_text h pkg.name_mem_texts)
  have hversion := Leads.body (body_text h pkg.version_mem_texts)
  have hlog := Leads.body (body_logFile h)
  have hblank : Leads .code .code "  ".toList := Leads.of_string rfl
  have hlogs : Leads .code (.literal '\x27') "  cat('# Logs for package ".toList := Leads.of_string rfl
  have hword : Leads (.literal '\x27') (.literal '\x27') " version ".toList := Leads.of_string rfl
  have hopen : Leads (.literal '\x27') (.literal '\x27') " (".toList := Leads.of_string rfl
  have hclose : Leads (.literal '\x27') (.literal '\x27') ")".toList := Leads.of_string rfl
  have hend : Leads (.literal '\x27') .code "\\n');\n".toList := Leads.of_string rfl
  have hlines : Leads .code (.literal '\x27') "  cat(readLines('".toList := Leads.of_string rfl
  have hsep : Leads (.literal '\x27') .code "'), sep='\\n')\n  cat('\\n')\n".toList := Leads.of_string rfl
  have hmessage := (((((hlogs.append hname).append hword).append hversion).append hopen).append hlog).append
    (hclose.append hend)
  have hshow := (((hblank.append leads_kRHeader).append hmessage).append (hblank.append leads_kRHeader)).append
    ((hlines.append hlog).append hsep)
  unfold showLog
  simp only [List.append_assoc] at hshow ⊢
  exact hshow

set_option maxRecDepth 2000 in
private theorem leads_verify (h : pkg.IsPlain) : Leads .code .code (verify pkg) := by
  have hname := Leads.body (body_text h pkg.name_mem_texts)
  have hversion := Leads.body (body_text h pkg.version_mem_texts)
  have hlog := Leads.body (body_logFile h)
  have hassign : Leads .code (.literal '\x27') "\x7b\n  pkg_name <- '".toList := Leads.of_string rfl
  have hassign' : Leads (.literal '\x27') (.literal '\x27') "'\n  pkg_ver  <- '".toList := Leads.of_string rfl
  have hinstalled : Leads (.literal '\x27') .code
      "'\n  installed_ver <- tryCatch(as.character(packageVersion(pkg_name)), error = function(e) NA)\n".toList :=
    Leads.of_string rfl
  have hmissing : Leads .code .code "  if (is.na(installed_ver)) \x7b\n    ".toList := Leads.of_string rfl
  have herror : Leads .code .code
      "    cat('# Error: Failed to install ', pkg_name, ' ', pkg_ver, '\\n');\n    ".toList := Leads.of_string rfl
  have hlines : Leads .code (.literal '\x27') "    cat(readLines('".toList := Leads.of_string rfl
  have hsep : Leads (.literal '\x27') .code "'), sep='\\n')\n    cat('\\n')\n    quit(status = 1)\n".toList :=
    Leads.of_string rfl
  have helse : Leads .code .code "\x7d else if (installed_ver != pkg_ver) \x7b\n    ".toList := Leads.of_string rfl
  have hwarning : Leads .code (.literal '\x27')
      "    cat('# Warning: Different version of ', pkg_name, ' installed. Expected: ', pkg_ver, ', installed: ".toList :=
    Leads.of_string rfl
  have hother : Leads (.literal '\x27') .code "', installed_ver, '\\n');\n    ".toList := Leads.of_string rfl
  have hend : Leads .code .code "  \x7d\n\x7d\n\n".toList := Leads.of_string rfl
  have hfront := (((hassign.append hname).append hassign').append hversion).append (hinstalled.append hmissing)
  have hfailed := (((leads_kRHeader.append herror).append leads_kRHeader).append hlines).append
    (hlog.append (hsep.append helse))
  have hdifferent := (leads_kRHeader.append (hwarning.append hother)).append (leads_kRHeader.append hend)
  have hverify := (hfront.append hfailed).append hdifferent
  unfold verify
  simp only [List.append_assoc] at hverify ⊢
  exact hverify

/-- A batch is read as its command. -/
private theorem reads_writeBatch {batch : List RPackage} (hne : batch ≠ []) (h : ∀ pkg ∈ batch, pkg.IsPlain)
    (batchIndex totalBatches : Nat) :
    ReadsDouble (writeBatch batchIndex totalBatches batch) [shellText batch] := by
  have hinstalling : Leads .code (.literal '\x27') "cat('# Installing batch ".toList := Leads.of_string rfl
  have hof : Leads (.literal '\x27') (.literal '\x27') "/".toList := Leads.of_string rfl
  have hwith : Leads (.literal '\x27') (.literal '\x27') " with ".toList := Leads.of_string rfl
  have hpackages : Leads (.literal '\x27') .code " packages...\\n');\n".toList := Leads.of_string rfl
  have hblank : Leads .code .code "\n".toList := Leads.of_string rfl
  have hsystem : Leads .code .code "status <- system(".toList := Leads.of_string rfl
  have hif : Leads .code .code ")\nif (status != 0) \x7b\n  ".toList := Leads.of_string rfl
  have hbatch : Leads .code (.literal '\x27') "  cat('# Batch ".toList := Leads.of_string rfl
  have hfailed : Leads (.literal '\x27') .code " FAILED.\\n');\n    ".toList := Leads.of_string rfl
  have hquit : Leads .code .code "  quit(status = 1)\n\x7d\n\n".toList := Leads.of_string rfl
  have hnumber := leads_digits (batchIndex + 1)
  have htotal := leads_digits totalBatches
  have hlogs := Leads.flatMap fun pkg hpkg => leads_showLog (h pkg hpkg)
  have hchecks := Leads.flatMap fun pkg hpkg => leads_verify (h pkg hpkg)
  -- the only literal between double quotes is the command
  have hcommand := ReadsDouble.double (body_shellCmd h)
  have hgreeting := (((((leads_kRHeader.append hinstalling).append hnumber).append hof).append htotal).append
    hwith).append ((leads_digits batch.length).append (hpackages.append (leads_kRHeader.append hblank)))
  have hfailure := ((((((hif.append leads_kRHeader).append hbatch).append hnumber).append hof).append htotal).append
    (hfailed.append (leads_kRHeader.append hblank))).append ((hlogs.append hquit).append hchecks)
  have hreads := ((hgreeting.append hsystem).readsDouble.append hcommand).append hfailure.readsDouble
  have hopen : "status <- system(\"".toList = "status <- system(".toList ++ ['"'] := by decide
  have hclose : "\")\nif (status != 0) \x7b\n  ".toList = '"' :: ")\nif (status != 0) \x7b\n  ".toList := by decide
  unfold writeBatch
  rw [if_neg (by simpa using hne), hopen, hclose]
  simp only [List.append_assoc, List.cons_append, List.nil_append] at hreads ⊢
  exact hreads

private theorem leads_writeHeader : Leads .code .code writeHeader := by
  have hfirst : Leads .code .code "#!/usr/bin/env Rscript\n\n".toList := Leads.of_string rfl
  have hstarting : Leads .code .code "cat('# Starting installation...\\n');\n".toList := Leads.of_string rfl
  have hblank : Leads .code .code "\n".toList := Leads.of_string rfl
  have hoptions : Leads .code .code "options(Ncpus=min(parallel::detectCores(), 32))\n\n".toList :=
    Leads.of_string rfl
  have hdir : Leads .code (.literal '\x27') "dir.create('".toList := Leads.of_string rfl
  have htmp : Leads (.literal '\x27') (.literal '\x27') tmpLibDir := Leads.of_string rfl
  have hrecursive : Leads (.literal '\x27') .code "', recursive=TRUE)\n".toList := Leads.of_string rfl
  have hinstall : Leads .code (.literal '\x27') "install.packages('remotes', lib = '".toList := Leads.of_string rfl
  have hlib : Leads (.literal '\x27') .code "')\n".toList := Leads.of_string rfl
  have hexit : Leads .code (.literal '\x27') "on.exit(unlink('".toList := Leads.of_string rfl
  have hunlink : Leads (.literal '\x27') .code "', recursive = TRUE))\n".toList := Leads.of_string rfl
  have hlast : Leads .code .code "\n\n".toList := Leads.of_string rfl
  have hbegin := (((hfirst.append leads_kRHeader).append hstarting).append leads_kRHeader).append hblank
  have hcalls := ((((((hdir.append htmp).append hrecursive).append hinstall).append htmp).append hlib).append
    hexit).append (htmp.append (hunlink.append hlast))
  have hheader := (hbegin.append hoptions).append hcalls
  unfold writeHeader
  simp only [List.append_assoc] at hheader ⊢
  exact hheader

private theorem leads_writeFooter (batches : List (List RPackage)) : Leads .code .code (writeFooter batches) := by
  have hall : Leads .code (.literal '\x27') "cat('# All ".toList := Leads.of_string rfl
  have hinstalled : Leads (.literal '\x27') .code " packages installed successfully.\\n');\n".toList :=
    Leads.of_string rfl
  exact (((leads_kRHeader.append hall).append (leads_digits _)).append hinstalled).append leads_kRHeader

/-- A script is read as the commands of its batches. -/
private theorem reads_writeScript {batches : List (List RPackage)} (hne : ∀ batch ∈ batches, batch ≠ [])
    (h : ∀ batch ∈ batches, ∀ pkg ∈ batch, pkg.IsPlain) :
    ReadsDouble (writeScript batches) (batches.map shellText) := by
  have hbatch : ∀ e ∈ batches.zipIdx, ReadsDouble (writeBatch e.2 batches.length e.1) [shellText e.1] := by
    intro e he
    have hmem : e.1 ∈ batches := List.fst_mem_of_mem_zipIdx he
    exact reads_writeBatch (hne _ hmem) (h _ hmem) _ _
  have hbatches := ReadsDouble.flatMap hbatch
  have htexts : (batches.zipIdx.flatMap fun e => [shellText e.1]) = batches.map shellText := by
    have hfst : batches.zipIdx.map Prod.fst = batches := List.zipIdx_map_fst 0 batches
    calc (batches.zipIdx.flatMap fun e => [shellText e.1]) = (batches.zipIdx.map Prod.fst).map shellText := by
          rw [List.map_map, ← List.flatMap_pure_eq_map]
          rfl
      _ = batches.map shellText := by rw [hfst]
  have hscript := (leads_writeHeader.readsDouble.append hbatches).append (leads_writeFooter batches).readsDouble
  rw [htexts, List.nil_append, List.append_nil] at hscript
  exact hscript

/-- The script is read as the installations of its batches. -/
theorem readScript_writeScript (ext : Extent) (env : Environment) {batches : List (List RPackage)}
    (hne : ∀ batch ∈ batches, batch ≠ []) (h : ∀ batch ∈ batches, ∀ pkg ∈ batch, pkg.IsPlain) :
    readScript ext env (writeScript batches) = some (batches.map (·.map Install.ofPackage)) := by
  obtain ⟨found, hreads, htexts⟩ := reads_writeScript hne h
  have hjobs : ∀ batches : List (List RPackage), (∀ batch ∈ batches, ∀ pkg ∈ batch, pkg.IsPlain) →
      (batches.map shellText).mapM (readJobs ext env) = some (batches.map (·.map Install.ofPackage)) := by
    intro batches h
    induction batches with
    | nil => rfl
    | cons batch batches ih =>
      obtain ⟨hbatch, hbatches⟩ := List.forall_mem_cons.1 h
      rw [List.map_cons, List.mapM_cons, readJobs_shellText ext env hbatch, ih hbatches]
      rfl
  rw [readScript, hreads.literals, Option.bind_some, htexts]
  exact hjobs _ h

/-- The batches of a builder that is set up, and the script for them. -/
theorem exists_buildScript {b : InstallRPackageScriptBuilder} (hmax : b.maxParallel ≠ 0) (hout : b.hasOutput = true) :
    ∃ batches, b.build = .ok batches ∧ b.buildScript = .ok (writeScript batches) ∧ (∀ batch ∈ batches, batch ≠ []) ∧
      batches.flatten = (b.plan.flatMap PackageVector.pkgs).filter fun pkg => !pkg.isBase := by
  have hone : 1 ≤ b.maxParallel := by
    rw [UInt64.le_iff_toNat_le]
    exact Nat.pos_of_ne_zero fun h => hmax (UInt64.toNat_inj.1 h)
  obtain ⟨f, hf, hexpand⟩ := exists_expandPlan hone b.plan
  have hbuild : b.build = .ok (b.plan.flatMap f) := by
    unfold build
    simp [hmax, hout, hexpand]
  refine ⟨_, hbuild, by rw [buildScript, hbuild]; rfl, ?_, flatten_flatMap hf b.plan⟩
  intro batch hbatch
  obtain ⟨step, -, hstep⟩ := List.mem_flatMap.1 hbatch
  exact ((hf step).size batch hstep).1

/-- The script of a builder that is set up is read back as the installations of its batches, call by call of `system`;
together they are the packages of the plan, base packages apart, in the order of the plan. -/
theorem buildScript_readBack (ext : Extent) (env : Environment) {b : InstallRPackageScriptBuilder}
    (hmax : b.maxParallel ≠ 0) (hout : b.hasOutput = true)
    (hplain : ∀ step ∈ b.plan, ∀ pkg ∈ step.pkgs, pkg.isBase = false → pkg.IsPlain) :
    ∃ batches script, b.build = .ok batches ∧ b.buildScript = .ok script ∧
      readScript ext env script = some (batches.map (·.map Install.ofPackage)) ∧
      batches.flatten = (b.plan.flatMap PackageVector.pkgs).filter fun pkg => !pkg.isBase := by
  obtain ⟨batches, hbuild, hscript, hne, hflatten⟩ := exists_buildScript hmax hout
  have hpkgs : ∀ batch ∈ batches, ∀ pkg ∈ batch, pkg.IsPlain := by
    intro batch hbatch pkg hpkg
    have hmem : pkg ∈ batches.flatten := List.mem_flatten.2 ⟨batch, hbatch, hpkg⟩
    rw [hflatten] at hmem
    obtain ⟨hplan, hbase⟩ := List.mem_filter.1 hmem
    obtain ⟨step, hstep, hin⟩ := List.mem_flatMap.1 hplan
    exact hplain step hstep pkg hin (by simpa using hbase)
  exact ⟨batches, _, hbuild, hscript, readScript_writeScript ext env hne hpkgs, hflatten⟩

/-- A base package, a package of CRAN and one of GitHub. -/
def mixedPlan : List PackageVector :=
  [⟨[{ pkgOf "A" [] with isBase := true }, pkgOf "B" ["A"]], by decide⟩,
    ⟨[{ pkgOf "C" ["B"] with repository := .gitHub ⟨"org", "c", "v1.0"⟩ }], by decide⟩]

theorem buildScript_readBack_mixed :
    ∃ (batches : List (List RPackage)) (script : List Char),
      (InstallRPackageScriptBuilder.mk mixedPlan 2 true).buildScript = .ok script ∧
      readScript (fun _ => none) .blank script = some (batches.map (·.map Install.ofPackage)) := by
  have hall : (mixedPlan.all fun step => step.pkgs.all fun pkg =>
      pkg.texts.all fun s => s.toList.all isPlain) = true := by decide
  have hplain : ∀ step ∈ mixedPlan, ∀ pkg ∈ step.pkgs, pkg.isBase = false → pkg.IsPlain :=
    fun step hstep pkg hpkg _ =>
      RPackage.isPlain_of_all (List.all_eq_true.1 (List.all_eq_true.1 hall step hstep) pkg hpkg)
  obtain ⟨batches, script, -, hscript, hread, -⟩ :=
    buildScript_readBack (fun _ => none) .blank (b := ⟨mixedPlan, 2, true⟩) (by decide) rfl hplain
  exact ⟨batches, script, hscript, hread⟩

end InstallRPackageScriptBuilder

end R4R

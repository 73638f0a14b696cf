import R4R.CopyScripts
import R4R.Lib.ShellCommands

/-!
# The scripts as the shell reads them

A path is written to the scripts by `std::quoted`, which escapes quotes and backslashes.  Between double quotes a shell
expands parameters and substitutions, too, so a line passes its path on exactly when nothing in the path begins an
expansion (`lines_readBack_iff`).  The script that makes the directories of the results stops at the first `mkdir` that
fails, and it is written only when something else is copied, so all of them are made exactly when their paths have no
expansions and are names of directories, and there is something to copy (`copyFiles_creates_iff`).
-/

namespace R4R

open ShellText

namespace DockerFileBuilderTask

/-- The owner and the group as `chown` takes them. -/
def ownership (info : Stat) : List Char :=
  Nat.toDigits 10 info.owner.toNat ++ [':'] ++ Nat.toDigits 10 info.group.toNat

def permissions (info : Stat) : List Char := Nat.toDigits 8 (info.mode &&& 0o777).toNat

private theorem isPlain_of_isDigit {c : Char} (h : c.isDigit = true) : isPlain c = true :=
  isPlain_of_isAlphanum (by rw [Char.isAlphanum, h, Bool.or_true])

private theorem isPlainWord_permissions (info : Stat) : IsPlainWord (permissions info) := by
  have hdigit : ∀ c ∈ permissions info, c.isDigit = true :=
    fun c hc => Nat.isDigit_of_mem_toDigits (by decide) (by decide) hc
  refine ⟨Nat.toDigits_ne_nil, fun hhead => ?_, fun c hc => isPlain_of_isDigit (hdigit c hc)⟩
  exact absurd (hdigit _ (List.mem_of_head? hhead)) (by decide)

private theorem isPlainWord_ownership (info : Stat) : IsPlainWord (ownership info) := by
  have hdigit : ∀ c ∈ ownership info, c = ':' ∨ c.isDigit = true := by
    intro c hc
    rcases List.mem_append.1 hc with hc | hc
    · rcases List.mem_append.1 hc with hc | hc
      · exact .inr (Nat.isDigit_of_mem_toDigits (by decide) (by decide) hc)
      · exact .inl (List.mem_singleton.1 hc)
    · exact .inr (Nat.isDigit_of_mem_toDigits (by decide) (by decide) hc)
  refine ⟨by simp [ownership], fun hhead => ?_, fun c hc => ?_⟩
  · exact absurd (hdigit _ (List.mem_of_head? hhead)) (by decide)
  · rcases hdigit c hc with rfl | hc
    · rfl
    · exact isPlain_of_isDigit hc

private theorem spaced_pair (a b : List Char) : spaced [a, b] = a ++ [' '] ++ (b ++ [' ']) := by simp [spaced]

private theorem chownLine_eq (info : Stat) (dir : Path) :
    chownLine info dir = spaced ["chown".toList, ownership info] ++ dir.quoted ++ ['\n'] := by
  have hname : "chown ".toList = "chown".toList ++ [' '] := by decide
  show "chown ".toList ++ Nat.toDigits 10 info.owner.toNat ++ [':'] ++ Nat.toDigits 10 info.group.toNat ++ [' '] ++
    dir.quoted ++ ['\n'] = _
  rw [spaced_pair, hname]
  simp only [ownership, List.append_assoc]

private theorem chmodLine_eq (info : Stat) (dir : Path) :
    chmodLine info dir = spaced ["chmod".toList, permissions info] ++ dir.quoted ++ ['\n'] := by
  have hname : "chmod ".toList = "chmod".toList ++ [' '] := by decide
  show "chmod ".toList ++ permissions info ++ [' '] ++ dir.quoted ++ ['\n'] = _
  rw [spaced_pair, hname]
  simp only [List.append_assoc]

/-- A line of plain words and a quoted path. -/
private theorem readsAs_iff (ext : Extent) {ws : List (List Char)} (hws : ∀ w ∈ ws, IsPlainWord w) (dir : Path) :
    ReadsAs ext (spaced ws ++ dir.quoted ++ ['\n']) (ws ++ [dir.native]) ↔ ExpansionFree dir.native := by
  rw [← command_quoted_iff ext hws]
  have hline : ∀ rest, spaced ws ++ dir.quoted ++ ['\n'] ++ rest =
      spaced ws ++ ('"' :: (quoteEscaped dir.native ++ '"' :: '\n' :: rest)) := by
    intro rest
    simp [Path.quoted, quoteEscaped]
  simp only [ReadsAs, hline]

/-- The command that makes a directory. -/
def mkdirCommand (dir : Path) : List (List Char) := ["mkdir".toList, "-p".toList, dir.native]

private theorem isPlainWord_mkdir : ∀ w ∈ ["mkdir".toList, "-p".toList], IsPlainWord w := by
  simp only [List.mem_cons, List.not_mem_nil, or_false, forall_eq_or_imp, forall_eq]
  exact ⟨isPlainWord_of_all rfl, isPlainWord_of_all rfl⟩

private theorem readsAs_mkdirLine_iff (ext : Extent) (dir : Path) :
    ReadsAs ext (mkdirLine dir) (mkdirCommand dir) ↔ ExpansionFree dir.native :=
  readsAs_iff ext isPlainWord_mkdir dir

/-- Every line for a directory passes its path on as one argument exactly when nothing in the path begins an
expansion. -/
theorem lines_readBack_iff (ext : Extent) (dir : Path) :
    (ReadsAs ext (mkdirLine dir) ["mkdir".toList, "-p".toList, dir.native] ∧
      ∀ info, ReadsAs ext (chownLine info dir) ["chown".toList, ownership info, dir.native] ∧
        ReadsAs ext (chmodLine info dir) ["chmod".toList, permissions info, dir.native]) ↔
      ExpansionFree dir.native := by
  have hmkdir : ReadsAs ext (mkdirLine dir) ["mkdir".toList, "-p".toList, dir.native] ↔ ExpansionFree dir.native :=
    readsAs_mkdirLine_iff ext dir
  have hchown : ∀ info, ReadsAs ext (chownLine info dir) ["chown".toList, ownership info, dir.native] ↔
      ExpansionFree dir.native := by
    intro info
    have hws : ∀ w ∈ ["chown".toList, ownership info], IsPlainWord w := by
      simp only [List.mem_cons, List.not_mem_nil, or_false, forall_eq_or_imp, forall_eq]
      exact ⟨isPlainWord_of_all rfl, isPlainWord_ownership info⟩
    rw [chownLine_eq]
    exact readsAs_iff ext hws dir
  have hchmod : ∀ info, ReadsAs ext (chmodLine info dir) ["chmod".toList, permissions info, dir.native] ↔
      ExpansionFree dir.native := by
    intro info
    have hws : ∀ w ∈ ["chmod".toList, permissions info], IsPlainWord w := by
      simp only [List.mem_cons, List.not_mem_nil, or_false, forall_eq_or_imp, forall_eq]
      exact ⟨isPlainWord_of_all rfl, isPlainWord_permissions info⟩
    rw [chmodLine_eq]
    exact readsAs_iff ext hws dir
  rw [hmkdir]
  simp only [hchown, hchmod]
  constructor
  · exact fun h => h.1
  · exact fun h => ⟨h, fun _ => ⟨h, h⟩⟩

/-- The directory `/data/$USER` is made under the name of whoever runs the script. -/
theorem mkdirLine_dollar :
    command (fun _ => none) ⟨fun _ => "root".toList, fun _ => []⟩ (mkdirLine (.ofString "/data/$USER")) =
      some (["mkdir".toList, "-p".toList, "/data/root".toList], []) ∧
    ¬ ReadsAs (fun _ => none) (mkdirLine (.ofString "/data/$USER"))
      ["mkdir".toList, "-p".toList, "/data/$USER".toList] := by
  have hread : command (fun _ => none) ⟨fun _ => "root".toList, fun _ => []⟩ (mkdirLine (.ofString "/data/$USER")) =
      some (["mkdir".toList, "-p".toList, "/data/root".toList], []) := by decide +kernel
  refine ⟨hread, fun h => ?_⟩
  have hother := h ⟨fun _ => "root".toList, fun _ => []⟩ []
  rw [List.append_nil, hread] at hother
  exact absurd hother (by decide)

/-! ### The script that makes the directories -/

/-- The comment, the empty lines and `set -e`. -/
def headerCommands : List (List (List Char)) := [[], [], ["set".toList, "-e".toList], []]

/-- The lines of the header. -/
private theorem readsLines_scriptHeader_iff (ext : Extent) {text : List Char} {commands : List (List (List Char))} :
    ReadsLines ext (scriptHeader ++ text) commands ↔
      ∃ commands', commands = headerCommands ++ commands' ∧ ReadsLines ext text commands' := by
  have hbash : ReadsAs ext "#!/bin/bash\n".toList [] := fun _ _ => rfl
  have hempty : ReadsAs ext ['\n'] [] := fun _ _ => rfl
  have hset : ReadsAs ext "set -e\n".toList ["set".toList, "-e".toList] := fun _ _ => rfl
  have hheader : scriptHeader ++ text =
      "#!/bin/bash\n".toList ++ (['\n'] ++ ("set -e\n".toList ++ (['\n'] ++ text))) := rfl
  rw [hheader]
  constructor
  · intro h
    obtain ⟨commands₁, rfl, h₁⟩ := h.of_line hbash
    obtain ⟨commands₂, rfl, h₂⟩ := h₁.of_line hempty
    obtain ⟨commands₃, rfl, h₃⟩ := h₂.of_line hset
    obtain ⟨commands₄, rfl, h₄⟩ := h₃.of_line hempty
    exact ⟨commands₄, rfl, h₄⟩
  · rintro ⟨commands', rfl, h⟩
    exact .cons hbash (.cons hempty (.cons hset (.cons hempty h)))

/-- The lines that make the directories are read as one command for each exactly when no path has an expansion. -/
private theorem readsLines_mkdirLines_iff (ext : Extent) {dirs : List Path} : ∀ {commands : List (List (List Char))},
    ReadsLines ext (dirs.flatMap mkdirLine) commands ↔
      (∀ dir ∈ dirs, ExpansionFree dir.native) ∧ commands = dirs.map mkdirCommand := by
  induction dirs with
  | nil =>
    intro commands
    constructor
    · intro h
      cases commands with
      | nil => simp
      | cons command commands =>
        generalize htext : ([] : List Path).flatMap mkdirLine = text at h
        cases h with
        | cons hline _ => exact absurd (List.append_eq_nil_iff.1 htext.symm).1 hline.ne_nil
    · rintro ⟨-, rfl⟩
      exact .nil
  | cons dir dirs ih =>
    intro commands
    rw [List.flatMap_cons, List.forall_mem_cons, List.map_cons]
    constructor
    · intro h
      have hline : mkdirLine dir ++ dirs.flatMap mkdirLine = spaced ["mkdir".toList, "-p".toList] ++
          ('"' :: (quoteEscaped dir.native ++ '"' :: '\n' :: dirs.flatMap mkdirLine)) := by
        have hmkdir : mkdirLine dir = spaced ["mkdir".toList, "-p".toList] ++ dir.quoted ++ ['\n'] := rfl
        simp [hmkdir, Path.quoted, quoteEscaped]
      have hfree : ExpansionFree dir.native := ReadsLines.expansionFree isPlainWord_mkdir (hline ▸ h)
      obtain ⟨commands', rfl, hcommands⟩ := h.of_line ((readsAs_mkdirLine_iff ext dir).2 hfree)
      obtain ⟨hrest, rfl⟩ := ih.1 hcommands
      exact ⟨⟨hfree, hrest⟩, rfl⟩
    · rintro ⟨⟨hfree, hrest⟩, rfl⟩
      exact .cons ((readsAs_mkdirLine_iff ext dir).2 hfree) (ih.2 ⟨hrest, rfl⟩)

private theorem readsLines_preFileCopyScript_iff (ext : Extent) {dirs : List Path}
    {commands : List (List (List Char))} :
    ReadsLines ext (generatePreFileCopyScript dirs) commands ↔
      (∀ dir ∈ dirs, ExpansionFree dir.native) ∧ commands = headerCommands ++ dirs.map mkdirCommand := by
  rw [generatePreFileCopyScript, readsLines_scriptHeader_iff]
  constructor
  · rintro ⟨commands', rfl, h⟩
    obtain ⟨hfree, rfl⟩ := (readsLines_mkdirLines_iff ext).1 h
    exact ⟨hfree, rfl⟩
  · rintro ⟨hfree, rfl⟩
    exact ⟨_, rfl, (readsLines_mkdirLines_iff ext).2 ⟨hfree, rfl⟩⟩

/-- `mkdir` takes the text for the name of a directory: it is not empty and no option. -/
def IsDirectoryName (name : List Char) : Prop := name ≠ [] ∧ (name.head? = some '-' → name = ['-'])

/-- Every `mkdir` among the commands gets the name of a directory, so that `set -e` does not end the script there. -/
def MkdirsSucceed (commands : List (List (List Char))) : Prop :=
  ∀ args, "mkdir".toList :: args ∈ commands → ∃ name, args = ["-p".toList, name] ∧ IsDirectoryName name

/-- The first that the build does after the commands of `b` is to copy a script, written before, into the image and to
run it, and bash reads in the script, whatever the environment, commands that make the directory. -/
def Creates (ext : Extent) (host : BuildHost) (b b' : DockerFileBuilder) (written : List (Path × List Char))
    (dir : Path) : Prop :=
  ∃ script text commands, (script, text) ∈ written ∧ script ∈ b'.copiedFiles ∧
    (∃ name rest, host.relative script b.contextDir = .ok name ∧
      b'.commands = b.commands ++ copyLine name script :: scriptLine script :: rest) ∧
    ReadsLines ext text commands ∧ MkdirsSucceed commands ∧ mkdirCommand dir ∈ commands

private theorem quoteEscaped_inj (w : List Char) : ∀ {w' : List Char}, quoteEscaped w = quoteEscaped w' → w = w' := by
  have hcons : ∀ (c : Char) (w : List Char),
      quoteEscaped (c :: w) = (if c = '"' ∨ c = '\\' then ['\\', c] else [c]) ++ quoteEscaped w := by
    intro c w
    simp [quoteEscaped]
  have hne : ∀ (c : Char) (w : List Char), quoteEscaped (c :: w) ≠ [] := by
    intro c w
    rw [hcons]
    split <;> simp
  induction w with
  | nil =>
    intro w' h
    cases w' with
    | nil => rfl
    | cons c w' => exact absurd h.symm (hne c w')
  | cons c w ih =>
    intro w' h
    cases w' with
    | nil => exact absurd h (hne c w)
    | cons c' w' =>
      rw [hcons, hcons] at h
      by_cases hc : c = '"' ∨ c = '\\' <;> by_cases hc' : c' = '"' ∨ c' = '\\'
      · rw [if_pos hc, if_pos hc'] at h
        simp only [List.cons_append, List.nil_append, List.cons.injEq, true_and] at h
        rw [h.1, ih h.2]
      · rw [if_pos hc, if_neg hc'] at h
        exact absurd (.inr (List.cons.inj h).1.symm) hc'
      · rw [if_neg hc, if_pos hc'] at h
        exact absurd (.inr (List.cons.inj h).1) hc
      · rw [if_neg hc, if_neg hc'] at h
        obtain ⟨rfl, hw⟩ := List.cons.inj h
        rw [ih hw]

/-- The line tells which script is run. -/
private theorem scriptLine_inj {script script' : Path} (h : scriptLine script = scriptLine script') :
    script = script' := by
  have hquoted : script.quoted = script'.quoted := by
    have hline : ∀ p : Path, scriptLine p =
        "RUN bash ".toList ++ (p.quoted ++ (" && \\\n  rm -f ".toList ++ p.quoted)) := by
      intro p
      have hrun : "RUN bash ".toList = "RUN ".toList ++ "bash ".toList := by decide
      have hrm : " && \\\n  rm -f ".toList = " && \\\n  ".toList ++ "rm -f ".toList := by decide
      rw [hrun, hrm]
      simp [scriptLine, stringJoin]
    rw [hline, hline, List.append_cancel_left_eq] at h
    have hlength := congrArg List.length h
    simp only [List.length_append] at hlength
    exact (List.append_inj h (by omega)).1
  have hescaped : ∀ p : Path, p.quoted = '"' :: (quoteEscaped p.native ++ ['"']) := fun _ => rfl
  rw [hescaped, hescaped] at hquoted
  have hnative := quoteEscaped_inj _ (List.append_cancel_right (List.cons.inj hquoted).2)
  rcases script with ⟨native⟩
  rcases script' with ⟨native'⟩
  exact congrArg Path.mk hnative

private theorem mkdirsSucceed_iff {dirs : List Path} :
    MkdirsSucceed (headerCommands ++ dirs.map mkdirCommand) ↔ ∀ dir ∈ dirs, IsDirectoryName dir.native := by
  have hheader : ∀ args, "mkdir".toList :: args ∉ headerCommands := by
    intro args hargs
    simp only [headerCommands, List.mem_cons, List.not_mem_nil, or_false, List.cons.injEq, reduceCtorEq,
      false_or] at hargs
    exact absurd hargs.1 (by decide)
  constructor
  · intro h dir hdir
    obtain ⟨name, hname, hisName⟩ := h ["-p".toList, dir.native]
      (List.mem_append_right _ (List.mem_map_of_mem (f := mkdirCommand) hdir))
    obtain rfl : dir.native = name := by simpa using hname
    exact hisName
  · intro h args hargs
    rcases List.mem_append.1 hargs with hargs | hargs
    · exact absurd hargs (hheader args)
    · obtain ⟨dir, hdir, hcommand⟩ := List.mem_map.1 hargs
      exact ⟨dir.native, (List.cons.inj hcommand).2.symm, h dir hdir⟩

section Creates

variable {ext : Extent} {host : BuildHost} {q : FileQueries} {stat : Path → Option Stat} {t : DockerFileBuilderTask}
  {b b' : DockerFileBuilder} {m : TraceManifest} {written : List (Path × List Char)}

/-- The directories that are collected are those of the results. -/
private theorem mem_emptyDirs_iff {files dirs : List Path} (h : collectFiles q m = .ok (files, dirs)) (dir : Path) :
    dir ∈ dirs ↔ ∃ path, (path, .result) ∈ m.copyFiles.entries ∧ path.parentPath = dir := by
  obtain ⟨acc, hfold, hpair⟩ := Except.bind_eq_ok h
  obtain ⟨-, rfl⟩ := Prod.mk.inj (Except.ok.inj hpair)
  rw [foldlM_collectStep_snd _ hfold, List.nil_append, List.mem_map]
  constructor
  · rintro ⟨e, he, rfl⟩
    obtain ⟨hmem, hresult⟩ := List.mem_filter.1 he
    exact ⟨e.1, by simpa [← of_decide_eq_true hresult] using hmem, rfl⟩
  · rintro ⟨path, hpath, rfl⟩
    exact ⟨(path, .result), List.mem_filter.2 ⟨hpath, by simp⟩, rfl⟩

/-- The build makes the directory of every result exactly when there is none, or there is something to archive and the
directories have names without expansions that `mkdir` takes. -/
theorem copyFiles_creates_iff (ext : Extent) (h : copyFiles host q stat t b m = .ok (b', written)) :
    (∀ path, (path, .result) ∈ m.copyFiles.entries → Creates ext host b b' written path.parentPath) ↔
      (∀ path, (path, .result) ∉ m.copyFiles.entries) ∨
      ((∃ path, (path, .copy) ∈ m.copyFiles.entries) ∨ m.symlinks ≠ []) ∧
        ∀ path, (path, .result) ∈ m.copyFiles.entries →
          ExpansionFree path.parentPath.native ∧ IsDirectoryName path.parentPath.native := by
  obtain ⟨⟨files, dirs⟩, hcollect, -⟩ := Except.bind_eq_ok h
  replace hcollect := Except.mapError_eq_ok hcollect
  have hdirs := mem_emptyDirs_iff hcollect
  have hall : ∀ P : Path → Prop, (∀ dir ∈ dirs, P dir) ↔
      ∀ path, (path, .result) ∈ m.copyFiles.entries → P path.parentPath := by
    intro P
    constructor
    · exact fun hP path hpath => hP _ ((hdirs _).2 ⟨path, hpath, rfl⟩)
    · intro hP dir hdir
      obtain ⟨path, hpath, rfl⟩ := (hdirs dir).1 hdir
      exact hP path hpath
  rw [← collectFiles_ne_nil_iff hcollect]
  constructor
  · intro hcreates
    refine or_iff_not_imp_left.2 fun hsome => ?_
    obtain ⟨path, hpath⟩ : ∃ path, (path, .result) ∈ m.copyFiles.entries := by simpa using hsome
    have hfiles : files ≠ [] := by
      rintro rfl
      rw [copyFiles_of_nil hcollect] at h
      obtain ⟨-, rfl⟩ := Prod.mk.inj (Except.ok.inj h)
      obtain ⟨_, _, _, hwritten, -⟩ := hcreates path hpath
      cases hwritten
    refine ⟨hfiles, ?_⟩
    obtain ⟨script, text, commands, hscript, -, ⟨name, rest, -, hcommands⟩, hreads, hsucceed, -⟩ := hcreates path hpath
    obtain ⟨hwritten, -, name', rest', -, hcommands'⟩ := copyFiles_of_ne_nil hfiles hcollect h
    -- the script that is run is the first of the two
    rw [hcommands] at hcommands'
    have hlines := List.append_cancel_left hcommands'
    obtain rfl := scriptLine_inj (List.cons.inj (List.cons.inj hlines).2).1
    have hother : t.preFileCopyScript ≠ t.postFileCopyScript :=
      append_ne (by decide) (by decide) (by decide) (by decide) (by decide)
    rw [hwritten] at hscript
    obtain rfl : text = generatePreFileCopyScript dirs := by simpa [hother] using hscript
    obtain ⟨hfree, rfl⟩ := (readsLines_preFileCopyScript_iff ext).1 hreads
    have hnames := mkdirsSucceed_iff.1 hsucceed
    exact (hall fun dir => ExpansionFree dir.native ∧ IsDirectoryName dir.native).1 fun dir hdir =>
      ⟨hfree dir hdir, hnames dir hdir⟩
  · rintro (hnone | ⟨hfiles, hnames⟩) path hpath
    · exact absurd hpath (hnone path)
    · obtain ⟨hwritten, hcopied, hcommands⟩ := copyFiles_of_ne_nil hfiles hcollect h
      have hfree : ∀ dir ∈ dirs, ExpansionFree dir.native :=
        (hall _).2 fun path hpath => (hnames path hpath).1
      have hisName : ∀ dir ∈ dirs, IsDirectoryName dir.native :=
        (hall _).2 fun path hpath => (hnames path hpath).2
      refine ⟨_, _, _, hwritten ▸ List.mem_cons_self .., hcopied, hcommands, ?_, mkdirsSucceed_iff.2 hisName, ?_⟩
      · exact (readsLines_preFileCopyScript_iff ext).2 ⟨hfree, rfl⟩
      · exact List.mem_append_right _ (List.mem_map_of_mem ((hdirs _).2 ⟨path, hpath, rfl⟩))

end Creates

/-- A manifest with a result and a traced symlink. -/
def resultBesideSymlink : TraceManifest where
  copyFiles := Files.empty.emplace (Path.ofString "/data/out.csv") .result
  symlinks := [Path.ofString "/usr/bin/R"]

theorem creates_resultBesideSymlink :
    ∃ b' written,
      copyFiles plainHost IgnoreFileMap.noFiles (fun _ => none) plainTask plainTask.builder resultBesideSymlink =
        .ok (b', written) ∧
      Creates (fun _ => none) plainHost plainTask.builder b' written (Path.ofString "/data/out.csv").parentPath := by
  obtain ⟨b', written, h⟩ : ∃ b' written, copyFiles plainHost IgnoreFileMap.noFiles (fun _ => none) plainTask
    plainTask.builder resultBesideSymlink = .ok (b', written) := ⟨_, _, rfl⟩
  refine ⟨b', written, h, (copyFiles_creates_iff (fun _ => none) h).2 (.inr ⟨.inr (by decide), ?_⟩) _ (by decide)⟩
  intro path hpath
  have hentries : resultBesideSymlink.copyFiles.entries = [(Path.ofString "/data/out.csv", .result)] := rfl
  obtain rfl : path = Path.ofString "/data/out.csv" := by simpa [hentries] using hpath
  have hdir : (Path.ofString "/data/out.csv").parentPath.native = "/data".toList := by decide
  rw [hdir]
  exact ⟨by simp [ExpansionFree], by simp [IsDirectoryName]⟩

/-- With the single entry `/data/out.csv` as a result nothing is built. -/
theorem copyFiles_single_result :
    ∃ m : TraceManifest, m.copyFiles.entries = [(Path.ofString "/data/out.csv", .result)] ∧
      copyFiles plainHost IgnoreFileMap.noFiles (fun _ => none) plainTask plainTask.builder m =
        .ok (plainTask.builder, []) ∧
      ¬ Creates (fun _ => none) plainHost plainTask.builder plainTask.builder []
        (Path.ofString "/data/out.csv").parentPath := by
  refine ⟨{ copyFiles := Files.empty.emplace (Path.ofString "/data/out.csv") .result }, rfl, rfl, ?_⟩
  rintro ⟨_, _, _, hwritten, -⟩
  cases hwritten

end DockerFileBuilderTask

end R4R

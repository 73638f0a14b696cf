import R4R.DockerfileCopy
import R4R.Lib.MakeText
import R4R.Lib.ShellText
import R4R.ManifestSection

/-!
# The Makefile

`MakefileBuilderTask::generate_makefile` writes the path of a result into a recipe as it stands.  The recipe passes
through make, which replaces what a dollar sign begins, and through the shell, which splits it into words and takes the
quotes away.  So `docker cp` gets the path exactly when all its characters stand for themselves in a word of the shell
(`copiesExactly_iff`).
-/

namespace R4R

open ShellText

/-- A name that docker takes for a container or an image. -/
structure DockerName where
  text : List Char
  valid : ∀ c ∈ text, c.isAlphanum || ['_', '.', '-', '/', ':'].contains c

namespace MakefileBuilderTask

/-- The results among the files. -/
def resultFiles (m : Manifest) : List Path := (m.copyFiles.entries.filter (·.2 = .result)).map Prod.fst

/-- What make hands on of the line that copies a file: without the tab and the `@`. -/
def copyRecipe (file : Path) : List Char :=
  "docker cp -L $(CONTAINER_NAME):".toList ++ file.native ++
    " $(TARGET_DIR) 2>/dev/null && echo ' done' || echo ' failed'".toList

/-- The two lines for a file. -/
def copyLines (file : Path) : List Char :=
  "\t@echo -n '  - ".toList ++ file.quoted ++ "...'\n".toList ++ "\t@".toList ++ copyRecipe file ++ "\n".toList

/-- `MakefileBuilderTask::generate_makefile`; `progress` is the answer of `check_docker_buildx`. -/
def generateMakefile (progress : Bool) (imageTag containerName : List Char) (m : Manifest) : List Char :=
  "IMAGE_TAG = ".toList ++ imageTag ++ "\nCONTAINER_NAME = ".toList ++ containerName ++
    ("\nTARGET_DIR = result\n\nSHELL := /bin/bash\n.SHELLFLAGS := -o pipefail -c\n\n" ++
      ".PHONY: all build run copy clean-docker clean\n\nall: clean copy\n\nbuild:\n" ++
      "\t@echo 'Building docker image $(IMAGE_TAG)'\n\t@docker build " ++
      (if progress then "--progress=plain" else " ") ++
      " -t $(IMAGE_TAG) . 2>&1 | tee docker-build.log\n\nrun: build\n" ++
      "\t@echo 'Running container $(CONTAINER_NAME)'\n" ++
      "\t@docker run -t --name $(CONTAINER_NAME) $(IMAGE_TAG) 2>&1 | tee docker-run.log\n\n" ++
      "copy: run\n\t@echo\n").toList ++
    (if (resultFiles m).isEmpty then "\t@echo 'No result files'\n".toList
      else "\t@echo 'Copying files'\n\t@mkdir -p $(TARGET_DIR)\n".toList ++ (resultFiles m).flatMap copyLines) ++
    ("\nclean-docker:\n\t@echo 'Cleaning previous container (if any)'\n\t-docker rm $(CONTAINER_NAME)\n" ++
      "\t@echo 'Cleaning previous image (if any)'\n\t-docker rmi $(IMAGE_TAG)\n\nclean: clean-docker\n" ++
      "\t@echo 'Cleaning previous result (if any)'\n\trm -rf $(TARGET_DIR)\n\n").toList

/-- Names are compared as texts. -/
local instance lawfulBEq_text : LawfulBEq (List Char) := inferInstance

/-- What the references in the recipe of the rule `copy: run` stand for: the variables that the Makefile sets, the
automatic ones, and those of the environment and of make. -/
def reference (imageTag containerName : DockerName) (other : List Char → List Char) (name : List Char) : List Char :=
  if name = "IMAGE_TAG".toList then imageTag.text
  else if name = "CONTAINER_NAME".toList then containerName.text
  else if name = "TARGET_DIR".toList then "result".toList
  else if name = "SHELL".toList then "/bin/bash".toList
  else if name = ".SHELLFLAGS".toList then "-o pipefail -c".toList
  else if name = "@".toList then "copy".toList
  else if name ∈ ["<".toList, "^".toList, "+".toList, "?".toList] then "run".toList
  else other name

/-- Whatever the other variables of make and the values in the shell are, the recipe runs `docker cp` with the file in
the container and the target directory. -/
def CopiesExactly (make : MakeText.Extent) (shell : Extent) (imageTag containerName : DockerName) (file : Path) :
    Prop :=
  ∀ other env, ∃ text rest,
    MakeText.expand make (reference imageTag containerName other) 0 (copyRecipe file) = some text ∧
      command shell env text = some (["docker".toList, "cp".toList, "-L".toList,
        containerName.text ++ ':' :: file.native, "result".toList], rest)

/-- The lines for a result are in the Makefile. -/
theorem generateMakefile_eq {m : Manifest} {file : Path} (h : (file, .result) ∈ m.copyFiles.entries) (progress : Bool)
    (imageTag containerName : List Char) : ∃ before after,
      generateMakefile progress imageTag containerName m = before ++ copyLines file ++ after := by
  have hmem : file ∈ resultFiles m := List.mem_map.2 ⟨_, List.mem_filter.2 ⟨h, by simp⟩, rfl⟩
  obtain ⟨first, rest, hsplit⟩ := List.append_of_mem hmem
  have hne : ¬ (resultFiles m).isEmpty = true := by simp [hsplit]
  unfold generateMakefile
  rw [if_neg hne, hsplit, List.flatMap_append, List.flatMap_cons]
  generalize copyLines file = lines
  simp only [← List.append_assoc]
  rw [List.append_assoc (_ ++ lines)]
  exact ⟨_, _, rfl⟩

/-- What stands behind the file in the recipe. -/
def recipeTail : List Char := " $(TARGET_DIR) 2>/dev/null && echo ' done' || echo ' failed'".toList

/-- The same when the variables are replaced. -/
def expandedTail : List Char := " result 2>/dev/null && echo ' done' || echo ' failed'".toList

/-- What stands before the file when the variables are replaced. -/
def recipeFront (containerName : DockerName) : List Char := "docker cp -L ".toList ++ containerName.text ++ [':']

section Make

variable {make : MakeText.Extent} {imageTag containerName : DockerName} {other : List Char → List Char}

private theorem reference_containerName :
    reference imageTag containerName other "CONTAINER_NAME".toList = containerName.text := by
  rw [reference, if_neg (by decide), if_pos rfl]

private theorem reference_targetDir : reference imageTag containerName other "TARGET_DIR".toList = "result".toList := by
  rw [reference, if_neg (by decide), if_neg (by decide), if_pos rfl]

private theorem expand_copyRecipe (file : Path) :
    MakeText.expand make (reference imageTag containerName other) 0 (copyRecipe file) =
      (MakeText.expand make (reference imageTag containerName other) 0 (file.native ++ recipeTail)).map
        (recipeFront containerName ++ ·) := by
  have hrecipe : copyRecipe file = "docker cp -L ".toList ++
      '$' :: '(' :: ("CONTAINER_NAME".toList ++ ')' :: ([':'] ++ (file.native ++ recipeTail))) := by
    have htext : "docker cp -L $(CONTAINER_NAME):".toList =
      "docker cp -L ".toList ++ '$' :: '(' :: ("CONTAINER_NAME".toList ++ ')' :: [':']) := by decide +kernel
    unfold copyRecipe recipeTail
    rw [htext]
    simp only [List.append_assoc, List.cons_append, List.nil_append]
  rw [hrecipe, MakeText.expand_append (by decide), MakeText.expand_name (by decide) (by decide) (by decide),
    MakeText.expand_append (by decide)]
  rw [reference_containerName]
  generalize MakeText.expand make (reference imageTag containerName other) 0 (file.native ++ recipeTail) = rest
  cases rest with
  | none => rfl
  | some text =>
    simp only [Option.map_some]
    unfold recipeFront
    rw [List.append_assoc, List.append_assoc]

private theorem recipeTail_eq : recipeTail = " ".toList ++
    '$' :: '(' :: ("TARGET_DIR".toList ++ ')' :: " 2>/dev/null && echo ' done' || echo ' failed'".toList) := by
  rw [show recipeTail = _ from String.toList_ofList,
    show " 2>/dev/null && echo ' done' || echo ' failed'".toList = _ from String.toList_ofList]
  rfl

private theorem expandedTail_eq : expandedTail = " ".toList ++
    ("result".toList ++ " 2>/dev/null && echo ' done' || echo ' failed'".toList) := by
  rw [show expandedTail = _ from String.toList_ofList,
    show " 2>/dev/null && echo ' done' || echo ' failed'".toList = _ from String.toList_ofList]
  rfl

private theorem expand_recipeTail :
    MakeText.expand make (reference imageTag containerName other) 0 recipeTail = some expandedTail := by
  rw [recipeTail_eq, MakeText.expand_append (by decide), MakeText.expand_name (by decide) (by decide) (by decide),
    MakeText.expand_of_notMem (by decide), reference_targetDir, expandedTail_eq]
  rfl

/-- From behind any number of characters the tail has no dollar sign left. -/
private theorem countP_expand_recipeTail (skip : Nat) (r : List Char)
    (h : MakeText.expand make (reference imageTag containerName other) skip recipeTail = some r) :
    r.countP (· == '$') = 0 := by
  have hzero : expandedTail.countP (· == '$') = 0 := by
    rw [show expandedTail = _ from String.toList_ofList]
    rfl
  match skip with
  | 0 =>
    rw [expand_recipeTail] at h
    exact Option.some.inj h ▸ hzero
  | 1 =>
    have htail : MakeText.expand make (reference imageTag containerName other) 0 recipeTail =
        (MakeText.expand make (reference imageTag containerName other) 1 recipeTail).map (' ' :: ·) := by
      rw [recipeTail_eq]
      exact MakeText.expand_cons_of_ne (by decide) _
    rw [expand_recipeTail, h] at htail
    rw [Option.some.inj htail, List.countP_cons] at hzero
    omega
  | skip + 2 =>
    rw [recipeTail_eq] at h
    have hnotMem : '$' ∉ '(' :: ("TARGET_DIR".toList ++
        ')' :: " 2>/dev/null && echo ' done' || echo ' failed'".toList) := by decide +kernel
    change MakeText.expand make (reference imageTag containerName other) skip ('(' :: ("TARGET_DIR".toList ++
      ')' :: " 2>/dev/null && echo ' done' || echo ' failed'".toList)) = some r at h
    rw [MakeText.expand_of_notMem hnotMem] at h
    rw [← Option.some.inj h, List.countP_eq_zero]
    intro c hc heq
    rw [beq_iff_eq] at heq
    exact hnotMem (heq ▸ List.mem_of_mem_drop hc)

end Make

/-- The words before the operand. -/
def copyWords : List (List Char) := ["docker".toList, "cp".toList, "-L".toList]

/-- The state of the shell before the file. -/
def operandScan (containerName : DockerName) : Scan :=
  { word := some (containerName.text ++ [':']), words := copyWords }

/-- The words of the copy. -/
def operandWords (containerName : DockerName) (file : Path) : List (List Char) :=
  copyWords ++ [containerName.text ++ [':'] ++ file.native, "result".toList]

private theorem operandWords_eq (containerName : DockerName) (file : Path) : operandWords containerName file =
    ["docker".toList, "cp".toList, "-L".toList, containerName.text ++ ':' :: file.native, "result".toList] := by
  simp [operandWords, copyWords]

section Shell

variable {shell : Extent} {env : Environment} {containerName : DockerName}

private theorem DockerName.isPlain_of_mem {c : Char} (hc : c ∈ containerName.text) : isPlain c = true := by
  rcases Bool.or_eq_true_iff.1 (containerName.valid c hc) with h | h
  · exact isPlain_of_isAlphanum h
  · simp only [List.contains_eq_mem, List.mem_cons, List.not_mem_nil, or_false, decide_eq_true_eq] at h
    rcases h with rfl | rfl | rfl | rfl | rfl <;> rfl

/-- The words before the operand, and the beginning of it. -/
private theorem command_recipeFront (t : List Char) :
    command shell env (recipeFront containerName ++ t) = scan shell env 0 (operandScan containerName) t := by
  have hwords : "docker cp -L ".toList = spaced copyWords := by decide +kernel
  have hfront : recipeFront containerName ++ t = spaced copyWords ++ (containerName.text ++ [':'] ++ t) := by
    unfold recipeFront
    rw [hwords, List.append_assoc _ containerName.text, List.append_assoc]
  have hplain : ∀ c ∈ containerName.text ++ [':'], isPlain c = true := by
    intro c hc
    rcases List.mem_append.1 hc with hc | hc
    · exact DockerName.isPlain_of_mem hc
    · exact List.mem_singleton.1 hc ▸ rfl
  have hname : IsPlainWord (containerName.text ++ [':']) := by
    refine ⟨by simp, fun hhead => ?_, hplain⟩
    rcases List.mem_append.1 (List.mem_of_head? hhead) with hc | hc
    · exact absurd (containerName.valid _ hc) (by decide)
    · exact absurd (List.mem_singleton.1 hc) (by decide)
  have hws : ∀ w ∈ copyWords, IsPlainWord w := by
    simp only [copyWords, List.mem_cons, List.not_mem_nil, or_false, forall_eq_or_imp, forall_eq]
    exact ⟨isPlainWord_of_all rfl, isPlainWord_of_all rfl, isPlainWord_of_all rfl⟩
  rw [hfront, command, scan_spaced hws, scan_begin hname]
  rfl

private theorem scan_operand {w : List Char} (hw : ∀ c ∈ w, isPlain c = true) (t : List Char) :
    scan shell env 0 (operandScan containerName) (w ++ t) =
      scan shell env 0 { word := some (containerName.text ++ [':'] ++ w), words := copyWords } t :=
  scan_plain hw t rfl rfl

/-- What the Makefile's `$(TARGET_DIR)` and the rest of the recipe come to. -/
private theorem scan_expandedTail (words : List (List Char)) (w : List Char) :
    scan shell env 0 { word := some w, words := words } expandedTail =
      some (words ++ [w] ++ ["result".toList], "&& echo ' done' || echo ' failed'".toList) := by
  rw [show expandedTail = _ from String.toList_ofList,
    show "&& echo ' done' || echo ' failed'".toList = _ from String.toList_ofList]
  rfl

end Shell

section Exact

variable {make : MakeText.Extent} {shell : Extent} {imageTag containerName : DockerName} {file : Path}

private theorem copiesExactly_of_plain (h : ∀ c ∈ file.native, isPlain c = true) :
    CopiesExactly make shell imageTag containerName file := by
  intro other env
  have hdollar : '$' ∉ file.native := fun hmem => absurd (h _ hmem) (by decide)
  refine ⟨recipeFront containerName ++ (file.native ++ expandedTail), "&& echo ' done' || echo ' failed'".toList,
    ?_, ?_⟩
  · rw [expand_copyRecipe, MakeText.expand_append hdollar, expand_recipeTail]
    rfl
  · rw [command_recipeFront, scan_operand h, scan_expandedTail, ← operandWords_eq, List.append_assoc]
    rfl

private theorem le_countP_operandWords (containerName : DockerName) (file : Path) (P : Char → Bool) :
    (operandScan containerName).chars.countP P + file.native.countP P ≤
      (operandWords containerName file).flatten.countP P := by
  have hwords : (operandWords containerName file).flatten =
      (operandScan containerName).chars ++ (file.native ++ "result".toList) := by
    simp [operandWords, operandScan, Scan.chars]
  rw [hwords, List.countP_append, List.countP_append]
  omega

/-- What the recipe comes to where it copies exactly, when nothing else has a value. -/
private theorem CopiesExactly.blank (h : CopiesExactly make shell imageTag containerName file) : ∃ text rest,
    MakeText.expand make (reference imageTag containerName fun _ => []) 0 (file.native ++ recipeTail) = some text ∧
      scan shell .blank 0 (operandScan containerName) text = some (operandWords containerName file, rest) := by
  obtain ⟨text, rest, hexpand, hcommand⟩ := h (fun _ => []) .blank
  rw [expand_copyRecipe] at hexpand
  obtain ⟨text, htext, rfl⟩ := Option.map_eq_some_iff.1 hexpand
  rw [command_recipeFront, ← operandWords_eq] at hcommand
  exact ⟨text, rest, htext, hcommand⟩

private theorem countP_reference (name : List Char) :
    (reference imageTag containerName (fun _ => []) name).countP (· == '$') = 0 := by
  have hname : ∀ n : DockerName, n.text.countP (· == '$') = 0 := by
    intro n
    rw [List.countP_eq_zero]
    intro c hc heq
    exact absurd (beq_iff_eq.1 heq ▸ n.valid c hc) (by decide)
  unfold reference
  split_ifs
  · exact hname _
  · exact hname _
  all_goals rfl

/-- A dollar sign does not come through make and the shell. -/
private theorem CopiesExactly.dollar_notMem (h : CopiesExactly make shell imageTag containerName file) :
    '$' ∉ file.native := by
  intro hmem
  obtain ⟨text, rest, hexpand, hscan⟩ := h.blank
  have hlt := MakeText.countP_expand_lt (c := ' ') countP_reference rfl (by decide) rfl countP_expand_recipeTail hmem
    hexpand
  rw [← List.append_nil text] at hscan
  have hle := countP_scan_le (P := (· == '$')) (by simp) (fun skip s r hr => ?_) text hscan
  · have hwords := le_countP_operandWords containerName file (· == '$')
    rw [List.drop_zero] at hle
    dsimp only at hle
    omega
  · rw [(scan_nil hr).2]
    exact s.words_flush.countP_le

private theorem CopiesExactly.isPlain (h : CopiesExactly make shell imageTag containerName file) :
    ∀ c ∈ file.native, isPlain c = true := by
  have hdollar := h.dollar_notMem
  obtain ⟨text, rest, hexpand, hscan⟩ := h.blank
  rw [MakeText.expand_append hdollar, expand_recipeTail] at hexpand
  obtain rfl : file.native ++ expandedTail = text := Option.some.inj hexpand
  intro x hx
  by_contra hplain
  -- the first character that is not plain
  obtain ⟨c, hfind⟩ := Option.isSome_iff_exists.1
    (List.find?_isSome.2 ⟨x, hx, by simpa using hplain⟩ : (file.native.find? (!ShellText.isPlain ·)).isSome)
  obtain ⟨hc, before, after, hsplit, hbefore⟩ := List.find?_eq_some_iff_append.1 hfind
  have hplain : ∀ x ∈ before, ShellText.isPlain x = true := by simpa using hbefore
  have hc' : c ≠ '$' := by
    rintro rfl
    exact hdollar (hsplit ▸ by simp)
  rw [hsplit, List.append_assoc, scan_operand hplain] at hscan
  have hdigit : (containerName.text ++ [':'] ++ before).all Char.isDigit = false := by simp
  have hquiet : ∀ x ∈ expandedTail.tail, isLoud x = false := by
    intro x hx
    have hall : (expandedTail.tail.all fun x => !isLoud x) = true := rfl
    simpa using List.all_eq_true.1 hall x hx
  rcases scan_of_not_isPlain (by simpa using hc) hc' rfl rfl rfl hdigit hquiet after hscan with hkept | hlt
  · have hword : containerName.text ++ [':'] ++ before = containerName.text ++ [':'] ++ file.native := by
      rw [operandWords, List.prefix_append_right_inj] at hkept
      exact (List.cons_prefix_cons.1 hkept).1
    rw [List.append_cancel_left_eq, hsplit, List.self_eq_append_right] at hword
    cases hword
  · have hwords := le_countP_operandWords containerName file isQuoting
    have hchars : ({ word := some (containerName.text ++ [':'] ++ before), words := copyWords } : Scan).chars =
        (operandScan containerName).chars ++ before := by
      simp [Scan.chars, operandScan]
    rw [hchars, List.countP_append] at hlt
    rw [hsplit, List.countP_append] at hwords
    dsimp only at hlt
    omega

/-- The lines of a result are in the Makefile, and they copy it exactly when its characters all stand for themselves in
a word of the shell. -/
theorem copiesExactly_iff (make : MakeText.Extent) (shell : Extent) (progress : Bool)
    (imageTag containerName : DockerName) {m : Manifest} {file : Path} (h : (file, .result) ∈ m.copyFiles.entries) :
    (∃ before after,
      generateMakefile progress imageTag.text containerName.text m = before ++ copyLines file ++ after) ∧
      (CopiesExactly make shell imageTag containerName file ↔ ∀ c ∈ file.native, isPlain c = true) :=
  ⟨generateMakefile_eq h progress _ _, CopiesExactly.isPlain, copiesExactly_of_plain⟩

end Exact

/-- The names that r4r gives by default. -/
def r4rNames : DockerName × DockerName :=
  (⟨"r4r/test".toList, List.all_eq_true.1 rfl⟩, ⟨"r4r-test".toList, List.all_eq_true.1 rfl⟩)

/-- A manifest with one result. -/
def oneResult (file : Path) : Manifest := ⟨Files.empty.emplace file .result⟩

theorem copiesExactly_csv : (Path.ofString "/data/out.csv", .result) ∈
    (oneResult (.ofString "/data/out.csv")).copyFiles.entries ∧
    CopiesExactly .first (fun _ => none) r4rNames.1 r4rNames.2 (.ofString "/data/out.csv") := by
  have hmem : (Path.ofString "/data/out.csv", .result) ∈
    (oneResult (.ofString "/data/out.csv")).copyFiles.entries := by decide
  exact ⟨hmem, (copiesExactly_iff .first (fun _ => none) true r4rNames.1 r4rNames.2 hmem).2.2 (List.all_eq_true.1 rfl)⟩

/-- With the result `/data/my out.csv`, `docker cp` gets three operands. -/
theorem not_copiesExactly_blank : (Path.ofString "/data/my out.csv", .result) ∈
    (oneResult (.ofString "/data/my out.csv")).copyFiles.entries ∧
    (MakeText.expand .first (reference r4rNames.1 r4rNames.2 fun _ => []) 0
      (copyRecipe (.ofString "/data/my out.csv"))).bind (command (fun _ => none) .blank) =
      some (["docker".toList, "cp".toList, "-L".toList, "r4r-test:/data/my".toList, "out.csv".toList,
        "result".toList], "&& echo ' done' || echo ' failed'".toList) ∧
    ¬ CopiesExactly .first (fun _ => none) r4rNames.1 r4rNames.2 (.ofString "/data/my out.csv") := by
  have hread : (MakeText.expand .first (reference r4rNames.1 r4rNames.2 fun _ => []) 0
      (copyRecipe (.ofString "/data/my out.csv"))).bind (command (fun _ => none) .blank) =
      some (["docker".toList, "cp".toList, "-L".toList, "r4r-test:/data/my".toList, "out.csv".toList,
        "result".toList], "&& echo ' done' || echo ' failed'".toList) := by
    unfold copyRecipe
    rw [show " $(TARGET_DIR) 2>/dev/null && echo ' done' || echo ' failed'".toList = _ from String.toList_ofList,
      show "docker cp -L $(CONTAINER_NAME):".toList = _ from String.toList_ofList,
      show "&& echo ' done' || echo ' failed'".toList = _ from String.toList_ofList]
    decide +kernel
  refine ⟨by decide, hread, fun h => ?_⟩
  obtain ⟨text, rest, hexpand, hcommand⟩ := h (fun _ => []) .blank
  rw [hexpand, Option.bind_some, hcommand] at hread
  exact absurd (congrArg (fun r => r.1.length) (Option.some.inj hread)) (show ¬ (5 : Nat) = 6 by decide)

end MakefileBuilderTask

end R4R

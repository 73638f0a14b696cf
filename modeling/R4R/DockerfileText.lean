import R4R.DockerfileCopy
import R4R.DockerfileEnv
import R4R.Lib.InstructionList

/-!
# Reading a Dockerfile back

The methods of `DockerFileBuilder` each append the text of an instruction, and `build` writes these texts one after the
other.  Here the text is read by the rules of Docker: lines and their continuations, keywords, the pairs of `ENV`, the
exec form of `CMD`, operands separated by blanks.  Where the arguments of the calls are texts that Docker takes as they
are, the file that any sequence of calls builds is read back as one instruction for each call, in their order, and the
sources of its `COPY` instructions are the copied files (`build_readBack`).
-/

namespace R4R

open InstructionText

/-- `DockerFile`. -/
structure DockerFile where
  contextDir : Path
  dockerfile : List Char
  copiedFiles : List Path
deriving DecidableEq, Repr

/-- What a Dockerfile tells Docker to do. -/
inductive Instruction where
  | base (image : List Char)
  | run (command : List Char)
  | cmd (args : List (List Char))
  | shellCmd (command : List Char)
  | env (pairs : List (List Char × List Char))
  | add (operands : List (List Char))
  | copy (operands : List (List Char))
  | entrypoint (command : List Char)
  | user (name : List Char)
  | workdir (path : List Char)
deriving DecidableEq, Repr

namespace DockerFileBuilder

/-- `DockerFileBuilder::add`. -/
def add (b : DockerFileBuilder) (src dest : List Char) : DockerFileBuilder :=
  { b with commands := b.commands ++ ["ADD ".toList ++ src ++ [' '] ++ dest] }

/-- `DockerFileBuilder::entrypoint`. -/
def entrypoint (b : DockerFileBuilder) (command : List Char) : DockerFileBuilder :=
  { b with commands := b.commands ++ ["ENTRYPOINT ".toList ++ command] }

/-- `DockerFileBuilder::user`. -/
def user (b : DockerFileBuilder) (user : List Char) : DockerFileBuilder :=
  { b with commands := b.commands ++ ["USER ".toList ++ user] }

/-- `DockerFileBuilder::workdir`. -/
def workdir (b : DockerFileBuilder) (path : List Char) : DockerFileBuilder :=
  { b with commands := b.commands ++ ["WORKDIR ".toList ++ path] }

/-- `DockerFileBuilder::comment`. -/
def comment (b : DockerFileBuilder) (text : List Char) : DockerFileBuilder :=
  { b with commands := b.commands ++ ["# ".toList ++ text] }

/-- `DockerFileBuilder::nl`. -/
def nl (b : DockerFileBuilder) : DockerFileBuilder := { b with commands := b.commands ++ [[]] }

/-- `DockerFileBuilder::build`. -/
def build (b : DockerFileBuilder) : DockerFile := ⟨b.contextDir, b.dockerfile, b.copiedFiles⟩

/-- A call of one of the methods. -/
inductive Call where
  | run (commands : List (List Char))
  | runScriptOnce (path : Path)
  | cmd (commands : List (List Char))
  | env (envs : List (List Char × List Char))
  | add (src dest : List Char)
  | copy (srcs : List Path) (dest : List Char)
  | entrypoint (command : List Char)
  | user (user : List Char)
  | workdir (path : List Char)
  | comment (text : List Char)
  | nl

def Call.apply (host : BuildHost) (b : DockerFileBuilder) : Call → Except CopyError DockerFileBuilder
  | .run commands => .ok (b.run commands)
  | .runScriptOnce path => b.runScriptOnce host path
  | .cmd commands => .ok (b.cmd commands)
  | .env envs => .ok (b.env envs)
  | .add src dest => .ok (b.add src dest)
  | .copy srcs dest => b.copy host srcs dest
  | .entrypoint command => .ok (b.entrypoint command)
  | .user name => .ok (b.user name)
  | .workdir path => .ok (b.workdir path)
  | .comment text => .ok (b.comment text)
  | .nl => .ok b.nl

end DockerFileBuilder

/-! ### Docker's reading -/

/-- A character that is neither expanded nor unquoted in an operand. -/
def isLiteral (c : Char) : Bool := !(['$', '"', '\x27', '\\', '[', '\n'].contains c)

/-- A text that is taken as it is up to the end of its line. -/
def isText (text : List Char) : Bool :=
  !text.isEmpty && text.all isLiteral && text.head? != some ' ' && text.getLast? != some ' '

/-- A word that is taken as it is. -/
def isOperand (blanks : Blanks) (word : List Char) : Bool :=
  !word.isEmpty && word.all fun c => isLiteral c && !blanks.isBlank c

/-- The instruction that a line stands for; none when Docker would expand or unquote its operand. -/
def parseInstruction (blanks : Blanks) (line : List Char) : Option Instruction :=
  let keyword := line.takeWhile (· != ' ')
  let rest := (line.dropWhile (· != ' ')).drop 1
  if keyword = "FROM".toList then if isText rest then some (.base rest) else none
  else if keyword = "RUN".toList then some (.run rest)
  else if keyword = "CMD".toList then
    match JsonText.stringArray rest with
    | some args => some (.cmd args)
    | none => some (.shellCmd rest)
  else if keyword = "ENV".toList then (DockerFileBuilder.pairs blanks rest).map .env
  else if keyword = "ADD".toList then if rest.all isLiteral then (words blanks rest).map .add else none
  else if keyword = "COPY".toList then if rest.all isLiteral then (words blanks rest).map .copy else none
  else if keyword = "ENTRYPOINT".toList then some (.entrypoint rest)
  else if keyword = "USER".toList then if isText rest then some (.user rest) else none
  else if keyword = "WORKDIR".toList then if isText rest then some (.workdir rest) else none
  else none

/-- The instructions of a Dockerfile. -/
def readDockerfile (blanks : Blanks) (text : List Char) : Option (List Instruction) :=
  (instructions text).mapM (parseInstruction blanks)

/-- The sources of the `COPY` instructions. -/
def copySources (is : List Instruction) : List (List Char) :=
  is.flatMap fun i => match i with
    | .copy operands => operands.dropLast
    | _ => []

variable {blanks : Blanks}

/-! ### Texts that are taken as they are -/

section Texts

variable {text : List Char}

theorem of_isLiteral {c : Char} (h : isLiteral c = true) : c ≠ '\\' ∧ c ≠ '\n' ∧ c ≠ '\x27' := by
  simp only [isLiteral, List.contains_eq_mem, Bool.not_eq_true', decide_eq_false_iff_not, List.mem_cons,
    List.not_mem_nil, or_false, not_or] at h
  exact ⟨h.2.2.2.1, h.2.2.2.2.2, h.2.2.1⟩

private theorem newline_notMem_of_literal (h : text.all isLiteral = true) : '\n' ∉ text := by
  intro hm
  have hnl := List.all_eq_true.1 h _ hm
  cases hnl

theorem literal_of_isText (h : isText text = true) : text.all isLiteral = true := by
  simp only [isText, Bool.and_eq_true] at h
  exact h.1.1.2

private theorem newline_notMem_of_isText (h : isText text = true) : '\n' ∉ text :=
  newline_notMem_of_literal (literal_of_isText h)

/-- A line with literal characters at its end does not end with a backslash. -/
private theorem getLast?_append_of_literal (hne : text ≠ []) (h : text.all isLiteral = true) (start : List Char) :
    (start ++ text).getLast? ≠ some '\\' := by
  intro hlast
  rw [List.getLast?_append_of_ne_nil _ hne] at hlast
  have hmem := List.all_eq_true.1 h _ (List.mem_of_getLast? hlast)
  cases hmem

private theorem ne_nil_of_isText (h : isText text = true) : text ≠ [] := by
  rintro rfl
  cases h

private theorem getLast?_append_of_isText (h : isText text = true) {start : List Char} :
    (start ++ text).getLast? ≠ some '\\' :=
  getLast?_append_of_literal (ne_nil_of_isText h) (literal_of_isText h) start

private theorem isPlain_of_isOperand {word : List Char} (h : isOperand blanks word = true) :
    word ≠ [] ∧ ∀ c ∈ word, blanks.IsPlain c := by
  simp only [isOperand, Bool.and_eq_true, Bool.not_eq_true', List.isEmpty_eq_false_iff, List.all_eq_true] at h
  refine ⟨h.1, fun c hc => ?_⟩
  obtain ⟨hback, -, hquote⟩ := of_isLiteral (h.2 c hc).1
  exact ⟨(h.2 c hc).2, hquote, hback⟩

theorem literal_of_isOperand {word : List Char} (h : isOperand blanks word = true) : word.all isLiteral = true := by
  simp only [isOperand, Bool.and_eq_true, List.all_eq_true] at h
  exact List.all_eq_true.2 fun c hc => (h.2 c hc).1

private theorem stringJoin_eq (sep : List Char) (texts : List (List Char)) :
    stringJoin sep texts = sep.intercalate texts := by
  cases texts with
  | nil => rfl
  | cons text texts =>
    induction texts generalizing text with
    | nil => simp [stringJoin, List.intercalate]
    | cons text' texts ih =>
      have h := ih text'
      simp only [stringJoin, List.flatMap_cons] at h ⊢
      simp [List.intercalate] at h ⊢
      rw [h]

end Texts

/-- The lines are complete and read as the instructions. -/
structure Reads (blanks : Blanks) (lines : List (List Char)) (is : List Instruction) : Prop where
  complete : ∀ line ∈ lines, isComplete line = true
  parsed : ((lines.map instruction).filter isInstruction).mapM (parseInstruction blanks) = some is

namespace Reads

private theorem nil : Reads blanks [] [] := ⟨by simp, rfl⟩

private theorem append {lines lines' : List (List Char)} {is is' : List Instruction} (h : Reads blanks lines is)
    (h' : Reads blanks lines' is') : Reads blanks (lines ++ lines') (is ++ is') := by
  constructor
  · intro line hline
    rcases List.mem_append.1 hline with hline | hline
    · exact h.complete line hline
    · exact h'.complete line hline
  · rw [List.map_append, List.filter_append, List.mapM_append, h.parsed, h'.parsed]
    rfl

/-- One line that is an instruction. -/
private theorem single {line text : List Char} {i : Instruction} (hline : isComplete line = true)
    (htext : instruction line = text) (hi : isInstruction text = true)
    (hparse : parseInstruction blanks text = some i) :
    Reads blanks [line] [i] := by
  constructor
  · intro l hl
    rwa [List.mem_singleton.1 hl]
  · rw [List.map_cons, List.map_nil, htext, List.filter_cons_of_pos hi, List.filter_nil, List.mapM_cons, hparse]
    rfl

/-- One line that is no instruction. -/
private theorem skip {line : List Char} (hline : isComplete line = true)
    (hi : isInstruction (instruction line) = false) :
    Reads blanks [line] [] := by
  constructor
  · intro l hl
    rwa [List.mem_singleton.1 hl]
  · rw [List.map_cons, List.map_nil, List.filter_cons_of_neg (by simp [hi]), List.filter_nil]
    rfl

/-- The file of a builder is read as its instructions. -/
theorem dockerfile {b : DockerFileBuilder} {is : List Instruction} (h : Reads blanks b.commands is)
    (hbase : isText b.baseImage = true) : readDockerfile blanks b.dockerfile = some (.base b.baseImage :: is) := by
  have hline : '\n' ∉ "FROM ".toList ++ b.baseImage := by
    rw [List.mem_append, not_or]
    exact ⟨by decide, newline_notMem_of_isText hbase⟩
  have hfirst : isComplete ("FROM ".toList ++ b.baseImage) = true :=
    isComplete_of_line hline (getLast?_append_of_isText hbase)
  have hscript : b.dockerfile = ("FROM ".toList ++ b.baseImage) ++ '\n' :: b.commands.flatMap
      fun c => c ++ ['\n', '\n'] := by
    have hsep : "\n\n".toList = ['\n', '\n'] := rfl
    unfold DockerFileBuilder.dockerfile
    rw [hsep, List.append_assoc]
    rfl
  have hhead : parseInstruction blanks ("FROM ".toList ++ b.baseImage) = some (.base b.baseImage) :=
    (if_pos hbase : (if isText b.baseImage = true then _ else _) = _)
  rw [readDockerfile, hscript, instructions_script hfirst h.complete, List.map_cons, instruction_of_line hline,
    List.filter_cons_of_pos rfl, List.mapM_cons, hhead, h.parsed]
  rfl

end Reads

/-! ### What each call appends -/

/-- The name by which `copy` refers to a source. -/
def BuildHost.nameIn (host : BuildHost) (contextDir src : Path) : List Char :=
  match host.relative src contextDir with
  | .ok name => name.native
  | .error _ => []

theorem isComplete_quoted {path : Path} (h : isOperand blanks path.native = true) : isComplete path.quoted = true := by
  have hnl := newline_notMem_of_literal (literal_of_isOperand h)
  refine isComplete_of_line ?_ ?_
  · simp only [Path.quoted, List.cons_append, List.mem_cons, List.mem_append, List.mem_flatMap, not_or]
    refine ⟨by decide, ?_, by decide⟩
    rintro ⟨c, hc, hmem⟩
    split at hmem
    · simp only [List.mem_cons, List.not_mem_nil, or_false] at hmem
      rcases hmem with hmem | rfl
      · exact absurd hmem (by decide)
      · exact hnl hc
    · exact hnl (List.mem_singleton.1 hmem ▸ hc)
  · rw [Path.quoted, List.getLast?_concat]
    decide

theorem isComplete_stringJoin {sep : List Char} (hsep : isComplete sep = true) {texts : List (List Char)}
    (h : ∀ text ∈ texts, isComplete text = true) : isComplete (stringJoin sep texts) = true := by
  cases texts with
  | nil => rfl
  | cons text texts =>
    obtain ⟨htext, htexts⟩ := List.forall_mem_cons.1 h
    rw [stringJoin, isComplete_append htext]
    exact isComplete_flatMap fun t ht => by rw [isComplete_append hsep, htexts t ht]

theorem instruction_stringJoin {sep : List Char} (hsep : isComplete sep = true) {texts : List (List Char)}
    (h : ∀ text ∈ texts, isComplete text = true) :
    instruction (stringJoin sep texts) = stringJoin (instruction sep) (texts.map instruction) := by
  cases texts with
  | nil => rfl
  | cons text texts =>
    obtain ⟨htext, htexts⟩ := List.forall_mem_cons.1 h
    have hpieces : ∀ t ∈ texts, isComplete (sep ++ t) = true := by
      intro t ht
      rw [isComplete_append hsep, htexts t ht]
    rw [stringJoin, instruction_append_of_isComplete htext, instruction_flatMap hpieces, List.map_cons, stringJoin,
      List.flatMap_map]
    congr 2
    funext t
    rw [instruction_append_of_isComplete hsep]

/-- The command that the shell gets of a `RUN` instruction. -/
def runCommand (commands : List (List Char)) : List Char := stringJoin " &&   ".toList (commands.map instruction)

namespace Reads

open DockerFileBuilder

private theorem run {commands : List (List Char)} (h : ∀ c ∈ commands, isComplete c = true) :
    Reads blanks ["RUN ".toList ++ stringJoin " && \\\n  ".toList commands] [.run (runCommand commands)] := by
  have hsep : isComplete " && \\\n  ".toList = true := by decide
  have hrun : isComplete "RUN ".toList = true := by decide
  have hparse :
      parseInstruction blanks ("RUN ".toList ++ runCommand commands) = some (.run (runCommand commands)) := rfl
  refine single ?_ ?_ rfl hparse
  · rw [isComplete_append hrun, isComplete_stringJoin hsep h]
  · rw [instruction_append_of_isComplete hrun, instruction_stringJoin hsep h]
    rfl

private theorem env {envs : List (List Char × List Char)} (hne : envs ≠ [])
    (h : ∀ kv ∈ envs, IsName blanks kv.1 ∧ IsReadBack blanks kv.2) : Reads blanks [envLine envs] [.env envs] := by
  have hnames : ∀ kv ∈ envs, IsName blanks kv.1 := fun kv hkv => (h kv hkv).1
  have hvalues : ∀ kv ∈ envs, '\n' ∉ kv.2 := fun kv hkv => (h kv hkv).2.1
  have hcomplete : isComplete (envLine envs) = true := by
    obtain ⟨kv, kvs, rfl⟩ := List.exists_cons_of_ne_nil hne
    have hpiece : ∀ y ∈ kv :: kvs, isComplete (piece y) = true := fun y hy =>
      isComplete_of_line (newline_notMem_piece (hnames y hy) (hvalues y hy)) (getLast?_piece y)
    obtain ⟨hkv, hkvs⟩ := List.forall_mem_cons.1 hpiece
    have henv : isComplete "ENV ".toList = true := by decide
    have hsep : isComplete " \\\n  ".toList = true := by decide
    rw [envLine_cons, isComplete_append henv, isComplete_append hkv]
    exact isComplete_flatMap fun y hy => by rw [isComplete_append hsep, hkvs y hy]
  have hbody := instruction_envLine hne hnames hvalues []
  rw [instruction_append_of_isComplete hcomplete, instruction_newline, List.append_nil] at hbody
  refine single hcomplete hbody rfl ?_
  have hpairs := (pairs_body hnames hvalues).2 fun kv hkv => (h kv hkv).2
  show (pairs blanks (body envs)).map Instruction.env = _
  rw [hpairs]
  rfl

private theorem cmd {commands : List (List Char)} (h : ∀ arg ∈ commands, ∀ c ∈ arg, JsonSafe c) :
    Reads blanks [cmdLine commands] [.cmd commands] := by
  have hnl := newline_not_mem_cmdLine h
  have hlast : (cmdLine commands).getLast? ≠ some '\\' := by
    rw [cmdLine_eq, show "]".toList = [']'] from rfl, List.getLast?_concat]
    decide
  refine single (isComplete_of_line hnl hlast) (instruction_of_line hnl) rfl ?_
  have harray : JsonText.stringArray ('[' :: (cmdInner commands ++ [']'])) = some commands := by
    rw [stringArray_cmdInner]
    exact (mapM_readBack commands).2 h
  show (match JsonText.stringArray ('[' :: (cmdInner commands ++ [']'])) with
    | some args => some (Instruction.cmd args)
    | none => some (.shellCmd ('[' :: (cmdInner commands ++ [']'])))) = _
  rw [harray]

/-- A keyword and an operand up to the end of the line. -/
private theorem text {keyword operand : List Char} {i : Instruction} (hkeyword : '\n' ∉ keyword)
    (hoperand : isText operand = true) (hi : isInstruction (keyword ++ operand) = true)
    (hparse : parseInstruction blanks (keyword ++ operand) = some i) : Reads blanks [keyword ++ operand] [i] := by
  have hnl : '\n' ∉ keyword ++ operand := by
    rw [List.mem_append, not_or]
    exact ⟨hkeyword, newline_notMem_of_isText hoperand⟩
  exact single (isComplete_of_line hnl (getLast?_append_of_isText hoperand)) (instruction_of_line hnl) hi hparse

/-- The operands of `ADD` and `COPY`. -/
private theorem operands {names : List (List Char)} {dest : List Char}
    (hnames : ∀ name ∈ names, isOperand blanks name = true) (hdest : isOperand blanks dest = true) :
    let rest := stringJoin [' '] names ++ [' '] ++ dest
    rest.all isLiteral = true ∧ words blanks rest = some (names ++ [dest]) := by
  have hjoin : ∀ names : List (List Char), (∀ name ∈ names, isOperand blanks name = true) →
      (stringJoin [' '] names).all isLiteral = true := by
    intro names hnames
    cases names with
    | nil => rfl
    | cons name names =>
      obtain ⟨hname, hnames⟩ := List.forall_mem_cons.1 hnames
      simp only [stringJoin, List.all_append, literal_of_isOperand hname, List.all_flatMap, Bool.true_and]
      refine List.all_eq_true.2 fun name hname => ?_
      rw [literal_of_isOperand (hnames name hname)]
      rfl
  constructor
  · rw [List.all_append, List.all_append, hjoin names hnames, literal_of_isOperand hdest]
    rfl
  · have hall : ∀ word ∈ names ++ [dest], word ≠ [] ∧ ∀ c ∈ word, blanks.IsPlain c := by
      intro word hword
      rcases List.mem_append.1 hword with hword | hword
      · exact isPlain_of_isOperand (hnames word hword)
      · exact isPlain_of_isOperand (List.mem_singleton.1 hword ▸ hdest)
    cases names with
    | nil =>
      have hone : words blanks (List.intercalate [' '] [dest]) = [dest] := words_intercalate (by simpa using hall)
      show words blanks (' ' :: dest) = _
      rw [words, wordsFrom_blank blanks.space]
      simpa [List.intercalate] using hone
    | cons name names =>
      rw [← words_intercalate hall, ← stringJoin_eq]
      simp [stringJoin]

private theorem add {src dest : List Char} (hsrc : isOperand blanks src = true) (hdest : isOperand blanks dest = true) :
    Reads blanks ["ADD ".toList ++ src ++ [' '] ++ dest] [.add [src, dest]] := by
  have hsrcs : ∀ name ∈ [src], isOperand blanks name = true := by simpa using hsrc
  obtain ⟨hlit, hwords⟩ := operands hsrcs hdest
  have hjoin : stringJoin [' '] [src] ++ [' '] ++ dest = src ++ [' '] ++ dest := by simp [stringJoin]
  rw [hjoin] at hlit hwords
  have hne : src ++ [' '] ++ dest ≠ [] := by simp
  have hline : "ADD ".toList ++ src ++ [' '] ++ dest = "ADD ".toList ++ (src ++ [' '] ++ dest) := by simp
  have hnl : '\n' ∉ "ADD ".toList ++ (src ++ [' '] ++ dest) := by
    rw [List.mem_append, not_or]
    exact ⟨by decide, newline_notMem_of_literal hlit⟩
  rw [hline]
  refine single (isComplete_of_line hnl (getLast?_append_of_literal hne hlit _)) (instruction_of_line hnl) rfl ?_
  show (if (src ++ [' '] ++ dest).all isLiteral = true then
    (words blanks (src ++ [' '] ++ dest)).map Instruction.add else none) = _
  rw [if_pos hlit, hwords]
  rfl

private theorem copy {names : List (List Char)} {dest : List Char}
    (hnames : ∀ name ∈ names, isOperand blanks name = true) (hdest : isOperand blanks dest = true) :
    Reads blanks ["COPY ".toList ++ stringJoin [' '] names ++ [' '] ++ dest] [.copy (names ++ [dest])] := by
  obtain ⟨hlit, hwords⟩ := operands hnames hdest
  obtain ⟨rest, hrest⟩ : ∃ rest, rest = stringJoin [' '] names ++ [' '] ++ dest := ⟨_, rfl⟩
  have hne : rest ≠ [] := by simp [hrest]
  have hline : "COPY ".toList ++ stringJoin [' '] names ++ [' '] ++ dest = "COPY ".toList ++ rest := by simp [hrest]
  rw [← hrest] at hlit hwords
  have hnl : '\n' ∉ "COPY ".toList ++ rest := by
    rw [List.mem_append, not_or]
    exact ⟨by decide, newline_notMem_of_literal hlit⟩
  rw [hline]
  refine single (isComplete_of_line hnl (getLast?_append_of_literal hne hlit _)) (instruction_of_line hnl) rfl ?_
  show (if rest.all isLiteral = true then (words blanks rest).map Instruction.copy else none) = _
  rw [if_pos hlit, hwords]
  rfl

end Reads

namespace DockerFileBuilder

/-- The arguments are texts that Docker takes as they are; `nameOf` gives the names of the sources. -/
def Call.IsReadable (blanks : Blanks) (nameOf : Path → List Char) : Call → Prop
  | .run commands => ∀ c ∈ commands, isComplete c = true
  | .runScriptOnce path => isOperand blanks (nameOf path) = true ∧ isOperand blanks path.native = true
  | .cmd commands => ∀ arg ∈ commands, ∀ c ∈ arg, JsonSafe c
  | .env envs => ∀ kv ∈ envs, IsName blanks kv.1 ∧ IsReadBack blanks kv.2
  | .add src dest => isOperand blanks src = true ∧ isOperand blanks dest = true
  | .copy srcs dest => (∀ src ∈ srcs, isOperand blanks (nameOf src) = true) ∧ isOperand blanks dest = true
  | .entrypoint command => isText command = true
  | .user name => isText name = true
  | .workdir path => isText path = true
  | .comment text => '\n' ∉ text ∧ text.getLast? ≠ some '\\'
  | .nl => True

/-- The two commands that run a script and remove it. -/
def scriptCommands (path : Path) : List (List Char) := ["bash ".toList ++ path.quoted, "rm -f ".toList ++ path.quoted]

/-- The instructions that a call stands for. -/
def Call.means (nameOf : Path → List Char) : Call → List Instruction
  | .run commands => [.run (runCommand commands)]
  | .runScriptOnce path => [.copy [nameOf path, path.native], .run (runCommand (scriptCommands path))]
  | .cmd commands => [.cmd commands]
  | .env envs => if envs.isEmpty then [] else [.env envs]
  | .add src dest => [.add [src, dest]]
  | .copy srcs dest => [.copy (srcs.map nameOf ++ [dest])]
  | .entrypoint command => [.entrypoint command]
  | .user name => [.user name]
  | .workdir path => [.workdir path]
  | .comment _ => []
  | .nl => []

/-- The files that a call copies. -/
def Call.copied : Call → List Path
  | .runScriptOnce path => [path]
  | .copy srcs _ => srcs
  | _ => []

/-- The builder has got the lines and the copied files, and nothing else has changed. -/
def Gets (b b' : DockerFileBuilder) (lines : List (List Char)) (copied : List Path) : Prop :=
  b' = { b with commands := b.commands ++ lines, copiedFiles := b.copiedFiles ++ copied }

variable {host : BuildHost} {b b' : DockerFileBuilder}

private theorem foldlM_copyStep {srcs : List Path} : ∀ {b b' : DockerFileBuilder} {names names' : List (List Char)},
    srcs.foldlM (copyStep host) (b, names) = .ok (b', names') →
      Gets b b' [] srcs ∧ names' = names ++ srcs.map (host.nameIn b.contextDir) := by
  induction srcs with
  | nil =>
    intro b b' names names' h
    obtain ⟨rfl, rfl⟩ := Prod.mk.inj (Except.ok.inj h)
    simp [Gets]
  | cons src srcs ih =>
    intro b b' names names' h
    rw [List.foldlM_cons] at h
    obtain ⟨⟨b₁, names₁⟩, hstep, h⟩ := Except.bind_eq_ok h
    obtain ⟨hgets, hnames⟩ := ih h
    by_cases hsub : isSubPath src b.contextDir = true
    · rw [copyStep, if_pos hsub] at hstep
      cases hrel : host.relative src b.contextDir with
      | error what =>
        simp only [hrel] at hstep
        cases hstep
      | ok name =>
        simp only [hrel] at hstep
        obtain ⟨rfl, rfl⟩ := Prod.mk.inj (Except.ok.inj hstep)
        have hname : host.nameIn b.contextDir src = name.native := by simp only [BuildHost.nameIn, hrel]
        simp only [Gets, List.append_nil] at hgets ⊢
        rw [hgets, hnames, List.map_cons, hname]
        simp
    · rw [copyStep, if_neg hsub] at hstep
      cases hstep

private theorem copy_gets {srcs : List Path} {dest : List Char} (h : b.copy host srcs dest = .ok b') :
    Gets b b' ["COPY ".toList ++ stringJoin [' '] (srcs.map (host.nameIn b.contextDir)) ++ [' '] ++ dest] srcs := by
  unfold copy at h
  obtain ⟨⟨b₁, names⟩, hfold, h⟩ := Except.bind_eq_ok h
  obtain ⟨hgets, hnames⟩ := foldlM_copyStep hfold
  obtain rfl := Except.ok.inj h
  rw [Gets, List.append_nil] at hgets
  rw [List.nil_append] at hnames
  rw [Gets, hgets, hnames]

/-- What a call appends reads as the instructions that it stands for. -/
private theorem Call.apply_gets {call : Call} (h : call.apply host b = .ok b')
    (hread : call.IsReadable blanks (host.nameIn b.contextDir)) :
    ∃ lines, Gets b b' lines call.copied ∧ Reads blanks lines (call.means (host.nameIn b.contextDir)) := by
  have hone : ∀ line, Gets b { b with commands := b.commands ++ [line] } [line] [] := by
    intro line
    simp [Gets]
  cases call with
  | run commands =>
    obtain rfl := Except.ok.inj h
    exact ⟨_, hone _, Reads.run hread⟩
  | runScriptOnce path =>
    obtain ⟨b₁, hcopy, h⟩ := Except.bind_eq_ok h
    obtain rfl := Except.ok.inj h
    have hgets := copy_gets hcopy
    have hquoted := isComplete_quoted hread.2
    have hbash : isComplete "bash ".toList = true := by decide
    have hrm : isComplete "rm -f ".toList = true := by decide
    have hcommands : ∀ c ∈ scriptCommands path, isComplete c = true := by
      intro c hc
      simp only [scriptCommands, List.mem_cons, List.not_mem_nil, or_false] at hc
      rcases hc with rfl | rfl
      · rw [isComplete_append hbash, hquoted]
      · rw [isComplete_append hrm, hquoted]
    have hnames : ∀ name ∈ [path].map (host.nameIn b.contextDir), isOperand blanks name = true := by
      intro name hname
      simp only [List.map_cons, List.map_nil, List.mem_singleton] at hname
      rw [hname, hread.1]
    refine ⟨_, ?_, (Reads.copy hnames hread.2).append (Reads.run hcommands)⟩
    rw [Gets] at hgets ⊢
    rw [hgets]
    simp [DockerFileBuilder.run, scriptCommands, Call.copied]
  | cmd commands =>
    obtain rfl := Except.ok.inj h
    exact ⟨_, hone _, Reads.cmd hread⟩
  | env envs =>
    obtain rfl := Except.ok.inj h
    by_cases hne : envs = []
    · subst hne
      have henv : b.env [] = b := rfl
      exact ⟨[], by simp [Gets, henv, Call.copied], Reads.nil⟩
    · have hmeans : Call.means (host.nameIn b.contextDir) (.env envs) = [.env envs] := if_neg (by simpa using hne)
      have henv : b.env envs = { b with commands := b.commands ++ [envLine envs] } := if_neg (by simpa using hne)
      rw [hmeans, henv]
      exact ⟨_, hone _, Reads.env hne hread⟩
  | add src dest =>
    obtain rfl := Except.ok.inj h
    exact ⟨_, hone _, Reads.add hread.1 hread.2⟩
  | copy srcs dest =>
    have hnames : ∀ name ∈ srcs.map (host.nameIn b.contextDir), isOperand blanks name = true := by
      intro name hname
      obtain ⟨src, hsrc, rfl⟩ := List.mem_map.1 hname
      exact hread.1 src hsrc
    exact ⟨_, copy_gets h, Reads.copy hnames hread.2⟩
  | entrypoint command =>
    obtain rfl := Except.ok.inj h
    exact ⟨_, hone _, Reads.text (by decide) hread rfl rfl⟩
  | user name =>
    obtain rfl := Except.ok.inj h
    have hparse : parseInstruction blanks ("USER ".toList ++ name) = some (.user name) :=
      (if_pos hread : (if isText name = true then _ else _) = _)
    exact ⟨_, hone _, Reads.text (by decide) hread rfl hparse⟩
  | workdir path =>
    obtain rfl := Except.ok.inj h
    have hparse : parseInstruction blanks ("WORKDIR ".toList ++ path) = some (.workdir path) :=
      (if_pos hread : (if isText path = true then _ else _) = _)
    exact ⟨_, hone _, Reads.text (by decide) hread rfl hparse⟩
  | comment text =>
    obtain rfl := Except.ok.inj h
    have hnl : '\n' ∉ "# ".toList ++ text := by
      rw [List.mem_append, not_or]
      exact ⟨by decide, hread.1⟩
    have hlast : ("# ".toList ++ text).getLast? ≠ some '\\' := by
      cases text with
      | nil => decide
      | cons c cs =>
        rw [List.getLast?_append_of_ne_nil _ (List.cons_ne_nil c cs)]
        exact hread.2
    refine ⟨_, hone _, Reads.skip (isComplete_of_line hnl hlast) ?_⟩
    rw [instruction_of_line hnl]
    rfl
  | nl =>
    obtain rfl := Except.ok.inj h
    exact ⟨_, hone _, Reads.skip rfl rfl⟩

/-- What a sequence of calls appends. -/
theorem foldlM_apply_gets {calls : List Call} : ∀ {b b' : DockerFileBuilder},
    calls.foldlM (Call.apply host) b = .ok b' → (∀ call ∈ calls, call.IsReadable blanks (host.nameIn b.contextDir)) →
    ∃ lines, Gets b b' lines (calls.flatMap Call.copied) ∧
      Reads blanks lines (calls.flatMap (Call.means (host.nameIn b.contextDir))) := by
  induction calls with
  | nil =>
    intro b b' h _
    obtain rfl := Except.ok.inj h
    exact ⟨[], by simp [Gets], Reads.nil⟩
  | cons call calls ih =>
    intro b b' h hread
    obtain ⟨hcall, hcalls⟩ := List.forall_mem_cons.1 hread
    rw [List.foldlM_cons] at h
    obtain ⟨b₁, hstep, h⟩ := Except.bind_eq_ok h
    obtain ⟨lines₁, hgets₁, hreads₁⟩ := Call.apply_gets hstep hcall
    have hctx : b₁.contextDir = b.contextDir := by rw [hgets₁]
    obtain ⟨lines₂, hgets₂, hreads₂⟩ := ih h (by rwa [hctx])
    rw [hctx] at hreads₂
    refine ⟨lines₁ ++ lines₂, ?_, hreads₁.append hreads₂⟩
    rw [Gets] at hgets₁ hgets₂ ⊢
    rw [hgets₂, hgets₁]
    simp

private theorem copySources_means (name : Path → List Char) (call : Call) :
    copySources (call.means name) = call.copied.map name := by
  cases call with
  | env envs => cases envs <;> rfl
  | copy srcs dest => simp [Call.means, Call.copied, copySources]
  | _ => rfl

/-- The file that a sequence of calls builds is read back as one instruction for each call, in their order, and the
sources of its `COPY` instructions are the copied files. -/
theorem build_readBack (host : BuildHost) {baseImage : List Char} (hbase : isText baseImage = true) (contextDir : Path)
    {calls : List Call} {b : DockerFileBuilder}
    (happly : calls.foldlM (Call.apply host) { baseImage, contextDir } = .ok b)
    (hread : ∀ call ∈ calls, call.IsReadable blanks (host.nameIn contextDir)) :
    let is := calls.flatMap (Call.means (host.nameIn contextDir))
    readDockerfile blanks b.build.dockerfile = some (.base baseImage :: is) ∧
      copySources is = b.build.copiedFiles.map (host.nameIn contextDir) := by
  obtain ⟨lines, hgets, hreads⟩ := foldlM_apply_gets happly hread
  rw [Gets] at hgets
  constructor
  · have hcommands : Reads blanks b.commands (calls.flatMap (Call.means (host.nameIn contextDir))) := by
      rw [hgets]
      exact hreads
    have himage : b.baseImage = baseImage := by rw [hgets]
    have hfile := hcommands.dockerfile (b := b) (by rwa [himage])
    rwa [himage] at hfile
  · have hcopied : b.build.copiedFiles = calls.flatMap Call.copied := by rw [build, hgets]; rfl
    rw [hcopied, copySources, List.flatMap_assoc, List.map_flatMap]
    exact List.flatMap_congr fun call _ => copySources_means _ call

/-- A host where the name of a source is its last element. -/
def nameHost : BuildHost := ⟨fun src _ => .ok ⟨src.filename⟩, fun _ _ => .ok ()⟩

/-- Calls with an environment, a script and a command. -/
def plainCalls : List Call :=
  [.comment "What was traced".toList, .env [("A".toList, "b c".toList), ("D".toList, [])],
    .runScriptOnce (Path.ofString "out/pre.sh"), .run ["apt-get update".toList, "rm -rf /tmp/x".toList], .nl,
    .workdir "/work".toList, .user "me:me".toList, .cmd ["R".toList, "-e".toList, "\"x\"".toList]]

theorem build_readBack_plain :
    ∃ b, plainCalls.foldlM (Call.apply nameHost)
        { baseImage := "ubuntu:22.04".toList, contextDir := Path.ofString "out" } = .ok b ∧
      readDockerfile .standard b.build.dockerfile = some (.base "ubuntu:22.04".toList ::
        plainCalls.flatMap (Call.means (nameHost.nameIn (Path.ofString "out")))) := by
  have hread : ∀ call ∈ plainCalls, call.IsReadable .standard (nameHost.nameIn (Path.ofString "out")) := by
    intro call hcall
    simp only [plainCalls, List.mem_cons, List.not_mem_nil, or_false] at hcall
    rcases hcall with rfl | rfl | rfl | rfl | rfl | rfl | rfl | rfl
    · exact ⟨by decide, by decide⟩
    · simp [Call.IsReadable, IsName, IsReadBack, Blanks.IsPlain, Blanks.standard, needsEscaping]
    · exact ⟨by decide, by decide⟩
    · simp only [Call.IsReadable, List.forall_mem_cons]
      exact ⟨by decide, by decide, by simp⟩
    · trivial
    · show isText _ = true
      decide
    · show isText _ = true
      decide
    · simp [Call.IsReadable, JsonSafe]
  exact ⟨_, rfl, (build_readBack nameHost (by decide) _ rfl hread).1⟩

end DockerFileBuilder

end R4R

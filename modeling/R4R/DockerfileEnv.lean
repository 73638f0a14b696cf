import R4R.Dockerfile
import R4R.Lib.InstructionText

/-!
# The `ENV` instruction

`DockerFileBuilder::env` writes the pairs of an environment as one instruction, a line for each pair, with the values
quoted by `escape_cmd_arg`.  A newline makes `escape_cmd_arg` quote a value, but it is written as it is, and no quote
protects it from the rule that ends an instruction at the end of its line.  So the instruction is read back as the
pairs exactly when no value contains a newline and the reader's blanks occur in quoted values only
(`env_readBack_iff`).
-/

namespace R4R

open InstructionText

namespace DockerFileBuilder

/-- The instruction that `env` appends for the pairs. -/
def envLine (envs : List (List Char × List Char)) : List Char :=
  "ENV ".toList ++ joinLoop " \\\n  ".toList (fun kv => kv.1 ++ '=' :: escapeCmdArg kv.2) envs

/-- `DockerFileBuilder::env`. -/
def env (b : DockerFileBuilder) (envs : List (List Char × List Char)) : DockerFileBuilder :=
  if envs.isEmpty then b else { b with commands := b.commands ++ [envLine envs] }

example : envLine [("KEY1".toList, "value1".toList), ("KEY2".toList, "$\x7b-*-\x7d".toList)] =
    "ENV KEY1=value1 \\\n  KEY2=\x27$\x7b-*-\x7d\x27".toList := by decide

/-- A word as a pair: the text before and after the first equals sign. -/
def splitPair (word : List Char) : Option (List Char × List Char) :=
  match word.dropWhile (· != '=') with
  | [] => none
  | _ :: value => some (word.takeWhile (· != '='), value)

/-- The pairs of the words of an `ENV` instruction. -/
def pairs (blanks : Blanks) (text : List Char) : Option (List (List Char × List Char)) :=
  (words blanks text).bind fun ws => ws.mapM splitPair

/-- The pairs of the `ENV` instruction at the start of a text. -/
def readEnv (blanks : Blanks) (text : List Char) : Option (List (List Char × List Char)) :=
  ((instruction text).dropPrefix? "ENV ".toList).bind fun rest => pairs blanks rest

/-- The names of the pairs: no blank, quote, equals sign or backslash in them. -/
def IsName (blanks : Blanks) (name : List Char) : Prop := ∀ c ∈ name, blanks.IsPlain c ∧ c ≠ '"' ∧ c ≠ '='

/-- The values that are read back: no newline, and a blank only where `escape_cmd_arg` quotes. -/
def IsReadBack (blanks : Blanks) (value : List Char) : Prop :=
  '\n' ∉ value ∧ (value.any needsEscaping = false → ∀ c ∈ value, blanks.isBlank c = false)

/-- The text of one pair. -/
def piece (kv : List Char × List Char) : List Char := kv.1 ++ '=' :: escapeCmdArg kv.2

theorem envLine_cons (kv : List Char × List Char) (kvs : List (List Char × List Char)) :
    envLine (kv :: kvs) = "ENV ".toList ++ (piece kv ++ kvs.flatMap fun y => " \\\n  ".toList ++ piece y) := by
  rw [envLine, joinLoop_cons]
  rfl

/-- The words of the instruction: the pieces, with the blanks that the continued lines leave. -/
def body : List (List Char × List Char) → List Char
  | [] => []
  | kv :: kvs => piece kv ++ kvs.flatMap fun y => "   ".toList ++ piece y

/-! ### The quoted value -/

private theorem escapeCmdArg_plain {value : List Char} (h : value.any needsEscaping = false) :
    escapeCmdArg value = value := by
  cases value with
  | nil => rfl
  | cons c cs => simp [escapeCmdArg, h]

private theorem escapeCmdArg_quoted {value : List Char} (h : value.any needsEscaping = true) :
    escapeCmdArg value = '\x27' :: (singleQuoted value ++ ['\x27']) := by
  cases value with
  | nil => cases h
  | cons c cs => simp [escapeCmdArg, h]

private theorem newline_notMem_escapeCmdArg {value : List Char} (h : '\n' ∉ value) : '\n' ∉ escapeCmdArg value := by
  cases hv : value.any needsEscaping with
  | false => rwa [escapeCmdArg_plain hv]
  | true =>
    rw [escapeCmdArg_quoted hv]
    simp only [List.mem_cons, List.mem_append, singleQuoted, List.mem_flatMap, not_or]
    refine ⟨by decide, ?_, by decide⟩
    rintro ⟨c, hc, hmem⟩
    split at hmem
    · simp at hmem
    · exact h (List.mem_singleton.1 hmem ▸ hc)

/-- A quoted value does not end with a backslash. -/
private theorem getLast?_escapeCmdArg (value : List Char) : (escapeCmdArg value).getLast? ≠ some '\\' := by
  cases hv : value.any needsEscaping with
  | false =>
    rw [escapeCmdArg_plain hv]
    intro hlast
    have hmem : '\\' ∈ value := List.mem_of_getLast? hlast
    rw [List.any_eq_false] at hv
    exact hv _ hmem (by decide)
  | true =>
    rw [escapeCmdArg_quoted hv, ← List.cons_append, List.getLast?_concat]
    decide

theorem getLast?_piece (kv : List Char × List Char) : (piece kv).getLast? ≠ some '\\' := by
  have h := getLast?_escapeCmdArg kv.2
  rw [piece, List.getLast?_append, List.getLast?_cons]
  cases hlast : (escapeCmdArg kv.2).getLast? with
  | none => simp
  | some c =>
    rw [hlast] at h
    simpa using h

/-! ### Reading the line -/

variable {blanks : Blanks}

theorem newline_notMem_piece {kv : List Char × List Char} (hname : IsName blanks kv.1) (hvalue : '\n' ∉ kv.2) :
    '\n' ∉ piece kv := by
  simp only [piece, List.mem_append, List.mem_cons, not_or]
  refine ⟨fun h => ?_, by decide, newline_notMem_escapeCmdArg hvalue⟩
  have hplain := (hname _ h).1.1
  rw [blanks.newline] at hplain
  cases hplain

/-- Without a newline in the pairs the instruction is the whole line, with its continued lines joined. -/
private theorem instruction_pieces {kv : List Char × List Char} {kvs : List (List Char × List Char)}
    (hkv : '\n' ∉ piece kv) (hkvs : ∀ y ∈ kvs, '\n' ∉ piece y) (rest : List Char) :
    instruction (piece kv ++ (kvs.flatMap fun y => " \\\n  ".toList ++ piece y) ++ '\n' :: rest) =
      body (kv :: kvs) := by
  induction kvs generalizing kv with
  | nil =>
    simp only [List.flatMap_nil, List.append_nil, body]
    rw [instruction_append hkv _ fun h => absurd h (getLast?_piece kv), instruction_newline, List.append_nil]
  | cons y ys ih =>
    obtain ⟨hy, hys⟩ := List.forall_mem_cons.1 hkvs
    have hsep : ∀ text, instruction (" \\\n  ".toList ++ text) = "   ".toList ++ instruction text := fun text => rfl
    rw [List.flatMap_cons, List.append_assoc, List.append_assoc, List.append_assoc,
      instruction_append hkv _ fun _ => by simp, hsep, ← List.append_assoc (piece y), ih hy hys]
    simp [body]

theorem instruction_envLine {envs : List (List Char × List Char)} (hne : envs ≠ [])
    (hnames : ∀ kv ∈ envs, IsName blanks kv.1) (hvalues : ∀ kv ∈ envs, '\n' ∉ kv.2) (rest : List Char) :
    instruction (envLine envs ++ '\n' :: rest) = "ENV ".toList ++ body envs := by
  obtain ⟨kv, kvs, rfl⟩ := List.exists_cons_of_ne_nil hne
  have hpiece : ∀ y ∈ kv :: kvs, '\n' ∉ piece y := fun y hy => newline_notMem_piece (hnames y hy) (hvalues y hy)
  obtain ⟨hkv, hkvs⟩ := List.forall_mem_cons.1 hpiece
  rw [envLine_cons, List.append_assoc, instruction_append (by decide) _ fun h => absurd h (by decide),
    instruction_pieces hkv hkvs]

/-- The text between the quotes is read as the value. -/
private theorem wordsFrom_singleQuoted (value word text : List Char) :
    wordsFrom blanks true (some word) (singleQuoted value ++ '\x27' :: text) =
      wordsFrom blanks false (some (word ++ value)) text := by
  induction value generalizing word with
  | nil => simpa [singleQuoted] using wordsFrom_closeQuote word text
  | cons c cs ih =>
    have hcons : singleQuoted (c :: cs) = (if c = '\x27' then ['\x27', '\\', '\x27', '\x27'] else [c]) ++
        singleQuoted cs := rfl
    rw [hcons]
    by_cases hc : c = '\x27'
    · -- the quote is closed, an escaped quote follows, and it is opened again
      subst hc
      rw [if_pos rfl]
      change wordsFrom blanks true (some word)
        ('\x27' :: '\\' :: '\x27' :: '\x27' :: (singleQuoted cs ++ '\x27' :: text)) = _
      rw [wordsFrom_closeQuote, wordsFrom_escaped, wordsFrom_openQuote]
      simpa using ih (word ++ ['\x27'])
    · rw [if_neg hc]
      change wordsFrom blanks true (some word) (c :: (singleQuoted cs ++ '\x27' :: text)) = _
      rw [wordsFrom_quoted hc, ih]
      simp

/-- The name and the equals sign of a piece begin a word. -/
private theorem wordsFrom_name {name : List Char} (hname : IsName blanks name) (text : List Char) :
    wordsFrom blanks false none (name ++ '=' :: text) = wordsFrom blanks false (some (name ++ ['='])) text := by
  have hequals : blanks.IsPlain '=' := ⟨blanks.equals, by decide, by decide⟩
  cases name with
  | nil => exact wordsFrom_plain hequals none text
  | cons c cs =>
    obtain ⟨hc, hcs⟩ := List.forall_mem_cons.1 hname
    rw [List.cons_append, wordsFrom_plain hc.1, wordsFrom_plain_append fun d hd => (hcs d hd).1,
      wordsFrom_plain hequals]
    simp

/-- A value of the good kind completes the word of its piece. -/
private theorem wordsFrom_piece {kv : List Char × List Char} (hname : IsName blanks kv.1)
    (hvalue : IsReadBack blanks kv.2) (text : List Char) :
    wordsFrom blanks false none (piece kv ++ text) = wordsFrom blanks false (some (kv.1 ++ '=' :: kv.2)) text := by
  rw [piece, List.append_assoc, List.cons_append, wordsFrom_name hname]
  cases hv : kv.2.any needsEscaping with
  | false =>
    have hplain : ∀ c ∈ kv.2, blanks.IsPlain c := by
      intro c hc
      rw [List.any_eq_false] at hv
      refine ⟨hvalue.2 (by simpa using hv) c hc, ?_, ?_⟩ <;> rintro rfl <;> exact hv _ hc (by decide)
    rw [escapeCmdArg_plain hv, wordsFrom_plain_append hplain]
    simp
  | true =>
    rw [escapeCmdArg_quoted hv, List.cons_append, List.append_assoc, wordsFrom_openQuote]
    simpa using wordsFrom_singleQuoted kv.2 (kv.1 ++ ['=']) text

/-- An unquoted value with a blank ends its word before the blank. -/
private theorem wordsFrom_piece_of_not {kv : List Char × List Char} (hname : IsName blanks kv.1)
    (hv : kv.2.any needsEscaping = false) (hblank : ¬ ∀ c ∈ kv.2, blanks.isBlank c = false) (text : List Char) :
    ∃ value text', value ≠ kv.2 ∧ wordsFrom blanks false none (piece kv ++ text) =
      (words blanks text').map ((kv.1 ++ '=' :: value) :: ·) := by
  push Not at hblank
  obtain ⟨c, hc, hcb⟩ := hblank
  have hsplit : ∃ pre d post, kv.2 = pre ++ d :: post ∧ (∀ x ∈ pre, blanks.isBlank x = false) ∧
      blanks.isBlank d = true := by
    obtain ⟨d, hd⟩ := Option.isSome_iff_exists.1 (List.find?_isSome.2 ⟨c, hc, by simpa using hcb⟩)
    obtain ⟨hdb, pre, post, heq, hpre⟩ := List.find?_eq_some_iff_append.1 hd
    exact ⟨pre, d, post, heq, fun x hx => by simpa using hpre x hx, hdb⟩
  obtain ⟨pre, d, post, heq, hpre, hd⟩ := hsplit
  have hplain : ∀ x ∈ pre, blanks.IsPlain x := by
    intro x hx
    have hmem : x ∈ kv.2 := heq ▸ List.mem_append_left _ hx
    rw [List.any_eq_false] at hv
    refine ⟨hpre x hx, ?_, ?_⟩ <;> rintro rfl <;> exact hv _ hmem (by decide)
  refine ⟨pre, post ++ text, fun he => ?_, ?_⟩
  · have := congrArg List.length (he.trans heq)
    simp at this
  · rw [piece, List.append_assoc, List.cons_append, wordsFrom_name hname, escapeCmdArg_plain hv, heq,
      List.append_assoc, List.cons_append, wordsFrom_plain_append hplain, wordsFrom_blank hd]
    simp

private theorem wordsFrom_separator (word text : List Char) :
    wordsFrom blanks false (some word) ("   ".toList ++ text) = (words blanks text).map (word :: ·) := by
  have hskip : ∀ text, words blanks (' ' :: text) = words blanks text := fun text => by
    rw [words, wordsFrom_blank blanks.space]
    simp
  change wordsFrom blanks false (some word) (' ' :: ' ' :: ' ' :: text) = _
  rw [wordsFrom_blank blanks.space, hskip, hskip]
  rfl

/-- The words after a word of the line are those of the remaining pieces. -/
private theorem wordsFrom_flatMap (word : List Char) (kvs : List (List Char × List Char)) :
    wordsFrom blanks false (some word) (kvs.flatMap fun y => "   ".toList ++ piece y) =
      (words blanks (body kvs)).map (word :: ·) := by
  cases kvs with
  | nil => simp [wordsFrom, words, body]
  | cons y ys =>
    rw [List.flatMap_cons, List.append_assoc, wordsFrom_separator]
    rfl

private theorem splitPair_append {name : List Char} (hname : '=' ∉ name) (value : List Char) :
    splitPair (name ++ '=' :: value) = some (name, value) := by
  have hne : ∀ c ∈ name, (c != '=') = true := by
    intro c hc
    have hc' : c ≠ '=' := fun he => hname (he ▸ hc)
    simpa using hc'
  have hdrop : (name ++ '=' :: value).dropWhile (· != '=') = '=' :: value := by
    rw [List.dropWhile_append_of_pos hne, List.dropWhile_cons_of_neg (by simp)]
  have htake : (name ++ '=' :: value).takeWhile (· != '=') = name := by
    rw [List.takeWhile_append_of_pos hne, List.takeWhile_cons_of_neg (by simp), List.append_nil]
  rw [splitPair, hdrop, htake]

private theorem equals_notMem_name {name : List Char} (h : IsName blanks name) :
    '=' ∉ name := fun hm => (h _ hm).2.2 rfl

/-- A pair is read back exactly when its value is of the good kind and the remaining pairs are read back. -/
private theorem pairs_body_cons {kv : List Char × List Char} (hname : IsName blanks kv.1) (hvalue : '\n' ∉ kv.2)
    (kvs : List (List Char × List Char)) :
    pairs blanks (body (kv :: kvs)) = some (kv :: kvs) ↔
      IsReadBack blanks kv.2 ∧ pairs blanks (body kvs) = some kvs := by
  have hequals := equals_notMem_name hname
  by_cases hgood : IsReadBack blanks kv.2
  · have hpairs : pairs blanks (body (kv :: kvs)) = (pairs blanks (body kvs)).map (kv :: ·) := by
      rw [pairs, words, body, wordsFrom_piece hname hgood, wordsFrom_flatMap]
      cases hws : words blanks (body kvs) with
      | none => simp [pairs, hws]
      | some ws =>
        simp only [Option.map_some, Option.bind_some, List.mapM_cons, splitPair_append hequals, pairs, hws]
        cases ws.mapM splitPair <;> rfl
    rw [hpairs]
    simp [hgood]
  · -- the value is not quoted and has a blank: the first word that is read is too short
    have hv : kv.2.any needsEscaping = false := by
      by_contra h
      exact hgood ⟨hvalue, fun he => absurd he h⟩
    have hblank : ¬ ∀ c ∈ kv.2, blanks.isBlank c = false := fun h => hgood ⟨hvalue, fun _ => h⟩
    obtain ⟨value, text, hne, hwords⟩ :=
      wordsFrom_piece_of_not hname hv hblank (kvs.flatMap fun y => "   ".toList ++ piece y)
    refine iff_of_false (fun h => ?_) fun h => hgood h.1
    rw [pairs, words, body, hwords] at h
    cases hws : words blanks text with
    | none => simp [hws] at h
    | some ws =>
      simp only [hws, Option.map_some, Option.bind_some, List.mapM_cons, splitPair_append hequals] at h
      cases hrest : ws.mapM splitPair with
      | none => simp [hrest] at h
      | some rest =>
        have heq : (kv.1, value) :: rest = kv :: kvs := by simpa [hrest] using h
        exact hne (congrArg Prod.snd (List.cons.inj heq).1)

theorem pairs_body {envs : List (List Char × List Char)} (hnames : ∀ kv ∈ envs, IsName blanks kv.1)
    (hvalues : ∀ kv ∈ envs, '\n' ∉ kv.2) :
    pairs blanks (body envs) = some envs ↔ ∀ kv ∈ envs, IsReadBack blanks kv.2 := by
  induction envs with
  | nil => simp [pairs, words, wordsFrom, body]
  | cons kv kvs ih =>
    obtain ⟨hname, hnames⟩ := List.forall_mem_cons.1 hnames
    obtain ⟨hvalue, hvalues⟩ := List.forall_mem_cons.1 hvalues
    rw [pairs_body_cons hname hvalue, ih hnames hvalues, List.forall_mem_cons]

/-! ### No newline is ever read -/

private theorem mem_of_splitPair {word : List Char} {kv : List Char × List Char} (h : splitPair word = some kv)
    {c : Char} (hc : c ∈ kv.2) : c ∈ word := by
  rw [splitPair] at h
  split at h
  · cases h
  next d value hdrop =>
    obtain rfl := Option.some.inj h
    exact (List.dropWhile_suffix _).subset (hdrop ▸ List.mem_cons_of_mem d hc)

private theorem exists_word_of_mapM {ws : List (List Char)} {envs : List (List Char × List Char)}
    (h : ws.mapM splitPair = some envs) {kv : List Char × List Char} (hkv : kv ∈ envs) :
    ∃ w ∈ ws, splitPair w = some kv := by
  induction ws generalizing envs with
  | nil =>
    obtain rfl : [] = envs := by simpa using h
    cases hkv
  | cons w ws ih =>
    rw [List.mapM_cons] at h
    obtain ⟨kv', hw, h⟩ := Option.bind_eq_some_iff.1 h
    obtain ⟨envs', hws, h⟩ := Option.bind_eq_some_iff.1 h
    obtain rfl : kv' :: envs' = envs := by simpa using h
    rcases List.mem_cons.1 hkv with rfl | hkv
    · exact ⟨w, List.mem_cons_self .., hw⟩
    · obtain ⟨w', hw', hsplit⟩ := ih hws hkv
      exact ⟨w', List.mem_cons_of_mem _ hw', hsplit⟩

/-- No value that is read has a newline. -/
private theorem newline_notMem_of_readEnv {text : List Char} {envs : List (List Char × List Char)}
    (h : readEnv blanks text = some envs) : ∀ kv ∈ envs, '\n' ∉ kv.2 := by
  intro kv hkv hnl
  obtain ⟨rest, hrest, hpairs⟩ := Option.bind_eq_some_iff.1 h
  obtain ⟨ws, hws, hsplit⟩ := Option.bind_eq_some_iff.1 hpairs
  obtain ⟨w, hw, hwkv⟩ := exists_word_of_mapM hsplit hkv
  have hmem : '\n' ∈ rest := by simpa using mem_of_mem_wordsFrom hws hw (mem_of_splitPair hwkv hnl)
  obtain ⟨pre, hpre, -⟩ := List.dropPrefix?_eq_some_iff.1 hrest
  exact newline_notMem_instruction text (hpre ▸ List.mem_append_right _ hmem)

/-- `env` appends an instruction that is read back as the pairs exactly when no value has a newline and every value
with a blank of the reader is one that `escape_cmd_arg` quotes. -/
theorem env_readBack_iff (blanks : Blanks) (b : DockerFileBuilder) {envs : List (List Char × List Char)}
    (hne : envs ≠ []) (hnames : ∀ kv ∈ envs, IsName blanks kv.1) :
    (∃ line, (b.env envs).commands = b.commands ++ [line] ∧
        ∀ rest, readEnv blanks (line ++ '\n' :: rest) = some envs) ↔
      ∀ kv ∈ envs, IsReadBack blanks kv.2 := by
  have henv : (b.env envs).commands = b.commands ++ [envLine envs] := by
    simp [env, hne]
  have hread : (∀ kv ∈ envs, '\n' ∉ kv.2) → ∀ rest, readEnv blanks (envLine envs ++ '\n' :: rest) =
      pairs blanks (body envs) := by
    intro hvalues rest
    rw [readEnv, instruction_envLine hne hnames hvalues, List.dropPrefix?_append_of_beq _ (by decide)]
    rfl
  constructor
  · rintro ⟨line, hline, h⟩
    obtain rfl : envLine envs = line := by simpa [henv] using hline
    have hvalues := newline_notMem_of_readEnv (h [])
    have hpairs := h []
    rw [hread hvalues] at hpairs
    exact (pairs_body hnames hvalues).1 hpairs
  · intro h
    have hvalues : ∀ kv ∈ envs, '\n' ∉ kv.2 := fun kv hkv => (h kv hkv).1
    exact ⟨_, henv, fun rest => by rw [hread hvalues, (pairs_body hnames hvalues).2 h]⟩

/-- A value with a blank and an empty value are read back. -/
theorem env_readBack_quoted_blank : ∃ line,
    ((DockerFileBuilder.mk "ubuntu".toList (.ofString "out") [] []).env
      [("A".toList, "1 2".toList), ("B".toList, [])]).commands = [line] ∧
      ∀ rest, readEnv .standard (line ++ '\n' :: rest) = some [("A".toList, "1 2".toList), ("B".toList, [])] := by
  refine (env_readBack_iff .standard (.mk "ubuntu".toList (.ofString "out") [] []) (by simp) ?_).2 ?_
  · simp [IsName, Blanks.IsPlain, Blanks.standard]
  · simp [IsReadBack, Blanks.standard, needsEscaping]

/-- A value of two lines is cut at the end of the first. -/
theorem env_newline_cut : ¬ ∃ line,
    ((DockerFileBuilder.mk "ubuntu".toList (.ofString "out") [] []).env [("A".toList, "1\n2".toList)]).commands =
      [line] ∧ ∀ rest, readEnv .standard (line ++ '\n' :: rest) = some [("A".toList, "1\n2".toList)] := by
  rintro ⟨line, hline, h⟩
  obtain rfl : "ENV A=\x271\n2\x27".toList = line := List.singleton_inj.1 hline
  exact absurd (h []) (by decide)

end DockerFileBuilder

end R4R

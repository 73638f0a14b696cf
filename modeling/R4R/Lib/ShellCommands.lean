import R4R.Lib.ShellText

/-!
# Lists of commands of a shell

Commands with `&&` between them run one after the other as long as they succeed.  A text reads as words when it adds
them to the words of a command; texts that read so can be put together with blanks between them (`ReadsWords.append`),
and a list of such texts is read as the list of their words (`andList_join`).  A script is read line by line, and there
is one way only to divide it into lines that are read alike in every environment (`ReadsLines.of_line`).
-/

namespace ShellText

/-- The commands of a text that consists of simple commands with `&&` between them. -/
def andList (ext : Extent) (env : Environment) : Nat → List Char → Option (List (List (List Char)))
  | 0, _ => none
  | n + 1, text =>
    match command ext env text with
    | some (words, []) => some [words]
    | some (words, '&' :: '&' :: rest) => (andList ext env n rest).map (words :: ·)
    | _ => none

/-- Nothing or a blank follows. -/
def EndsWord (rest : List Char) : Prop := rest = [] ∨ ∃ behind, rest = ' ' :: behind

/-- In front of the end or a blank the text adds the words to those of the command. -/
def ReadsWords (ext : Extent) (env : Environment) (text : List Char) (ws : List (List Char)) : Prop :=
  ∀ words rest, EndsWord rest →
    scan ext env 0 { words := words } (text ++ rest) = scan ext env 0 { words := words ++ ws } rest

/-- The condition that all words are plain, computed. -/
def arePlainWords (ws : List (List Char)) : Bool :=
  ws.all fun w => !w.isEmpty && w.head? != some '#' && w.all isPlain

theorem isPlainWord_of_arePlainWords (ws : List (List Char)) (h : arePlainWords ws = true) : ∀ w ∈ ws, IsPlainWord w :=
  fun w hw => isPlainWord_of_all (List.all_eq_true.1 h w hw)

namespace ReadsWords

variable {ext : Extent} {env : Environment}

/-- A plain word stands for itself. -/
theorem plain {w : List Char} (hw : IsPlainWord w) : ReadsWords ext env w [w] := by
  rintro words rest (rfl | ⟨behind, rfl⟩)
  · rw [scan_begin hw]
    rfl
  · rw [scan_begin hw]
    rfl

/-- A quoted text is one word. -/
theorem quoted {w : List Char} (hw : ExpansionFree w) : ReadsWords ext env ('"' :: quoteEscaped w ++ ['"']) [w] := by
  intro words rest hrest
  have hopen : ∀ text, scan ext env 0 { words := words } ('"' :: text) =
      scan ext env 0 { quoting := .double, word := some [], bare := false, words := words } text := fun _ => rfl
  have htext : '"' :: quoteEscaped w ++ ['"'] ++ rest = '"' :: (quoteEscaped w ++ '"' :: rest) := by simp
  rw [htext, hopen, scan_double hw rest rfl rfl]
  rcases hrest with rfl | ⟨behind, rfl⟩ <;> rfl

private theorem scan_blanks {blanks : List Char} (h : blanks.all (· == ' ') = true) (words : List (List Char))
    (text : List Char) :
    scan ext env 0 { words := words } (blanks ++ text) = scan ext env 0 { words := words } text := by
  induction blanks with
  | nil => rfl
  | cons c blanks ih =>
    rw [List.all_cons, Bool.and_eq_true, beq_iff_eq] at h
    rw [h.1]
    exact ih h.2

/-- Two texts with blanks between them. -/
theorem append {text text' : List Char} {ws ws' : List (List Char)} (h : ReadsWords ext env text ws)
    (h' : ReadsWords ext env text' ws') {blanks : List Char} (hblanks : blanks.all (· == ' ') = true) :
    ReadsWords ext env (text ++ ' ' :: (blanks ++ text')) (ws ++ ws') := by
  intro words rest hrest
  have hblank : scan ext env 0 { words := words ++ ws } (' ' :: (blanks ++ (text' ++ rest))) =
      scan ext env 0 { words := words ++ ws } (blanks ++ (text' ++ rest)) := rfl
  have hassoc : text ++ ' ' :: (blanks ++ text') ++ rest = text ++ ' ' :: (blanks ++ (text' ++ rest)) := by simp
  rw [hassoc, h words _ (.inr ⟨_, rfl⟩), hblank, scan_blanks hblanks, h' _ rest hrest, List.append_assoc]

/-- Plain words with a blank behind each and a text behind them. -/
theorem spaced_append {ws ws' : List (List Char)} {text : List Char} (hws : ∀ w ∈ ws, IsPlainWord w)
    (h : ReadsWords ext env text ws') : ReadsWords ext env (spaced ws ++ text) (ws ++ ws') := by
  intro words rest hrest
  rw [List.append_assoc, scan_spaced hws, h _ rest hrest, List.append_assoc]

/-- Plain words, each with the same blanks in front of it, behind a text. -/
theorem flatMap {text : List Char} {ws ws' : List (List Char)} (h : ReadsWords ext env text ws)
    (hws' : ∀ w ∈ ws', IsPlainWord w) {blanks : List Char} (hblanks : blanks.all (· == ' ') = true) :
    ReadsWords ext env (text ++ ws'.flatMap fun w => ' ' :: (blanks ++ w)) (ws ++ ws') := by
  induction ws' generalizing text ws with
  | nil => simpa using h
  | cons w ws' ih =>
    obtain ⟨hw, hws'⟩ := List.forall_mem_cons.1 hws'
    have hfirst := ih (h.append (plain hw) hblanks) hws'
    simpa using hfirst

end ReadsWords

/-- The commands with `&&` between them are read as their words. -/
theorem andList_join (ext : Extent) (env : Environment) {α : Type*} {text : α → List Char}
    {words : α → List (List Char)} {front behind : List Char} (hfront : front = ' ' :: '&' :: '&' :: behind)
    (hbehind : behind.all (· == ' ') = true) {x : α} {xs : List α}
    (h : ∀ y ∈ x :: xs, ReadsWords ext env (text y) (words y)) {fuel : Nat} (hfuel : xs.length < fuel) :
    andList ext env fuel (text x ++ xs.flatMap fun y => front ++ text y) = some ((x :: xs).map words) := by
  have hcommand : ∀ (y : α) (blanks rest : List Char), blanks.all (· == ' ') = true →
      ReadsWords ext env (text y) (words y) → EndsWord rest →
      command ext env (blanks ++ (text y ++ rest)) = scan ext env 0 { words := words y } rest := by
    intro y blanks rest hblanks hy hrest
    rw [command, ReadsWords.scan_blanks hblanks, hy [] rest hrest, List.nil_append]
  have hall : ∀ (xs : List α) (x : α) (blanks : List Char) (fuel : Nat), blanks.all (· == ' ') = true →
      (∀ y ∈ x :: xs, ReadsWords ext env (text y) (words y)) → xs.length < fuel →
        andList ext env fuel (blanks ++ (text x ++ xs.flatMap fun y => front ++ text y)) =
          some ((x :: xs).map words) := by
    intro xs
    induction xs with
    | nil =>
      intro x blanks fuel hblanks h hfuel
      obtain ⟨n, rfl⟩ : ∃ n, fuel = n + 1 := ⟨fuel - 1, by omega⟩
      have hx := hcommand x blanks [] hblanks (h x (by simp)) (.inl rfl)
      rw [andList, List.flatMap_nil, hx]
      rfl
    | cons x' xs ih =>
      intro x blanks fuel hblanks h hfuel
      obtain ⟨n, rfl⟩ : ∃ n, fuel = n + 1 := ⟨fuel - 1, by omega⟩
      obtain ⟨hx, hxs⟩ := List.forall_mem_cons.1 h
      have hsplit : (x' :: xs).flatMap (fun y => front ++ text y) =
          ' ' :: '&' :: '&' :: (behind ++ (text x' ++ xs.flatMap fun y => front ++ text y)) := by
        simp [hfront]
      have hread := hcommand x blanks _ hblanks hx (.inr ⟨_, hsplit⟩)
      have hstop : ∀ rest, scan ext env 0 { words := words x } (' ' :: '&' :: '&' :: rest) =
          some (words x, '&' :: '&' :: rest) := fun _ => rfl
      rw [hsplit, hstop] at hread
      rw [hsplit, andList, hread]
      simp only [ih x' behind n hbehind hxs (by simpa using hfuel), Option.map_some, List.map_cons]
  exact hall xs x [] fuel rfl h hfuel

/-! ### Scripts -/

/-- In every environment and whatever follows it the line is read as the command. -/
def ReadsAs (ext : Extent) (line : List Char) (command : List (List Char)) : Prop :=
  ∀ env rest, ShellText.command ext env (line ++ rest) = some (command, rest)

/-- The script is read as the commands, one line after the other. -/
inductive ReadsLines (ext : Extent) : List Char → List (List (List Char)) → Prop
  | nil : ReadsLines ext [] []
  | cons {line text : List Char} {command : List (List Char)} {commands : List (List (List Char))}
      (hline : ReadsAs ext line command) (htext : ReadsLines ext text commands) :
      ReadsLines ext (line ++ text) (command :: commands)

variable {ext : Extent} {line text : List Char} {command : List (List Char)} {commands : List (List (List Char))}

theorem ReadsAs.ne_nil (h : ReadsAs ext line command) : line ≠ [] := by
  rintro rfl
  have hread : ShellText.command ext .blank ([] ++ ['a']) = some ([['a']], []) := rfl
  rw [h .blank ['a']] at hread
  cases hread

namespace ReadsLines

/-- What is read of a text does not depend on the environment. -/
theorem exists_command (h : ReadsLines ext text commands) (hne : text ≠ []) :
    ∃ command commands' rest, commands = command :: commands' ∧ ReadsLines ext rest commands' ∧
      ∀ env, ShellText.command ext env text = some (command, rest) := by
  cases h with
  | nil => exact absurd rfl hne
  | cons hline htext => exact ⟨_, _, _, rfl, htext, fun env => hline env _⟩

/-- The first line is read as its command. -/
theorem of_line (hline : ReadsAs ext line command) (h : ReadsLines ext (line ++ text) commands) :
    ∃ commands', commands = command :: commands' ∧ ReadsLines ext text commands' := by
  obtain ⟨command', commands', rest, rfl, hrest, hread⟩ := h.exists_command (by simp [hline.ne_nil])
  have heq := (hread .blank).symm.trans (hline .blank text)
  obtain ⟨rfl, rfl⟩ := Prod.mk.inj (Option.some.inj heq)
  exact ⟨commands', rfl, hrest⟩

/-- A line of plain words and a quoted word at the beginning of a script has no expansion. -/
theorem expansionFree {ws : List (List Char)} (hws : ∀ w ∈ ws, IsPlainWord w) {w : List Char}
    (h : ReadsLines ext (spaced ws ++ ('"' :: (quoteEscaped w ++ '"' :: '\n' :: text))) commands) :
    ExpansionFree w := by
  obtain ⟨command, -, rest, -, -, hread⟩ := h.exists_command (by simp)
  have hopen : ∀ env, ShellText.command ext env (spaced ws ++ ('"' :: (quoteEscaped w ++ '"' :: '\n' :: text))) =
      scan ext env 0 { quoting := .double, word := some [], bare := false, words := ws }
        (quoteEscaped w ++ '"' :: '\n' :: text) := fun env => scan_spaced hws _ []
  exact expansionFree_of_words (s := { quoting := .double, word := some [], bare := false, words := ws }) rfl rfl rfl
    fun env => ⟨rest, (hopen env).symm.trans (hread env)⟩

end ReadsLines

end ShellText

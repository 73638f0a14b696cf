import Mathlib.Data.List.DropRight

/-!
# Lines of a text

The lines that `getline` reads from a text, the text of a list of lines, and the removal of white space at its ends.
-/

namespace Lines

/-- `isspace` in the C locale. -/
def isSpace (c : Char) : Bool := [' ', '\t', '\n', '\x0b', '\x0c', '\r'].contains c

theorem isSpace_of_alphanum {c : Char} (h : c.isAlphanum = true) : isSpace c = false := by
  rw [Bool.eq_false_iff]
  intro hs
  simp only [isSpace, List.contains_eq_mem, List.mem_cons, List.not_mem_nil, or_false, decide_eq_true_eq] at hs
  rcases hs with rfl | rfl | rfl | rfl | rfl | rfl <;> exact absurd h (by decide)

theorem isSpace_of_digit {c : Char} (h : c.isDigit = true) : isSpace c = false :=
  isSpace_of_alphanum (by rw [Char.isAlphanum, h, Bool.or_true])

/-- The text without the white space at its ends. -/
def trim (s : List Char) : List Char := (s.dropWhile isSpace).rdropWhile isSpace

/-- The lines that `getline` reads when it has read `current` of the first of them. -/
def linesFrom (current : List Char) : List Char → List (List Char)
  | [] => if current.isEmpty then [] else [current]
  | c :: cs => if c = '\n' then current :: linesFrom [] cs else linesFrom (current ++ [c]) cs

def getLines (text : List Char) : List (List Char) := linesFrom [] text

/-- The text of lines that all end in a newline. -/
def unlines (ls : List (List Char)) : List Char := ls.flatMap (· ++ ['\n'])

private theorem linesFrom_newline {l : List Char} (h : '\n' ∉ l) (rest : List Char) : ∀ current,
    linesFrom current (l ++ '\n' :: rest) = (current ++ l) :: getLines rest := by
  induction l with
  | nil => intro current; simp [linesFrom, getLines]
  | cons c l ih =>
    intro current
    rw [List.mem_cons, not_or] at h
    have hc : ¬ c = '\n' := fun he => h.1 he.symm
    show (if c = '\n' then _ else linesFrom (current ++ [c]) (l ++ '\n' :: rest)) = _
    rw [if_neg hc, ih h.2]
    simp

/-- What is read of a line has no newline. -/
private theorem newline_notMem_of_mem_linesFrom (text : List Char) : ∀ current, '\n' ∉ current →
    ∀ l ∈ linesFrom current text, '\n' ∉ l := by
  induction text with
  | nil =>
    intro current hc l hl
    unfold linesFrom at hl
    split at hl
    · cases hl
    · rwa [List.mem_singleton.1 hl]
  | cons c cs ih =>
    intro current hc l hl
    unfold linesFrom at hl
    split at hl
    · rcases List.mem_cons.1 hl with rfl | hl
      · exact hc
      · exact ih [] (by simp) l hl
    · rename_i hne
      refine ih (current ++ [c]) ?_ l hl
      simp only [List.mem_append, List.mem_singleton, not_or]
      exact ⟨hc, fun he => hne he.symm⟩

theorem newline_notMem_of_mem_getLines {text l : List Char} (h : l ∈ getLines text) : '\n' ∉ l :=
  newline_notMem_of_mem_linesFrom text [] (by simp) l h

private theorem getLines_line {l : List Char} (h : '\n' ∉ l) (rest : List Char) :
    getLines (l ++ '\n' :: rest) = l :: getLines rest := linesFrom_newline h rest []

@[simp] theorem unlines_append (ls ls' : List (List Char)) : unlines (ls ++ ls') = unlines ls ++ unlines ls' :=
  List.flatMap_append

@[simp] theorem unlines_cons (l : List Char) (ls : List (List Char)) : unlines (l :: ls) = l ++ '\n' :: unlines ls := by
  simp [unlines]

@[simp] theorem unlines_nil : unlines [] = [] := rfl

/-- Reading back the lines of a text. -/
theorem getLines_unlines {ls : List (List Char)} (h : ∀ l ∈ ls, '\n' ∉ l) : getLines (unlines ls) = ls := by
  induction ls with
  | nil => rfl
  | cons l ls ih =>
    rw [unlines_cons, getLines_line (h l (by simp)), ih fun l' hl' => h l' (by simp [hl'])]

/-- The newlines of a line that is written are lines of their own for the reader. -/
private theorem length_getLines_line (l rest : List Char) :
    (getLines (l ++ '\n' :: rest)).length = l.count '\n' + 1 + (getLines rest).length := by
  have hfrom : ∀ current, (linesFrom current (l ++ '\n' :: rest)).length =
      l.count '\n' + 1 + (getLines rest).length := by
    induction l with
    | nil =>
      intro current
      simp [linesFrom, getLines]
      omega
    | cons c l ih =>
      intro current
      by_cases hc : c = '\n'
      · subst hc
        have hrest := ih []
        simp only [List.cons_append, linesFrom, if_true, List.length_cons, List.count_cons_self, hrest]
        omega
      · simp only [List.cons_append, linesFrom, if_neg hc, ih, List.count_cons_of_ne hc]
  exact hfrom []

/-- As many lines are read as have been written exactly when none has a newline. -/
theorem length_getLines_unlines_iff (ls : List (List Char)) :
    ls.length ≤ (getLines (unlines ls)).length ∧
      ((getLines (unlines ls)).length = ls.length ↔ ∀ l ∈ ls, '\n' ∉ l) := by
  induction ls with
  | nil => simp [getLines, linesFrom]
  | cons l ls ih =>
    obtain ⟨hle, hiff⟩ := ih
    rw [unlines_cons, length_getLines_line, List.forall_mem_cons, ← hiff, ← List.count_eq_zero, List.length_cons]
    omega

/-- Every text is some lines and a last line without a newline. -/
theorem exists_unlines_append (text : List Char) :
    ∃ ls l, text = unlines ls ++ l ∧ (∀ l' ∈ ls, '\n' ∉ l') ∧ '\n' ∉ l := by
  induction text with
  | nil => exact ⟨[], [], rfl, by simp, by simp⟩
  | cons c text ih =>
    obtain ⟨ls, l, rfl, hls, hl⟩ := ih
    by_cases hc : c = '\n'
    · subst hc
      exact ⟨[] :: ls, l, by simp, by simpa using hls, hl⟩
    · have hcons : ∀ l' : List Char, '\n' ∉ l' → '\n' ∉ c :: l' := fun l' hl' hmem =>
        (List.mem_cons.1 hmem).elim (fun he => hc he.symm) hl'
      cases ls with
      | nil => exact ⟨[], c :: l, rfl, by simp, hcons l hl⟩
      | cons l' ls =>
        refine ⟨(c :: l') :: ls, l, by simp, fun x hx => ?_, hl⟩
        rcases List.mem_cons.1 hx with rfl | hx
        · exact hcons l' (hls l' (List.mem_cons_self ..))
        · exact hls x (List.mem_cons_of_mem _ hx)

/-- A line is added to a text that does not end in a newline. -/
theorem linesFrom_append_newline (rest text : List Char) (hne : text ≠ []) (hlast : text.getLast? ≠ some '\n') :
    ∀ current, linesFrom current (text ++ '\n' :: rest) = linesFrom current text ++ getLines rest := by
  induction text with
  | nil => exact absurd rfl hne
  | cons c text ih =>
    intro current
    cases text with
    | nil =>
      have hc : ¬ c = '\n' := by
        rintro rfl
        exact hlast rfl
      simp [linesFrom, hc, getLines]
    | cons d text =>
      have ih' := ih (by simp) (by simpa using hlast)
      show (if c = '\n' then current :: linesFrom [] (d :: text ++ '\n' :: rest)
        else linesFrom (current ++ [c]) (d :: text ++ '\n' :: rest)) =
        (if c = '\n' then current :: linesFrom [] (d :: text) else linesFrom (current ++ [c]) (d :: text)) ++ _
      split
      · rw [ih', List.cons_append]
      · rw [ih']

theorem getLines_singleton {l : List Char} (hne : l ≠ []) (h : '\n' ∉ l) : getLines l = [l] := by
  have hgen : ∀ current, current ++ l ≠ [] → linesFrom current l = [current ++ l] := by
    clear hne
    induction l with
    | nil =>
      intro current hc
      simp at hc
      simp [linesFrom, hc]
    | cons c l ih =>
      intro current _
      rw [List.mem_cons, not_or] at h
      have hc : ¬ c = '\n' := fun he => h.1 he.symm
      show (if c = '\n' then _ else linesFrom (current ++ [c]) l) = _
      rw [if_neg hc, ih h.2 _ (by simp)]
      simp
  exact hgen [] hne

/-! ### Prefixed lines -/

/-- What follows the text starts a line. -/
def atLineStart (text : List Char) : Bool := text.getLast?.all (· == '\n')

/-- The text with a prefix before the first character of each line. -/
def prefixLines (linePrefix text : List Char) : List Char :=
  text.zipIdx.flatMap fun (c, i) => if atLineStart (text.take i) then linePrefix ++ [c] else [c]

@[simp] theorem atLineStart_nil : atLineStart [] = true := rfl

@[simp] theorem atLineStart_concat (text : List Char) (c : Char) : atLineStart (text ++ [c]) = (c == '\n') := by
  simp [atLineStart]

@[simp] theorem prefixLines_nil (linePrefix : List Char) : prefixLines linePrefix [] = [] := rfl

/-- A character that is added gets the prefix when it starts a line. -/
theorem prefixLines_concat (linePrefix text : List Char) (c : Char) : prefixLines linePrefix (text ++ [c]) =
    prefixLines linePrefix text ++ (if atLineStart text then linePrefix else []) ++ [c] := by
  unfold prefixLines
  rw [List.zipIdx_append, List.flatMap_append, List.append_assoc]
  congr 1
  · refine List.flatMap_congr fun x hx => ?_
    have hlt : x.2 < text.length := by simpa using (List.mem_zipIdx' hx).1
    dsimp only
    rw [List.take_append_of_le_length (Nat.le_of_lt hlt)]
  · cases h : atLineStart text <;> simp [h]

example : prefixLines "> ".toList "a\n\nb".toList = "> a\n> \n> b".toList := by decide

/-! ### Trimming -/

theorem trim_subset (s : List Char) : ∀ c ∈ trim s, c ∈ s := by
  intro c hc
  have h : c ∈ s.dropWhile isSpace := (List.rdropWhile_prefix _ _).subset hc
  exact (List.dropWhile_suffix _).subset h

theorem trim_eq_nil {s : List Char} (h : ∀ c ∈ s, isSpace c = true) : trim s = [] := by
  unfold trim
  rw [List.dropWhile_eq_nil_iff.2 h]
  rfl

theorem trim_eq_self {s : List Char} (hhead : ∀ c ∈ s.head?, isSpace c = false)
    (hlast : ∀ c ∈ s.getLast?, isSpace c = false) : trim s = s := by
  have hdrop : s.dropWhile isSpace = s := by
    cases s with
    | nil => rfl
    | cons c s => exact List.dropWhile_cons_of_neg (by simp [hhead c rfl])
  unfold trim
  rw [hdrop, List.rdropWhile_eq_self_iff]
  intro hne
  rw [hlast _ (List.getLast?_eq_some_getLast hne)]
  simp

theorem trim_blank_append {ws : List Char} (h : ∀ c ∈ ws, isSpace c = true) (s : List Char) :
    trim (ws ++ s) = trim s := by
  unfold trim
  rw [List.dropWhile_append_of_pos h]

theorem rdropWhile_append {p : Char → Bool} {l x : List Char} (h : x.rdropWhile p ≠ []) :
    (l ++ x).rdropWhile p = l ++ x.rdropWhile p := by
  have hne : (x.reverse.dropWhile p).isEmpty = false := by
    unfold List.rdropWhile at h
    simpa using h
  unfold List.rdropWhile
  rw [List.reverse_append, List.dropWhile_append, if_neg (by simp [hne])]
  simp

theorem rdropWhile_ne_nil {p : Char → Bool} {l : List Char} {c : Char} (hc : c ∈ l) (hp : p c = false) :
    l.rdropWhile p ≠ [] := by
  intro h
  have := List.rdropWhile_eq_nil_iff.1 h c hc
  rw [hp] at this
  cases this

/-- Nothing is removed before a character that is no white space. -/
theorem trim_append_of_getLast {w : List Char} (hne : w ≠ []) (hhead : isSpace (w.head hne) = false)
    (hlast : isSpace (w.getLast hne) = false) (x : List Char) : trim (w ++ x) = w ++ x.rdropWhile isSpace := by
  have hdrop : (w ++ x).dropWhile isSpace = w ++ x := by
    obtain ⟨c, w, rfl⟩ := List.exists_cons_of_ne_nil hne
    exact List.dropWhile_cons_of_neg (by simpa using hhead)
  unfold trim
  rw [hdrop]
  by_cases hx : x.rdropWhile isSpace = []
  · have hall : ∀ c ∈ x.reverse, isSpace c = true := by
      intro c hc
      exact List.rdropWhile_eq_nil_iff.1 hx c (List.mem_reverse.1 hc)
    have hw : w.rdropWhile isSpace = w := by
      rw [List.rdropWhile_eq_self_iff]
      intro _
      simp [hlast]
    rw [hx, List.append_nil]
    unfold List.rdropWhile at hw ⊢
    rw [List.reverse_append, List.dropWhile_append_of_pos hall, hw]
  · exact rdropWhile_append hx

/-- A text that starts with a character other than white space keeps its start. -/
theorem trim_append {ws l x : List Char} {c : Char} (hws : ws.all isSpace = true) (hc : isSpace c = false)
    (hx : x.rdropWhile isSpace ≠ []) : trim (ws ++ c :: l ++ x) = c :: l ++ x.rdropWhile isSpace := by
  unfold trim
  have hdrop : (ws ++ c :: l ++ x).dropWhile isSpace = c :: l ++ x := by
    rw [List.append_assoc, List.dropWhile_append, List.dropWhile_eq_nil_iff.2 (List.all_eq_true.1 hws)]
    simp [hc]
  rw [hdrop, rdropWhile_append hx]

/-- Trimmed text has no white space at its end. -/
theorem getLast?_rdropWhile {l : List Char} {c : Char} (h : (l.rdropWhile isSpace).getLast? = some c) :
    isSpace c = false := by
  have hne : l.rdropWhile isSpace ≠ [] := by
    intro he
    rw [he] at h
    cases h
  have hlast := List.rdropWhile_last_not isSpace l hne
  rw [List.getLast?_eq_some_getLast hne] at h
  obtain rfl := Option.some.inj h
  simpa using hlast

/-! ### Words -/

/-- The words between the white space of a text. -/
def words (s : List Char) : List (List Char) := (s.splitOnP isSpace).filter fun w => !w.isEmpty

/-- `operator>>` into a string: behind white space a word has to follow.  The word, and the rest of the text. -/
def readWord (s : List Char) : Option (List Char × List Char) :=
  let rest := s.dropWhile isSpace
  if rest.isEmpty then none else some (rest.takeWhile (!isSpace ·), rest.dropWhile (!isSpace ·))

theorem words_space_append {blanks : List Char} (h : ∀ c ∈ blanks, isSpace c = true) (s : List Char) :
    words (blanks ++ s) = words s := by
  induction blanks with
  | nil => rfl
  | cons c blanks ih =>
    obtain ⟨hc, hblanks⟩ := List.forall_mem_cons.1 h
    rw [← ih hblanks, List.cons_append, words, List.splitOnP_cons_eq_if_modifyHead, if_pos hc]
    rfl

theorem words_append {w : List Char} (hw : ∀ c ∈ w, isSpace c = false) (hne : w ≠ []) {rest : List Char}
    (hrest : ∀ c ∈ rest.head?, isSpace c = true) : words (w ++ rest) = w :: words rest := by
  have hkeep : ∀ ws : List (List Char), ((w :: ws).filter fun w => !w.isEmpty) = w :: ws.filter fun w => !w.isEmpty :=
    fun ws => List.filter_cons_of_pos (by simpa using hne)
  cases rest with
  | nil =>
    rw [List.append_nil, words, List.splitOnP_eq_singleton hw, hkeep]
    rfl
  | cons c rest =>
    have hc : isSpace c = true := hrest c rfl
    rw [words, List.splitOnP_append_cons_of_forall_mem hw c hc, hkeep, words,
      List.splitOnP_cons_eq_if_modifyHead, if_pos hc]
    rfl

/-- The first word that is read, and the words of the rest. -/
theorem words_eq (s : List Char) : words s = match readWord s with
    | none => []
    | some (w, rest) => w :: words rest := by
  obtain ⟨blanks, hsplit, hblanks⟩ : ∃ blanks, s = blanks ++ s.dropWhile isSpace ∧ ∀ c ∈ blanks, isSpace c = true :=
    ⟨s.takeWhile isSpace, List.takeWhile_append_dropWhile.symm, fun c hc => List.mem_takeWhile_imp hc⟩
  have hwords : words s = words (s.dropWhile isSpace) := by
    conv_lhs => rw [hsplit]
    exact words_space_append hblanks _
  rw [hwords, readWord]
  cases hdrop : s.dropWhile isSpace with
  | nil => rfl
  | cons c rest =>
    have hc : isSpace c = false := by
      have hhead := List.head?_dropWhile_not isSpace s
      rw [hdrop] at hhead
      simpa using hhead
    have hne : (c :: rest).takeWhile (!isSpace ·) ≠ [] := by simp [hc]
    have hword : ∀ x ∈ (c :: rest).takeWhile (!isSpace ·), isSpace x = false := fun x hx => by
      simpa using List.mem_takeWhile_imp hx
    have hbehind : ∀ x ∈ ((c :: rest).dropWhile (!isSpace ·)).head?, isSpace x = true := by
      intro x hx
      have hhead := List.head?_dropWhile_not (!isSpace ·) (c :: rest)
      rw [Option.mem_def.1 hx] at hhead
      simpa using hhead
    conv_lhs => rw [← List.takeWhile_append_dropWhile (p := (!isSpace ·)) (l := c :: rest)]
    rw [words_append hword hne hbehind]
    rfl

end Lines

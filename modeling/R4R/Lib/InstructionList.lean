import R4R.Lib.InstructionText

/-!
# Scripts of several instructions

The instructions of a line-oriented script: its lines, each joined with the lines that continue it, without the blank
ones and the comments.  A text is complete when it stays on the lines that it continues itself, so that a newline after
it ends its last line.  A script that writes complete texts one after the other, each ended by newlines, is read back as
these texts (`instructions_script`).
-/

namespace InstructionText

/-- Each newline of the text continues a line, and the text does not end with a backslash. -/
def isComplete : List Char → Bool
  | [] => true
  | '\\' :: '\n' :: cs => isComplete cs
  | ['\\'] => false
  | c :: cs => c != '\n' && isComplete cs

/-- The lines of a script, each with the lines that continue it, from a line begun. -/
def joinedLines : List Char → List Char → List (List Char)
  | line, [] => [line]
  | line, '\\' :: '\n' :: cs => joinedLines line cs
  | line, c :: cs => if c = '\n' then line :: joinedLines [] cs else joinedLines (line ++ [c]) cs

/-- A line that is neither blank nor a comment. -/
def isInstruction (line : List Char) : Bool :=
  match line.dropWhile fun c => c == ' ' || c == '\t' with
  | [] => false
  | c :: _ => c != '#'

/-- The instructions of a script. -/
def instructions (script : List Char) : List (List Char) := (joinedLines [] script).filter isInstruction

/-! ### Complete texts -/

variable {piece : List Char}

theorem isComplete_cons {c : Char} {cs : List Char} (h : c ≠ '\\') :
    isComplete (c :: cs) = (c != '\n' && isComplete cs) := by
  cases cs <;> simp [isComplete, h]

private theorem isComplete_backslash {c : Char} {cs : List Char} (h : c ≠ '\n') :
    isComplete ('\\' :: c :: cs) = isComplete (c :: cs) := by
  rw [isComplete.eq_4]
  · simp
  · intro cs' _ he
    exact h (List.cons.inj he).1
  · intro _ he
    cases he

/-- A text of one line that does not end with a backslash is complete. -/
theorem isComplete_of_line (hnl : '\n' ∉ piece) (hlast : piece.getLast? ≠ some '\\') : isComplete piece = true := by
  induction piece with
  | nil => rfl
  | cons c cs ih =>
    have hc : c ≠ '\n' := fun he => hnl (he ▸ List.mem_cons_self ..)
    have hcs : '\n' ∉ cs := fun hm => hnl (List.mem_cons_of_mem c hm)
    cases cs with
    | nil =>
      have hback : c ≠ '\\' := by
        rintro rfl
        exact hlast rfl
      simp [isComplete_cons hback, hc, isComplete]
    | cons d ds =>
      have htail : isComplete (d :: ds) = true := ih hcs (by simpa using hlast)
      have hd : d ≠ '\n' := fun he => hcs (he ▸ List.mem_cons_self ..)
      by_cases hback : c = '\\'
      · rw [hback, isComplete_backslash hd, htail]
      · simp [isComplete_cons hback, hc, htail]

theorem isComplete_append (h : isComplete piece = true) (text : List Char) :
    isComplete (piece ++ text) = isComplete text := by
  induction piece using isComplete.induct with
  | case1 => rfl
  | case2 cs ih => simpa [isComplete] using ih (by simpa [isComplete] using h)
  | case3 => cases h
  | case4 c cs hcont hback ih =>
    rw [isComplete.eq_4 _ _ hcont hback] at h
    obtain ⟨hc, hcs⟩ := Bool.and_eq_true_iff.1 h
    have hc : c ≠ '\n' := by simpa using hc
    by_cases hslash : c = '\\'
    · cases cs with
      | nil => exact absurd rfl (hback hslash)
      | cons d ds =>
        have hd : d ≠ '\n' := fun he => hcont ds hslash (by rw [he])
        rw [hslash, List.cons_append, List.cons_append, isComplete_backslash hd]
        exact ih hcs
    · rw [List.cons_append, isComplete_cons hslash, ih hcs]
      simp [hc]

theorem isComplete_flatMap {α : Type*} {f : α → List Char} {xs : List α} (h : ∀ x ∈ xs, isComplete (f x) = true) :
    isComplete (xs.flatMap f) = true := by
  induction xs with
  | nil => rfl
  | cons x xs ih =>
    obtain ⟨hx, hxs⟩ := List.forall_mem_cons.1 h
    rw [List.flatMap_cons, isComplete_append hx, ih hxs]

/-- Reading goes through a complete text to the text behind it. -/
theorem instruction_append_of_isComplete (h : isComplete piece = true) (text : List Char) :
    instruction (piece ++ text) = instruction piece ++ instruction text := by
  induction piece using isComplete.induct with
  | case1 => rfl
  | case2 cs ih => simpa [instruction] using ih (by simpa [isComplete] using h)
  | case3 => cases h
  | case4 c cs hcont hback ih =>
    rw [isComplete.eq_4 _ _ hcont hback] at h
    obtain ⟨hc, hcs⟩ := Bool.and_eq_true_iff.1 h
    have hc : c ≠ '\n' := by simpa using hc
    have hcont' : ∀ rest, c = '\\' → cs ++ text = '\n' :: rest → False := by
      intro rest hslash hrest
      cases cs with
      | nil => exact hback hslash rfl
      | cons d ds => exact hcont ds hslash (by rw [(List.cons.inj hrest).1])
    rw [List.cons_append, instruction.eq_4 _ _ hcont' hc, instruction.eq_4 _ _ hcont hc, ih hcs, List.cons_append]

theorem instruction_flatMap {α : Type*} {f : α → List Char} {xs : List α} (h : ∀ x ∈ xs, isComplete (f x) = true) :
    instruction (xs.flatMap f) = xs.flatMap fun x => instruction (f x) := by
  induction xs with
  | nil => rfl
  | cons x xs ih =>
    obtain ⟨hx, hxs⟩ := List.forall_mem_cons.1 h
    rw [List.flatMap_cons, instruction_append_of_isComplete hx, ih hxs, List.flatMap_cons]

theorem instruction_of_line (hnl : '\n' ∉ piece) : instruction piece = piece := by
  have h := instruction_append hnl [] (by simp)
  rwa [List.append_nil, instruction, List.append_nil] at h

/-- Plain words with a blank between any two are read back. -/
theorem words_intercalate {blanks : Blanks} {ws : List (List Char)}
    (h : ∀ w ∈ ws, w ≠ [] ∧ ∀ c ∈ w, blanks.IsPlain c) : words blanks ([' '].intercalate ws) = some ws := by
  have hword : ∀ w, w ≠ [] → (∀ c ∈ w, blanks.IsPlain c) → ∀ text,
      wordsFrom blanks false none (w ++ text) = wordsFrom blanks false (some w) text := by
    intro w hne hw text
    obtain ⟨c, cs, rfl⟩ := List.exists_cons_of_ne_nil hne
    obtain ⟨hc, hcs⟩ := List.forall_mem_cons.1 hw
    rw [List.cons_append, wordsFrom_plain hc, wordsFrom_plain_append hcs]
    rfl
  induction ws with
  | nil => simp [words, wordsFrom]
  | cons w ws ih =>
    obtain ⟨⟨hne, hw⟩, hws⟩ := List.forall_mem_cons.1 h
    cases ws with
    | nil =>
      have hend := hword w hne hw []
      rw [List.append_nil, wordsFrom] at hend
      simpa [words] using hend
    | cons w' ws =>
      have hsplit : [' '].intercalate (w :: w' :: ws) = w ++ ' ' :: [' '].intercalate (w' :: ws) := by
        simp [List.intercalate]
      rw [words, hsplit, hword w hne hw, wordsFrom_blank blanks.space, ih hws]
      rfl

/-- A newline after a complete text ends its last line. -/
theorem joinedLines_append (h : isComplete piece = true) (line text : List Char) :
    joinedLines line (piece ++ '\n' :: text) = (line ++ instruction piece) :: joinedLines [] text := by
  induction piece using isComplete.induct generalizing line with
  | case1 => simp [joinedLines, instruction]
  | case2 cs ih => simpa [joinedLines, instruction] using ih (by simpa [isComplete] using h) line
  | case3 => cases h
  | case4 c cs hcont hback ih =>
    rw [isComplete.eq_4 _ _ hcont hback] at h
    obtain ⟨hc, hcs⟩ := Bool.and_eq_true_iff.1 h
    have hc : c ≠ '\n' := by simpa using hc
    have hcont' : ∀ rest, c = '\\' → cs ++ '\n' :: text = '\n' :: rest → False := by
      intro rest hslash hrest
      cases cs with
      | nil => exact hback hslash rfl
      | cons d ds => exact hcont ds hslash (by rw [(List.cons.inj hrest).1])
    rw [List.cons_append, joinedLines.eq_3 _ _ _ hcont', if_neg hc, ih hcs, instruction.eq_4 _ _ hcont hc,
      List.append_assoc, List.singleton_append]

/-- Complete texts, each followed by an empty line, are the instructions of their script. -/
theorem instructions_script {first : List Char} (hfirst : isComplete first = true) {pieces : List (List Char)}
    (hpieces : ∀ piece ∈ pieces, isComplete piece = true) :
    instructions (first ++ '\n' :: pieces.flatMap fun piece => piece ++ ['\n', '\n']) =
      ((first :: pieces).map instruction).filter isInstruction := by
  have hlines : ∀ pieces : List (List Char), (∀ piece ∈ pieces, isComplete piece = true) →
      (joinedLines [] (pieces.flatMap fun piece => piece ++ ['\n', '\n'])).filter isInstruction =
        (pieces.map instruction).filter isInstruction := by
    intro pieces hpieces
    induction pieces with
    | nil => rfl
    | cons piece pieces ih =>
      obtain ⟨hpiece, hpieces⟩ := List.forall_mem_cons.1 hpieces
      have hempty : joinedLines [] ('\n' :: pieces.flatMap fun piece => piece ++ ['\n', '\n']) =
          [] :: joinedLines [] (pieces.flatMap fun piece => piece ++ ['\n', '\n']) := by
        simp [joinedLines]
      have hsplit : (piece :: pieces).flatMap (fun piece => piece ++ ['\n', '\n']) =
          piece ++ '\n' :: '\n' :: pieces.flatMap fun piece => piece ++ ['\n', '\n'] := by
        simp
      rw [hsplit, joinedLines_append hpiece, hempty, List.nil_append, List.map_cons, List.filter_cons, List.filter_cons,
        ih hpieces, List.filter_cons]
      rfl
  rw [instructions, joinedLines_append hfirst, List.nil_append, List.map_cons, List.filter_cons, List.filter_cons,
    hlines pieces hpieces]

end InstructionText

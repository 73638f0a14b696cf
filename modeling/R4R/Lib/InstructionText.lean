import Mathlib.Data.List.Basic

/-!
# Instructions of line-oriented scripts

An instruction ends at the first newline that no backslash precedes; a backslash before a newline continues it on the
next line.  Its words are separated by blanks outside quotes, single quotes are literal, and a backslash outside quotes
takes the next character as it is.
-/

namespace InstructionText

/-- The characters that separate words: at least the space and the newline, and none that has another meaning. -/
structure Blanks where
  isBlank : Char → Bool
  space : isBlank ' ' = true
  newline : isBlank '\n' = true
  quote : isBlank '\x27' = false
  backslash : isBlank '\\' = false
  equals : isBlank '=' = false

/-- Space, tab and newline. -/
def Blanks.standard : Blanks := ⟨fun c => c == ' ' || c == '\t' || c == '\n', rfl, rfl, rfl, rfl, rfl⟩

/-- The text of the first instruction, without the line breaks that continue it. -/
def instruction : List Char → List Char
  | [] => []
  | '\\' :: '\n' :: cs => instruction cs
  | '\n' :: _ => []
  | c :: cs => c :: instruction cs

/-- The words of an instruction, from a state inside or outside quotes and with the word begun so far; none when a
quote stays open. -/
def wordsFrom (blanks : Blanks) : Bool → Option (List Char) → List Char → Option (List (List Char))
  | false, none, [] => some []
  | false, some word, [] => some [word]
  | true, _, [] => none
  | true, word, c :: cs =>
    if c = '\x27' then wordsFrom blanks false (some (word.getD [])) cs
    else wordsFrom blanks true (some (word.getD [] ++ [c])) cs
  | false, word, '\\' :: c :: cs => wordsFrom blanks false (some (word.getD [] ++ [c])) cs
  | false, word, c :: cs =>
    if c = '\x27' then wordsFrom blanks true (some (word.getD [])) cs
    else if blanks.isBlank c then (wordsFrom blanks false none cs).map (word.toList ++ ·)
    else wordsFrom blanks false (some (word.getD [] ++ [c])) cs

/-- The words of an instruction. -/
def words (blanks : Blanks) (text : List Char) : Option (List (List Char)) := wordsFrom blanks false none text

/-- A character that stands for itself outside quotes. -/
def Blanks.IsPlain (blanks : Blanks) (c : Char) : Prop := blanks.isBlank c = false ∧ c ≠ '\x27' ∧ c ≠ '\\'

variable {blanks : Blanks}

attribute [local simp] instruction wordsFrom

/-! ### Where an instruction ends -/

theorem newline_notMem_instruction (text : List Char) : '\n' ∉ instruction text := by
  induction text using instruction.induct with
  | case1 => simp
  | case2 cs ih => simpa using ih
  | case3 cs => simp
  | case4 c cs hcont hnl ih =>
    rw [instruction.eq_4 c cs hcont hnl]
    simp only [List.mem_cons, not_or]
    exact ⟨fun h => hnl h.symm, ih⟩

/-- A piece of a line belongs to the instruction, unless its last character is a backslash and a newline follows. -/
theorem instruction_append {piece : List Char} (hpiece : '\n' ∉ piece) (text : List Char)
    (h : piece.getLast? = some '\\' → text.head? ≠ some '\n') :
    instruction (piece ++ text) = piece ++ instruction text := by
  induction piece with
  | nil => rfl
  | cons c cs ih =>
    have hcs : '\n' ∉ cs := fun hm => hpiece (List.mem_cons_of_mem _ hm)
    have hc : c ≠ '\n' := fun he => hpiece (he ▸ List.mem_cons_self ..)
    have hcont : ∀ rest, c = '\\' → cs ++ text = '\n' :: rest → False := by
      rintro rest rfl hrest
      cases cs with
      | nil => exact h rfl (by simpa using congrArg List.head? hrest)
      | cons d ds => exact hcs (by simp [(List.cons.inj hrest).1])
    rw [List.cons_append, instruction.eq_4 _ _ hcont hc, List.cons_append, ih hcs fun hlast => ?_]
    cases cs with
    | nil => cases hlast
    | cons d ds => exact h (by simpa using hlast)

theorem instruction_newline (text : List Char) : instruction ('\n' :: text) = [] := by simp

/-! ### Words -/

theorem wordsFrom_plain {c : Char} (hc : blanks.IsPlain c) (word : Option (List Char)) (text : List Char) :
    wordsFrom blanks false word (c :: text) = wordsFrom blanks false (some (word.getD [] ++ [c])) text := by
  rw [wordsFrom.eq_6 _ _ _ _ fun _ _ he => absurd he hc.2.2]
  rw [if_neg hc.2.1, if_neg (by simp [hc.1])]

/-- Plain characters are added to the word. -/
theorem wordsFrom_plain_append {piece : List Char} (h : ∀ c ∈ piece, blanks.IsPlain c) (word text : List Char) :
    wordsFrom blanks false (some word) (piece ++ text) = wordsFrom blanks false (some (word ++ piece)) text := by
  induction piece generalizing word with
  | nil => simp
  | cons c cs ih =>
    obtain ⟨hc, hcs⟩ := List.forall_mem_cons.1 h
    rw [List.cons_append, wordsFrom_plain hc, ih hcs]
    simp

theorem wordsFrom_blank {c : Char} (hc : blanks.isBlank c = true) (word : Option (List Char)) (text : List Char) :
    wordsFrom blanks false word (c :: text) = (words blanks text).map (word.toList ++ ·) := by
  have hback : c ≠ '\\' := fun he => by rw [he, blanks.backslash] at hc; cases hc
  have hquote : c ≠ '\x27' := fun he => by rw [he, blanks.quote] at hc; cases hc
  rw [wordsFrom.eq_6 _ _ _ _ fun _ _ he => absurd he hback, if_neg hquote, if_pos hc, words]

theorem wordsFrom_openQuote (word : Option (List Char)) (text : List Char) :
    wordsFrom blanks false word ('\x27' :: text) = wordsFrom blanks true (some (word.getD [])) text := by
  rw [wordsFrom.eq_6 _ _ _ _ fun _ _ he => absurd he (by decide), if_pos rfl]

theorem wordsFrom_closeQuote (word text : List Char) :
    wordsFrom blanks true (some word) ('\x27' :: text) = wordsFrom blanks false (some word) text := by
  rw [wordsFrom, if_pos rfl]
  rfl

theorem wordsFrom_quoted {c : Char} (hc : c ≠ '\x27') (word text : List Char) :
    wordsFrom blanks true (some word) (c :: text) = wordsFrom blanks true (some (word ++ [c])) text := by
  rw [wordsFrom, if_neg hc]
  rfl

theorem wordsFrom_escaped (c : Char) (word : Option (List Char)) (text : List Char) :
    wordsFrom blanks false word ('\\' :: c :: text) = wordsFrom blanks false (some (word.getD [] ++ [c])) text := by
  cases word <;> rw [wordsFrom]

/-- Words are made of characters of the text. -/
theorem mem_of_mem_wordsFrom {c : Char} {quoted : Bool} {word : Option (List Char)} {text : List Char}
    {ws : List (List Char)} (h : wordsFrom blanks quoted word text = some ws) {w : List Char} (hw : w ∈ ws)
    (hc : c ∈ w) : c ∈ word.getD [] ++ text := by
  -- a character moves from the text to the word begun, or leaves it
  have hmoved : ∀ {d : Char} {word : Option (List Char)} {cs : List Char},
      c ∈ (some (word.getD [] ++ [d])).getD [] ++ cs → c ∈ word.getD [] ++ d :: cs := by simp
  have hskipped : ∀ {d : Char} {word cs : List Char}, c ∈ word ++ cs → c ∈ word ++ d :: cs := by
    intro d word cs hm
    exact List.mem_append.2 ((List.mem_append.1 hm).imp_right (List.mem_cons_of_mem d))
  induction quoted, word, text using wordsFrom.induct blanks generalizing ws w with
  | case1 =>
    obtain rfl : [] = ws := by simpa using h
    cases hw
  | case2 word =>
    obtain rfl : [word] = ws := by simpa using h
    simpa using List.mem_singleton.1 hw ▸ hc
  | case3 word => simp at h
  | case4 word cs ih =>
    rw [wordsFrom, if_pos rfl] at h
    exact hskipped (ih h hw hc)
  | case5 word d cs hd ih =>
    rw [wordsFrom, if_neg hd] at h
    exact hmoved (ih h hw hc)
  | case6 word d cs ih =>
    rw [wordsFrom_escaped] at h
    exact hskipped (hmoved (ih h hw hc))
  | case7 word cs _ ih =>
    rw [wordsFrom_openQuote] at h
    exact hskipped (ih h hw hc)
  | case8 word d cs _ _ hd ih =>
    rw [wordsFrom_blank hd] at h
    obtain ⟨ws', hws, rfl⟩ := Option.map_eq_some_iff.1 h
    rcases List.mem_append.1 hw with hw | hw
    · obtain rfl := Option.mem_toList.1 hw
      exact List.mem_append_left _ hc
    · exact List.mem_append_right _ (List.mem_cons_of_mem _ (ih hws hw hc))
  | case9 word d cs hback hquote hd ih =>
    rw [wordsFrom.eq_6 _ _ _ _ hback, if_neg hquote, if_neg hd] at h
    exact hmoved (ih h hw hc)

end InstructionText

import Mathlib.Data.List.Basic
import Mathlib.Data.List.TakeWhile

/-!
# Words of a shell command

How a shell reads the words of a simple command: it is read character by character, inside or outside quotes, up to the
end of the line or an operator, and redirections are taken out.  Where a parameter expansion or a substitution begins is
decided here; how far a substitution reaches is a parameter, as are the values.  Brace, tilde and pathname expansion,
which follow on the words outside quotes, are left out.
-/

namespace ShellText

/-- How many characters a substitution has behind its opening character, with which the given text starts; none where
the shell finds no end. -/
abbrev Extent := List Char → Option Nat

/-- What parameters and substitutions stand for. -/
structure Environment where
  param : List Char → List Char
  substitution : List Char → List Char

/-- All values are empty. -/
def Environment.blank : Environment := ⟨fun _ => [], fun _ => []⟩

def isBlank (c : Char) : Bool := c == ' ' || c == '\t'

/-- The first character of a name. -/
def isNameStart (c : Char) : Bool := c.isAlpha || c == '_'

def isNameChar (c : Char) : Bool := c.isAlphanum || c == '_'

/-- The parameters of one character. -/
def isSpecialParam (c : Char) : Bool := c.isDigit || ['@', '*', '#', '?', '-', '$', '!'].contains c

def opensSubstitution (c : Char) : Bool := ['{', '(', '['].contains c

/-- Behind a dollar sign the character begins an expansion. -/
def startsExpansion (c : Char) : Bool := isNameStart c || isSpecialParam c || opensSubstitution c

/-- The characters that a backslash quotes between double quotes. -/
def escapedInDouble (c : Char) : Bool := ['$', '\x60', '"', '\\'].contains c

inductive Quoting where
  | plain
  | single
  | double
deriving DecidableEq

/-- What has been read of a command: the words, without those of redirections, and the word begun so far. -/
structure Scan where
  quoting : Quoting := .plain
  word : Option (List Char) := none
  /-- nothing of the word is quoted -/
  bare : Bool := true
  /-- the next word belongs to a redirection -/
  redirected : Bool := false
  words : List (List Char) := []

namespace Scan

def put (s : Scan) (c : Char) : Scan := { s with word := some (s.word.getD [] ++ [c]) }

def putAll (s : Scan) (v : List Char) : Scan := { s with word := some (s.word.getD [] ++ v), bare := false }

/-- A quote opens or closes. -/
def quote (s : Scan) (q : Quoting) : Scan := { s with quoting := q, word := some (s.word.getD []), bare := false }

/-- The word ends. -/
def flush (s : Scan) : Scan :=
  match s.word with
  | none => s
  | some w => { s with
      word := none
      bare := true
      redirected := false
      words := if s.redirected then s.words else s.words ++ [w] }

/-- A redirection begins; a number before it belongs to it. -/
def redirect (s : Scan) : Scan :=
  if s.bare && s.word.any fun w => !w.isEmpty && w.all Char.isDigit then { s with word := none, redirected := true }
  else { s.flush with redirected := true }

/-- A value outside quotes is split at its blanks. -/
def putField (s : Scan) (c : Char) : Scan :=
  if isBlank c || c == '\n' then s.flush else { s.put c with bare := false }

end Scan

inductive Dollar where
  | literal
  | value (v : List Char) (taken : Nat)
  | incomplete

/-- What the shell makes of the text behind a dollar sign. -/
def dollar (ext : Extent) (env : Environment) : List Char → Dollar
  | [] => .literal
  | c :: cs =>
    if isNameStart c then .value (env.param (c :: cs.takeWhile isNameChar)) (1 + (cs.takeWhile isNameChar).length)
    else if isSpecialParam c then .value (env.param [c]) 1
    else if opensSubstitution c then
      match ext (c :: cs) with
      | none => .incomplete
      | some n => .value (env.substitution (c :: cs.take n)) (1 + n)
    else .literal

/-- What the shell does with a character: it goes on behind `skip` further characters, it ends the command, or it finds
no end of something. -/
inductive Step where
  | go (skip : Nat) (s : Scan)
  | stop (rest : List Char)
  | failed

section Steps

variable (ext : Extent) (env : Environment) (s : Scan)

def stepSingle (c : Char) : Step := if c = '\x27' then .go 0 (s.quote .plain) else .go 0 (s.put c)

def stepDouble (c : Char) (cs : List Char) : Step :=
  if c = '"' then .go 0 (s.quote .plain)
  else if c = '\\' then
    match cs with
    | [] => .failed
    | d :: _ => if d = '\n' then .go 1 s else if escapedInDouble d then .go 1 (s.put d) else .go 0 (s.put c)
  else if c = '$' then
    match dollar ext env cs with
    | .literal => .go 0 (s.put c)
    | .value v n => .go n (s.putAll v)
    | .incomplete => .failed
  else if c = '\x60' then
    match ext (c :: cs) with
    | none => .failed
    | some n => .go n (s.putAll (env.substitution (c :: cs.take n)))
  else .go 0 (s.put c)

/-- A dollar sign outside quotes, where it may stand before a quoted text, too. -/
def stepDollar (cs : List Char) : Step :=
  if cs.head? = some '"' then .go 0 s
  else if cs.head? = some '\x27' then
    match ext cs with
    | none => .failed
    | some n => .go (1 + n) (s.putAll (env.substitution (cs.take (1 + n))))
  else
    match dollar ext env cs with
    | .literal => .go 0 (s.put '$')
    | .value v n => .go n (v.foldl Scan.putField s)
    | .incomplete => .failed

/-- A backslash outside quotes. -/
def stepBackslash (cs : List Char) : Step :=
  match cs with
  | [] => .go 0 (s.put '\\')
  | d :: _ => if d = '\n' then .go 1 s else .go 1 { s.put d with bare := false }

/-- A backquote outside quotes. -/
def stepBackquote (cs : List Char) : Step :=
  match ext ('\x60' :: cs) with
  | none => .failed
  | some n => .go n ((env.substitution ('\x60' :: cs.take n)).foldl Scan.putField s)

/-- The beginning of a redirection or of a process substitution. -/
def stepRedirection (cs : List Char) : Step :=
  if cs.head? = some '(' then
    match ext cs with
    | none => .failed
    | some n => .go (1 + n) (s.putAll (env.substitution (cs.take (1 + n))))
  else if cs.head?.any (['<', '>', '&', '|'].contains ·) then .go 1 s.redirect
  else .go 0 s.redirect

def stepPlain (c : Char) (cs : List Char) : Step :=
  if c = '\n' then .stop cs
  else if isBlank c then .go 0 s.flush
  else if c = '#' ∧ s.word = none then .go (cs.takeWhile (· ≠ '\n')).length s
  else if c = '\x27' then .go 0 (s.quote .single)
  else if c = '"' then .go 0 (s.quote .double)
  else if c = '\\' then stepBackslash s cs
  else if c = '$' then stepDollar ext env s cs
  else if c = '\x60' then stepBackquote ext env s cs
  else if c = '<' ∨ c = '>' then stepRedirection ext env s cs
  else if c = '&' ∧ cs.head? = some '>' then .go 1 s.redirect
  else if [';', '|', '&', '(', ')'].contains c then .stop (c :: cs)
  else .go 0 (s.put c)

def step (c : Char) (cs : List Char) : Step :=
  match s.quoting with
  | .plain => stepPlain ext env s c cs
  | .single => stepSingle s c
  | .double => stepDouble ext env s c cs

end Steps

/-- The words of the first command, from a state behind `skip` characters of the text, and the text behind the
command. -/
def scan (ext : Extent) (env : Environment) : Nat → Scan → List Char → Option (List (List Char) × List Char)
  | _, s, [] => if s.quoting = .plain then some (s.flush.words, []) else none
  | skip + 1, s, _ :: cs => scan ext env skip s cs
  | 0, s, c :: cs =>
    match step ext env s c cs with
    | .go skip s' => scan ext env skip s' cs
    | .stop rest => some (s.flush.words, rest)
    | .failed => none

/-- The words of the first command of a text, and the text behind it. -/
def command (ext : Extent) (env : Environment) (text : List Char) : Option (List (List Char) × List Char) :=
  scan ext env 0 {} text

example (ext : Extent) (env : Environment) :
    command ext env "cp \"a \\\"b\" 'c d'\\ e 2>x && y".toList =
      some (["cp".toList, "a \"b".toList, "c d e".toList], "&& y".toList) := rfl

variable {ext : Extent} {env : Environment} {s : Scan}

theorem scan_nil {skip : Nat} {r : List (List Char) × List Char} (h : scan ext env skip s [] = some r) :
    s.quoting = .plain ∧ r = (s.flush.words, []) := by
  cases skip <;>
  · rw [scan] at h
    split at h
    · rename_i hs
      exact ⟨hs, (Option.some.inj h).symm⟩
    · cases h

/-! ### Words outside quotes -/

/-- A character that stands for itself within a word outside quotes. -/
def isPlain (c : Char) : Bool :=
  !(isBlank c || ['\n', '\x27', '"', '\\', '$', '\x60', '<', '>', ';', '|', '&', '(', ')'].contains c)

theorem isPlain_of_isAlphanum {c : Char} (h : c.isAlphanum = true) : isPlain c = true := by
  unfold isPlain isBlank
  simp only [Bool.not_eq_true', Bool.or_eq_false_iff, List.contains_eq_mem, decide_eq_false_iff_not, List.mem_cons,
    List.not_mem_nil, or_false, not_or, beq_eq_false_iff_ne]
  refine ⟨⟨?_, ?_⟩, ?_, ?_, ?_, ?_, ?_, ?_, ?_, ?_, ?_, ?_, ?_, ?_, ?_⟩ <;> rintro rfl <;> exact absurd h (by decide)

theorem step_of_isPlain {c : Char} (hc : isPlain c = true) (hs : s.quoting = .plain)
    (hcomment : c = '#' → s.word ≠ none) (cs : List Char) : step ext env s c cs = .go 0 (s.put c) := by
  simp only [isPlain, Bool.not_eq_true', Bool.or_eq_false_iff, List.contains_eq_mem, decide_eq_false_iff_not,
    List.mem_cons, List.not_mem_nil, or_false, not_or] at hc
  obtain ⟨hblank, hnl, hsingle, hdouble, hback, hdollar, htick, hlt, hgt, hsemi, hbar, hamp, hopen, hclose⟩ := hc
  unfold step
  rw [hs]
  simp only [stepPlain, hblank, hnl, hsingle, hdouble, hback, hdollar, htick, hlt, hgt, hamp, if_false, false_and,
    or_false, Bool.false_eq_true]
  rw [if_neg fun h => hcomment h.1 h.2, if_neg (by simp [hsemi, hbar, hamp, hopen, hclose])]

/-- Plain characters are added to the word. -/
theorem scan_plain {w : List Char} (hw : ∀ c ∈ w, isPlain c = true) (t : List Char) : ∀ {s : Scan} {u : List Char},
    s.quoting = .plain → s.word = some u →
      scan ext env 0 s (w ++ t) = scan ext env 0 { s with word := some (u ++ w) } t := by
  induction w with
  | nil =>
    intro s u _ hu
    rw [List.append_nil, ← hu]
    rfl
  | cons c w ih =>
    intro s u hs hu
    obtain ⟨hc, hw⟩ := List.forall_mem_cons.1 hw
    have hput : s.put c = { s with word := some (u ++ [c]) } := by rw [Scan.put, hu]; rfl
    rw [List.cons_append, scan, step_of_isPlain hc hs (fun _ => by simp [hu])]
    dsimp only
    rw [hput, ih (s := { s with word := some (u ++ [c]) }) hw hs rfl, List.append_assoc]
    rfl

/-- A word of plain characters that begins no comment. -/
def IsPlainWord (w : List Char) : Prop := w ≠ [] ∧ w.head? ≠ some '#' ∧ ∀ c ∈ w, isPlain c = true

theorem isPlainWord_of_all {w : List Char} (h : (!w.isEmpty && w.head? != some '#' && w.all isPlain) = true) :
    IsPlainWord w := by
  simp only [Bool.and_eq_true, Bool.not_eq_true', List.isEmpty_eq_false_iff, bne_iff_ne, List.all_eq_true] at h
  exact ⟨h.1.1, h.1.2, h.2⟩

theorem scan_begin {w : List Char} (hw : IsPlainWord w) (words : List (List Char)) (t : List Char) :
    scan ext env 0 { words := words } (w ++ t) = scan ext env 0 { word := some w, words := words } t := by
  obtain ⟨hne, hcomment, hplain⟩ := hw
  obtain ⟨c, w, rfl⟩ := List.exists_cons_of_ne_nil hne
  obtain ⟨hc, hplain⟩ := List.forall_mem_cons.1 hplain
  have hput : ({ words := words } : Scan).put c = { word := some [c], words := words } := rfl
  rw [List.cons_append, scan, step_of_isPlain hc rfl (fun h => absurd (congrArg some h) hcomment)]
  dsimp only
  rw [hput, scan_plain hplain _ rfl rfl]
  rfl

/-- Plain words, each with a blank behind it. -/
def spaced (ws : List (List Char)) : List Char := ws.flatMap (· ++ [' '])

theorem scan_spaced {ws : List (List Char)} (hws : ∀ w ∈ ws, IsPlainWord w) (t : List Char) :
    ∀ words : List (List Char),
      scan ext env 0 { words := words } (spaced ws ++ t) = scan ext env 0 { words := words ++ ws } t := by
  induction ws with
  | nil => simp [spaced]
  | cons w ws ih =>
    intro words
    obtain ⟨hw, hws⟩ := List.forall_mem_cons.1 hws
    have hcons : spaced (w :: ws) ++ t = w ++ ' ' :: (spaced ws ++ t) := by simp [spaced]
    have hblank : scan ext env 0 { word := some w, words := words } (' ' :: (spaced ws ++ t)) =
        scan ext env 0 { words := words ++ [w] } (spaced ws ++ t) := rfl
    rw [hcons, scan_begin hw, hblank, ih hws, List.append_assoc, List.singleton_append]

/-! ### Between double quotes -/

/-- Nothing between double quotes begins an expansion: there is no backquote and no dollar sign before a character that
begins one. -/
def ExpansionFree : List Char → Prop
  | [] => True
  | c :: cs => c ≠ '\x60' ∧ (c = '$' → ∀ d ∈ cs.head?, startsExpansion d = false) ∧ ExpansionFree cs

/-- The quoting between double quotes that protects the quote and the backslash only. -/
def quoteEscaped (w : List Char) : List Char := w.flatMap fun c => if c = '"' ∨ c = '\\' then ['\\', c] else [c]

theorem dollar_eq_literal_iff {cs : List Char} :
    dollar ext env cs = .literal ↔ ∀ d ∈ cs.head?, startsExpansion d = false := by
  cases cs with
  | nil => simp [dollar]
  | cons d cs =>
    simp only [List.head?_cons, Option.mem_some_iff, forall_eq', startsExpansion, Bool.or_eq_false_iff]
    rw [dollar]
    by_cases hname : isNameStart d = true
    · simp [hname]
    · by_cases hparam : isSpecialParam d = true
      · simp [hname, hparam]
      · by_cases hopen : opensSubstitution d = true
        · cases hext : ext (d :: cs) <;> simp [hname, hparam, hopen]
        · simp [hname, hparam, hopen]

/-- The quoting does not change whether a dollar sign stands for itself. -/
private theorem dollar_quoteEscaped {w : List Char} (t : List Char) :
    (∀ d ∈ (quoteEscaped w ++ '"' :: t).head?, startsExpansion d = false) ↔
      ∀ d ∈ w.head?, startsExpansion d = false := by
  cases w with
  | nil => simp [quoteEscaped, startsExpansion, isNameStart, isSpecialParam, opensSubstitution]
  | cons c w =>
    by_cases hc : c = '"' ∨ c = '\\'
    · rcases hc with rfl | rfl <;>
        simp [quoteEscaped, startsExpansion, isNameStart, isSpecialParam, opensSubstitution]
    · simp [quoteEscaped, hc]

/-- A character that begins no expansion is added to the word. -/
theorem scan_double_cons {c : Char} (hs : s.quoting = .double) (hc : c ≠ '\x60') (w t : List Char)
    (hdollar : c = '$' → ∀ d ∈ w.head?, startsExpansion d = false) :
    scan ext env 0 s (quoteEscaped (c :: w) ++ '"' :: t) = scan ext env 0 (s.put c) (quoteEscaped w ++ '"' :: t) := by
  have hcons : quoteEscaped (c :: w) ++ '"' :: t =
      (if c = '"' ∨ c = '\\' then ['\\', c] else [c]) ++ (quoteEscaped w ++ '"' :: t) := by
    simp [quoteEscaped]
  rw [hcons]
  by_cases hesc : c = '"' ∨ c = '\\'
  · have hback : stepDouble ext env s '\\' (c :: (quoteEscaped w ++ '"' :: t)) = .go 1 (s.put c) := by
      rcases hesc with rfl | rfl <;> rfl
    rw [if_pos hesc]
    show scan ext env 0 s ('\\' :: c :: (quoteEscaped w ++ '"' :: t)) = _
    rw [scan, step, hs]
    simp only [hback]
    rfl
  · rw [if_neg hesc]
    rw [not_or] at hesc
    show scan ext env 0 s (c :: (quoteEscaped w ++ '"' :: t)) = _
    rw [scan, step, hs]
    by_cases hd : c = '$'
    · have hliteral := (@dollar_eq_literal_iff ext env _).2 ((dollar_quoteEscaped t).2 (hdollar hd))
      simp [stepDouble, hd, hliteral]
    · simp [stepDouble, hesc, hd, hc]

/-- A text without expansions is read back from between its quotes. -/
theorem scan_double {w : List Char} (hw : ExpansionFree w) (t : List Char) : ∀ {s : Scan} {u : List Char},
    s.quoting = .double → s.word = some u →
      scan ext env 0 s (quoteEscaped w ++ '"' :: t) =
        scan ext env 0 { s with quoting := .plain, word := some (u ++ w), bare := false } t := by
  induction w with
  | nil =>
    intro s u hs hu
    show scan ext env 0 s ('"' :: t) = _
    rw [scan, step, hs]
    simp [stepDouble, Scan.quote, hu]
  | cons c w ih =>
    intro s u hs hu
    obtain ⟨hc, hdollar, hw⟩ := hw
    have hput : s.put c = { s with word := some (u ++ [c]) } := by rw [Scan.put, hu]; rfl
    rw [scan_double_cons hs hc w t hdollar, hput, ih (s := { s with word := some (u ++ [c]) }) hw hs rfl,
      List.append_assoc]
    rfl

/-! ### What a step can do -/

/-- A value that the environment gives. -/
def Environment.Gives (env : Environment) (v : List Char) : Prop :=
  (∃ name, v = env.param name) ∨ ∃ text, v = env.substitution text

/-- The steps behind which the command goes on. -/
inductive Move (env : Environment) (s : Scan) (c : Char) (cs : List Char) : Nat → Scan → Prop
  | stay (skip : Nat) : Move env s c cs skip s
  | put : Move env s c cs 0 (s.put c)
  | escaped (hc : c = '\\') {d : Char} (hd : d ∈ cs.head?) (bare : Bool) : Move env s c cs 1 { s.put d with bare }
  | quote (q : Quoting) : Move env s c cs 0 (s.quote q)
  | insert {v : List Char} (hv : env.Gives v) (skip : Nat) : Move env s c cs skip (s.putAll v)
  | fields {v : List Char} (hv : env.Gives v) (skip : Nat) : Move env s c cs skip (v.foldl Scan.putField s)
  | flush : Move env s c cs 0 s.flush
  | redirect (skip : Nat) : Move env s c cs skip s.redirect

section Moves

variable {c : Char} {cs v : List Char} {skip n : Nat} {s' : Scan}

private theorem gives_of_dollar (h : dollar ext env cs = .value v n) : env.Gives v := by
  cases cs with
  | nil => cases h
  | cons d cs =>
    rw [dollar] at h
    split at h
    · cases h
      exact .inl ⟨_, rfl⟩
    · split at h
      · cases h
        exact .inl ⟨_, rfl⟩
      · split at h
        · split at h
          · cases h
          · cases h
            exact .inr ⟨_, rfl⟩
        · cases h

private theorem move_of_stepDouble (h : stepDouble ext env s c cs = .go skip s') : Move env s c cs skip s' := by
  unfold stepDouble at h
  split at h
  · cases h
    exact .quote _
  · split at h
    · rename_i hback
      split at h
      · cases h
      · split at h
        · cases h
          exact .stay 1
        · split at h
          · cases h
            exact .escaped hback (by simp) _
          · cases h
            exact .put
    · split at h
      · split at h
        · cases h
          exact .put
        · rename_i hvalue
          cases h
          exact .insert (gives_of_dollar hvalue) _
        · cases h
      · split at h
        · split at h
          · cases h
          · cases h
            exact .insert (.inr ⟨_, rfl⟩) _
        · cases h
          exact .put

private theorem move_of_stepDollar (h : stepDollar ext env s cs = .go skip s') : Move env s '$' cs skip s' := by
  unfold stepDollar at h
  split at h
  · cases h
    exact .stay 0
  · split at h
    · split at h
      · cases h
      · cases h
        exact .insert (.inr ⟨_, rfl⟩) _
    · split at h
      · cases h
        exact .put
      · rename_i hvalue
        cases h
        exact .fields (gives_of_dollar hvalue) _
      · cases h

private theorem move_of_stepBackslash (h : stepBackslash s cs = .go skip s') : Move env s '\\' cs skip s' := by
  unfold stepBackslash at h
  split at h
  · cases h
    exact .put
  · split at h
    · cases h
      exact .stay 1
    · cases h
      exact .escaped rfl (by simp) _

private theorem move_of_stepBackquote (h : stepBackquote ext env s cs = .go skip s') :
    Move env s '\x60' cs skip s' := by
  unfold stepBackquote at h
  split at h
  · cases h
  · cases h
    exact .fields (.inr ⟨_, rfl⟩) _

private theorem move_of_stepRedirection (h : stepRedirection ext env s cs = .go skip s') : Move env s c cs skip s' := by
  unfold stepRedirection at h
  split at h
  · split at h
    · cases h
    · cases h
      exact .insert (.inr ⟨_, rfl⟩) _
  · split at h
    · cases h
      exact .redirect 1
    · cases h
      exact .redirect 0

private theorem move_of_stepPlain (h : stepPlain ext env s c cs = .go skip s') : Move env s c cs skip s' := by
  unfold stepPlain at h
  by_cases hnewline : c = '\n'
  · rw [if_pos hnewline] at h
    cases h
  rw [if_neg hnewline] at h
  by_cases hblank : isBlank c = true
  · rw [if_pos hblank] at h
    cases h
    exact .flush
  rw [if_neg hblank] at h
  by_cases hcomment : c = '#' ∧ s.word = none
  · rw [if_pos hcomment] at h
    cases h
    exact .stay _
  rw [if_neg hcomment] at h
  by_cases hsingle : c = '\x27'
  · rw [if_pos hsingle] at h
    cases h
    exact .quote _
  rw [if_neg hsingle] at h
  by_cases hdouble : c = '"'
  · rw [if_pos hdouble] at h
    cases h
    exact .quote _
  rw [if_neg hdouble] at h
  by_cases hback : c = '\\'
  · rw [if_pos hback] at h
    exact hback ▸ move_of_stepBackslash h
  rw [if_neg hback] at h
  by_cases hdollar : c = '$'
  · rw [if_pos hdollar] at h
    exact hdollar ▸ move_of_stepDollar h
  rw [if_neg hdollar] at h
  by_cases htick : c = '\x60'
  · rw [if_pos htick] at h
    exact htick ▸ move_of_stepBackquote h
  rw [if_neg htick] at h
  by_cases hredirect : c = '<' ∨ c = '>'
  · rw [if_pos hredirect] at h
    exact move_of_stepRedirection h
  rw [if_neg hredirect] at h
  split at h
  · cases h
    exact .redirect 1
  · split at h
    · cases h
    · cases h
      exact .put

private theorem move_of_step (h : step ext env s c cs = .go skip s') : Move env s c cs skip s' := by
  unfold step at h
  split at h
  · exact move_of_stepPlain h
  · unfold stepSingle at h
    split at h
    · cases h
      exact .quote _
    · cases h
      exact .put
  · exact move_of_stepDouble h

end Moves

/-! ### The characters of the words -/

/-- The characters read so far. -/
def Scan.chars (s : Scan) : List Char := s.words.flatten ++ s.word.getD []

private theorem Scan.chars_put (s : Scan) (c : Char) (bare : Bool) :
    ({ s.put c with bare } : Scan).chars = s.chars ++ [c] := by
  simp [chars, put]

private theorem Scan.chars_flush (s : Scan) : s.flush.chars.Sublist s.chars := by
  unfold flush
  cases hw : s.word with
  | none => exact .refl _
  | some w => cases hr : s.redirected <;> simp [chars, hw]

theorem Scan.words_flush (s : Scan) : s.flush.words.flatten.Sublist s.chars :=
  (List.sublist_append_left _ _).trans s.chars_flush

private theorem Scan.chars_redirect (s : Scan) : s.redirect.chars.Sublist s.chars := by
  unfold redirect
  split
  · simp [chars]
  · exact s.chars_flush

theorem Environment.Gives.eq_nil {v : List Char} (h : Environment.blank.Gives v) : v = [] := by
  rcases h with ⟨name, rfl⟩ | ⟨text, rfl⟩ <;> rfl

/-- With empty values a step adds one character of the text, or none. -/
private theorem Move.chars {c : Char} {cs : List Char} {skip : Nat} {s' : Scan} (h : Move .blank s c cs skip s') :
    s'.chars.Sublist s.chars ∨ skip = 0 ∧ s'.chars = s.chars ++ [c] ∨
      (c = '\\' ∧ skip = 1 ∧ ∃ d ∈ cs.head?, s'.chars = s.chars ++ [d]) := by
  cases h with
  | stay => exact .inl (.refl _)
  | put => exact .inr (.inl ⟨rfl, s.chars_put c s.bare⟩)
  | escaped hc hd bare => exact .inr (.inr ⟨hc, rfl, _, hd, s.chars_put _ bare⟩)
  | quote q => exact .inl (by simp [Scan.chars, Scan.quote])
  | insert hv =>
    obtain rfl := hv.eq_nil
    exact .inl (by simp [Scan.chars, Scan.putAll])
  | fields hv =>
    obtain rfl := hv.eq_nil
    exact .inl (.refl _)
  | flush => exact .inl s.chars_flush
  | redirect => exact .inl s.chars_redirect

/-- With empty values, the words have no more of some characters than the text, when what stands behind the text adds
none of them. -/
theorem countP_scan_le {P : Char → Bool} {t : List Char} (hhead : ∀ d ∈ t.head?, P d = false)
    (ht : ∀ skip s r, scan ext .blank skip s t = some r → r.1.flatten.countP P ≤ s.chars.countP P)
    (p : List Char) : ∀ {skip : Nat} {s : Scan} {r : List (List Char) × List Char},
      scan ext .blank skip s (p ++ t) = some r → r.1.flatten.countP P ≤ s.chars.countP P + (p.drop skip).countP P := by
  induction p with
  | nil =>
    intro skip s r h
    simpa using ht skip s r h
  | cons c p ih =>
    intro skip s r h
    cases skip with
    | succ skip => exact ih h
    | zero =>
      rw [List.cons_append, scan] at h
      cases hstep : step ext .blank s c (p ++ t) with
      | failed =>
        rw [hstep] at h
        cases h
      | stop rest =>
        rw [hstep] at h
        obtain rfl := Option.some.inj h
        exact (s.words_flush.countP_le (p := P)).trans (Nat.le_add_right _ _)
      | go skip s' =>
        rw [hstep] at h
        have hrest := ih h
        rw [List.drop_zero, List.countP_cons]
        have hdrop : (p.drop skip).countP P ≤ p.countP P := (List.drop_sublist skip p).countP_le
        rcases (move_of_step hstep).chars with hsub | ⟨rfl, hchars⟩ | ⟨-, rfl, d, hd, hchars⟩
        · have := hsub.countP_le (p := P)
          omega
        · rw [hchars, List.countP_append, List.countP_singleton] at hrest
          rw [List.drop_zero] at hrest
          omega
        · rw [hchars, List.countP_append, List.countP_singleton] at hrest
          cases p with
          | nil =>
            simp only [hhead d hd, List.drop_nil, List.countP_nil, Bool.false_eq_true, if_false] at hrest
            omega
          | cons d' p =>
            obtain rfl : d' = d := by simpa using hd
            rw [List.countP_cons]
            simp only [List.drop_succ_cons, List.drop_zero] at hrest
            omega

/-- The characters that act between double quotes, other than the quote and the backslash. -/
def isActive (c : Char) : Bool := c == '$' || c == '\x60'

private theorem countP_isActive_quoteEscaped (w : List Char) :
    (quoteEscaped w).countP isActive = w.countP isActive := by
  induction w with
  | nil => rfl
  | cons c w ih =>
    have hcons : quoteEscaped (c :: w) = (if c = '"' ∨ c = '\\' then ['\\', c] else [c]) ++ quoteEscaped w := by
      simp [quoteEscaped]
    rw [hcons, List.countP_append, ih, List.countP_cons]
    by_cases hesc : c = '"' ∨ c = '\\'
    · rcases hesc with rfl | rfl <;> simp [isActive]
    · rw [if_neg hesc, List.countP_singleton]
      omega

/-- Between double quotes a text that is not free of expansions loses a dollar sign or a backquote when all values are
empty. -/
private theorem countP_double_lt {w t : List Char} (hw : ¬ ExpansionFree w) (ht : t.countP isActive = 0) :
    ∀ {s : Scan} {r : List (List Char) × List Char}, s.quoting = .double →
      scan ext .blank 0 s (quoteEscaped w ++ '"' :: t) = some r →
        r.1.flatten.countP isActive < s.chars.countP isActive + w.countP isActive := by
  induction w with
  | nil => exact absurd trivial hw
  | cons c w ih =>
    intro s r hs h
    -- an expansion takes its first character and gives nothing
    have htaken : isActive c = true → ∀ skip v, Environment.blank.Gives v →
        scan ext .blank skip (s.putAll v) (quoteEscaped w ++ '"' :: t) = some r →
          r.1.flatten.countP isActive < s.chars.countP isActive + (c :: w).countP isActive := by
      intro hactive skip v hv hrest
      obtain rfl := hv.eq_nil
      have hsame : (s.putAll []).chars = s.chars := by simp [Scan.chars, Scan.putAll]
      rw [← List.append_nil (quoteEscaped w ++ '"' :: t)] at hrest
      have hle := countP_scan_le (P := isActive) (by simp) (fun skip s r hr => ?_) _ hrest
      · have hdrop : ((quoteEscaped w ++ '"' :: t).drop skip).countP isActive ≤ w.countP isActive := by
          refine (List.drop_sublist _ _).countP_le.trans ?_
          rw [List.countP_append, countP_isActive_quoteEscaped, List.countP_cons, ht]
          simp [isActive]
        rw [hsame] at hle
        rw [List.countP_cons, if_pos hactive]
        omega
      · rw [(scan_nil hr).2]
        exact s.words_flush.countP_le
    by_cases htick : c = '\x60'
    · subst htick
      change scan ext .blank 0 s ('\x60' :: (quoteEscaped w ++ '"' :: t)) = _ at h
      rw [scan, step, hs] at h
      cases hext : ext ('\x60' :: (quoteEscaped w ++ '"' :: t)) with
      | none => simp [stepDouble, hext] at h
      | some n =>
        simp only [stepDouble, hext] at h
        exact htaken rfl n _ (.inr ⟨_, rfl⟩) h
    · by_cases hdollar : c = '$' → ∀ d ∈ w.head?, startsExpansion d = false
      · rw [scan_double_cons hs htick w t hdollar] at h
        have hlt := ih (fun hfree => hw ⟨htick, hdollar, hfree⟩) (s := s.put c) hs h
        have hput := s.chars_put c s.bare
        change (s.put c).chars = _ at hput
        rw [hput, List.countP_append, List.countP_singleton] at hlt
        rw [List.countP_cons]
        omega
      · obtain ⟨rfl, hd⟩ := Classical.not_imp.1 hdollar
        rw [← dollar_quoteEscaped t, ← @dollar_eq_literal_iff ext .blank] at hd
        change scan ext .blank 0 s ('$' :: (quoteEscaped w ++ '"' :: t)) = _ at h
        rw [scan, step, hs] at h
        cases hvalue : dollar ext .blank (quoteEscaped w ++ '"' :: t) with
        | literal => exact absurd hvalue hd
        | incomplete => simp [stepDouble, hvalue] at h
        | value v n =>
          simp only [stepDouble, hvalue] at h
          exact htaken rfl n v (gives_of_dollar hvalue) h

/-! ### Words that are finished -/

private theorem Scan.kept_flush (s : Scan) : s.words <+: s.flush.words := by
  unfold flush
  cases s.word with
  | none => exact List.prefix_refl _
  | some w => cases s.redirected <;> simp

private theorem Scan.kept_fields (v : List Char) : ∀ s : Scan, s.words <+: (v.foldl putField s).words := by
  induction v with
  | nil => exact fun s => List.prefix_refl _
  | cons c v ih =>
    intro s
    refine List.IsPrefix.trans ?_ (ih _)
    unfold putField
    split
    · exact s.kept_flush
    · exact List.prefix_refl _

private theorem Scan.kept_redirect (s : Scan) : s.words <+: s.redirect.words := by
  unfold redirect
  split
  · exact List.prefix_refl _
  · exact s.kept_flush

private theorem Move.kept {c : Char} {cs : List Char} {skip : Nat} {s' : Scan} (h : Move env s c cs skip s') :
    s.words <+: s'.words := by
  cases h with
  | stay | put | escaped | quote | insert => exact List.prefix_refl _
  | fields => exact s.kept_fields _
  | flush => exact s.kept_flush
  | redirect => exact s.kept_redirect

/-- A finished word stays what it is. -/
private theorem kept_scan (t : List Char) : ∀ {skip : Nat} {s : Scan} {r : List (List Char) × List Char},
    scan ext env skip s t = some r → s.words <+: r.1 := by
  induction t with
  | nil =>
    intro skip s r h
    rw [(scan_nil h).2]
    exact s.kept_flush
  | cons c t ih =>
    intro skip s r h
    cases skip with
    | succ skip => exact ih h
    | zero =>
      rw [scan] at h
      cases hstep : step ext env s c t with
      | failed =>
        rw [hstep] at h
        cases h
      | stop rest =>
        rw [hstep] at h
        obtain rfl := Option.some.inj h
        exact s.kept_flush
      | go skip s' =>
        rw [hstep] at h
        exact (move_of_step hstep).kept.trans (ih h)

/-! ### Texts that add no quoting characters -/

/-- The characters that quote or expand outside single quotes, but the single quote. -/
def isLoud (c : Char) : Bool := ['"', '\\', '$', '\x60', '('].contains c

/-- The characters that quote or expand. -/
def isQuoting (c : Char) : Bool := isLoud c || c == '\x27'

/-- Double quotes that are open before a text without such characters stay open. -/
private theorem scan_double_eq_none {t : List Char} (ht : ∀ c ∈ t, isLoud c = false) : ∀ {skip : Nat} {s : Scan},
    s.quoting = .double → scan ext env skip s t = none := by
  induction t with
  | nil =>
    intro skip s hs
    cases skip <;> rw [scan, if_neg (by simp [hs])]
  | cons c t ih =>
    obtain ⟨hc, ht⟩ := List.forall_mem_cons.1 ht
    intro skip s hs
    cases skip with
    | succ skip => exact ih ht hs
    | zero =>
      simp only [isLoud, List.contains_eq_mem, decide_eq_false_iff_not, List.mem_cons, List.not_mem_nil, or_false,
        not_or] at hc
      rw [scan, step, hs]
      simp only [stepDouble, hc, if_false]
      exact ih ht hs

/-- A text without such characters adds none of them to the words, and no single quote. -/
private theorem countP_scan_quiet {t : List Char} (ht : ∀ c ∈ t, isLoud c = false) : ∀ (skip : Nat) (s : Scan)
    (r : List (List Char) × List Char), scan ext .blank skip s t = some r →
      r.1.flatten.countP isQuoting ≤ s.chars.countP isQuoting := by
  induction t with
  | nil =>
    intro skip s r h
    rw [(scan_nil h).2]
    exact s.words_flush.countP_le
  | cons c t ih =>
    have hall := ht
    obtain ⟨hc, ht⟩ := List.forall_mem_cons.1 ht
    intro skip s r h
    cases skip with
    | succ skip => exact ih ht skip s r h
    | zero =>
      have hplain : s.quoting ≠ .double := by
        intro hs
        rw [scan_double_eq_none hall hs] at h
        cases h
      rw [scan] at h
      cases hstep : step ext .blank s c t with
      | failed =>
        rw [hstep] at h
        cases h
      | stop rest =>
        rw [hstep] at h
        obtain rfl := Option.some.inj h
        exact s.words_flush.countP_le
      | go skip s' =>
        rw [hstep] at h
        refine (ih ht skip s' r h).trans ?_
        by_cases hquote : c = '\x27'
        · -- outside double quotes it opens or closes
          subst hquote
          obtain ⟨q, hq⟩ : ∃ q, step ext .blank s '\x27' t = .go 0 (s.quote q) := by
            cases hs : s.quoting with
            | double => exact absurd hs hplain
            | single => exact ⟨.plain, by rw [step, hs]; rfl⟩
            | plain => exact ⟨.single, by rw [step, hs]; rfl⟩
          rw [hq] at hstep
          cases hstep
          simp [Scan.chars, Scan.quote]
        · rcases (move_of_step hstep).chars with hsub | ⟨-, hchars⟩ | ⟨rfl, -⟩
          · exact hsub.countP_le
          · rw [hchars, List.countP_append, List.countP_singleton]
            simp [isQuoting, hc, hquote]
          · cases hc

/-! ### Words that are not plain -/

private theorem Scan.words_flush_eq {u : List Char} (hu : s.word = some u) (hredirected : s.redirected = false) :
    s.flush.words = s.words ++ [u] := by
  simp [flush, hu, hredirected]

/-- A redirection ends a word that is no number. -/
private theorem Scan.words_redirect_eq {u : List Char} (hu : s.word = some u) (hredirected : s.redirected = false)
    (hdigit : u.all Char.isDigit = false) : s.redirect.words = s.words ++ [u] := by
  unfold redirect
  rw [if_neg (by simp [hu, hdigit]), ← s.words_flush_eq hu hredirected]

/-- The characters that are not plain, by what they do outside quotes. -/
theorem isPlain_eq_false {c : Char} (hc : isPlain c = false) :
    (c = ' ' ∨ c = '\t') ∨ (c = '\n' ∨ c = ';' ∨ c = '|' ∨ c = '(' ∨ c = ')') ∨ (c = '\x27' ∨ c = '"') ∨ c = '\\' ∨
      c = '$' ∨ c = '\x60' ∨ (c = '<' ∨ c = '>') ∨ c = '&' := by
  simp only [isPlain, isBlank, Bool.not_eq_false', Bool.or_eq_true, List.contains_eq_mem, decide_eq_true_eq,
    List.mem_cons, List.not_mem_nil, or_false, beq_iff_eq] at hc
  tauto

/-- Behind a step at such a character the word so far has ended, or the step has not added the character. -/
inductive Breaks (s : Scan) (u : List Char) (c : Char) (cs : List Char) (skip : Nat) (s' : Scan) : Prop
  | ended (hwords : s'.words = s.words ++ [u])
  | taken (hchars : s'.chars.Sublist s.chars) (hc : isQuoting c = true)
  | process (hchars : s'.chars.Sublist s.chars) (hopen : cs.head? = some '(') (hskip : 0 < skip)
  | escaped (hc : c = '\\') (hskip : skip = 1) {d : Char} (hd : d ∈ cs.head?) (hchars : s'.chars = s.chars ++ [d])

section Breaks

variable {u cs : List Char} {c : Char} {skip : Nat} {s' : Scan}

private theorem breaks_of_stepRedirection (hu : s.word = some u) (hredirected : s.redirected = false)
    (hdigit : u.all Char.isDigit = false) (h : stepRedirection ext .blank s cs = .go skip s') :
    Breaks s u c cs skip s' := by
  unfold stepRedirection at h
  split at h
  · rename_i hopen
    split at h
    · cases h
    · cases h
      exact .process (by simp [Scan.chars, Scan.putAll, Environment.blank]) hopen (by omega)
  · split at h <;>
    · cases h
      exact .ended (s.words_redirect_eq hu hredirected hdigit)

private theorem breaks_of_step (hc : isPlain c = false) (hdollar : c ≠ '$') (hs : s.quoting = .plain)
    (hu : s.word = some u) (hredirected : s.redirected = false) (hdigit : u.all Char.isDigit = false) (hcs : cs ≠ [])
    (h : step ext .blank s c cs = .go skip s') : Breaks s u c cs skip s' := by
  rw [step, hs] at h
  change stepPlain ext .blank s c cs = _ at h
  rcases isPlain_eq_false hc with hblank | hstop | hquote | rfl | hd | rfl | hredirect | rfl
  · rcases hblank with rfl | rfl <;>
    · cases h
      exact .ended (s.words_flush_eq hu hredirected)
  · rcases hstop with rfl | rfl | rfl | rfl | rfl <;> cases h
  · rcases hquote with rfl | rfl <;>
    · cases h
      exact .taken (by simp [Scan.chars, Scan.quote]) rfl
  · obtain ⟨d, ds, rfl⟩ := List.exists_cons_of_ne_nil hcs
    change stepBackslash s (d :: ds) = _ at h
    unfold stepBackslash at h
    dsimp only at h
    split at h
    · cases h
      exact .taken (.refl _) rfl
    · cases h
      exact .escaped rfl rfl rfl (s.chars_put d false)
  · exact absurd hd hdollar
  · change stepBackquote ext .blank s cs = _ at h
    unfold stepBackquote at h
    split at h
    · cases h
    · cases h
      exact .taken (.refl _) rfl
  · rcases hredirect with rfl | rfl <;> exact breaks_of_stepRedirection hu hredirected hdigit h
  · change (if '&' = '&' ∧ cs.head? = some '>' then Step.go 1 s.redirect else .stop ('&' :: cs)) = _ at h
    split at h
    · cases h
      exact .ended (s.words_redirect_eq hu hredirected hdigit)
    · cases h

/-- In front of a quiet text a word that is not plain is read as another one, or it loses a quoting character. -/
theorem scan_of_not_isPlain (hc : isPlain c = false) (hdollar : c ≠ '$') (hs : s.quoting = .plain)
    (hu : s.word = some u) (hredirected : s.redirected = false) (hdigit : u.all Char.isDigit = false) {t : List Char}
    (ht : ∀ x ∈ t, isLoud x = false) (p : List Char) {r : List (List Char) × List Char}
    (h : scan ext .blank 0 s (c :: (p ++ ' ' :: t)) = some r) :
    s.words ++ [u] <+: r.1 ∨ r.1.flatten.countP isQuoting <
      s.chars.countP isQuoting + (c :: p).countP isQuoting := by
  have hquiet : ∀ x ∈ ' ' :: t, isLoud x = false := List.forall_mem_cons.2 ⟨by decide, ht⟩
  rw [scan] at h
  cases hstep : step ext .blank s c (p ++ ' ' :: t) with
  | failed =>
    rw [hstep] at h
    cases h
  | stop rest =>
    rw [hstep] at h
    obtain rfl := Option.some.inj h
    exact .inl (s.words_flush_eq hu hredirected ▸ List.prefix_refl _)
  | go skip s' =>
    rw [hstep] at h
    have hle := countP_scan_le (by simp [isQuoting, isLoud]) (countP_scan_quiet hquiet) p h
    have hdrop : ∀ n, (p.drop n).countP isQuoting ≤ p.countP isQuoting :=
      fun n => (List.drop_sublist n p).countP_le
    cases breaks_of_step hc hdollar hs hu hredirected hdigit (by simp) hstep with
    | ended hwords => exact .inl (hwords ▸ kept_scan _ h)
    | taken hchars hquoting =>
      have hsub := hchars.countP_le (p := isQuoting)
      have hrest := hdrop skip
      rw [List.countP_cons, if_pos hquoting]
      exact .inr (by omega)
    | process hchars hopen hskip =>
      have hsub := hchars.countP_le (p := isQuoting)
      cases p with
      | nil => cases hopen
      | cons d p =>
        obtain rfl : d = '(' := by simpa using hopen
        obtain ⟨n, rfl⟩ := Nat.exists_eq_add_of_le' hskip
        have hrest : (p.drop n).countP isQuoting ≤ p.countP isQuoting :=
          (List.drop_sublist n p).countP_le
        rw [List.drop_succ_cons] at hle
        have hparen : (c :: '(' :: p).countP isQuoting = (p.countP isQuoting + 1) + if isQuoting c then 1 else 0 := by
          rw [List.countP_cons, List.countP_cons, if_pos (by rfl)]
        rw [hparen]
        exact .inr (by omega)
    | escaped hback hskip hd hchars =>
      subst hback hskip
      rw [hchars, List.countP_append, List.countP_singleton] at hle
      rw [List.countP_cons, if_pos (by rfl)]
      cases p with
      | nil =>
        obtain rfl := Option.some.inj hd
        exact .inr (Nat.lt_succ_of_le hle)
      | cons d p =>
        obtain rfl := Option.some.inj hd
        rw [List.drop_succ_cons, List.drop_zero] at hle
        rw [List.countP_cons]
        exact .inr (by omega)

end Breaks

/-! ### Words that are begun -/

/-- Behind the words `ws` stands a word that begins with `u`, finished or not. -/
def Scan.Begins (s : Scan) (ws : List (List Char)) (u : List Char) : Prop :=
  (s.words = ws ∧ s.redirected = false ∧ ∃ v, s.word = some (u ++ v)) ∨ ∃ v, ws ++ [u ++ v] <+: s.words

section Begins

variable {ws : List (List Char)} {u : List Char}

private theorem Scan.Begins.flush (h : s.Begins ws u) : ∃ v, ws ++ [u ++ v] <+: s.flush.words := by
  rcases h with ⟨rfl, hredirected, v, hv⟩ | ⟨v, hv⟩
  · refine ⟨v, ?_⟩
    rw [Scan.flush, hv]
    simp [hredirected]
  · exact ⟨v, hv.trans s.kept_flush⟩

private theorem Scan.Begins.put (h : s.Begins ws u) (c : Char) (bare : Bool) :
    ({ s.put c with bare } : Scan).Begins ws u := by
  rcases h with ⟨hwords, hredirected, v, hv⟩ | h
  · exact .inl ⟨hwords, hredirected, v ++ [c], by simp [Scan.put, hv]⟩
  · exact .inr h

private theorem Scan.Begins.fields (v : List Char) :
    ∀ {s : Scan}, s.Begins ws u → (v.foldl Scan.putField s).Begins ws u := by
  induction v with
  | nil => exact fun h => h
  | cons c v ih =>
    intro s h
    refine ih ?_
    unfold Scan.putField
    split
    · exact .inr h.flush
    · exact h.put c false

/-- A redirection takes only numbers away. -/
private theorem Scan.Begins.redirect (h : s.Begins ws u) (hu : u.all Char.isDigit = false) :
    s.redirect.Begins ws u := by
  rcases h with ⟨hwords, hredirected, v, hv⟩ | ⟨v, hv⟩
  · have hdigit : (u ++ v).all Char.isDigit = false := by rw [List.all_append, hu, Bool.false_and]
    refine .inr ⟨v, ?_⟩
    simp only [s.words_redirect_eq hv hredirected hdigit, hwords, List.prefix_rfl]
  · exact .inr ⟨v, hv.trans s.kept_redirect⟩

private theorem Move.begins {c : Char} {cs : List Char} {skip : Nat} {s' : Scan} (h : Move env s c cs skip s')
    (hs : s.Begins ws u) (hu : u.all Char.isDigit = false) : s'.Begins ws u := by
  cases h with
  | stay => exact hs
  | put => exact hs.put c s.bare
  | escaped hc hd bare => exact hs.put _ bare
  | fields => exact hs.fields _
  | flush => exact .inr hs.flush
  | redirect => exact hs.redirect hu
  | quote q =>
    rcases hs with ⟨hwords, hredirected, v, hv⟩ | hs
    · exact .inl ⟨hwords, hredirected, v, by simp [Scan.quote, hv]⟩
    · exact .inr hs
  | @insert v' hv' =>
    rcases hs with ⟨hwords, hredirected, v, hv⟩ | hs
    · exact .inl ⟨hwords, hredirected, v ++ v', by simp [Scan.putAll, hv]⟩
    · exact .inr hs

/-- A word that is begun keeps its characters, unless it is a number. -/
theorem begins_scan (hu : u.all Char.isDigit = false) (t : List Char) :
    ∀ {skip : Nat} {s : Scan} {r : List (List Char) × List Char}, scan ext env skip s t = some r → s.Begins ws u →
      ∃ v, ws ++ [u ++ v] <+: r.1 := by
  induction t with
  | nil =>
    intro skip s r h hs
    rw [(scan_nil h).2]
    exact hs.flush
  | cons c t ih =>
    intro skip s r h hs
    cases skip with
    | succ skip => exact ih h hs
    | zero =>
      rw [scan] at h
      cases hstep : step ext env s c t with
      | failed =>
        rw [hstep] at h
        cases h
      | stop rest =>
        rw [hstep] at h
        obtain rfl := Option.some.inj h
        exact hs.flush
      | go skip s' =>
        rw [hstep] at h
        exact ih h ((move_of_step hstep).begins hs hu)

end Begins

/-- All values are the given one. -/
def Environment.constant (v : List Char) : Environment := ⟨fun _ => v, fun _ => v⟩

private theorem Environment.Gives.eq_constant {v v' : List Char} (h : (Environment.constant v).Gives v') : v' = v := by
  rcases h with ⟨name, rfl⟩ | ⟨text, rfl⟩ <;> rfl

/-- Between double quotes a text that is read as the same words in every environment has no expansion. -/
theorem expansionFree_of_words {w t : List Char} {words : List (List Char)} : ∀ {s : Scan} {u : List Char},
    s.quoting = .double → s.word = some u → s.redirected = false →
      (∀ env, ∃ rest, scan ext env 0 s (quoteEscaped w ++ '"' :: t) = some (words, rest)) → ExpansionFree w := by
  induction w with
  | nil => exact fun _ _ _ _ => trivial
  | cons c w ih =>
    intro s u hs hu hredirected h
    -- a value would be seen in the words
    have hvalue : ¬ ∀ v, ∃ skip rest,
        scan ext (.constant v) skip (s.putAll v) (quoteEscaped w ++ '"' :: t) = some (words, rest) := by
      intro hall
      have hbegins : ∀ x : Char, x.isDigit = false → ∃ v, s.words ++ [u ++ [x] ++ v] <+: words := by
        intro x hx
        obtain ⟨skip, rest, hscan⟩ := hall [x]
        refine begins_scan (by simp [hx]) _ hscan (.inl ⟨rfl, hredirected, [], ?_⟩)
        simp [Scan.putAll, hu]
      obtain ⟨v, hv⟩ := hbegins 'x' rfl
      obtain ⟨v', hv'⟩ := hbegins 'y' rfl
      have heq := (List.prefix_of_prefix_length_le hv hv' (by simp)).eq_of_length (by simp)
      simp at heq
    by_cases htick : c = '\x60'
    · subst htick
      refine absurd (fun v => ?_) hvalue
      obtain ⟨rest, hscan⟩ := h (.constant v)
      change scan ext (.constant v) 0 s ('\x60' :: (quoteEscaped w ++ '"' :: t)) = _ at hscan
      rw [scan, step, hs] at hscan
      cases hext : ext ('\x60' :: (quoteEscaped w ++ '"' :: t)) with
      | none => simp [stepDouble, hext] at hscan
      | some n =>
        simp only [stepDouble, hext] at hscan
        exact ⟨n, rest, hscan⟩
    · by_cases hdollar : c = '$' → ∀ d ∈ w.head?, startsExpansion d = false
      · refine ⟨htick, hdollar, ih (s := s.put c) hs rfl hredirected fun env => ?_⟩
        rw [← scan_double_cons hs htick w t hdollar]
        exact h env
      · obtain ⟨rfl, hd⟩ := Classical.not_imp.1 hdollar
        rw [← dollar_quoteEscaped t] at hd
        refine absurd (fun v => ?_) hvalue
        obtain ⟨rest, hscan⟩ := h (.constant v)
        rw [← @dollar_eq_literal_iff ext (.constant v)] at hd
        change scan ext (.constant v) 0 s ('$' :: (quoteEscaped w ++ '"' :: t)) = _ at hscan
        rw [scan, step, hs] at hscan
        cases hvalue' : dollar ext (.constant v) (quoteEscaped w ++ '"' :: t) with
        | literal => exact absurd hvalue' hd
        | incomplete => simp [stepDouble, hvalue'] at hscan
        | value v' n =>
          obtain rfl := (gives_of_dollar hvalue').eq_constant
          simp only [stepDouble, hvalue'] at hscan
          exact ⟨n, rest, hscan⟩

/-! ### Lines with one quoted word -/

/-- A line of plain words and one word in double quotes is read as these words, in every environment and whatever
follows it, exactly when the quoted word has no expansion. -/
theorem command_quoted_iff (ext : Extent) {ws : List (List Char)} (hws : ∀ w ∈ ws, IsPlainWord w) (w : List Char) :
    (∀ env rest, command ext env (spaced ws ++ ('"' :: (quoteEscaped w ++ '"' :: '\n' :: rest))) =
      some (ws ++ [w], rest)) ↔ ExpansionFree w := by
  have hopen : ∀ env rest, command ext env (spaced ws ++ ('"' :: (quoteEscaped w ++ '"' :: '\n' :: rest))) =
      scan ext env 0 { quoting := .double, word := some [], bare := false, words := ws }
        (quoteEscaped w ++ '"' :: '\n' :: rest) := by
    intro env rest
    exact scan_spaced hws _ []
  constructor
  · intro h
    by_contra hw
    have hblank := h .blank []
    rw [hopen] at hblank
    have hlt := countP_double_lt hw (by decide) rfl hblank
    simp [Scan.chars] at hlt
  · intro hw env rest
    rw [hopen, scan_double hw _ rfl rfl]
    rfl

end ShellText

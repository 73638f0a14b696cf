import Mathlib.Data.List.Basic

/-!
# String literals of R

An R script is read character by character: code, comments up to the end of the line, and string literals between quotes
of either kind, in which a backslash begins an escape.  The literals of a script are those of its pieces one after the
other (`Reads.append`), and a text without quotes and backslashes that is put into a literal stands there for itself
(`Body.plain`).
-/

namespace RText

/-- Where in a script a character stands; a literal ends at the quote that has opened it. -/
inductive Place where
  | code
  | comment
  | literal (quote : Char)
  | escape (quote : Char)
deriving DecidableEq

/-- What has been read: the place, the text of the literal begun, and the literals so far with their quotes. -/
structure Scan where
  place : Place := .code
  text : List Char := []
  literals : List (Char × List Char) := []

def isQuote (c : Char) : Bool := c == '"' || c == '\x27' || c == '\x60'

/-- The character that an escape of one letter stands for. -/
def unescape : Char → Option Char
  | 'n' => some '\n'
  | 't' => some '\t'
  | 'r' => some '\r'
  | '\\' => some '\\'
  | '"' => some '"'
  | '\x27' => some '\x27'
  | '\x60' => some '\x60'
  | _ => none

/-- One character; other escapes than those of one letter are not read. -/
def step (s : Scan) (c : Char) : Option Scan :=
  match s.place with
  | .code =>
    if isQuote c then some { s with place := .literal c, text := [] }
    else if c = '#' then some { s with place := .comment }
    else some s
  | .comment => if c = '\n' then some { s with place := .code } else some s
  | .literal q =>
    if c = q then some { s with place := .code, text := [], literals := s.literals ++ [(q, s.text)] }
    else if c = '\\' then some { s with place := .escape q }
    else some { s with text := s.text ++ [c] }
  | .escape q => (unescape c).map fun d => { s with place := .literal q, text := s.text ++ [d] }

def scan (s : Scan) (text : List Char) : Option Scan := text.foldlM step s

/-- The literals of a script with their quotes; none when one stays open. -/
def literals (script : List Char) : Option (List (Char × List Char)) :=
  (scan {} script).bind fun s => if s.place = .code ∨ s.place = .comment then some s.literals else none

example : literals "cat('a\\n') # it's\nsystem(\"b \\\"c\\\"\")\n".toList =
    some [('\x27', "a\n".toList), ('"', "b \"c\"".toList)] := by decide

variable {s : Scan}

theorem scan_append (s : Scan) (text text' : List Char) : scan s (text ++ text') = (scan s text).bind (scan · text') :=
  List.foldlM_append

theorem scan_cons (s : Scan) (c : Char) (text : List Char) : scan s (c :: text) = (step s c).bind (scan · text) := rfl

/-- The literals that were read before stay in front. -/
theorem scan_literals (before : List (Char × List Char)) (text : List Char) : ∀ s : Scan,
    scan { s with literals := before ++ s.literals } text =
      (scan s text).map fun s' => { s' with literals := before ++ s'.literals } := by
  induction text with
  | nil => exact fun s => rfl
  | cons c text ih =>
    intro s
    have hstep : step { s with literals := before ++ s.literals } c =
        (step s c).map fun s' => { s' with literals := before ++ s'.literals } := by
      obtain ⟨place, text, literals⟩ := s
      cases place with
      | code =>
        by_cases hq : isQuote c = true
        · simp [step, hq]
        · by_cases hc : c = '#'
          · rw [hc] at hq ⊢
            simp [step, hq]
          · simp [step, hq, hc]
      | comment => by_cases hc : c = '\n' <;> simp [step, hc]
      | literal q =>
        by_cases hq : c = q
        · simp [step, hq]
        · by_cases hc : c = '\\'
          · rw [hc] at hq ⊢
            simp [step, hq]
          · simp [step, hq, hc]
      | escape q => cases hc : unescape c <;> simp [step, hc]
    rw [scan_cons, scan_cons, hstep]
    cases step s c with
    | none => rfl
    | some s' => exact ih s'

/-- The body of a literal, from its opening quote on: what it adds to the text of the literal. -/
def Body (q : Char) (body text : List Char) : Prop :=
  ∀ s : Scan, s.place = .literal q → scan s body = some { s with text := s.text ++ text }

namespace Body

variable {q : Char}

theorem append {body body' text text' : List Char} (h : Body q body text) (h' : Body q body' text') :
    Body q (body ++ body') (text ++ text') := by
  intro s hs
  rw [scan_append, h s hs, Option.bind_some, h' { s with text := s.text ++ text } hs, List.append_assoc]

/-- A text without the quote and backslashes stands for itself. -/
theorem plain {text : List Char} (h : ∀ c ∈ text, c ≠ q ∧ c ≠ '\\') : Body q text text := by
  induction text with
  | nil =>
    intro s _
    simp [scan]
  | cons c text ih =>
    obtain ⟨⟨hq, hback⟩, htext⟩ := List.forall_mem_cons.1 h
    have hone : Body q [c] [c] := by
      intro s hs
      rw [scan_cons, step, hs]
      simp [hq, hback, scan]
    exact hone.append (ih htext)

/-- The condition of `plain`, computed. -/
theorem of_all {text : List Char} (h : (text.all fun c => c != q && c != '\\') = true) : Body q text text :=
  plain fun c hc => by simpa using List.all_eq_true.1 h c hc

theorem escape {c d : Char} (hq : q ≠ '\\') (h : unescape c = some d) : Body q ['\\', c] [d] := by
  rintro ⟨place, text, literals⟩ rfl
  have hback : step ⟨.literal q, text, literals⟩ '\\' = some ⟨.escape q, text, literals⟩ := by simp [step, hq.symm]
  have hletter : step ⟨.escape q, text, literals⟩ c = some ⟨.literal q, text ++ [d], literals⟩ := by simp [step, h]
  rw [scan_cons, hback, Option.bind_some, scan_cons, hletter]
  rfl

theorem flatMap {α : Type*} {body text : α → List Char} {xs : List α} (h : ∀ x ∈ xs, Body q (body x) (text x)) :
    Body q (xs.flatMap body) (xs.flatMap text) := by
  induction xs with
  | nil => exact plain (by simp)
  | cons x xs ih =>
    obtain ⟨hx, hxs⟩ := List.forall_mem_cons.1 h
    exact hx.append (ih hxs)

end Body

/-- A piece of a script that begins and ends in the code, with the literals that are read of it. -/
def Reads (piece : List Char) (found : List (Char × List Char)) : Prop := scan {} piece = some { literals := found }

namespace Reads

theorem append {piece piece' : List Char} {found found' : List (Char × List Char)} (h : Reads piece found)
    (h' : Reads piece' found') : Reads (piece ++ piece') (found ++ found') := by
  have hrest := scan_literals found piece' {}
  rw [List.append_nil, h'] at hrest
  rw [Reads, scan_append, h, Option.bind_some, hrest]
  rfl

theorem literal {q : Char} (hq : isQuote q = true) {body text : List Char} (h : Body q body text) :
    Reads (q :: body ++ [q]) [(q, text)] := by
  have hopen : step {} q = some { place := .literal q } := by simp [step, hq]
  have hclose : step { place := .literal q, text := text } q = some { literals := [(q, text)] } := by simp [step]
  rw [Reads, List.cons_append, scan_cons, hopen, Option.bind_some, scan_append, h _ rfl, Option.bind_some,
    List.nil_append, scan_cons, hclose]
  rfl

theorem literals {script : List Char} {found : List (Char × List Char)} (h : Reads script found) :
    RText.literals script = some found := by
  rw [RText.literals, h]
  rfl

end Reads

/-- The literals between double quotes. -/
def betweenDouble (found : List (Char × List Char)) : List (List Char) :=
  (found.filter fun l => l.1 = '"').map Prod.snd

theorem betweenDouble_append (found found' : List (Char × List Char)) :
    betweenDouble (found ++ found') = betweenDouble found ++ betweenDouble found' := by
  simp [betweenDouble]

/-- A piece of a script with its literals between double quotes. -/
def ReadsDouble (piece : List Char) (texts : List (List Char)) : Prop :=
  ∃ found, Reads piece found ∧ betweenDouble found = texts

namespace ReadsDouble

theorem append {piece piece' : List Char} {texts texts' : List (List Char)} (h : ReadsDouble piece texts)
    (h' : ReadsDouble piece' texts') : ReadsDouble (piece ++ piece') (texts ++ texts') := by
  obtain ⟨found, hreads, rfl⟩ := h
  obtain ⟨found', hreads', rfl⟩ := h'
  exact ⟨_, hreads.append hreads', betweenDouble_append found found'⟩

theorem flatMap {α : Type*} {piece : α → List Char} {texts : α → List (List Char)} {xs : List α}
    (h : ∀ x ∈ xs, ReadsDouble (piece x) (texts x)) : ReadsDouble (xs.flatMap piece) (xs.flatMap texts) := by
  induction xs with
  | nil => exact ⟨[], rfl, rfl⟩
  | cons x xs ih =>
    obtain ⟨hx, hxs⟩ := List.forall_mem_cons.1 h
    exact hx.append (ih hxs)

/-- A literal between double quotes. -/
theorem double {body text : List Char} (h : Body '"' body text) : ReadsDouble ('"' :: body ++ ['"']) [text] :=
  ⟨_, Reads.literal rfl h, rfl⟩

end ReadsDouble

/-! ### Pieces between places -/

/-- The place behind a character, outside of the literals between double quotes. -/
def turn (p : Place) (c : Char) : Option Place :=
  if p = .literal '"' then none else (step { place := p } c).map Scan.place

/-- The place behind a piece. -/
def follow (p : Place) (piece : List Char) : Option Place := piece.foldlM turn p

/-- The piece leads from the one place to the other, and no literal between double quotes is read on the way. -/
def Leads (p p' : Place) (piece : List Char) : Prop :=
  ∀ s : Scan, s.place = p →
    ∃ s', scan s piece = some s' ∧ s'.place = p' ∧ betweenDouble s'.literals = betweenDouble s.literals

private theorem step_of_turn {c : Char} {p' : Place} (h : turn s.place c = some p') :
    ∃ s', step s c = some s' ∧ s'.place = p' ∧ betweenDouble s'.literals = betweenDouble s.literals := by
  obtain ⟨place, text, literals⟩ := s
  have hdouble : place ≠ .literal '"' := by
    rintro rfl
    simp [turn] at h
  rw [turn, if_neg hdouble] at h
  cases place with
  | code =>
    by_cases hq : isQuote c = true
    · simp_all [step]
    · by_cases hc : c = '#' <;> simp_all [step]
  | comment => by_cases hc : c = '\n' <;> simp_all [step]
  | literal q =>
    have hne : q ≠ '"' := fun he => hdouble (he ▸ rfl)
    by_cases hq : c = q
    · simp_all [step, betweenDouble]
    · by_cases hc : c = '\\' <;> simp_all [step]
  | escape q => cases hc : unescape c <;> simp_all [step]

/-- Outside of a literal no text has been begun. -/
theorem text_of_scan (piece : List Char) : ∀ {s s' : Scan}, (s.place = .code ∨ s.place = .comment → s.text = []) →
    scan s piece = some s' → s'.place = .code ∨ s'.place = .comment → s'.text = [] := by
  induction piece with
  | nil =>
    intro s s' hs h
    obtain rfl := Option.some.inj h
    exact hs
  | cons c piece ih =>
    intro s s' hs h
    obtain ⟨t, ht, h⟩ := Option.bind_eq_some_iff.1 h
    refine ih (fun hplace => ?_) h
    obtain ⟨place, text, literals⟩ := s
    cases place with
    | code =>
      have htext : text = [] := hs (.inl rfl)
      unfold step at ht
      grind
    | comment =>
      have htext : text = [] := hs (.inr rfl)
      unfold step at ht
      grind
    | literal q =>
      unfold step at ht
      grind
    | escape q =>
      obtain ⟨d, -, rfl⟩ := Option.map_eq_some_iff.1 ht
      simp at hplace

namespace Leads

variable {p p' p'' : Place}

theorem append {piece piece' : List Char} (h : Leads p p' piece) (h' : Leads p' p'' piece') :
    Leads p p'' (piece ++ piece') := by
  intro s hs
  obtain ⟨s₁, hscan₁, hplace₁, hfound₁⟩ := h s hs
  obtain ⟨s₂, hscan₂, hplace₂, hfound₂⟩ := h' s₁ hplace₁
  refine ⟨s₂, ?_, hplace₂, hfound₂.trans hfound₁⟩
  rw [scan_append, hscan₁, Option.bind_some, hscan₂]

private theorem of_follow {piece : List Char} (h : follow p piece = some p') : Leads p p' piece := by
  induction piece generalizing p with
  | nil => exact fun s hs => ⟨s, rfl, hs.trans (Option.some.inj h), rfl⟩
  | cons c piece ih =>
    intro s hs
    obtain ⟨p₁, hturn, hfollow⟩ := Option.bind_eq_some_iff.1 h
    obtain ⟨s₁, hstep, hplace, hfound⟩ := step_of_turn (hs ▸ hturn)
    obtain ⟨s₂, hscan, hplace₂, hfound₂⟩ := ih hfollow s₁ hplace
    refine ⟨s₂, ?_, hplace₂, hfound₂.trans hfound⟩
    rw [scan_cons, hstep, Option.bind_some, hscan]

/-- A string that a computation follows. -/
theorem of_string {piece : List Char} (h : follow p piece = some p') : Leads p p' (String.ofList piece).toList := by
  rw [String.toList_ofList]
  exact of_follow h

/-- A text within a literal. -/
theorem body {q : Char} {piece text : List Char} (h : Body q piece text) : Leads (.literal q) (.literal q) piece :=
  fun s hs => ⟨_, h s hs, hs, rfl⟩

theorem flatMap {α : Type*} {piece : α → List Char} {xs : List α} (h : ∀ x ∈ xs, Leads p p (piece x)) :
    Leads p p (xs.flatMap piece) := by
  induction xs with
  | nil => exact fun s hs => ⟨s, rfl, hs, rfl⟩
  | cons x xs ih =>
    obtain ⟨hx, hxs⟩ := List.forall_mem_cons.1 h
    exact hx.append (ih hxs)

/-- A piece from code to code. -/
theorem readsDouble {piece : List Char} (h : Leads .code .code piece) : ReadsDouble piece [] := by
  obtain ⟨s', hscan, hplace, hfound⟩ := h {} rfl
  have htext : s'.text = [] := text_of_scan piece (fun _ => rfl) hscan (.inl hplace)
  refine ⟨s'.literals, ?_, hfound⟩
  rw [Reads, hscan, ← hplace, ← htext]

end Leads

end RText

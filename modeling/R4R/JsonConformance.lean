import R4R.JsonParse

/-!
# The JSON parser and RFC 8259

Which texts of the RFC the parser rejects, and which texts it accepts that the RFC does not know.
-/

namespace R4R

open Lines JsonParser

variable {D : Type} {fromDecimal : List Char → Option D}

/-! ### The end of a value -/

private theorem isSpace_of_isExponent {x : List Char} (hx : isExponent x = true) : ∀ c ∈ x, isSpace c = false := by
  cases x with
  | nil => simp
  | cons e x =>
    simp only [isExponent, Bool.and_eq_true, Bool.or_eq_true, beq_iff_eq] at hx
    obtain ⟨he, -, hdigits⟩ := hx
    intro c hc
    rcases List.mem_cons.1 hc with rfl | hc
    · rcases he with rfl | rfl <;> decide
    · split at hdigits
      · rcases List.mem_cons.1 hc with rfl | hc
        · decide
        · exact isSpace_of_digit (List.all_eq_true.1 hdigits c hc)
      · rcases List.mem_cons.1 hc with rfl | hc
        · decide
        · exact isSpace_of_digit (List.all_eq_true.1 hdigits c hc)
      · exact isSpace_of_digit (List.all_eq_true.1 hdigits c hc)

private theorem isSpace_of_isUnsigned {u : List Char} (hu : isUnsigned u = true) : ∀ c ∈ u, isSpace c = false := by
  have hwhole : ∀ l : List Char, ∀ c ∈ l.takeWhile Char.isDigit, isSpace c = false := fun l c hc =>
    isSpace_of_digit (List.mem_takeWhile_imp hc)
  intro c hc
  rw [← List.takeWhile_append_dropWhile (p := Char.isDigit) (l := u), List.mem_append] at hc
  simp only [isUnsigned] at hu
  rcases hc with hc | hc
  · exact hwhole u c hc
  · split at hu
    · rename_i t ht
      rw [Bool.and_eq_true] at hu
      rw [ht] at hc
      rcases List.mem_cons.1 hc with rfl | hc
      · decide
      · rw [← List.takeWhile_append_dropWhile (p := Char.isDigit) (l := t), List.mem_append] at hc
        rcases hc with hc | hc
        · exact hwhole t c hc
        · exact isSpace_of_isExponent hu.2 c hc
    · rw [Bool.and_eq_true] at hu
      exact isSpace_of_isExponent hu.2 c hc

/-- A number has no white space. -/
private theorem isSpace_of_isDecimal {lexeme : List Char} (h : isDecimal lexeme = true) :
    ∀ c ∈ lexeme, isSpace c = false := by
  intro c hc
  rw [signed_eq lexeme, List.mem_append] at hc
  rcases hc with hc | hc
  · split at hc
    · rw [List.mem_singleton.1 hc]
      decide
    · cases hc
  · exact isSpace_of_isUnsigned h c hc

private theorem StringBody.suffix {s : List Char} {marks : List Mark} {text rest : List Char}
    (h : StringBody s marks text rest) : '"' :: rest <:+ text := by
  induction h with
  | close rest => exact List.suffix_refl _
  | plain c hq hb h ih => exact ih.trans (List.suffix_cons ..)
  | escape e c he h ih => exact ih.trans (List.suffix_append ['\\', e] _)
  | unicode a b c d n hn hhigh hlow h ih => exact ih.trans (List.suffix_append ['\\', 'u', a, b, c, d] _)
  | pair a b c d e f g h m n hm hhigh hn hlow h' ih =>
    exact ih.trans (List.suffix_append ['\\', 'u', a, b, c, d, '\\', 'u', e, f, g, h] _)

private theorem Blank.suffix {b : List Mark} {text rest : List Char} (h : Blank b text rest) : rest <:+ text := by
  induction h with
  | nil rest => exact List.suffix_refl _
  | cons c hc h ih => exact ih.trans (List.suffix_cons ..)

/-- What is derived ends in a character that is no white space. -/
private theorem Derives.last {sym : Symbol D} {marks : List Mark} {text rest : List Char}
    (h : Derives fromDecimal sym marks text rest) : ∃ c, isSpace c = false ∧ c :: rest <:+ text := by
  have htail : ∀ {c : Char} {t t' : List Char}, c :: t <:+ t' → t <:+ t' := (List.suffix_cons ..).trans
  induction h with
  | nullLiteral rest => exact ⟨'l', by decide, List.suffix_append ['n', 'u', 'l'] _⟩
  | trueLiteral rest => exact ⟨'e', by decide, List.suffix_append ['t', 'r', 'u'] _⟩
  | falseLiteral rest => exact ⟨'e', by decide, List.suffix_append ['f', 'a', 'l', 's'] _⟩
  | @number v marks lexeme text rest h hend ht =>
    have hspace := isSpace_of_isDecimal h.isDecimal
    obtain ⟨c, t, hlexeme, -⟩ := h.head
    have hne : lexeme ≠ [] := by rw [hlexeme]; simp
    refine ⟨lexeme.getLast hne, hspace _ (List.getLast_mem hne), lexeme.dropLast, ?_⟩
    rw [ht, List.append_cons, List.dropLast_append_getLast hne]
  | string h => exact ⟨'"', by decide, h.suffix.trans (List.suffix_cons ..)⟩
  | array h ih => obtain ⟨c, hc, hsuffix⟩ := ih; exact ⟨c, hc, hsuffix.trans (List.suffix_cons ..)⟩
  | object h ih => obtain ⟨c, hc, hsuffix⟩ := ih; exact ⟨c, hc, hsuffix.trans (List.suffix_cons ..)⟩
  | noElements all hb => exact ⟨']', by decide, hb.suffix⟩
  | lastElement all hb hv hb' ih =>
    obtain ⟨c, -, hsuffix⟩ := ih
    exact ⟨']', by decide, (hb'.suffix.trans (htail hsuffix)).trans hb.suffix⟩
  | element all hb hv hb' h ih ihrest =>
    obtain ⟨c, -, hsuffix⟩ := ih
    obtain ⟨d, hd, hrest⟩ := ihrest
    exact ⟨d, hd, ((hrest.trans (htail hb'.suffix)).trans (htail hsuffix)).trans hb.suffix⟩
  | member c hc hclose hk hb hb' hv ih =>
    obtain ⟨d, hd, hsuffix⟩ := ih
    refine ⟨d, hd, (hsuffix.trans hb'.suffix).trans ?_⟩
    exact ((htail hb.suffix).trans (htail hk.suffix)).trans (List.suffix_cons ..)
  | noMembers all hb => exact ⟨'\x7d', by decide, hb.suffix⟩
  | lastMember all hb hm hb' ih =>
    obtain ⟨c, -, hsuffix⟩ := ih
    exact ⟨'\x7d', by decide, (hb'.suffix.trans (htail hsuffix)).trans hb.suffix⟩
  | moreMembers all hb hm hb' h ih ihrest =>
    obtain ⟨c, -, hsuffix⟩ := ih
    obtain ⟨d, hd, hrest⟩ := ihrest
    exact ⟨d, hd, ((hrest.trans (htail hb'.suffix)).trans (htail hsuffix)).trans hb.suffix⟩

/-! ### The texts of the grammar that are read -/

/-- The text ends in white space. -/
def EndsInSpace (text : List Char) : Prop := ∃ c ∈ text.getLast?, isSpace c = true

/-- A text of the grammar is read unless it ends in white space or has an escape of a code unit. -/
private theorem parse_iff_of_isText {marks : List Mark} {text : List Char} {v : JsonValue D}
    (h : IsText fromDecimal marks text v) :
    parse fromDecimal text = .ok v ↔ ¬ EndsInSpace text ∧ Mark.unicodeEscape ∉ marks := by
  rw [parse_eq_ok_iff]
  constructor
  · rintro ⟨b, m, text₁, hb, hv, hm⟩
    obtain ⟨-, rfl⟩ := h.unique ⟨b, m, [], text₁, [], hb, hv, .nil _, rfl⟩
    obtain ⟨c, hc, hsuffix⟩ := hv.last
    refine ⟨?_, by simpa using ⟨unicodeEscape_notMem_of_blank hb, hm⟩⟩
    obtain ⟨x, rfl⟩ := hsuffix.trans hb.suffix
    rintro ⟨d, hd, hspace⟩
    obtain rfl : c = d := by simpa using hd
    rw [hc] at hspace
    cases hspace
  · rintro ⟨hend, hmarks⟩
    obtain ⟨b, m, b', text₁, text₂, hb, hv, hb', rfl⟩ := h
    simp only [List.mem_append, not_or] at hmarks
    rcases List.eq_nil_or_concat text₂ with rfl | ⟨x, d, rfl⟩
    · exact ⟨b, m, text₁, hb, hv, hmarks.1.2⟩
    · -- white space behind the value would end the text
      obtain ⟨c, -, hsuffix⟩ := hv.last
      obtain ⟨y, rfl⟩ := ((List.suffix_cons ..).trans hsuffix).trans hb.suffix
      refine absurd ⟨d, ?_, hb'.rest_of_nil d (by simp)⟩ hend
      simp

/-! ### Completeness -/

/-- Of the texts of RFC 8259 whose numbers are integers that fit an `int` and whose objects have no key twice, the
parser reads those that do not end in white space and have no escapes of code units. -/
theorem parse_rfc8259_iff {marks : List Mark} {text : List Char} {v : JsonValue D}
    (h : IsText fromDecimal marks text v) (hrfc : ∀ m ∈ marks, m = .unicodeEscape) :
    parse fromDecimal text = .ok v ↔ ¬ EndsInSpace text ∧ marks = [] := by
  rw [parse_iff_of_isText h]
  refine and_congr_right fun _ => ⟨fun hmarks => ?_, fun hmarks => by simp [hmarks]⟩
  refine List.eq_nil_iff_forall_not_mem.2 fun m hm => hmarks ?_
  rwa [hrfc m hm] at hm

theorem parse_rfc8259_spaced :
    parse (fun _ : List Char => (none : Option Nat)) [' ', '[', ' ', ']'] = .ok (.array []) ↔
      ¬ EndsInSpace [' ', '[', ' ', ']'] ∧ ([] : List Mark) = [] :=
  parse_rfc8259_iff ⟨[], [], [], _, _, .cons ' ' (by decide) (.nil _),
    .array (.noElements true (.cons ' ' (by decide) (.nil _))), .nil _, rfl⟩ (by simp)

/-- A text of the RFC that ends in a newline, and one with an escape of a code unit. -/
theorem parse_rfc8259_fails :
    (IsText (fun _ : List Char => (none : Option Nat)) [] ['\x7b', '\x7d', '\n'] (.object []) ∧
      parse (fun _ : List Char => (none : Option Nat)) ['\x7b', '\x7d', '\n'] =
        .error (.thrown ⟨"Unexpected reminder after JSON value parsed: \n".toList, 2⟩)) ∧
    IsText (fun _ : List Char => (none : Option Nat)) [.unicodeEscape] ['"', '\\', 'u', '0', '0', '4', '1', '"']
      (.string ['A']) ∧
    parse (fun _ : List Char => (none : Option Nat)) ['"', '\\', 'u', '0', '0', '4', '1', '"'] =
      .error (.thrown ⟨"Invalid escape character".toList, 2⟩) := by
  refine ⟨⟨⟨[], [], [], _, ['\n'], .nil _, .object (.noMembers true (.nil _)), .cons '\n' (by decide) (.nil _), rfl⟩,
    rfl⟩, ⟨[], [.unicodeEscape], [], _, [], .nil _, ?_, .nil _, rfl⟩, rfl⟩
  exact .string (.unicode '0' '0' '4' '1' 65 (by decide) (by decide) (by decide) (.close _))

/-! ### Soundness -/

/-- Exactly the accepted texts with a mark outside of `allowed` break the grammar whose marks these are: with
`Mark.lexical` its structure (the quote in front of a key, no comma before a closing bracket), with `Mark.rfc8259` all
of RFC 8259.  What is not accepted raises a `JsonParseError`. -/
theorem parse_structural_iff (fromDecimal : List Char → Option D) (allowed : Mark → Prop) (input : List Char) :
    ((∀ v, parse fromDecimal input = .ok v →
        ∃ marks, IsText fromDecimal marks input v ∧ ∀ m ∈ marks, allowed m) ∧
      ∀ failure, parse fromDecimal input = .error failure → ∃ e, failure = .thrown e) ↔
    ¬ ∃ marks v, IsText fromDecimal marks input v ∧ ¬ EndsInSpace input ∧ Mark.unicodeEscape ∉ marks ∧
      ∃ m ∈ marks, ¬ allowed m := by
  constructor
  · rintro ⟨hsound, -⟩ ⟨marks, v, htext, hend, hunicode, m, hm, hwrong⟩
    obtain ⟨marks', htext', hallowed⟩ := hsound v ((parse_iff_of_isText htext).2 ⟨hend, hunicode⟩)
    obtain ⟨-, rfl⟩ := htext.unique htext'
    exact hwrong (hallowed m hm)
  · intro hno
    refine ⟨fun v hv => ?_, fun failure hf => ?_⟩
    · obtain ⟨b, m, text, hb, hm, -⟩ := parse_eq_ok_iff.1 hv
      have htext : IsText fromDecimal (b ++ m ++ []) input v := ⟨b, m, [], text, [], hb, hm, .nil _, rfl⟩
      obtain ⟨hend, hunicode⟩ := (parse_iff_of_isText htext).1 hv
      refine ⟨_, htext, fun m hm => ?_⟩
      by_contra hwrong
      exact hno ⟨_, v, htext, hend, hunicode, m, hm, hwrong⟩
    · rcases parse_total fromDecimal input with ⟨v, hv⟩ | ⟨e, he⟩
      · rw [hv] at hf
        cases hf
      · exact ⟨e, Except.error.inj (hf.symm.trans he)⟩

/-- A comma before a closing bracket and a key without its first quote are accepted. -/
theorem parse_structural_fails :
    (parse (fun _ : List Char => (none : Option Nat)) ['[', '1', ',', ']'] = .ok (.array [.int 1]) ∧
      ¬ ∃ marks v, IsText (fun _ : List Char => (none : Option Nat)) marks ['[', '1', ',', ']'] v ∧
        ∀ m ∈ marks, m.lexical) ∧
    parse (fun _ : List Char => (none : Option Nat)) ['\x7b', 'x', 'a', '"', ':', '1', '\x7d'] =
      .ok (.object [(['a'], .int 1)]) ∧
    ¬ ∃ marks v, IsText (fun _ : List Char => (none : Option Nat)) marks ['\x7b', 'x', 'a', '"', ':', '1', '\x7d'] v ∧
      ∀ m ∈ marks, m.lexical := by
  have hone : ∀ rest, Ends rest →
      Derives (fun _ : List Char => (none : Option Nat)) (.value (.int 1)) [] ('1' :: rest) rest := fun rest hend =>
    .number (.int 1 ⟨false, ['1'], rfl, by simp, List.all_eq_true.1 (by decide), by decide⟩) hend rfl
  refine ⟨⟨rfl, ?_⟩, rfl, ?_⟩
  · rintro ⟨marks, v, htext, hlexical⟩
    have harray := Derives.array (.element true (.nil _) (hone _ (ends_cons (by decide))) (.nil _)
      (.noElements false (.nil (']' :: []))))
    obtain ⟨-, rfl⟩ := htext.unique ⟨[], _, [], _, _, .nil _, harray, .nil _, rfl⟩
    exact absurd (hlexical .trailingComma (by decide)) (by unfold Mark.lexical Mark.rfc8259; decide)
  · rintro ⟨marks, v, htext, hlexical⟩
    have hkey : StringBody ['a'] _ ['a', '"', ':', '1', '\x7d'] _ := .plain 'a' (by decide) (by decide) (.close _)
    have hobject := Derives.object (.lastMember true (.nil _)
      (.member 'x' (by decide) (by decide) hkey (.nil _) (.nil _) (hone _ (ends_cons (by decide))))
      (.nil ('\x7d' :: [])))
    obtain ⟨-, rfl⟩ := htext.unique ⟨[], _, [], _, _, .nil _, hobject, .nil _, rfl⟩
    exact absurd (hlexical .unopenedKey (by decide)) (by unfold Mark.lexical Mark.rfc8259; decide)

end R4R

import R4R.JsonUnambiguous

/-!
# The JSON parser and the grammar

`JsonParser` reads exactly the texts with white space at most in front of the value whose strings have no escapes of
code units (`parse_eq_ok_iff`), and it always ends (`parse_total`).
-/

namespace R4R

open Lines JsonParser

/-! ### Lengths -/

private theorem Blank.length_le {b : List Mark} {text rest : List Char} (h : Blank b text rest) :
    rest.length ≤ text.length := by
  induction h with
  | nil => exact Nat.le_refl _
  | cons c hc h ih => rw [List.length_cons]; omega

private theorem StringBody.length_lt {s : List Char} {marks : List Mark} {text rest : List Char}
    (h : StringBody s marks text rest) : rest.length < text.length := by
  induction h with
  | close rest => simp
  | plain c hq hb h ih => rw [List.length_cons]; omega
  | escape e c he h ih => simp only [List.length_cons]; omega
  | unicode a b c d n hn hhigh hlow h ih => simp only [List.length_cons]; omega
  | pair a b c d e f g h m n hm hhigh hn hlow h ih => simp only [List.length_cons]; omega

section

variable {D : Type} {fromDecimal : List Char → Option D}

private theorem Derives.length_lt {sym : Symbol D} {marks : List Mark} {text rest : List Char}
    (h : Derives fromDecimal sym marks text rest) : rest.length < text.length := by
  induction h with
  | nullLiteral => simp only [List.length_cons]; omega
  | trueLiteral => simp only [List.length_cons]; omega
  | falseLiteral => simp only [List.length_cons]; omega
  | number h _ ht =>
    obtain ⟨c, t, rfl, -⟩ := h.head
    rw [ht, List.length_append, List.length_cons]
    omega
  | string h => have := h.length_lt; rw [List.length_cons]; omega
  | array h ih => rw [List.length_cons]; omega
  | object h ih => rw [List.length_cons]; omega
  | noElements all hb => have := hb.length_le; rw [List.length_cons] at this; omega
  | lastElement all hb hv hb' ih =>
    have := hb.length_le
    have := hb'.length_le
    rw [List.length_cons] at this
    omega
  | element all hb hv hb' h ih ihrest =>
    have := hb.length_le
    have := hb'.length_le
    rw [List.length_cons] at this
    omega
  | member c hc hclose hk hb hb' hv ih =>
    have := hk.length_lt
    have := hb.length_le
    have := hb'.length_le
    simp only [List.length_cons] at *
    omega
  | noMembers all hb => have := hb.length_le; rw [List.length_cons] at this; omega
  | lastMember all hb hm hb' ih =>
    have := hb.length_le
    have := hb'.length_le
    rw [List.length_cons] at this
    omega
  | moreMembers all hb hm hb' h ih ihrest =>
    have := hb.length_le
    have := hb'.length_le
    rw [List.length_cons] at this
    omega

end

namespace JsonParser

/-! ### White space and strings -/

private theorem skipWhitespace_of_noSpace {rest : List Char} (h : NoSpace rest) : skipWhitespace rest = rest := by
  cases rest with
  | nil => rfl
  | cons c rest => simp [skipWhitespace, h c rfl]

private theorem skipWhitespace_of_blank {b : List Mark} {text rest : List Char} (h : Blank b text rest)
    (hrest : NoSpace rest) :
    skipWhitespace text = rest := by
  induction h with
  | nil => exact skipWhitespace_of_noSpace hrest
  | cons c hc h ih => rw [← ih hrest, skipWhitespace, List.dropWhile_cons_of_pos hc, skipWhitespace]

/-- The loop passes over white space and stops behind it. -/
private theorem skipWhitespace_spec (text : List Char) :
    NoSpace (skipWhitespace text) ∧ ∃ b, Blank b text (skipWhitespace text) := by
  induction text with
  | nil => exact ⟨noSpace_nil, [], .nil _⟩
  | cons c text ih =>
    by_cases hc : isSpace c = true
    · obtain ⟨hspace, b, hb⟩ := ih
      have hskip : skipWhitespace (c :: text) = skipWhitespace text := by
        rw [skipWhitespace, List.dropWhile_cons_of_pos hc, skipWhitespace]
      rw [hskip]
      exact ⟨hspace, _, .cons c hc hb⟩
    · have hskip := skipWhitespace_of_noSpace (noSpace_cons (Bool.eq_false_iff.2 hc) text)
      rw [hskip]
      exact ⟨noSpace_cons (Bool.eq_false_iff.2 hc) text, [], .nil _⟩

private theorem unescape_eq : unescape = JsonText.shortEscape := rfl

variable {size : Nat}

private theorem stringLoop_quote (str rest : List Char) : stringLoop size str ('"' :: rest) = .ok (str, rest) := by
  cases rest <;> rfl

private theorem stringLoop_plain {c : Char} (hq : c ≠ '"') (hb : c ≠ '\\') (str rest : List Char) :
    stringLoop size str (c :: rest) = stringLoop size (str ++ [c]) rest := by
  cases rest <;> simp [stringLoop, hq, hb]

private theorem stringLoop_escape {e d : Char} (he : unescape e = some d) (str rest : List Char) :
    stringLoop size str ('\\' :: e :: rest) = stringLoop size (str ++ [d]) rest := by
  simp [stringLoop, he]

private theorem stringLoop_invalid {e : Char} (he : unescape e = none) (str rest : List Char) :
    stringLoop size str ('\\' :: e :: rest) = throwAt size "Invalid escape character".toList (e :: rest) := by
  simp [stringLoop, he]

/-- A string without escapes of code units is read. -/
private theorem stringLoop_of_body {s : List Char} {marks : List Mark} {text rest : List Char}
    (h : StringBody s marks text rest) :
    Mark.unicodeEscape ∉ marks → ∀ str, stringLoop size str text = .ok (str ++ s, rest) := by
  induction h with
  | close rest => intro _ str; rw [stringLoop_quote, List.append_nil]
  | plain c hq hb h ih =>
    intro hmarks str
    rw [List.mem_append, not_or] at hmarks
    rw [stringLoop_plain hq hb, ih hmarks.2, List.append_assoc]
    rfl
  | escape e c he h ih =>
    intro hmarks str
    rw [← unescape_eq] at he
    rw [stringLoop_escape he, ih hmarks, List.append_assoc]
    rfl
  | unicode => exact fun hmarks => absurd (List.mem_cons_self ..) hmarks
  | pair => exact fun hmarks => absurd (List.mem_cons_self ..) hmarks

/-- Only strings without escapes of code units are read. -/
private theorem body_of_stringLoop {text : List Char} : ∀ {str s rest : List Char},
    stringLoop size str text = .ok (s, rest) →
    ∃ t marks, s = str ++ t ∧ StringBody t marks text rest ∧ Mark.unicodeEscape ∉ marks := by
  induction hn : text.length using Nat.strong_induction_on generalizing text with
  | _ n ih =>
    subst hn
    intro str s rest h
    cases text with
    | nil => cases h
    | cons c text =>
      by_cases hq : c = '"'
      · subst hq
        rw [stringLoop_quote] at h
        obtain ⟨rfl, rfl⟩ := Prod.mk.inj (Except.ok.inj h)
        exact ⟨[], [], by simp, .close _, by simp⟩
      · by_cases hb : c = '\\'
        · subst hb
          cases text with
          | nil => cases h
          | cons e text =>
            cases he : unescape e with
            | none => rw [stringLoop_invalid he] at h; cases h
            | some d =>
              rw [stringLoop_escape he] at h
              obtain ⟨t, marks, rfl, hbody, hmarks⟩ := ih text.length (by simp only [List.length_cons]; omega) rfl h
              exact ⟨d :: t, marks, by simp, .escape e d (unescape_eq ▸ he) hbody, hmarks⟩
        · rw [stringLoop_plain hq hb] at h
          obtain ⟨t, marks, rfl, hbody, hmarks⟩ := ih text.length (by simp) rfl h
          refine ⟨c :: t, _, by simp, .plain c hq hb hbody, ?_⟩
          rw [List.mem_append, not_or]
          exact ⟨by split <;> simp, hmarks⟩

/-! ### One turn of the parser -/

section

variable {D : Type} {fromDecimal : List Char → Option D} {fuel : Nat} {arr arr' : JsonArray D}
  {obj obj' : JsonObject D} {v : JsonValue D} {key text text₁ text₂ text₃ text₄ text₅ rest : List Char}

private theorem cons_of_current {c : Char} (h : current rest = c) (hc : c ≠ '\x00') : rest = c :: next rest 1 := by
  cases rest with
  | nil => exact absurd h.symm hc
  | cons d rest => rw [show d = c from h]; rfl

private theorem parseArray_close (h : skipWhitespace text = ']' :: rest) :
    parseArray fromDecimal size (fuel + 1) arr text = .ok (arr, rest) := by
  simp only [parseArray, h]
  rfl

/-- An array goes on behind an element, whether a comma follows it or the closing bracket. -/
private theorem parseArray_element (h : skipWhitespace text = text₁) (hclose : current text₁ ≠ ']')
    (hv : parseValue fromDecimal size fuel text₁ = .ok (v, text₂)) {c : Char} (hc : c = ',' ∨ c = ']')
    (hnext : skipWhitespace text₂ = c :: text₃) :
    parseArray fromDecimal size (fuel + 1) arr text =
      parseArray fromDecimal size fuel (arr ++ [v]) (if c = ',' then text₃ else c :: text₃) := by
  simp only [parseArray, h, if_neg hclose, hv, Except.ok_bind, hnext]
  rcases hc with rfl | rfl <;> rfl

private theorem parseArray_eq_ok (h : parseArray fromDecimal size (fuel + 1) arr text = .ok (arr', rest)) :
    skipWhitespace text = ']' :: rest ∧ arr' = arr ∨
    ∃ v text₂ c text₃, current (skipWhitespace text) ≠ ']' ∧
      parseValue fromDecimal size fuel (skipWhitespace text) = .ok (v, text₂) ∧ (c = ',' ∨ c = ']') ∧
      skipWhitespace text₂ = c :: text₃ ∧
      parseArray fromDecimal size fuel (arr ++ [v]) (if c = ',' then text₃ else c :: text₃) = .ok (arr', rest) := by
  simp only [parseArray] at h
  by_cases hclose : current (skipWhitespace text) = ']'
  · rw [if_pos hclose] at h
    obtain ⟨rfl, rfl⟩ := Prod.mk.inj (Except.ok.inj h)
    exact .inl ⟨cons_of_current hclose (by decide), rfl⟩
  · rw [if_neg hclose] at h
    obtain ⟨⟨v, text₂⟩, hv, h⟩ := Except.bind_eq_ok h
    refine .inr ⟨v, text₂, ?_⟩
    simp only at h
    cases htext : skipWhitespace text₂ with
    | nil => rw [htext] at h; cases h
    | cons c t =>
      rw [htext] at h
      refine ⟨c, t, hclose, hv, ?_⟩
      by_cases hcomma : c = ','
      · exact ⟨.inl hcomma, rfl, by simpa [current, next, hcomma] using h⟩
      · by_cases hbracket : c = ']'
        · exact ⟨.inr hbracket, rfl, by simpa [current, hcomma, hbracket] using h⟩
        · simp [current, hcomma, hbracket, throwAt] at h

private theorem parseObject_close (h : skipWhitespace text = '\x7d' :: rest) :
    parseObject fromDecimal size (fuel + 1) obj text = .ok (obj, rest) := by
  simp only [parseObject, h]
  rfl

/-- An object goes on behind a member, whether a comma follows it or the closing bracket. -/
private theorem parseObject_member (h : skipWhitespace text = text₁) (hclose : current text₁ ≠ '\x7d')
    (hk : parseString size text₁ = .ok (key, text₂)) (hcolon : skipWhitespace text₂ = ':' :: text₃)
    (hv : parseValue fromDecimal size fuel text₃ = .ok (v, text₄)) {c : Char} (hc : c = ',' ∨ c = '\x7d')
    (hnext : skipWhitespace text₄ = c :: text₅) :
    parseObject fromDecimal size (fuel + 1) obj text =
      parseObject fromDecimal size fuel (obj.emplace key v) (if c = ',' then text₅ else c :: text₅) := by
  have hcolon' : ¬ (current (':' :: text₃) ≠ ':') := not_not_intro rfl
  have hv' : parseValue fromDecimal size fuel (next (':' :: text₃) 1) = .ok (v, text₄) := hv
  simp only [parseObject, h, if_neg hclose, hk, Except.ok_bind, hcolon, if_neg hcolon', hv', hnext]
  rcases hc with rfl | rfl <;> rfl

private theorem parseObject_eq_ok (h : parseObject fromDecimal size (fuel + 1) obj text = .ok (obj', rest)) :
    skipWhitespace text = '\x7d' :: rest ∧ obj' = obj ∨
    ∃ key text₂ text₃ v text₄ c text₅, current (skipWhitespace text) ≠ '\x7d' ∧
      parseString size (skipWhitespace text) = .ok (key, text₂) ∧ skipWhitespace text₂ = ':' :: text₃ ∧
      parseValue fromDecimal size fuel text₃ = .ok (v, text₄) ∧ (c = ',' ∨ c = '\x7d') ∧
      skipWhitespace text₄ = c :: text₅ ∧
      parseObject fromDecimal size fuel (obj.emplace key v) (if c = ',' then text₅ else c :: text₅) =
        .ok (obj', rest) := by
  simp only [parseObject] at h
  by_cases hclose : current (skipWhitespace text) = '\x7d'
  · rw [if_pos hclose] at h
    obtain ⟨rfl, rfl⟩ := Prod.mk.inj (Except.ok.inj h)
    exact .inl ⟨cons_of_current hclose (by decide), rfl⟩
  · rw [if_neg hclose] at h
    obtain ⟨⟨key, text₂⟩, hk, h⟩ := Except.bind_eq_ok h
    simp only at h
    by_cases hcolon : current (skipWhitespace text₂) ≠ ':'
    · rw [if_pos hcolon] at h
      cases h
    · rw [if_neg hcolon] at h
      rw [not_not] at hcolon
      obtain ⟨⟨v, text₄⟩, hv, h⟩ := Except.bind_eq_ok h
      refine .inr ⟨key, text₂, next (skipWhitespace text₂) 1, v, text₄, ?_⟩
      have htext₃ := cons_of_current hcolon (by decide)
      simp only at h
      cases htext : skipWhitespace text₄ with
      | nil => rw [htext] at h; cases h
      | cons c t =>
        rw [htext] at h
        refine ⟨c, t, hclose, hk, htext₃, hv, ?_⟩
        by_cases hcomma : c = ','
        · exact ⟨.inl hcomma, rfl, by simpa [current, next, hcomma] using h⟩
        · by_cases hbracket : c = '\x7d'
          · exact ⟨.inr hbracket, rfl, by simpa [current, hcomma, hbracket] using h⟩
          · simp [current, hcomma, hbracket, throwAt] at h

end

/-! ### What the grammar derives is read -/

section

variable {D : Type} {fromDecimal : List Char → Option D}

private theorem parseValue_skip (fuel : Nat) (text : List Char) :
    parseValue fromDecimal size fuel (skipWhitespace text) = parseValue fromDecimal size fuel text := by
  cases fuel with
  | zero => rfl
  | succ fuel =>
    simp only [parseValue, skipWhitespace_of_noSpace (skipWhitespace_spec text).1]

private theorem parseValue_array {fuel : Nat} {arr : JsonArray D} {text rest : List Char}
    (h : parseArray fromDecimal size fuel [] text = .ok (arr, rest)) :
    parseValue fromDecimal size (fuel + 1) ('[' :: text) = .ok (.array arr, rest) := by
  have h' : parseArray fromDecimal size fuel [] (next ('[' :: text) 1) = .ok (arr, rest) := h
  rw [parseValue]
  simp only [show skipWhitespace ('[' :: text) = '[' :: text from rfl, h']
  rfl

private theorem parseValue_object {fuel : Nat} {obj : JsonObject D} {text rest : List Char}
    (h : parseObject fromDecimal size fuel [] text = .ok (obj, rest)) :
    parseValue fromDecimal size (fuel + 1) ('\x7b' :: text) = .ok (.object obj, rest) := by
  have h' : parseObject fromDecimal size fuel [] (next ('\x7b' :: text) 1) = .ok (obj, rest) := h
  rw [parseValue]
  simp only [show skipWhitespace ('\x7b' :: text) = '\x7b' :: text from rfl, h']
  rfl

private theorem parseValue_string {fuel : Nat} {s text rest : List Char} (h : stringLoop size [] text = .ok (s, rest)) :
    parseValue fromDecimal size (fuel + 1) ('"' :: text) = .ok (.string s, rest) := by
  have h' : parseString size ('"' :: text) = .ok (s, rest) := h
  rw [parseValue]
  simp only [show skipWhitespace ('"' :: text) = '"' :: text from rfl, h']
  rfl

private theorem parseValue_number {c : Char} (hc : c = '-' ∨ c.isDigit = true) (fuel : Nat) (text : List Char) :
    parseValue fromDecimal size (fuel + 1) (c :: text) = parseNumber fromDecimal size (c :: text) := by
  have hother : ∀ d : Char, d ≠ '-' → d.isDigit = false → c ≠ d := by
    rintro d hsign hdigit rfl
    rcases hc with hc | hc
    · exact hsign hc
    · rw [hdigit] at hc
      cases hc
  have hspace : isSpace c = false := by
    rcases hc with rfl | hc
    · decide
    · exact isSpace_of_digit hc
  rw [parseValue]
  simp only [skipWhitespace_of_noSpace (noSpace_cons hspace text), show current (c :: text) = c from rfl]
  rw [if_neg (hother _ (by decide) (by decide)), if_neg (hother _ (by decide) (by decide)),
    if_neg (hother _ (by decide) (by decide)), if_neg, if_neg (hother _ (by decide) (by decide)), if_pos hc]
  rintro (h | h) <;> exact hother _ (by decide) (by decide) h

private theorem parseNumber_of_token {v : JsonValue D} {marks : List Mark} {lexeme rest : List Char}
    (h : NumberToken fromDecimal v marks lexeme) (hend : Ends rest) :
    parseNumber fromDecimal size (lexeme ++ rest) = .ok (v, rest) := by
  simp only [parseNumber, scanNumber_append h.isDecimal hend, numberValue_of_token h]

/-- The parser reads the text as the derivation says. -/
def Reads (fromDecimal : List Char → Option D) (size : Nat) (text rest : List Char) : Symbol D → Prop
  | .value v => ∀ fuel, 2 * text.length < fuel → parseValue fromDecimal size fuel text = .ok (v, rest)
  | .elements _ vs => ∀ fuel arr, 2 * text.length + 1 < fuel →
    parseArray fromDecimal size fuel arr text = .ok (arr ++ vs, rest)
  | .member key v => ∃ text₁ text₂, parseString size text = .ok (key, text₁) ∧ skipWhitespace text₁ = ':' :: text₂ ∧
    text₂.length ≤ text.length ∧
    ∀ fuel, 2 * text₂.length < fuel → parseValue fromDecimal size fuel text₂ = .ok (v, rest)
  | .members _ ms => ∀ fuel obj, 2 * text.length + 1 < fuel →
    parseObject fromDecimal size fuel obj text =
      .ok (ms.foldl (fun obj m => JsonObject.emplace obj m.1 m.2) obj, rest)

/-- What is derived without escapes of code units is read. -/
private theorem reads_of_derives {sym : Symbol D} {marks : List Mark} {text rest : List Char}
    (h : Derives fromDecimal sym marks text rest) :
    Mark.unicodeEscape ∉ marks → Reads fromDecimal size text rest sym := by
  have hsucc : ∀ {n fuel : Nat}, n < fuel → ∃ k, fuel = k + 1 := fun {n fuel} h => ⟨fuel - 1, by omega⟩
  induction h with
  | nullLiteral rest =>
    intro _ fuel hfuel
    obtain ⟨fuel, rfl⟩ := hsucc hfuel
    rfl
  | trueLiteral rest =>
    intro _ fuel hfuel
    obtain ⟨fuel, rfl⟩ := hsucc hfuel
    rfl
  | falseLiteral rest =>
    intro _ fuel hfuel
    obtain ⟨fuel, rfl⟩ := hsucc hfuel
    rfl
  | @number v marks lexeme text rest h hend ht =>
    intro _ fuel hfuel
    obtain ⟨fuel, rfl⟩ := hsucc hfuel
    have hread : parseNumber fromDecimal size (lexeme ++ rest) = .ok (v, rest) := parseNumber_of_token h hend
    obtain ⟨c, t, rfl, hc⟩ := h.head
    rw [ht, List.cons_append, parseValue_number hc, ← List.cons_append, hread]
  | string h =>
    intro hmarks fuel hfuel
    obtain ⟨fuel, rfl⟩ := hsucc hfuel
    exact parseValue_string (stringLoop_of_body h hmarks [])
  | array h ih =>
    intro hmarks fuel hfuel
    obtain ⟨fuel, rfl⟩ := hsucc hfuel
    exact parseValue_array (ih hmarks fuel [] (by rw [List.length_cons] at hfuel; omega))
  | object h ih =>
    intro hmarks fuel hfuel
    obtain ⟨fuel, rfl⟩ := hsucc hfuel
    rw [List.mem_append, not_or] at hmarks
    exact parseValue_object (ih hmarks.2 fuel [] (by rw [List.length_cons] at hfuel; omega))
  | noElements all hb =>
    intro _ fuel arr hfuel
    obtain ⟨fuel, rfl⟩ := hsucc hfuel
    rw [parseArray_close (skipWhitespace_of_blank hb (noSpace_cons (by decide) _)), List.append_nil]
  | @lastElement all v b m b' text text₁ text₂ rest hb hv hb' ih =>
    intro hmarks fuel arr hfuel
    obtain ⟨fuel, rfl⟩ := hsucc hfuel
    simp only [List.mem_append, not_or] at hmarks
    have hlen := hb.length_le
    obtain ⟨k, rfl⟩ := hsucc (show 2 * text.length < fuel by omega)
    have hclose : current text₁ ≠ ']' := by
      obtain ⟨c, t, rfl, hc⟩ := hv.value_head
      exact (startsValue_spec hc).2.1
    rw [parseArray_element (skipWhitespace_of_blank hb hv.value_noSpace) hclose (ih hmarks.1.2 _ (by omega)) (.inr rfl)
      (skipWhitespace_of_blank hb' (noSpace_cons (by decide) _)), if_neg (by decide)]
    exact parseArray_close rfl
  | @element all v vs b m b' marks text text₁ text₂ text₃ rest hb hv hb' h ih ihrest =>
    intro hmarks fuel arr hfuel
    obtain ⟨fuel, rfl⟩ := hsucc hfuel
    simp only [List.mem_append, not_or] at hmarks
    have hlen := hb.length_le
    have hlen₁ := hv.length_lt
    have hlen₂ := hb'.length_le
    rw [List.length_cons] at hlen₂
    have hclose : current text₁ ≠ ']' := by
      obtain ⟨c, t, rfl, hc⟩ := hv.value_head
      exact (startsValue_spec hc).2.1
    rw [parseArray_element (skipWhitespace_of_blank hb hv.value_noSpace) hclose (ih hmarks.1.1.2 _ (by omega))
      (.inl rfl) (skipWhitespace_of_blank hb' (noSpace_cons (by decide) _)), if_pos rfl,
      ihrest hmarks.2 _ _ (by omega), List.append_assoc]
    rfl
  | @member key v mk b b' m text text₁ text₂ text₃ rest c hc hclose hk hb hb' hv ih =>
    intro hmarks
    simp only [List.mem_append, not_or] at hmarks
    have hlen := hk.length_lt
    have hlen₁ := hb.length_le
    have hlen₂ := hb'.length_le
    simp only [List.length_cons] at hlen₁
    have hskip := skipWhitespace_of_blank hb' hv.value_noSpace
    refine ⟨text₁, text₂, stringLoop_of_body hk hmarks.1.1.1.2 [],
      skipWhitespace_of_blank hb (noSpace_cons (by decide) _), by rw [List.length_cons]; omega, fun fuel hfuel => ?_⟩
    rw [← parseValue_skip, hskip]
    exact ih hmarks.2 fuel (by omega)
  | noMembers all hb =>
    intro _ fuel obj hfuel
    obtain ⟨fuel, rfl⟩ := hsucc hfuel
    rw [parseObject_close (skipWhitespace_of_blank hb (noSpace_cons (by decide) _))]
    rfl
  | @lastMember all key v b m b' text text₁ text₂ rest hb hm hb' ih =>
    intro hmarks fuel obj hfuel
    obtain ⟨fuel, rfl⟩ := hsucc hfuel
    simp only [List.mem_append, not_or] at hmarks
    have hlen := hb.length_le
    obtain ⟨k, rfl⟩ := hsucc (show 2 * text.length < fuel by omega)
    obtain ⟨text₃, text₄, hk, hcolon, hlen', hv⟩ := ih hmarks.1.2
    have hclose : current text₁ ≠ '\x7d' := by
      obtain ⟨c, t, rfl, -, hc⟩ := hm.member_head
      exact hc
    rw [parseObject_member (skipWhitespace_of_blank hb hm.member_noSpace) hclose hk hcolon (hv _ (by omega)) (.inr rfl)
      (skipWhitespace_of_blank hb' (noSpace_cons (by decide) _)), if_neg (by decide)]
    exact parseObject_close rfl
  | @moreMembers all key v ms b m b' marks text text₁ text₂ text₃ rest hb hm hb' h ih ihrest =>
    intro hmarks fuel obj hfuel
    obtain ⟨fuel, rfl⟩ := hsucc hfuel
    simp only [List.mem_append, not_or] at hmarks
    have hlen := hb.length_le
    have hlen₁ := hm.length_lt
    have hlen₂ := hb'.length_le
    rw [List.length_cons] at hlen₂
    obtain ⟨text₄, text₅, hk, hcolon, hlen', hv⟩ := ih hmarks.1.1.2
    have hclose : current text₁ ≠ '\x7d' := by
      obtain ⟨c, t, rfl, -, hc⟩ := hm.member_head
      exact hc
    rw [parseObject_member (skipWhitespace_of_blank hb hm.member_noSpace) hclose hk hcolon (hv _ (by omega)) (.inl rfl)
      (skipWhitespace_of_blank hb' (noSpace_cons (by decide) _)), if_pos rfl]
    exact ihrest hmarks.2 _ _ (by omega)

/-! ### What is read is derived -/

private theorem parseNumber_eq_ok {v : JsonValue D} {text rest : List Char} (hhead : text.head? ≠ some '.')
    (h : parseNumber fromDecimal size text = .ok (v, rest)) :
    ∃ marks, Derives fromDecimal (.value v) marks text rest ∧ Mark.unicodeEscape ∉ marks := by
  obtain ⟨lexeme, rest', hscan, htext, hend⟩ := scanNumber_spec text
  simp only [parseNumber, hscan] at h
  cases hv : numberValue fromDecimal (hasOther (signed lexeme).2) lexeme with
  | none => rw [hv] at h; cases h
  | some v' =>
    rw [hv] at h
    obtain ⟨rfl, rfl⟩ := Prod.mk.inj (Except.ok.inj h)
    have hhead' : lexeme.head? ≠ some '.' := by
      cases lexeme with
      | nil => simp
      | cons c t => rw [htext] at hhead; exact hhead
    obtain ⟨marks, htoken⟩ := token_of_numberValue hhead' hv
    refine ⟨marks, .number htoken hend htext, ?_⟩
    cases htoken with
    | int => split <;> simp
    | double => simp

private theorem parseBoolean_eq_ok {b : Bool} {text rest : List Char} (h : parseBoolean size text = .ok (b, rest)) :
    Derives fromDecimal (.value (.bool b)) [] text rest := by
  unfold parseBoolean at h
  split at h
  · rename_i htake
    obtain ⟨rfl, rfl⟩ := Prod.mk.inj (Except.ok.inj h)
    rw [← List.take_append_drop 4 text, htake]
    exact .trueLiteral _
  · split at h
    · rename_i htake
      obtain ⟨rfl, rfl⟩ := Prod.mk.inj (Except.ok.inj h)
      rw [← List.take_append_drop 5 text, htake]
      exact .falseLiteral _
    · cases h

private theorem parseNull_eq_ok {text rest : List Char} (h : parseNull size text = .ok rest) :
    Derives fromDecimal (.value .null) [] text rest := by
  unfold parseNull at h
  split at h
  · rename_i htake
    obtain rfl := Except.ok.inj h
    rw [← List.take_append_drop 4 text, htake]
    exact .nullLiteral _
  · cases h

/-- A value that `parse_value` reads behind white space. -/
private theorem parseValue_eq_ok {fuel : Nat}
    (harr : ∀ {arr text rest}, parseArray fromDecimal size fuel [] text = .ok (arr, rest) →
      ∃ m, Derives fromDecimal (.elements true arr) m text rest ∧ Mark.unicodeEscape ∉ m)
    (hobj : ∀ {obj text rest}, parseObject fromDecimal size fuel [] text = .ok (obj, rest) →
      ∃ ms m, obj = JsonObject.ofMembers ms ∧ Derives fromDecimal (.members true ms) m text rest ∧
        Mark.unicodeEscape ∉ m)
    {v : JsonValue D} {text rest : List Char} (h : parseValue fromDecimal size (fuel + 1) text = .ok (v, rest)) :
    ∃ m, Derives fromDecimal (.value v) m (skipWhitespace text) rest ∧ Mark.unicodeEscape ∉ m := by
  rw [parseValue] at h
  generalize skipWhitespace text = text at h ⊢
  simp only at h
  split at h
  · rename_i hc
    obtain ⟨⟨obj, rest'⟩, ho, h⟩ := Except.bind_eq_ok h
    obtain ⟨rfl, rfl⟩ := Prod.mk.inj (Except.ok.inj h)
    obtain ⟨ms, m, rfl, hm, hmarks⟩ := hobj ho
    rw [cons_of_current hc (by decide)]
    refine ⟨_, .object hm, ?_⟩
    rw [List.mem_append, not_or]
    exact ⟨by split <;> simp, hmarks⟩
  · split at h
    · rename_i hc
      obtain ⟨⟨arr, rest'⟩, ha, h⟩ := Except.bind_eq_ok h
      obtain ⟨rfl, rfl⟩ := Prod.mk.inj (Except.ok.inj h)
      obtain ⟨m, hm, hmarks⟩ := harr ha
      rw [cons_of_current hc (by decide)]
      exact ⟨m, .array hm, hmarks⟩
    · split at h
      · rename_i hc
        obtain ⟨⟨s, rest'⟩, hs, h⟩ := Except.bind_eq_ok h
        obtain ⟨rfl, rfl⟩ := Prod.mk.inj (Except.ok.inj h)
        obtain ⟨t, m, rfl, hm, hmarks⟩ := body_of_stringLoop hs
        rw [cons_of_current hc (by decide)]
        exact ⟨m, .string hm, hmarks⟩
      · split at h
        · obtain ⟨⟨b, rest'⟩, hb, h⟩ := Except.bind_eq_ok h
          obtain ⟨rfl, rfl⟩ := Prod.mk.inj (Except.ok.inj h)
          exact ⟨[], parseBoolean_eq_ok hb, by simp⟩
        · split at h
          · obtain ⟨rest', hn, h⟩ := Except.bind_eq_ok h
            obtain ⟨rfl, rfl⟩ := Prod.mk.inj (Except.ok.inj h)
            exact ⟨[], parseNull_eq_ok hn, by simp⟩
          · split at h
            · rename_i hc
              refine parseNumber_eq_ok (fun hdot => ?_) h
              have hcurrent : current text = '.' := by rw [current, List.headD_eq_head?_getD, hdot]; rfl
              rw [hcurrent] at hc
              exact absurd hc (by decide)
            · cases h

private theorem Blank.mem_marks {b : List Mark} {text rest : List Char} (h : Blank b text rest) :
    ∀ m ∈ b, m = Mark.foreignSpace := by
  induction h with
  | nil => simp
  | cons c hc h ih =>
    intro m hm
    rcases List.mem_append.1 hm with hm | hm
    · split at hm
      · cases hm
      · exact List.mem_singleton.1 hm
    · exact ih m hm

/-- White space has no mark but its own. -/
theorem unicodeEscape_notMem_of_blank {b : List Mark} {text rest : List Char} (h : Blank b text rest) :
    Mark.unicodeEscape ∉ b := fun hmem => absurd (Blank.mem_marks h _ hmem) (by decide)

/-- A member that `parse_object` reads. -/
private theorem member_of_parse {key text text₂ text₃ text₄ : List Char} {v : JsonValue D} {m : List Mark}
    (hspace : NoSpace text) (hclose : current text ≠ '\x7d') (hk : parseString size text = .ok (key, text₂))
    (hcolon : skipWhitespace text₂ = ':' :: text₃)
    (hv : Derives fromDecimal (.value v) m (skipWhitespace text₃) text₄) (hmarks : Mark.unicodeEscape ∉ m) :
    ∃ m, Derives fromDecimal (.member key v) m text text₄ ∧ Mark.unicodeEscape ∉ m := by
  cases text with
  | nil => cases hk
  | cons c text =>
    obtain ⟨t, mk, rfl, hbody, hkmarks⟩ := body_of_stringLoop hk
    obtain ⟨-, b, hb⟩ := skipWhitespace_spec text₂
    have hbmarks := unicodeEscape_notMem_of_blank hb
    rw [hcolon] at hb
    obtain ⟨-, b', hb'⟩ := skipWhitespace_spec text₃
    refine ⟨_, .member c (hspace c rfl) hclose hbody hb hb' hv, ?_⟩
    simp only [List.mem_append, not_or]
    exact ⟨⟨⟨⟨by split <;> simp, hkmarks⟩, hbmarks⟩, unicodeEscape_notMem_of_blank hb'⟩, hmarks⟩

/-- The three functions read only what the grammar derives without escapes of code units. -/
private theorem derives_of_reads (fuel : Nat) :
    (∀ {v text rest}, parseValue fromDecimal size fuel text = .ok (v, rest) →
      ∃ m, Derives fromDecimal (.value v) m (skipWhitespace text) rest ∧ Mark.unicodeEscape ∉ m) ∧
    (∀ {all arr arr' text rest}, parseArray fromDecimal size fuel arr text = .ok (arr', rest) →
      ∃ vs m, arr' = arr ++ vs ∧ Derives fromDecimal (.elements all vs) m text rest ∧ Mark.unicodeEscape ∉ m) ∧
    (∀ {all obj obj' text rest}, parseObject fromDecimal size fuel obj text = .ok (obj', rest) →
      ∃ ms m, obj' = ms.foldl (fun obj m => JsonObject.emplace obj m.1 m.2) obj ∧
        Derives fromDecimal (.members all ms) m text rest ∧ Mark.unicodeEscape ∉ m) := by
  induction fuel with
  | zero => exact ⟨nofun, nofun, nofun⟩
  | succ fuel ih =>
    obtain ⟨ihv, iha, iho⟩ := ih
    refine ⟨parseValue_eq_ok (fun h => ?_) fun h => ?_, ?_, ?_⟩
    · obtain ⟨vs, m, rfl, hm, hmarks⟩ := iha h
      exact ⟨m, hm, hmarks⟩
    · obtain ⟨ms, m, rfl, hm, hmarks⟩ := iho h
      exact ⟨ms, m, rfl, hm, hmarks⟩
    · intro all arr arr' text rest h
      obtain ⟨-, b, hb⟩ := skipWhitespace_spec text
      have hbmarks := unicodeEscape_notMem_of_blank hb
      obtain ⟨htext, rfl⟩ | ⟨v, text₂, c, text₃, hclose, hv, hc, htext, hrest⟩ := parseArray_eq_ok h
      · rw [htext] at hb
        refine ⟨[], _, by simp, .noElements all hb, ?_⟩
        rw [List.mem_append, not_or]
        exact ⟨hbmarks, by split <;> simp⟩
      · obtain ⟨m, hm, hmarks⟩ := ihv hv
        rw [skipWhitespace_of_noSpace (skipWhitespace_spec text).1] at hm
        obtain ⟨-, b', hb'⟩ := skipWhitespace_spec text₂
        have hbmarks' := unicodeEscape_notMem_of_blank hb'
        rw [htext] at hb'
        rcases hc with rfl | rfl
        · obtain ⟨vs, m', rfl, hm', hmarks'⟩ := iha hrest
          refine ⟨v :: vs, _, by simp, .element all hb hm hb' hm', ?_⟩
          simp only [List.mem_append, not_or]
          exact ⟨⟨⟨hbmarks, hmarks⟩, hbmarks'⟩, hmarks'⟩
        · rw [if_neg (by decide)] at hrest
          cases fuel with
          | zero => cases hrest
          | succ fuel =>
            rw [parseArray_close rfl] at hrest
            obtain ⟨rfl, rfl⟩ := Prod.mk.inj (Except.ok.inj hrest)
            refine ⟨[v], _, rfl, .lastElement all hb hm hb', ?_⟩
            simp only [List.mem_append, not_or]
            exact ⟨⟨hbmarks, hmarks⟩, hbmarks'⟩
    · intro all obj obj' text rest h
      obtain ⟨hspace, b, hb⟩ := skipWhitespace_spec text
      have hbmarks := unicodeEscape_notMem_of_blank hb
      obtain ⟨htext, rfl⟩ | ⟨key, text₂, text₃, v, text₄, c, text₅, hclose, hk, hcolon, hv, hc, htext, hrest⟩ :=
        parseObject_eq_ok h
      · rw [htext] at hb
        refine ⟨[], _, rfl, .noMembers all hb, ?_⟩
        rw [List.mem_append, not_or]
        exact ⟨hbmarks, by split <;> simp⟩
      · obtain ⟨mm, hm, hmarks⟩ : ∃ m, Derives fromDecimal (.member key v) m (skipWhitespace text) text₄ ∧
            Mark.unicodeEscape ∉ m := by
          obtain ⟨m, hm, hmarks⟩ := ihv hv
          exact member_of_parse hspace hclose hk hcolon hm hmarks
        obtain ⟨-, b', hb'⟩ := skipWhitespace_spec text₄
        have hbmarks' := unicodeEscape_notMem_of_blank hb'
        rw [htext] at hb'
        rcases hc with rfl | rfl
        · obtain ⟨ms, m', rfl, hm', hmarks'⟩ := iho hrest
          refine ⟨(key, v) :: ms, _, rfl, .moreMembers all hb hm hb' hm', ?_⟩
          simp only [List.mem_append, not_or]
          exact ⟨⟨⟨hbmarks, hmarks⟩, hbmarks'⟩, hmarks'⟩
        · rw [if_neg (by decide)] at hrest
          cases fuel with
          | zero => cases hrest
          | succ fuel =>
            rw [parseObject_close rfl] at hrest
            obtain ⟨rfl, rfl⟩ := Prod.mk.inj (Except.ok.inj hrest)
            refine ⟨[(key, v)], _, rfl, .lastMember all hb hm hb', ?_⟩
            simp only [List.mem_append, not_or]
            exact ⟨⟨hbmarks, hmarks⟩, hbmarks'⟩

/-! ### The parser ends -/

private theorem throwAt_ne {α : Type} {msg rest : List Char} :
    (throwAt size msg rest : Except Failure α) ≠ .error .outOfFuel :=
  nofun

private theorem stringLoop_ne (text : List Char) : ∀ str, stringLoop size str text ≠ .error .outOfFuel := by
  induction hn : text.length using Nat.strong_induction_on generalizing text with
  | _ n ih =>
    subst hn
    intro str
    cases text with
    | nil => exact throwAt_ne
    | cons c text =>
      by_cases hq : c = '"'
      · subst hq
        rw [stringLoop_quote]
        nofun
      · by_cases hb : c = '\\'
        · subst hb
          cases text with
          | nil => exact throwAt_ne
          | cons e text =>
            cases he : unescape e with
            | none =>
              rw [stringLoop_invalid he]
              exact throwAt_ne
            | some d =>
              rw [stringLoop_escape he]
              exact ih text.length (by simp only [List.length_cons]; omega) text rfl _
        · rw [stringLoop_plain hq hb]
          exact ih text.length (by simp) text rfl _

private theorem length_next (rest : List Char) (h : rest ≠ []) : (next rest 1).length + 1 = rest.length := by
  cases rest with
  | nil => exact absurd rfl h
  | cons c rest => rfl

private theorem length_next_le (rest : List Char) : (next rest 1).length ≤ rest.length := by
  rw [next, List.length_drop]
  omega

private theorem ne_nil_of_current {rest : List Char} {c : Char} (h : current rest = c) (hc : c ≠ '\x00') :
    rest ≠ [] := by
  rintro rfl
  exact hc h.symm

private theorem length_skipWhitespace_le (text : List Char) : (skipWhitespace text).length ≤ text.length :=
  (skipWhitespace_spec text).2.elim fun _ hb => hb.length_le

private theorem length_of_parseString {key text text₂ : List Char} (h : parseString size text = .ok (key, text₂)) :
    text₂.length < text.length := by
  cases text with
  | nil => cases h
  | cons c text =>
    obtain ⟨t, m, -, hbody, -⟩ := body_of_stringLoop h
    have hlen : text₂.length < text.length := hbody.length_lt
    rw [List.length_cons]
    omega

private theorem length_of_parseValue {fuel : Nat} {v : JsonValue D} {text text₂ : List Char}
    (h : parseValue fromDecimal size fuel text = .ok (v, text₂)) : text₂.length < text.length := by
  obtain ⟨m, hm, -⟩ := (derives_of_reads fuel).1 h
  have := hm.length_lt
  have := length_skipWhitespace_le text
  omega

/-- The three functions end with fuel for the rest of the text. -/
private theorem ne_outOfFuel (fuel : Nat) :
    (∀ text, 2 * text.length < fuel → parseValue fromDecimal size fuel text ≠ .error .outOfFuel) ∧
    (∀ arr text, 2 * text.length + 1 < fuel → parseArray fromDecimal size fuel arr text ≠ .error .outOfFuel) ∧
    (∀ obj text, 2 * text.length + 1 < fuel → parseObject fromDecimal size fuel obj text ≠ .error .outOfFuel) := by
  induction fuel with
  | zero => exact ⟨fun _ h => absurd h (by omega), fun _ _ h => absurd h (by omega), fun _ _ h => absurd h (by omega)⟩
  | succ fuel ih =>
    obtain ⟨ihv, iha, iho⟩ := ih
    refine ⟨fun text hfuel => ?_, fun arr text hfuel => ?_, fun obj text hfuel => ?_⟩
    · have hskip := length_skipWhitespace_le text
      rw [parseValue]
      generalize skipWhitespace text = text at hskip ⊢
      simp only
      split
      · rename_i hc
        have hlen := length_next text (ne_nil_of_current hc (by decide))
        exact Except.bind_ne_error (iho _ _ (by omega)) nofun
      · split
        · rename_i hc
          have hlen := length_next text (ne_nil_of_current hc (by decide))
          exact Except.bind_ne_error (iha _ _ (by omega)) nofun
        · split
          · exact Except.bind_ne_error (stringLoop_ne _ _) nofun
          · split
            · exact Except.bind_ne_error (by unfold parseBoolean; split <;> [nofun; (split <;> nofun)]) nofun
            · split
              · exact Except.bind_ne_error (by unfold parseNull; split <;> nofun) nofun
              · split
                · unfold parseNumber
                  simp only
                  split <;> nofun
                · exact throwAt_ne
    · have hskip := length_skipWhitespace_le text
      rw [parseArray]
      generalize skipWhitespace text = text at hskip ⊢
      simp only
      split
      · nofun
      · refine Except.bind_ne_error (ihv _ (by omega)) ?_
        rintro ⟨v, text₂⟩ hv
        have hlen := length_of_parseValue hv
        have hskip₂ := length_skipWhitespace_le text₂
        have hdrop := length_next_le (skipWhitespace text₂)
        simp only
        split
        · exact iha _ _ (by omega)
        · split
          · exact throwAt_ne
          · exact iha _ _ (by omega)
    · have hskip := length_skipWhitespace_le text
      rw [parseObject]
      generalize skipWhitespace text = text at hskip ⊢
      simp only
      split
      · nofun
      · refine Except.bind_ne_error (stringLoop_ne _ _) ?_
        rintro ⟨key, text₂⟩ hk
        have hlen := length_of_parseString hk
        simp only
        split
        · exact throwAt_ne
        · have hskip₂ := length_skipWhitespace_le text₂
          have hdrop₂ := length_next_le (skipWhitespace text₂)
          refine Except.bind_ne_error (ihv _ (by omega)) ?_
          rintro ⟨v, text₄⟩ hv
          have hlen₄ := length_of_parseValue hv
          have hskip₄ := length_skipWhitespace_le text₄
          have hdrop₄ := length_next_le (skipWhitespace text₄)
          simp only
          split
          · exact iho _ _ (by omega)
          · split
            · exact throwAt_ne
            · exact iho _ _ (by omega)

end

/-! ### The whole text -/

section

variable {D : Type} {fromDecimal : List Char → Option D}

/-- The parser returns a value or throws a `JsonParseError`. -/
theorem parse_total (fromDecimal : List Char → Option D) (input : List Char) :
    (∃ v, parse fromDecimal input = .ok v) ∨ ∃ e, parse fromDecimal input = .error (.thrown e) := by
  have hne : parse fromDecimal input ≠ .error .outOfFuel := by
    refine Except.bind_ne_error ((ne_outOfFuel _).1 input (Nat.lt_succ_self _)) ?_
    rintro ⟨v, rest⟩ -
    simp only
    split
    · nofun
    · exact throwAt_ne
  cases h : parse fromDecimal input with
  | ok v => exact .inl ⟨v, rfl⟩
  | error e =>
    cases e with
    | outOfFuel => exact absurd h hne
    | thrown e => exact .inr ⟨e, rfl⟩

/-- The parser reads the texts with white space at most in front of the value, without escapes of code units. -/
theorem parse_eq_ok_iff {input : List Char} {v : JsonValue D} :
    parse fromDecimal input = .ok v ↔
      ∃ b m text, Blank b input text ∧ Derives fromDecimal (.value v) m text [] ∧ Mark.unicodeEscape ∉ m := by
  constructor
  · intro h
    obtain ⟨⟨v', rest⟩, hv, h⟩ := Except.bind_eq_ok h
    simp only at h
    split at h
    · rename_i hrest
      obtain rfl := Except.ok.inj h
      rw [List.isEmpty_iff.1 hrest] at hv
      obtain ⟨m, hm, hmarks⟩ := (derives_of_reads _).1 hv
      obtain ⟨-, b, hb⟩ := skipWhitespace_spec input
      exact ⟨b, m, _, hb, hm, hmarks⟩
    · cases h
  · rintro ⟨b, m, text, hb, hm, hmarks⟩
    have hlen := hb.length_le
    have hread : parseValue fromDecimal input.length (2 * input.length + 1) text = .ok (v, []) :=
      reads_of_derives hm hmarks _ (by omega)
    rw [← skipWhitespace_of_blank hb hm.value_noSpace, parseValue_skip] at hread
    rw [parse, hread]
    rfl

end

end JsonParser

end R4R

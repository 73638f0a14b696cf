import R4R.JsonNumber

/-!
# The grammar of JSON is unambiguous

A text has at most one value, and all its derivations have the same marks.
-/

namespace R4R

open Lines

/-- The rest does not begin with white space. -/
def NoSpace (rest : List Char) : Prop := ∀ c ∈ rest.head?, isSpace c = false

theorem noSpace_cons {c : Char} (h : isSpace c = false) (rest : List Char) : NoSpace (c :: rest) := by
  rintro _ ⟨⟩
  exact h

theorem noSpace_nil : NoSpace [] := by rintro c ⟨⟩

private theorem Blank.unique {b b' : List Mark} {text rest rest' : List Char} (h : Blank b text rest) :
    NoSpace rest → Blank b' text rest' → NoSpace rest' → b = b' ∧ rest = rest' := by
  induction h generalizing b' with
  | nil rest =>
    intro hrest h' hrest'
    cases h' with
    | nil => exact ⟨rfl, rfl⟩
    | cons c hc => exact absurd hc (Bool.eq_false_iff.1 (hrest c rfl))
  | cons c hc h ih =>
    intro hrest h' hrest'
    cases h' with
    | nil => exact absurd hc (Bool.eq_false_iff.1 (hrest' c rfl))
    | cons _ _ h' =>
      obtain ⟨rfl, rfl⟩ := ih hrest h' hrest'
      exact ⟨rfl, rfl⟩

private theorem StringBody.unique {s s' : List Char} {marks marks' : List Mark} {text rest rest' : List Char}
    (h : StringBody s marks text rest) :
    StringBody s' marks' text rest' → s = s' ∧ marks = marks' ∧ rest = rest' := by
  induction h generalizing s' marks' with
  | close rest =>
    intro h'
    cases h' with
    | close => exact ⟨rfl, rfl, rfl⟩
    | plain _ hq => exact absurd rfl hq
  | plain c hq hb h ih =>
    intro h'
    cases h' with
    | close => exact absurd rfl hq
    | plain _ _ _ h' =>
      obtain ⟨rfl, rfl, rfl⟩ := ih h'
      exact ⟨rfl, rfl, rfl⟩
    | escape => exact absurd rfl hb
    | unicode => exact absurd rfl hb
    | pair => exact absurd rfl hb
  | escape e c he h ih =>
    intro h'
    cases h' with
    | plain _ _ hb => exact absurd rfl hb
    | escape _ c' he' h' =>
      obtain ⟨rfl, rfl, rfl⟩ := ih h'
      exact ⟨by rw [Option.some.inj (he.symm.trans he')], rfl, rfl⟩
    | unicode => cases he
    | pair => cases he
  | unicode a b c d n hn hhigh hlow h ih =>
    intro h'
    cases h' with
    | plain _ _ hb => exact absurd rfl hb
    | escape _ _ he => cases he
    | unicode _ _ _ _ n' hn' _ _ h' =>
      obtain ⟨rfl, rfl, rfl⟩ := ih h'
      rw [Option.some.inj (hn.symm.trans hn')]
      exact ⟨rfl, rfl, rfl⟩
    | pair _ _ _ _ _ _ _ _ m n' hm hhigh' =>
      rw [Option.some.inj (hn.symm.trans hm), hhigh'] at hhigh
      cases hhigh
  | pair a b c d e f g h m n hm hhigh hn hlow h ih =>
    intro h'
    cases h' with
    | plain _ _ hb => exact absurd rfl hb
    | escape _ _ he => cases he
    | unicode _ _ _ _ n' hn' hhigh' =>
      rw [Option.some.inj (hn'.symm.trans hm), hhigh] at hhigh'
      cases hhigh'
    | pair _ _ _ _ _ _ _ _ m' n' hm' _ hn' _ h' =>
      obtain ⟨rfl, rfl, rfl⟩ := ih h'
      rw [Option.some.inj (hm.symm.trans hm'), Option.some.inj (hn.symm.trans hn')]
      exact ⟨rfl, rfl, rfl⟩

variable {D : Type} {fromDecimal : List Char → Option D}

/-! ### The first characters -/

/-- The characters that a value can begin with. -/
def startsValue (c : Char) : Bool := ['n', 't', 'f', '"', '[', '\x7b', '-'].contains c || c.isDigit

theorem startsValue_spec {c : Char} (h : startsValue c = true) :
    isSpace c = false ∧ c ≠ ']' ∧ c ≠ '\x7d' ∧ c ≠ ',' ∧ c ≠ ':' := by
  simp only [startsValue, Bool.or_eq_true, List.contains_eq_mem, List.mem_cons, List.not_mem_nil, or_false,
    decide_eq_true_eq] at h
  have hdigit : ∀ d : Char, d.isDigit = false → c.isDigit = true → c ≠ d := by
    rintro d hd hc rfl
    rw [hd] at hc
    cases hc
  rcases h with h | h
  · rcases h with rfl | rfl | rfl | rfl | rfl | rfl | rfl <;> decide
  · exact ⟨isSpace_of_digit h, hdigit _ (by decide) h, hdigit _ (by decide) h, hdigit _ (by decide) h,
      hdigit _ (by decide) h⟩

theorem Derives.value_head {v : JsonValue D} {marks : List Mark} {text rest : List Char}
    (h : Derives fromDecimal (.value v) marks text rest) : ∃ c t, text = c :: t ∧ startsValue c = true := by
  cases h with
  | nullLiteral => exact ⟨_, _, rfl, by decide⟩
  | trueLiteral => exact ⟨_, _, rfl, by decide⟩
  | falseLiteral => exact ⟨_, _, rfl, by decide⟩
  | number h _ ht =>
    obtain ⟨c, t, rfl, hc⟩ := h.head
    refine ⟨c, t ++ rest, ht, ?_⟩
    rcases hc with rfl | hc
    · decide
    · simp [startsValue, hc]
  | string => exact ⟨_, _, rfl, by decide⟩
  | array => exact ⟨_, _, rfl, by decide⟩
  | object => exact ⟨_, _, rfl, by decide⟩

theorem Derives.value_noSpace {v : JsonValue D} {marks : List Mark} {text rest : List Char}
    (h : Derives fromDecimal (.value v) marks text rest) : NoSpace text := by
  obtain ⟨c, t, rfl, hc⟩ := h.value_head
  exact noSpace_cons (startsValue_spec hc).1 t

/-- A text that begins with a character no value begins with has no derivation. -/
private theorem Derives.not_value {v : JsonValue D} {marks : List Mark} {c : Char} {text rest : List Char}
    (hc : startsValue c = false) : ¬ Derives fromDecimal (.value v) marks (c :: text) rest := by
  intro h
  obtain ⟨d, t, ht, hd⟩ := h.value_head
  rw [(List.cons.inj ht).1, hd] at hc
  cases hc

theorem Derives.member_head {key : List Char} {v : JsonValue D} {marks : List Mark} {text rest : List Char}
    (h : Derives fromDecimal (.member key v) marks text rest) :
    ∃ c t, text = c :: t ∧ isSpace c = false ∧ c ≠ '\x7d' := by
  cases h with
  | member c hc hclose => exact ⟨c, _, rfl, hc, hclose⟩

theorem Derives.member_noSpace {key : List Char} {v : JsonValue D} {marks : List Mark} {text rest : List Char}
    (h : Derives fromDecimal (.member key v) marks text rest) : NoSpace text := by
  obtain ⟨c, t, rfl, hc, -⟩ := h.member_head
  exact noSpace_cons hc t

/-- A member does not begin with the bracket that closes the object. -/
private theorem Derives.not_member {key : List Char} {v : JsonValue D} {marks : List Mark} {text rest : List Char} :
    ¬ Derives fromDecimal (.member key v) marks ('\x7d' :: text) rest := by
  intro h
  obtain ⟨c, t, ht, -, hc⟩ := h.member_head
  exact hc (List.cons.inj ht).1.symm

/-! ### Uniqueness -/

/-- No number begins with another character than a sign or a digit. -/
private theorem not_number {v : JsonValue D} {marks : List Mark} {lexeme rest text : List Char} {c : Char}
    (h : NumberToken fromDecimal v marks lexeme) (ht : c :: text = lexeme ++ rest) (hsign : c ≠ '-')
    (hdigit : c.isDigit = false) : False := by
  obtain ⟨d, t, rfl, hd⟩ := h.head
  obtain ⟨rfl, -⟩ := List.cons.inj ht
  rcases hd with rfl | hd
  · exact hsign rfl
  · rw [hdigit] at hd
    cases hd

private theorem number_unique {v v' : JsonValue D} {marks marks' : List Mark} {lexeme text rest rest' : List Char}
    (h : NumberToken fromDecimal v marks lexeme) (hend : Ends rest) (ht : text = lexeme ++ rest)
    (h' : Derives fromDecimal (.value v') marks' text rest') : v = v' ∧ marks = marks' ∧ rest = rest' := by
  cases h' with
  | nullLiteral => exact (not_number h ht (by decide) (by decide)).elim
  | trueLiteral => exact (not_number h ht (by decide) (by decide)).elim
  | falseLiteral => exact (not_number h ht (by decide) (by decide)).elim
  | number h' hend' ht' =>
    obtain ⟨rfl, rfl⟩ := h.lexeme_unique h' hend hend' (ht.symm.trans ht')
    obtain ⟨rfl, rfl⟩ := h.unique h'
    exact ⟨rfl, rfl, rfl⟩
  | string => exact (not_number h ht (by decide) (by decide)).elim
  | array => exact (not_number h ht (by decide) (by decide)).elim
  | object => exact (not_number h ht (by decide) (by decide)).elim

/-- Every other derivation of the text about something of the same kind is about the same, with the same marks and
the same rest. -/
def OnlyDerivation (fromDecimal : List Char → Option D) (marks : List Mark) (text rest : List Char) : Symbol D → Prop
  | .value v => ∀ v' marks' rest', Derives fromDecimal (.value v') marks' text rest' →
    v = v' ∧ marks = marks' ∧ rest = rest'
  | .elements all vs => ∀ vs' marks' rest', Derives fromDecimal (.elements all vs') marks' text rest' →
    vs = vs' ∧ marks = marks' ∧ rest = rest'
  | .member key v => ∀ key' v' marks' rest', Derives fromDecimal (.member key' v') marks' text rest' →
    key = key' ∧ v = v' ∧ marks = marks' ∧ rest = rest'
  | .members all ms => ∀ ms' marks' rest', Derives fromDecimal (.members all ms') marks' text rest' →
    ms = ms' ∧ marks = marks' ∧ rest = rest'

private theorem Derives.onlyDerivation {sym : Symbol D} {marks : List Mark} {text rest : List Char}
    (h : Derives fromDecimal sym marks text rest) : OnlyDerivation fromDecimal marks text rest sym := by
  induction h with
  | nullLiteral rest =>
    intro v' marks' rest' h'
    cases h' with
    | nullLiteral => exact ⟨rfl, rfl, rfl⟩
    | number h' _ ht => exact (not_number h' ht (by decide) (by decide)).elim
  | trueLiteral rest =>
    intro v' marks' rest' h'
    cases h' with
    | trueLiteral => exact ⟨rfl, rfl, rfl⟩
    | number h' _ ht => exact (not_number h' ht (by decide) (by decide)).elim
  | falseLiteral rest =>
    intro v' marks' rest' h'
    cases h' with
    | falseLiteral => exact ⟨rfl, rfl, rfl⟩
    | number h' _ ht => exact (not_number h' ht (by decide) (by decide)).elim
  | number h hend ht => exact fun v' marks' rest' h' => number_unique h hend ht h'
  | string h =>
    intro v' marks' rest' h'
    cases h' with
    | number h' _ ht => exact (not_number h' ht (by decide) (by decide)).elim
    | string h' =>
      obtain ⟨rfl, rfl, rfl⟩ := h.unique h'
      exact ⟨rfl, rfl, rfl⟩
  | array h ih =>
    intro v' marks' rest' h'
    cases h' with
    | number h' _ ht => exact (not_number h' ht (by decide) (by decide)).elim
    | array h' =>
      obtain ⟨rfl, rfl, rfl⟩ := ih _ _ _ h'
      exact ⟨rfl, rfl, rfl⟩
  | object h ih =>
    intro v' marks' rest' h'
    cases h' with
    | number h' _ ht => exact (not_number h' ht (by decide) (by decide)).elim
    | object h' =>
      obtain ⟨rfl, rfl, rfl⟩ := ih _ _ _ h'
      exact ⟨rfl, rfl, rfl⟩
  | noElements all hb =>
    intro vs' marks' rest' h'
    have hclose : ∀ rest : List Char, NoSpace (']' :: rest) := noSpace_cons (by decide)
    cases h' with
    | noElements _ hb' =>
      obtain ⟨rfl, hrest⟩ := hb.unique (hclose _) hb' (hclose _)
      exact ⟨rfl, rfl, (List.cons.inj hrest).2⟩
    | lastElement _ hb' hv' =>
      obtain ⟨-, rfl⟩ := hb.unique (hclose _) hb' hv'.value_noSpace
      exact absurd hv' (Derives.not_value (by decide))
    | element _ hb' hv' =>
      obtain ⟨-, rfl⟩ := hb.unique (hclose _) hb' hv'.value_noSpace
      exact absurd hv' (Derives.not_value (by decide))
  | lastElement all hb hv hb₂ ih =>
    intro vs' marks' rest' h'
    have hclose : ∀ rest : List Char, NoSpace (']' :: rest) := noSpace_cons (by decide)
    cases h' with
    | noElements _ hb' =>
      obtain ⟨-, rfl⟩ := hb.unique hv.value_noSpace hb' (hclose _)
      exact absurd hv (Derives.not_value (by decide))
    | lastElement _ hb' hv' hb₂' =>
      obtain ⟨rfl, rfl⟩ := hb.unique hv.value_noSpace hb' hv'.value_noSpace
      obtain ⟨rfl, rfl, rfl⟩ := ih _ _ _ hv'
      obtain ⟨rfl, hrest⟩ := hb₂.unique (hclose _) hb₂' (hclose _)
      exact ⟨rfl, rfl, (List.cons.inj hrest).2⟩
    | element _ hb' hv' hb₂' =>
      obtain ⟨rfl, rfl⟩ := hb.unique hv.value_noSpace hb' hv'.value_noSpace
      obtain ⟨rfl, rfl, rfl⟩ := ih _ _ _ hv'
      exact absurd (hb₂.unique (hclose _) hb₂' (noSpace_cons (by decide) _)).2 (by simp)
  | element all hb hv hb₂ h ih ihrest =>
    intro vs' marks' rest' h'
    have hcomma : ∀ rest : List Char, NoSpace (',' :: rest) := noSpace_cons (by decide)
    cases h' with
    | noElements _ hb' =>
      obtain ⟨-, rfl⟩ := hb.unique hv.value_noSpace hb' (noSpace_cons (by decide) _)
      exact absurd hv (Derives.not_value (by decide))
    | lastElement _ hb' hv' hb₂' =>
      obtain ⟨rfl, rfl⟩ := hb.unique hv.value_noSpace hb' hv'.value_noSpace
      obtain ⟨rfl, rfl, rfl⟩ := ih _ _ _ hv'
      exact absurd (hb₂.unique (hcomma _) hb₂' (noSpace_cons (by decide) _)).2 (by simp)
    | element _ hb' hv' hb₂' h' =>
      obtain ⟨rfl, rfl⟩ := hb.unique hv.value_noSpace hb' hv'.value_noSpace
      obtain ⟨rfl, rfl, rfl⟩ := ih _ _ _ hv'
      obtain ⟨rfl, hrest⟩ := hb₂.unique (hcomma _) hb₂' (hcomma _)
      obtain ⟨-, rfl⟩ := List.cons.inj hrest
      obtain ⟨rfl, rfl, rfl⟩ := ihrest _ _ _ h'
      exact ⟨rfl, rfl, rfl⟩
  | member c hc hclose hk hb hb' hv ih =>
    intro key' v' marks' rest' h'
    have hcolon : ∀ rest : List Char, NoSpace (':' :: rest) := noSpace_cons (by decide)
    cases h' with
    | member _ _ _ hk₂ hb₂ hb₂' hv₂ =>
      obtain ⟨rfl, rfl, rfl⟩ := hk.unique hk₂
      obtain ⟨rfl, hrest⟩ := hb.unique (hcolon _) hb₂ (hcolon _)
      obtain ⟨-, rfl⟩ := List.cons.inj hrest
      obtain ⟨rfl, rfl⟩ := hb'.unique hv.value_noSpace hb₂' hv₂.value_noSpace
      obtain ⟨rfl, rfl, rfl⟩ := ih _ _ _ hv₂
      exact ⟨rfl, rfl, rfl, rfl⟩
  | noMembers all hb =>
    intro ms' marks' rest' h'
    have hclose : ∀ rest : List Char, NoSpace ('\x7d' :: rest) := noSpace_cons (by decide)
    cases h' with
    | noMembers _ hb' =>
      obtain ⟨rfl, hrest⟩ := hb.unique (hclose _) hb' (hclose _)
      exact ⟨rfl, rfl, (List.cons.inj hrest).2⟩
    | lastMember _ hb' hm' =>
      obtain ⟨-, rfl⟩ := hb.unique (hclose _) hb' hm'.member_noSpace
      exact absurd hm' Derives.not_member
    | moreMembers _ hb' hm' =>
      obtain ⟨-, rfl⟩ := hb.unique (hclose _) hb' hm'.member_noSpace
      exact absurd hm' Derives.not_member
  | lastMember all hb hm hb₂ ih =>
    intro ms' marks' rest' h'
    have hclose : ∀ rest : List Char, NoSpace ('\x7d' :: rest) := noSpace_cons (by decide)
    cases h' with
    | noMembers _ hb' =>
      obtain ⟨-, rfl⟩ := hb.unique hm.member_noSpace hb' (hclose _)
      exact absurd hm Derives.not_member
    | lastMember _ hb' hm' hb₂' =>
      obtain ⟨rfl, rfl⟩ := hb.unique hm.member_noSpace hb' hm'.member_noSpace
      obtain ⟨rfl, rfl, rfl, rfl⟩ := ih _ _ _ _ hm'
      obtain ⟨rfl, hrest⟩ := hb₂.unique (hclose _) hb₂' (hclose _)
      exact ⟨rfl, rfl, (List.cons.inj hrest).2⟩
    | moreMembers _ hb' hm' hb₂' =>
      obtain ⟨rfl, rfl⟩ := hb.unique hm.member_noSpace hb' hm'.member_noSpace
      obtain ⟨rfl, rfl, rfl, rfl⟩ := ih _ _ _ _ hm'
      exact absurd (hb₂.unique (hclose _) hb₂' (noSpace_cons (by decide) _)).2 (by simp)
  | moreMembers all hb hm hb₂ h ih ihrest =>
    intro ms' marks' rest' h'
    have hcomma : ∀ rest : List Char, NoSpace (',' :: rest) := noSpace_cons (by decide)
    cases h' with
    | noMembers _ hb' =>
      obtain ⟨-, rfl⟩ := hb.unique hm.member_noSpace hb' (noSpace_cons (by decide) _)
      exact absurd hm Derives.not_member
    | lastMember _ hb' hm' hb₂' =>
      obtain ⟨rfl, rfl⟩ := hb.unique hm.member_noSpace hb' hm'.member_noSpace
      obtain ⟨rfl, rfl, rfl, rfl⟩ := ih _ _ _ _ hm'
      exact absurd (hb₂.unique (hcomma _) hb₂' (noSpace_cons (by decide) _)).2 (by simp)
    | moreMembers _ hb' hm' hb₂' h' =>
      obtain ⟨rfl, rfl⟩ := hb.unique hm.member_noSpace hb' hm'.member_noSpace
      obtain ⟨rfl, rfl, rfl, rfl⟩ := ih _ _ _ _ hm'
      obtain ⟨rfl, hrest⟩ := hb₂.unique (hcomma _) hb₂' (hcomma _)
      obtain ⟨-, rfl⟩ := List.cons.inj hrest
      obtain ⟨rfl, rfl, rfl⟩ := ihrest _ _ _ h'
      exact ⟨rfl, rfl, rfl⟩

/-- What follows a value in a text, white space, decides where the value ends. -/
theorem Blank.rest_of_nil {b : List Mark} {rest : List Char} (h : Blank b rest []) :
    ∀ c ∈ rest, isSpace c = true := by
  generalize hend : ([] : List Char) = stop at h
  induction h with
  | nil => subst hend; simp
  | cons c hc h ih =>
    intro d hd
    rcases List.mem_cons.1 hd with rfl | hd
    · exact hc
    · exact ih hend d hd

/-- The grammar is unambiguous. -/
theorem IsText.unique {marks marks' : List Mark} {text : List Char} {v v' : JsonValue D}
    (h : IsText fromDecimal marks text v) (h' : IsText fromDecimal marks' text v') : v = v' ∧ marks = marks' := by
  obtain ⟨b, m, b₂, text₁, text₂, hb, hv, hb₂, rfl⟩ := h
  obtain ⟨b', m', b₂', text₁', text₂', hb', hv', hb₂', rfl⟩ := h'
  obtain ⟨rfl, rfl⟩ := hb.unique hv.value_noSpace hb' hv'.value_noSpace
  obtain ⟨rfl, rfl, rfl⟩ := hv.onlyDerivation _ _ _ hv'
  obtain ⟨rfl, -⟩ := hb₂.unique noSpace_nil hb₂' noSpace_nil
  exact ⟨rfl, rfl⟩

end R4R

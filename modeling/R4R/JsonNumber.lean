import R4R.JsonGrammar

/-!
# Numbers in JSON texts

What `parse_number` passes over, and the number tokens it reads.
-/

namespace R4R

open JsonParser

/-! ### The loop over the characters of a number -/

theorem ends_nil : Ends [] := by rintro c ⟨⟩

theorem ends_cons {c : Char} {rest : List Char} (h : c.isDigit = false ∧ c ≠ '.' ∧ c ≠ 'e' ∧ c ≠ 'E') :
    Ends (c :: rest) := by rintro _ ⟨⟩; exact h

/-- One turn of the loop, the sign of an exponent apart. -/
private theorem numberLoop_cons (isDbl : Bool) (str : List Char) (c : Char) (rest : List Char) :
    numberLoop isDbl str (c :: rest) =
      if c.isDigit then numberLoop isDbl (str ++ [c]) rest
      else if c = '.' then numberLoop true (str ++ [c]) rest
      else if c = 'e' ∨ c = 'E' then
        if current rest = '+' ∨ current rest = '-' then numberLoop true (str ++ [c, current rest]) (next rest 1)
        else numberLoop true (str ++ [c]) rest
      else (isDbl, str, c :: rest) := by
  cases rest with
  | nil => simp [numberLoop, current]
  | cons d rest => simp [numberLoop, current, next]

private theorem numberLoop_of_ends {rest : List Char} (h : Ends rest) (isDbl : Bool) (str : List Char) :
    numberLoop isDbl str rest = (isDbl, str, rest) := by
  cases rest with
  | nil => rfl
  | cons c rest =>
    obtain ⟨hdigit, hdot, he, hE⟩ := h c rfl
    simp [numberLoop_cons, hdigit, hdot, he, hE]

private theorem numberLoop_digits {ds : List Char} (h : ∀ c ∈ ds, c.isDigit = true) (rest : List Char) (isDbl : Bool) :
    ∀ str, numberLoop isDbl str (ds ++ rest) = numberLoop isDbl (str ++ ds) rest := by
  induction ds with
  | nil => intro str; simp
  | cons c ds ih =>
    intro str
    rw [List.cons_append, numberLoop_cons, if_pos (h c (List.mem_cons_self ..)),
      ih (fun d hd => h d (List.mem_cons_of_mem c hd)), List.append_assoc]
    rfl

private theorem numberLoop_sign {s : Char} (hs : s = '+' ∨ s = '-') {c : Char} (hc : c = 'e' ∨ c = 'E') (isDbl : Bool)
    (str rest : List Char) : numberLoop isDbl str (c :: s :: rest) = numberLoop true (str ++ [c, s]) rest := by
  rcases hc with rfl | rfl <;> simp [numberLoop_cons, current, next, hs]

private theorem numberLoop_noSign {d : Char} (hd : d.isDigit = true) {c : Char} (hc : c = 'e' ∨ c = 'E') (isDbl : Bool)
    (str rest : List Char) : numberLoop isDbl str (c :: d :: rest) = numberLoop true (str ++ [c]) (d :: rest) := by
  have hsign : ¬ (d = '+' ∨ d = '-') := by
    rintro (rfl | rfl) <;> exact absurd hd (by decide)
  rcases hc with rfl | rfl <;> simp [numberLoop_cons, current, hsign]

private theorem numberLoop_exponent {x : List Char} (hx : isExponent x = true) {rest : List Char} (hend : Ends rest)
    (isDbl : Bool) (str : List Char) :
    numberLoop isDbl str (x ++ rest) = (isDbl || !x.isEmpty, str ++ x, rest) := by
  cases x with
  | nil => simp [numberLoop_of_ends hend]
  | cons c x =>
    simp only [isExponent, Bool.and_eq_true, Bool.or_eq_true, beq_iff_eq, Bool.not_eq_true', List.isEmpty_eq_false_iff]
      at hx
    obtain ⟨hc, hne, hdigits⟩ := hx
    have hrun : ∀ s ds : List Char, (∀ c ∈ ds, c.isDigit = true) →
        numberLoop true (str ++ s) (ds ++ rest) = (true, str ++ s ++ ds, rest) := by
      intro s ds hds
      rw [numberLoop_digits hds, numberLoop_of_ends hend]
    split at hdigits
    · rename_i ds
      rw [List.cons_append, List.cons_append, numberLoop_sign (.inl rfl) hc,
        hrun [c, '+'] ds (List.all_eq_true.1 hdigits)]
      simp
    · rename_i ds
      rw [List.cons_append, List.cons_append, numberLoop_sign (.inr rfl) hc,
        hrun [c, '-'] ds (List.all_eq_true.1 hdigits)]
      simp
    · have hds := List.all_eq_true.1 hdigits
      cases x with
      | nil => exact absurd rfl hne
      | cons d ds =>
        have htail := hrun [c] (d :: ds) hds
        rw [List.cons_append] at htail
        rw [List.cons_append, List.cons_append, numberLoop_noSign (hds d (List.mem_cons_self ..)) hc, htail]
        simp

/-! ### What is passed over -/

/-- A character other than a digit stands in the text. -/
def hasOther (str : List Char) : Bool := str.any fun c => !c.isDigit

theorem hasOther_eq_false_iff {str : List Char} : hasOther str = false ↔ ∀ c ∈ str, c.isDigit = true := by
  simp [hasOther]

private theorem hasOther_append (s t : List Char) : hasOther (s ++ t) = (hasOther s || hasOther t) := List.any_append

private theorem hasOther_exponent {x : List Char} (hx : isExponent x = true) : hasOther x = !x.isEmpty := by
  cases x with
  | nil => rfl
  | cons c x =>
    simp only [isExponent, Bool.and_eq_true, Bool.or_eq_true, beq_iff_eq] at hx
    rcases hx.1 with rfl | rfl <;> simp [hasOther]

/-- The loop passes over a whole decimal numeral. -/
private theorem numberLoop_unsigned {u rest : List Char} (hu : isUnsigned u = true) (hend : Ends rest)
    (str : List Char) :
    numberLoop false str (u ++ rest) = (hasOther u, str ++ u, rest) := by
  have hwhole : ∀ c ∈ u.takeWhile Char.isDigit, c.isDigit = true := fun c hc => List.mem_takeWhile_imp hc
  have hsplit := List.takeWhile_append_dropWhile (p := Char.isDigit) (l := u)
  simp only [isUnsigned] at hu
  split at hu
  · rename_i t ht
    rw [Bool.and_eq_true] at hu
    have hfrac : ∀ c ∈ t.takeWhile Char.isDigit, c.isDigit = true := fun c hc => List.mem_takeWhile_imp hc
    have ht' := List.takeWhile_append_dropWhile (p := Char.isDigit) (l := t)
    rw [ht] at hsplit
    generalize u.takeWhile Char.isDigit = whole at hwhole hsplit
    generalize t.takeWhile Char.isDigit = frac at hfrac ht'
    generalize hex : t.dropWhile Char.isDigit = ex at ht' hu
    subst ht' hsplit
    have hdot : ∀ str rest, numberLoop false str ('.' :: rest) = numberLoop true (str ++ ['.']) rest := by
      intro str rest
      rw [numberLoop_cons]
      rfl
    have hother : hasOther (whole ++ '.' :: (frac ++ ex)) = true := by
      rw [hasOther_append, Bool.or_eq_true]
      exact .inr rfl
    rw [hother, List.append_assoc, numberLoop_digits hwhole, List.cons_append, hdot, List.append_assoc frac,
      numberLoop_digits hfrac, numberLoop_exponent hu.2 hend]
    simp
  · rw [Bool.and_eq_true] at hu
    generalize u.takeWhile Char.isDigit = whole at hwhole hsplit
    generalize u.dropWhile Char.isDigit = ex at hu hsplit
    subst hsplit
    rw [hasOther_append, hasOther_eq_false_iff.2 hwhole, hasOther_exponent hu.2, List.append_assoc,
      numberLoop_digits hwhole, numberLoop_exponent hu.2 hend, List.append_assoc]

private theorem signed_of_head {str : List Char} (h : str.head? ≠ some '-') : signed str = (false, str) := by
  unfold signed
  split
  · exact absurd rfl h
  · rfl

/-- A decimal numeral is passed over as a whole. -/
theorem scanNumber_append {lexeme rest : List Char} (h : isDecimal lexeme = true) (hend : Ends rest) :
    scanNumber (lexeme ++ rest) = (hasOther (signed lexeme).2, lexeme, rest) := by
  cases lexeme with
  | nil => exact absurd h (by decide)
  | cons c u =>
    by_cases hc : c = '-'
    · subst hc
      exact numberLoop_unsigned h hend ['-']
    · have hs : signed (c :: u) = (false, c :: u) := signed_of_head fun he => hc (Option.some.inj he)
      rw [isDecimal, hs] at h
      rw [hs, scanNumber, if_neg (by exact hc)]
      exact numberLoop_unsigned h hend []

/-- What the loop passes over, and what it stops before. -/
private theorem numberLoop_spec (isDbl : Bool) (str rest : List Char) :
    ∃ x rest', numberLoop isDbl str rest = (isDbl || hasOther x, str ++ x, rest') ∧ rest = x ++ rest' ∧ Ends rest' := by
  induction hn : rest.length using Nat.strong_induction_on generalizing isDbl str rest with
  | _ n ih =>
    subst hn
    cases rest with
    | nil => exact ⟨[], [], by simp [numberLoop, hasOther], rfl, ends_nil⟩
    | cons c rest =>
      -- the loop goes on behind the characters `x`
      have hgo : ∀ isDbl' x rest₁, numberLoop isDbl str (c :: rest) = numberLoop isDbl' (str ++ x) rest₁ →
          c :: rest = x ++ rest₁ → x ≠ [] → isDbl' = (isDbl || hasOther x) →
          ∃ x rest', numberLoop isDbl str (c :: rest) = (isDbl || hasOther x, str ++ x, rest') ∧
            c :: rest = x ++ rest' ∧ Ends rest' := by
        intro isDbl' x rest₁ hloop hx hne hdbl
        have hlen : rest₁.length < (c :: rest).length := by
          rw [hx, List.length_append]
          have := List.length_pos_iff.2 hne
          omega
        obtain ⟨y, rest', hy, hrest, hend⟩ := ih _ hlen isDbl' (str ++ x) rest₁ rfl
        refine ⟨x ++ y, rest', ?_, by rw [hx, hrest, List.append_assoc], hend⟩
        rw [hloop, hy, hdbl, hasOther_append, List.append_assoc, Bool.or_assoc]
      have hturn := numberLoop_cons isDbl str c rest
      split at hturn
      · rename_i hc
        exact hgo isDbl [c] rest hturn rfl (by simp) (by simp [hasOther, hc])
      · rename_i hdigit
        have hother : ∀ x, hasOther (c :: x) = true := fun x => by simp [hasOther, hdigit]
        split at hturn
        · exact hgo true [c] rest hturn rfl (by simp) (by simp [hother])
        · rename_i hdot
          split at hturn
          · split at hturn
            · rename_i hsign
              cases rest with
              | nil => exact absurd hsign (by decide)
              | cons s rest => exact hgo true [c, s] rest hturn rfl (by simp) (by simp [hother])
            · exact hgo true [c] rest hturn rfl (by simp) (by simp [hother])
          · rename_i he
            rw [not_or] at he
            exact ⟨[], c :: rest, by rw [hturn]; simp [hasOther], rfl,
              ends_cons ⟨Bool.eq_false_iff.2 hdigit, hdot, he.1, he.2⟩⟩

/-- What `parse_number` passes over. -/
theorem scanNumber_spec (text : List Char) :
    ∃ lexeme rest, scanNumber text = (hasOther (signed lexeme).2, lexeme, rest) ∧ text = lexeme ++ rest ∧
      Ends rest := by
  cases text with
  | nil => exact ⟨[], [], rfl, rfl, ends_nil⟩
  | cons c text =>
    by_cases hc : c = '-'
    · subst hc
      obtain ⟨x, rest, hx, hsplit, hend⟩ := numberLoop_spec false ['-'] text
      exact ⟨'-' :: x, rest, hx, by rw [hsplit]; rfl, hend⟩
    · obtain ⟨x, rest, hx, hsplit, hend⟩ := numberLoop_spec false [] (c :: text)
      refine ⟨x, rest, ?_, hsplit, hend⟩
      have hs : signed x = (false, x) := by
        refine signed_of_head fun he => hc ?_
        cases x with
        | nil => cases he
        | cons d x => exact (List.cons.inj hsplit).1.trans (Option.some.inj he)
      rw [scanNumber, if_neg (by exact hc), hx, hs]
      rfl

/-! ### Number tokens -/

/-- The integer that the sign and the digits of a text write. -/
def integerOf (str : List Char) : Int :=
  if (signed str).1 then -(Nat.ofDigitChars 10 (signed str).2 0 : Int) else Nat.ofDigitChars 10 (signed str).2 0

private theorem head_ne_of_digits {digits : List Char} (h : ∀ c ∈ digits, c.isDigit = true) :
    digits.head? ≠ some '-' := by
  intro he
  exact absurd (h '-' (List.mem_of_mem_head? he)) (by decide)

private theorem signed_append (neg : Bool) {digits : List Char} (h : ∀ c ∈ digits, c.isDigit = true) :
    signed ((if neg then ['-'] else []) ++ digits) = (neg, digits) := by
  cases neg with
  | false => exact signed_of_head (head_ne_of_digits h)
  | true => rfl

theorem signed_eq (str : List Char) : str = (if (signed str).1 then ['-'] else []) ++ (signed str).2 := by
  unfold signed
  split <;> rfl

theorem isInteger_iff {lexeme : List Char} {i : Int} :
    IsInteger lexeme i ↔ (signed lexeme).2 ≠ [] ∧ hasOther (signed lexeme).2 = false ∧ i = integerOf lexeme := by
  rw [hasOther_eq_false_iff]
  constructor
  · rintro ⟨neg, digits, rfl, hne, hdigits, rfl⟩
    rw [integerOf, signed_append neg hdigits]
    exact ⟨hne, hdigits, rfl⟩
  · rintro ⟨hne, hdigits, rfl⟩
    exact ⟨(signed lexeme).1, (signed lexeme).2, signed_eq lexeme, hne, hdigits, rfl⟩

/-- An integer is a decimal numeral. -/
private theorem isDecimal_of_isInteger {lexeme : List Char} {i : Int} (h : IsInteger lexeme i) :
    isDecimal lexeme = true := by
  obtain ⟨hne, hother, -⟩ := isInteger_iff.1 h
  have hdigits := hasOther_eq_false_iff.1 hother
  have htake : (signed lexeme).2.takeWhile Char.isDigit = (signed lexeme).2 := List.takeWhile_eq_self_iff.2 hdigits
  have hdrop : (signed lexeme).2.dropWhile Char.isDigit = [] := List.dropWhile_eq_nil_iff.2 hdigits
  rw [isDecimal, isUnsigned, htake, hdrop]
  simpa [isExponent] using hne

private theorem fromCharsInt_of_digits {str : List Char} (hne : (signed str).2 ≠ [])
    (hother : hasOther (signed str).2 = false) :
    fromCharsInt str =
      if -2 ^ 31 ≤ integerOf str ∧ integerOf str < 2 ^ 31 then .value (Int32.ofInt (integerOf str))
      else .outOfRange := by
  have hinvalid : ¬ ((signed str).2.isEmpty || !(signed str).2.all Char.isDigit) = true := by
    rw [Bool.not_eq_true, Bool.or_eq_false_iff, List.isEmpty_eq_false_iff, Bool.not_eq_false', List.all_eq_true]
    exact ⟨hne, hasOther_eq_false_iff.1 hother⟩
  simp only [fromCharsInt]
  rw [if_neg hinvalid]
  rfl

variable {D : Type} {fromDecimal : List Char → Option D}

/-- A number token is read as the value that it denotes. -/
theorem numberValue_of_token {v : JsonValue D} {marks : List Mark} {lexeme : List Char}
    (h : NumberToken fromDecimal v marks lexeme) :
    numberValue fromDecimal (hasOther (signed lexeme).2) lexeme = some v := by
  cases h with
  | int i h =>
    obtain ⟨hne, hother, hi⟩ := isInteger_iff.1 h
    have hfits : -2 ^ 31 ≤ integerOf lexeme ∧ integerOf lexeme < 2 ^ 31 := hi ▸ ⟨i.le_toInt, i.toInt_lt⟩
    rw [hother, numberValue]
    simp only [fromCharsInt_of_digits hne hother, Bool.false_eq_true, if_false, if_pos hfits]
    rw [← hi, Int32.ofInt_toInt]
  | @double _ d hint hhead hdec hd =>
    have hdouble : (fromCharsDouble fromDecimal lexeme).map JsonValue.double = some (.double d) := by
      rw [fromCharsDouble, if_pos hdec, hd]
      rfl
    cases hother : hasOther (signed lexeme).2 with
    | true => simp [numberValue, hdouble]
    | false =>
      have hne : (signed lexeme).2 ≠ [] := by
        intro hnil
        rw [isDecimal, hnil] at hdec
        exact absurd hdec (by decide)
      have hout : ¬ (-2 ^ 31 ≤ integerOf lexeme ∧ integerOf lexeme < 2 ^ 31) := by
        rintro ⟨hlo, hhi⟩
        refine hint (Int32.ofInt (integerOf lexeme)) (isInteger_iff.2 ⟨hne, hother, ?_⟩)
        exact Int32.toInt_ofInt_of_le hlo hhi
      simp only [numberValue, Bool.false_eq_true, if_false, fromCharsInt_of_digits hne hother, if_neg hout, hdouble]

/-- Only number tokens are read. -/
theorem token_of_numberValue {v : JsonValue D} {lexeme : List Char} (hhead : lexeme.head? ≠ some '.')
    (h : numberValue fromDecimal (hasOther (signed lexeme).2) lexeme = some v) :
    ∃ marks, NumberToken fromDecimal v marks lexeme := by
  have hdouble : (∀ i : Int32, ¬ IsInteger lexeme i.toInt) →
      (fromCharsDouble fromDecimal lexeme).map JsonValue.double = some v →
      ∃ marks, NumberToken fromDecimal v marks lexeme := by
    intro hint hv
    obtain ⟨d, hd, rfl⟩ := Option.map_eq_some_iff.1 hv
    rw [fromCharsDouble, Option.ite_none_right_eq_some] at hd
    exact ⟨_, .double hint hhead hd.1 hd.2⟩
  cases hother : hasOther (signed lexeme).2 with
  | true =>
    refine hdouble (fun i hi => ?_) (by simpa [numberValue, hother] using h)
    rw [(isInteger_iff.1 hi).2.1] at hother
    cases hother
  | false =>
    simp only [numberValue, hother, Bool.false_eq_true, if_false] at h
    by_cases hne : (signed lexeme).2 = []
    · have hinvalid : fromCharsInt lexeme = .invalid := by simp [fromCharsInt, hne]
      rw [hinvalid] at h
      cases h
    · rw [fromCharsInt_of_digits hne hother] at h
      split at h
      · rename_i heq
        split at heq <;> cases heq
      · rename_i i heq
        split at heq
        · rename_i hfits
          obtain rfl := FromChars.value.inj heq
          obtain rfl := Option.some.inj h
          exact ⟨_, .int _ (isInteger_iff.2 ⟨hne, hother, Int32.toInt_ofInt_of_le hfits.1 hfits.2⟩)⟩
        · cases heq
      · rename_i heq
        split at heq
        · cases heq
        · rename_i hout
          refine hdouble (fun i hi => hout ?_) h
          rw [← (isInteger_iff.1 hi).2.2]
          exact ⟨i.le_toInt, i.toInt_lt⟩

theorem NumberToken.isDecimal {v : JsonValue D} {marks : List Mark} {lexeme : List Char}
    (h : NumberToken fromDecimal v marks lexeme) : isDecimal lexeme = true := by
  cases h with
  | int i h => exact isDecimal_of_isInteger h
  | double hint hhead hdec hd => exact hdec

/-- A lexeme has one value and one list of marks. -/
theorem NumberToken.unique {v v' : JsonValue D} {marks marks' : List Mark} {lexeme : List Char}
    (h : NumberToken fromDecimal v marks lexeme) (h' : NumberToken fromDecimal v' marks' lexeme) :
    v = v' ∧ marks = marks' := by
  refine ⟨Option.some.inj ((numberValue_of_token h).symm.trans (numberValue_of_token h')), ?_⟩
  cases h with
  | int i hi =>
    cases h' with
    | int => rfl
    | double hint => exact absurd hi (hint i)
  | double hint =>
    cases h' with
    | int i hi => exact absurd hi (hint i)
    | double => rfl

/-- Number tokens that stop before the end of numbers are the same. -/
theorem NumberToken.lexeme_unique {v v' : JsonValue D} {marks marks' : List Mark}
    {lexeme lexeme' rest rest' : List Char} (h : NumberToken fromDecimal v marks lexeme)
    (h' : NumberToken fromDecimal v' marks' lexeme') (hend : Ends rest) (hend' : Ends rest')
    (ht : lexeme ++ rest = lexeme' ++ rest') : lexeme = lexeme' ∧ rest = rest' := by
  have hscan := scanNumber_append h.isDecimal hend
  rw [ht, scanNumber_append h'.isDecimal hend'] at hscan
  simp only [Prod.mk.injEq] at hscan
  exact ⟨hscan.2.1.symm, hscan.2.2.symm⟩

/-- The first character of a number token. -/
theorem NumberToken.head {v : JsonValue D} {marks : List Mark} {lexeme : List Char}
    (h : NumberToken fromDecimal v marks lexeme) : ∃ c t, lexeme = c :: t ∧ (c = '-' ∨ c.isDigit = true) := by
  have hdec := h.isDecimal
  cases lexeme with
  | nil => exact absurd hdec (by decide)
  | cons c t =>
    refine ⟨c, t, rfl, ?_⟩
    by_cases hc : c = '-'
    · exact .inl hc
    · right
      have hs : signed (c :: t) = (false, c :: t) := signed_of_head fun he => hc (Option.some.inj he)
      cases h with
      | int i hi => exact hasOther_eq_false_iff.1 (isInteger_iff.1 hi).2.1 c (by rw [hs]; exact List.mem_cons_self ..)
      | double hint hhead =>
        by_contra hdigit
        have hdot : ¬ c = '.' := fun he => hhead (by rw [he]; rfl)
        simp [JsonParser.isDecimal, hs, isUnsigned, hdigit, hdot] at hdec

end R4R

import R4R.JsonParse

/-!
# Printing and parsing JSON

What `JsonValuePrinter` prints of a value without doubles is a text of the grammar that `JsonParser` reads as the
value.
-/

namespace R4R

open JsonParser

/-- The values without doubles. -/
inductive JsonValue.DoubleFree {D : Type} : JsonValue D → Prop
  | null : DoubleFree .null
  | bool (b : Bool) : DoubleFree (.bool b)
  | int (i : Int32) : DoubleFree (.int i)
  | string (s : List Char) : DoubleFree (.string s)
  | array {elems : JsonArray D} (h : ∀ v ∈ elems, v.DoubleFree) : DoubleFree (.array elems)
  | object {members : JsonObject D} (h : ∀ m ∈ members, m.2.DoubleFree) : DoubleFree (.object members)

/-! ### Strings and integers -/

/-- A character is printed as itself or as the escape that stands for it. -/
private theorem escape_spec (c : Char) :
    (c ≠ '"' ∧ c ≠ '\\' ∧ escape c = [c]) ∨ ∃ e, JsonText.shortEscape e = some c ∧ escape c = ['\\', e] := by
  unfold escape
  split
  · exact .inr ⟨'"', rfl, rfl⟩
  · exact .inr ⟨'\\', rfl, rfl⟩
  · exact .inr ⟨'b', rfl, rfl⟩
  · exact .inr ⟨'f', rfl, rfl⟩
  · exact .inr ⟨'n', rfl, rfl⟩
  · exact .inr ⟨'r', rfl, rfl⟩
  · exact .inr ⟨'t', rfl, rfl⟩
  · rename_i hq hb _ _ _ _ _
    exact .inl ⟨hq, hb, rfl⟩

private theorem body_printString (s rest : List Char) :
    ∃ m, StringBody s m (s.flatMap escape ++ '"' :: rest) rest ∧ Mark.unicodeEscape ∉ m := by
  induction s with
  | nil => exact ⟨[], .close rest, by simp⟩
  | cons c s ih =>
    obtain ⟨m, hm, hmarks⟩ := ih
    rw [List.flatMap_cons, List.append_assoc]
    obtain ⟨hq, hb, hc⟩ | ⟨e, he, hc⟩ := escape_spec c
    · rw [hc]
      refine ⟨_, .plain c hq hb hm, ?_⟩
      rw [List.mem_append, not_or]
      exact ⟨by split <;> simp, hmarks⟩
    · rw [hc]
      exact ⟨m, .escape e c he hm, hmarks⟩

private theorem isInteger_printInt (i : Int32) : IsInteger (printInt i) i.toInt := by
  have hdigits : ∀ c ∈ Nat.toDigits 10 i.toInt.natAbs, c.isDigit = true := fun c hc =>
    Nat.isDigit_of_mem_toDigits (by decide) (by decide) hc
  have hne : Nat.toDigits 10 i.toInt.natAbs ≠ [] := Nat.toDigits_ne_nil
  unfold printInt
  by_cases hneg : i.toInt < 0
  · rw [if_pos hneg]
    refine ⟨true, Nat.toDigits 10 i.toInt.natAbs, rfl, hne, hdigits, ?_⟩
    rw [if_pos rfl, Nat.ofDigitChars_ten_toDigits]
    omega
  · rw [if_neg hneg]
    refine ⟨false, Nat.toDigits 10 i.toInt.natAbs, rfl, hne, hdigits, ?_⟩
    rw [if_neg (by decide), Nat.ofDigitChars_ten_toDigits]
    omega

/-! ### Objects -/

variable {D : Type}

private theorem emplace_of_lt {obj : JsonObject D} {key : List Char} (v : JsonValue D)
    (h : ∀ k ∈ obj.map Prod.fst, k < key) :
    obj.emplace key v = obj ++ [(key, v)] := by
  have hkey : key ∉ obj.map Prod.fst := fun hk => List.lt_irrefl key (h key hk)
  rw [JsonObject.emplace, if_neg hkey]
  clear hkey
  induction obj with
  | nil => rfl
  | cons m obj ih =>
    have hm : ¬ (key ≤ m.1) := not_le.2 (h m.1 (List.mem_cons_self ..))
    rw [List.orderedInsert_cons, if_neg hm, ih fun k hk => h k (List.mem_cons_of_mem _ hk)]
    rfl

/-- The object of members in the order of their keys is their list. -/
private theorem ofMembers_of_pairwise {ms : List (List Char × JsonValue D)} (h : (ms.map Prod.fst).Pairwise (· < ·)) :
    JsonObject.ofMembers ms = ms := by
  have hgo : ∀ (ms : List (List Char × JsonValue D)) (obj : JsonObject D),
      ((obj ++ ms).map Prod.fst).Pairwise (· < ·) →
      ms.foldl (fun obj m => JsonObject.emplace obj m.1 m.2) obj = obj ++ ms := by
    intro ms
    induction ms with
    | nil => intro obj _; simp
    | cons m ms ih =>
      intro obj h
      have hlt : ∀ k ∈ obj.map Prod.fst, k < m.1 := by
        intro k hk
        rw [List.map_append, List.pairwise_append] at h
        exact h.2.2 k hk m.1 (List.mem_cons_self ..)
      rw [List.foldl_cons, emplace_of_lt m.2 hlt, ih _ (by rwa [List.append_assoc]), List.append_assoc]
      rfl
  exact hgo ms [] h

/-! ### Values -/

variable {fromDecimal : List Char → Option D} {printDouble : D → List Char}

/-- What is printed of the value, before a text that does not continue a number, is derived. -/
def Prints (fromDecimal : List Char → Option D) (printDouble : D → List Char) (v : JsonValue D) : Prop :=
  ∀ rest, Ends rest → ∃ m, Derives fromDecimal (.value v) m (v.print printDouble ++ rest) rest ∧ Mark.unicodeEscape ∉ m

private theorem derives_printElements {vs : List (JsonValue D)} (rest : List Char) :
    ∀ (all : Bool) (v : JsonValue D), Prints fromDecimal printDouble v → (∀ w ∈ vs, Prints fromDecimal printDouble w) →
    ∃ m, Derives fromDecimal (.elements all (v :: vs)) m
        (v.print printDouble ++ (printElements printDouble false vs ++ ']' :: rest)) rest ∧
      Mark.unicodeEscape ∉ m := by
  induction vs with
  | nil =>
    intro all v hv _
    obtain ⟨m, hm, hmarks⟩ := hv (']' :: rest) (ends_cons (by decide))
    exact ⟨_, .lastElement all (.nil _) hm (.nil _), by simpa using hmarks⟩
  | cons w vs ih =>
    intro all v hv hvs
    obtain ⟨m', hm', hmarks'⟩ :=
      ih false w (hvs w (List.mem_cons_self ..)) fun x hx => hvs x (List.mem_cons_of_mem w hx)
    obtain ⟨m, hm, hmarks⟩ := hv (',' :: (w.print printDouble ++ (printElements printDouble false vs ++ ']' :: rest)))
      (ends_cons (by decide))
    simp only [printElements, Bool.false_eq_true, if_false, List.append_assoc]
    exact ⟨_, .element all (.nil _) hm (.nil _) hm', by simpa using ⟨hmarks, hmarks'⟩⟩

private theorem derives_member (key : List Char) {v : JsonValue D} (hv : Prints fromDecimal printDouble v)
    {rest : List Char} (hend : Ends rest) :
    ∃ m, Derives fromDecimal (.member key v) m (printString key ++ (':' :: (v.print printDouble ++ rest))) rest ∧
      Mark.unicodeEscape ∉ m := by
  obtain ⟨m, hm, hmarks⟩ := hv rest hend
  obtain ⟨mk, hk, hkmarks⟩ := body_printString key (':' :: (v.print printDouble ++ rest))
  simp only [printString, List.cons_append, List.append_assoc, List.nil_append]
  exact ⟨_, .member '"' (by decide) (by decide) hk (.nil _) (.nil _) hm, by simpa using ⟨hkmarks, hmarks⟩⟩

private theorem derives_printMembers {ms : List (List Char × JsonValue D)} (rest : List Char) :
    ∀ (all : Bool) (key : List Char) (v : JsonValue D), Prints fromDecimal printDouble v →
    (∀ m ∈ ms, Prints fromDecimal printDouble m.2) →
    ∃ m, Derives fromDecimal (.members all ((key, v) :: ms)) m
        (printString key ++ (':' :: (v.print printDouble ++ (printMembers printDouble false ms ++ '\x7d' :: rest))))
        rest ∧
      Mark.unicodeEscape ∉ m := by
  induction ms with
  | nil =>
    intro all key v hv _
    have hend : Ends ('\x7d' :: rest) := ends_cons (by decide)
    obtain ⟨m, hm, hmarks⟩ := derives_member key hv hend
    exact ⟨_, .lastMember all (.nil _) hm (.nil _), by simpa using hmarks⟩
  | cons mem ms ih =>
    intro all key v hv hms
    obtain ⟨key', w⟩ := mem
    obtain ⟨m', hm', hmarks'⟩ := ih false key' w (hms (key', w) (List.mem_cons_self ..)) fun x hx =>
      hms x (List.mem_cons_of_mem _ hx)
    have hend : Ends (',' :: (printString key' ++ (':' :: (w.print printDouble ++
        (printMembers printDouble false ms ++ '\x7d' :: rest))))) := ends_cons (by decide)
    obtain ⟨m, hm, hmarks⟩ := derives_member key hv hend
    simp only [printMembers, Bool.false_eq_true, if_false, List.append_assoc, List.cons_append]
    exact ⟨_, .moreMembers all (.nil _) hm (.nil _) hm', by simpa using ⟨hmarks, hmarks'⟩⟩

/-- What is printed of a value is derived. -/
private theorem prints_of_ordered {v : JsonValue D} (h : v.Ordered) :
    v.DoubleFree → Prints fromDecimal printDouble v := by
  induction h with
  | null => exact fun _ rest _ => ⟨[], .nullLiteral rest, by simp⟩
  | bool b =>
    intro _ rest _
    cases b with
    | false => exact ⟨[], .falseLiteral rest, by simp⟩
    | true => exact ⟨[], .trueLiteral rest, by simp⟩
  | int i =>
    intro _ rest hend
    refine ⟨_, .number (.int i (isInteger_printInt i)) hend rfl, ?_⟩
    split <;> simp
  | double d => nofun
  | string s =>
    intro _ rest _
    obtain ⟨m, hm, hmarks⟩ := body_printString s rest
    refine ⟨m, ?_, hmarks⟩
    simp only [JsonValue.print, printString, List.cons_append, List.append_assoc, List.nil_append]
    exact .string hm
  | @array elems h ih =>
    rintro (_ | _ | _ | _ | hfree) rest _
    cases elems with
    | nil => exact ⟨_, .array (.noElements true (.nil _)), by simp⟩
    | cons v vs =>
      obtain ⟨m, hm, hmarks⟩ := derives_printElements rest true v
        (ih v (List.mem_cons_self ..) (hfree v (List.mem_cons_self ..)))
        fun w hw => ih w (List.mem_cons_of_mem v hw) (hfree w (List.mem_cons_of_mem v hw))
      refine ⟨m, ?_, hmarks⟩
      simp only [JsonValue.print, printElements, if_true, List.cons_append, List.append_assoc, List.nil_append]
      exact .array hm
  | @object members hkeys h ih =>
    intro hfree rest _
    cases hfree with
    | object hfree =>
    have hnodup : (members.map Prod.fst).Nodup := by
      refine hkeys.imp fun {a b} hlt heq => ?_
      rw [heq] at hlt
      exact List.lt_irrefl b hlt
    have hobj : ∀ {m text}, Derives fromDecimal (.members true members) m text rest → Mark.unicodeEscape ∉ m →
        ∃ m, Derives fromDecimal (.value (.object members)) m ('\x7b' :: text) rest ∧ Mark.unicodeEscape ∉ m := by
      intro m text hm hmarks
      have hvalue := Derives.object hm
      rw [ofMembers_of_pairwise hkeys, if_pos hnodup] at hvalue
      exact ⟨_, hvalue, hmarks⟩
    cases members with
    | nil => exact hobj (.noMembers true (.nil _)) (by simp)
    | cons mem ms =>
      obtain ⟨key, v⟩ := mem
      obtain ⟨m, hm, hmarks⟩ := derives_printMembers rest true key v
        (ih _ (List.mem_cons_self ..) (hfree _ (List.mem_cons_self ..)))
        fun w hw => ih w (List.mem_cons_of_mem _ hw) (hfree w (List.mem_cons_of_mem _ hw))
      simp only [JsonValue.print, printMembers, if_true, List.cons_append, List.append_assoc, List.nil_append]
      exact hobj hm hmarks

/-- A value without doubles that is printed is read back. -/
theorem parse_print (fromDecimal : List Char → Option D) (printDouble : D → List Char) (v : JsonValue D)
    (hv : v.Ordered) (hfree : v.DoubleFree) : parse fromDecimal (v.print printDouble) = .ok v := by
  have hprints : Prints fromDecimal printDouble v := prints_of_ordered hv hfree
  obtain ⟨m, hm, hmarks⟩ := hprints [] ends_nil
  rw [List.append_nil] at hm
  exact parse_eq_ok_iff.2 ⟨[], m, _, .nil _, hm, hmarks⟩

theorem parse_print_nested :
    let v : JsonValue Nat := .object [(['a'], .array [.int (-12), .string ['\n', '\x00', '"'], .null]),
      (['b'], .object [])]
    parse (fun _ => none) (v.print fun _ => []) = .ok v :=
  parse_print _ _ _
    (.object (by decide) (by
      intro m hm
      rcases List.mem_cons.1 hm with rfl | hm
      · refine .array fun v hv => ?_
        simp only [List.mem_cons, List.not_mem_nil, or_false] at hv
        rcases hv with rfl | rfl | rfl
        · exact .int _
        · exact .string _
        · exact .null
      · rw [List.mem_singleton.1 hm]
        exact .object .nil nofun))
    (.object (by
      intro m hm
      rcases List.mem_cons.1 hm with rfl | hm
      · refine .array fun v hv => ?_
        simp only [List.mem_cons, List.not_mem_nil, or_false] at hv
        rcases hv with rfl | rfl | rfl
        · exact .int _
        · exact .string _
        · exact .null
      · rw [List.mem_singleton.1 hm]
        exact .object nofun))

end R4R

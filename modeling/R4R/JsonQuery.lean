import Mathlib.Algebra.Group.Nat.Defs
import R4R.JsonNumber
import R4R.Lib.Emplace

/-!
# Querying JSON

`json_query` follows the segments of a path through arrays and objects.  A segment that `to_number<long>` reads is an
index, and any other one is a key.  A query returns the value that the steps lead to, if it has the type that was asked
for, and throws otherwise (`jsonQuery_spec`); a path may be followed in two stages.
-/

namespace R4R

open JsonParser (signed)

/-- `to_number<long>` -/
def toNumber (s : List Char) : Option Int64 :=
  let digits := (signed s).2
  let n := Nat.ofDigitChars 10 digits 0
  let i : Int := if (signed s).1 then -n else n
  if digits.isEmpty || !digits.all Char.isDigit then none
  else if -2 ^ 63 ≤ i ∧ i < 2 ^ 63 then some (Int64.ofInt i)
  else none

/-- The alternatives of the variant. -/
inductive Alternative where
  | null
  | bool
  | int
  | double
  | string
  | array
  | object

/-- The values of an alternative. -/
abbrev Alternative.Value (D : Type) : Alternative → Type
  | null => Unit
  | bool => Bool
  | int => Int32
  | double => D
  | string => List Char
  | array => JsonArray D
  | object => JsonObject D

variable {D : Type}

/-- A value of an alternative is a value of the variant. -/
def Alternative.wrap : (T : Alternative) → T.Value D → JsonValue D
  | null, _ => .null
  | bool, b => .bool b
  | int, i => .int i
  | double, d => .double d
  | string, s => .string s
  | array, elems => .array elems
  | object, members => .object members

/-- `std::get_if<T>` -/
def JsonValue.getIf : (T : Alternative) → JsonValue D → Option (T.Value D)
  | .null, .null => some ()
  | .bool, .bool b => some b
  | .int, .int i => some i
  | .double, .double d => some d
  | .string, .string s => some s
  | .array, .array elems => some elems
  | .object, .object members => some members
  | _, _ => none

/-- What `json_query` throws. -/
inductive QueryError where
  | invalidArgument (what : List Char)
  | outOfRange (what : List Char)
deriving DecidableEq

/-- What ends a query other than a value. -/
inductive QueryFailure where
  | thrown (e : QueryError)
  /-- an element behind the end of a vector -/
  | undefined
deriving DecidableEq

/-- The body of the loop of `json_query` for a segment of the path. -/
def jsonStep (v : JsonValue D) (part : List Char) : Except QueryFailure (JsonValue D) :=
  if part.isEmpty then .error (.thrown (.invalidArgument "Invalid path".toList))
  else
    match toNumber part with
    | some idx =>
      match v.getIf .array with
      | some arr =>
        if idx.toUInt64 ≥ UInt64.ofNat arr.length then
          .error (.thrown (.outOfRange "Array index out of range".toList))
        else
          match arr[idx.toUInt64.toNat]? with
          | some elem => .ok elem
          | none => .error .undefined
      | none => .error (.thrown (.invalidArgument "Expected array".toList))
    | none =>
      match (v.getIf .object).bind (·.lookup part) with
      | some value => .ok value
      | none => .error (.thrown (.invalidArgument "Expected object".toList))

/-- The loop of `json_query`. -/
def jsonWalk (v : JsonValue D) : List Char → Except QueryFailure (JsonValue D)
  | [] => .ok v
  | c :: cs =>
    match jsonStep v ((c :: cs).takeWhile (· ≠ '.')) with
    | .error e => .error e
    | .ok value =>
      if '.' ∈ c :: cs then jsonWalk value ((c :: cs).drop (((c :: cs).takeWhile (· ≠ '.')).length + 1))
      else .ok value
termination_by path => path.length
decreasing_by
  rw [List.length_drop, List.length_cons]
  omega

/-- `json_query` -/
def jsonQuery (T : Alternative) (v : JsonValue D) (path : List Char) : Except QueryFailure (T.Value D) := do
  let value ← jsonWalk v path
  match value.getIf T with
  | some x => .ok x
  | none => .error (.thrown (.invalidArgument "Invalid type".toList))

/-! ### Steps -/

/-- A step of a path: a key, or an index that is written in decimal. -/
inductive JsonStep where
  | key (text : List Char) (hne : text ≠ []) (hdot : '.' ∉ text) (hlong : ∀ i : Int64, ¬ IsInteger text i.toInt)
  | index (text : List Char) (i : Int64) (h : IsInteger text i.toInt)

def JsonStep.text : JsonStep → List Char
  | key text _ _ _ => text
  | index text _ _ => text

/-- The steps joined by dots. -/
def jsonPath (steps : List JsonStep) : List Char := ['.'].intercalate (steps.map JsonStep.text)

/-- The sub-value that a step selects. -/
inductive JsonStep.Selects : JsonStep → JsonValue D → JsonValue D → Prop
  | key {members : JsonObject D} {text : List Char} {value : JsonValue D} {hne hdot hlong}
      (hmem : (text, value) ∈ members) : Selects (.key text hne hdot hlong) (.object members) value
  | index {elems : JsonArray D} {text : List Char} {i : Int64} {n : Nat} {elem : JsonValue D} {hint}
      (hn : i.toInt = n) (helem : elems[n]? = some elem) : Selects (.index text i hint) (.array elems) elem

/-- The sub-value that the steps lead to. -/
inductive LeadsTo : JsonValue D → List JsonStep → JsonValue D → Prop
  | here (v : JsonValue D) : LeadsTo v [] v
  | step {v value w : JsonValue D} {s : JsonStep} {steps : List JsonStep} (hselects : s.Selects v value)
      (h : LeadsTo value steps w) : LeadsTo v (s :: steps) w

/-- The arrays that there are: the size of a vector is less than `2^63`. -/
inductive JsonValue.Sized : JsonValue D → Prop
  | null : Sized .null
  | bool (b : Bool) : Sized (.bool b)
  | int (i : Int32) : Sized (.int i)
  | double (d : D) : Sized (.double d)
  | string (s : List Char) : Sized (.string s)
  | array {elems : JsonArray D} (hsize : elems.length < 2 ^ 63) (h : ∀ v ∈ elems, v.Sized) : Sized (.array elems)
  | object {members : JsonObject D} (h : ∀ m ∈ members, m.2.Sized) : Sized (.object members)

theorem getIf_eq_some {T : Alternative} {v : JsonValue D} {x : T.Value D} : v.getIf T = some x ↔ v = T.wrap x := by
  cases T <;> cases v <;> simp [JsonValue.getIf, Alternative.wrap, eq_comm]

/-- A text is read as the number that it writes, when that is a `long`. -/
private theorem toNumber_eq_some_iff {s : List Char} {i : Int64} : toNumber s = some i ↔ IsInteger s i.toInt := by
  have hdigits : ((signed s).2.isEmpty || !(signed s).2.all Char.isDigit) = false ↔
      (signed s).2 ≠ [] ∧ hasOther (signed s).2 = false := by
    rw [Bool.or_eq_false_iff, List.isEmpty_eq_false_iff, Bool.not_eq_false', List.all_eq_true, hasOther_eq_false_iff]
  have hread : toNumber s = if ((signed s).2.isEmpty || !(signed s).2.all Char.isDigit) = true then none
      else if -2 ^ 63 ≤ integerOf s ∧ integerOf s < 2 ^ 63 then some (Int64.ofInt (integerOf s)) else none := rfl
  rw [hread, isInteger_iff, ← and_assoc, ← hdigits]
  by_cases hinvalid : ((signed s).2.isEmpty || !(signed s).2.all Char.isDigit) = true
  · rw [if_pos hinvalid]
    simp [hinvalid]
  · have hvalid := Bool.eq_false_iff.2 hinvalid
    rw [if_neg hinvalid, and_iff_right hvalid]
    constructor
    · intro h
      split at h
      · rename_i hfits
        obtain rfl := Option.some.inj h
        exact Int64.toInt_ofInt_of_le hfits.1 hfits.2
      · cases h
    · intro h
      have hfits : -2 ^ 63 ≤ integerOf s ∧ integerOf s < 2 ^ 63 := h ▸ ⟨i.le_toInt, i.toInt_lt⟩
      rw [if_pos hfits, ← h, Int64.ofInt_toInt]

theorem toNumber_eq_none_iff {s : List Char} : toNumber s = none ↔ ∀ i : Int64, ¬ IsInteger s i.toInt := by
  simp only [← toNumber_eq_some_iff, Option.eq_none_iff_forall_ne_some, ne_eq]

/-! ### One step -/

private theorem JsonStep.text_ne_nil (step : JsonStep) : step.text ≠ [] := by
  cases step with
  | key text hne hdot hlong => exact hne
  | index text i h =>
    rintro rfl
    obtain ⟨hne, -⟩ := isInteger_iff.1 h
    exact hne rfl

private theorem JsonStep.dot_notMem (step : JsonStep) : '.' ∉ step.text := by
  cases step with
  | key text hne hdot hlong => exact hdot
  | index text i h =>
    obtain ⟨neg, digits, rfl, -, hdigits, -⟩ := h
    intro hmem
    rcases List.mem_append.1 hmem with hmem | hmem
    · cases neg <;> simp at hmem
    · exact absurd (hdigits _ hmem) (by decide)

private theorem jsonWalk_of_ne_nil (v : JsonValue D) {path : List Char} (h : path ≠ []) :
    jsonWalk v path = jsonStep v (path.takeWhile (· ≠ '.')) >>= fun value =>
      if '.' ∈ path then jsonWalk value (path.drop ((path.takeWhile (· ≠ '.')).length + 1)) else .ok value := by
  obtain ⟨c, cs, rfl⟩ := List.exists_cons_of_ne_nil h
  rw [jsonWalk]
  cases jsonStep v ((c :: cs).takeWhile (· ≠ '.')) <;> rfl

/-- The loop takes the first step, and goes on with the other ones. -/
theorem jsonWalk_cons (v : JsonValue D) (step : JsonStep) (steps : List JsonStep) :
    jsonWalk v (jsonPath (step :: steps)) = jsonStep v step.text >>= fun value => jsonWalk value (jsonPath steps) := by
  have hdot := step.dot_notMem
  have hall : ∀ x ∈ step.text, decide (x ≠ '.') = true := fun x hx => decide_eq_true fun heq => hdot (heq ▸ hx)
  cases steps with
  | nil =>
    have hpath : jsonPath [step] = step.text := by simp [jsonPath]
    have htake : step.text.takeWhile (· ≠ '.') = step.text := List.takeWhile_eq_self_iff.2 hall
    rw [hpath, jsonWalk_of_ne_nil v step.text_ne_nil, htake]
    simp only [if_neg hdot]
    have hrest : ∀ value : JsonValue D, jsonWalk value (jsonPath []) = .ok value := by
      intro value
      rw [show jsonPath [] = [] from rfl, jsonWalk]
    simp only [hrest]
  | cons next steps =>
    have hpath : jsonPath (step :: next :: steps) = step.text ++ '.' :: jsonPath (next :: steps) := by
      simp [jsonPath, List.intercalate]
    have htake : (jsonPath (step :: next :: steps)).takeWhile (· ≠ '.') = step.text := by
      rw [hpath, List.takeWhile_append_of_pos hall, List.takeWhile_cons_of_neg (by simp), List.append_nil]
    have hne : jsonPath (step :: next :: steps) ≠ [] := by
      rw [hpath]
      simp
    have hmem : '.' ∈ jsonPath (step :: next :: steps) := by
      rw [hpath]
      simp
    rw [jsonWalk_of_ne_nil v hne, htake]
    simp only [if_pos hmem]
    have hdrop : (jsonPath (step :: next :: steps)).drop (step.text.length + 1) = jsonPath (next :: steps) := by
      rw [hpath, ← List.drop_drop, List.drop_left]
      rfl
    rw [hdrop]

theorem jsonWalk_nil (v : JsonValue D) : jsonWalk v (jsonPath []) = .ok v := by
  rw [show jsonPath [] = [] from rfl, jsonWalk]

/-- A path may be followed in two stages. -/
private theorem jsonWalk_append (first second : List JsonStep) : ∀ v : JsonValue D,
    jsonWalk v (jsonPath (first ++ second)) =
      jsonWalk v (jsonPath first) >>= fun value => jsonWalk value (jsonPath second) := by
  induction first with
  | nil =>
    intro v
    rw [List.nil_append, jsonWalk_nil, Except.ok_bind]
  | cons step first ih =>
    intro v
    rw [List.cons_append, jsonWalk_cons, jsonWalk_cons]
    cases jsonStep v step.text with
    | error e => rfl
    | ok value => exact ih value

/-! ### What the steps lead to -/

/-- What `std::vector` and `std::map` keep of their elements. -/
def JsonValue.Valid (v : JsonValue D) : Prop := v.Ordered ∧ v.Sized

private theorem nodup_of_pairwise {members : JsonObject D} (h : (members.map Prod.fst).Pairwise (· < ·)) :
    (members.map Prod.fst).Nodup := by
  refine h.imp ?_
  rintro a b hlt rfl
  exact List.lt_irrefl a hlt

/-- A negative index is at least `2^63` when it is compared with a size. -/
private theorem toNat_toUInt64 (i : Int64) :
    (i.toUInt64.toNat : Int) = if 0 ≤ i.toInt then i.toInt else i.toInt + 2 ^ 64 := by
  have hint := BitVec.toInt_eq_toNat_cond i.toBitVec
  rw [Int64.toInt_toBitVec, Int64.toNat_toBitVec] at hint
  have hlt := i.toUInt64.toNat_lt
  split at hint <;> split <;> omega

/-- An index is compared with the size of the vector as an unsigned number. -/
private theorem not_ge_size_iff {size : Nat} (hsize : size < 2 ^ 63) (i : Int64) :
    ¬ i.toUInt64 ≥ UInt64.ofNat size ↔ i.toUInt64.toNat < size ∧ i.toInt = i.toUInt64.toNat := by
  have hlength : (UInt64.ofNat size).toNat = size := UInt64.toNat_ofNat_of_lt' (lt_of_lt_of_le hsize (by decide))
  have hint := toNat_toUInt64 i
  have hle := i.le_toInt
  rw [ge_iff_le, UInt64.le_iff_toNat_le, hlength, Nat.not_le]
  constructor
  · intro hlt
    refine ⟨hlt, ?_⟩
    split at hint <;> omega
  · rintro ⟨hlt, -⟩
    exact hlt

/-- A step into an array. -/
private theorem jsonStep_array {elems : JsonArray D} (hsize : elems.length < 2 ^ 63) {text : List Char}
    (hne : text ≠ []) {i : Int64} (hi : toNumber text = some i) :
    (∃ n : Nat, ∃ elem, i.toInt = n ∧ elems[n]? = some elem ∧ jsonStep (.array elems) text = .ok elem) ∨
      (∀ n : Nat, i.toInt = n → elems[n]? = none) ∧ ∃ e, jsonStep (.array elems) text = .error (.thrown e) := by
  have hrange := not_ge_size_iff hsize i
  have hstep : jsonStep (.array elems) text = if i.toUInt64 ≥ UInt64.ofNat elems.length then
        .error (.thrown (.outOfRange "Array index out of range".toList))
      else match elems[i.toUInt64.toNat]? with
        | some elem => .ok elem
        | none => .error .undefined := by
    rw [jsonStep, if_neg (by simpa using hne), hi]
    rfl
  by_cases hge : i.toUInt64 ≥ UInt64.ofNat elems.length
  · right
    rw [if_pos hge] at hstep
    refine ⟨?_, _, hstep⟩
    intro n hn
    have hnat : i.toUInt64.toNat = n := by
      have hint := toNat_toUInt64 i
      split at hint <;> omega
    rw [List.getElem?_eq_none_iff, ← Nat.not_lt]
    exact fun hlt => hrange.2 ⟨hnat ▸ hlt, hnat ▸ hn⟩ hge
  · left
    obtain ⟨hlt, hn⟩ := hrange.1 hge
    have hget := List.getElem?_eq_getElem hlt
    rw [if_neg hge, hget] at hstep
    exact ⟨_, _, hn, hget, hstep⟩

/-- A step into an object. -/
private theorem jsonStep_object {members : JsonObject D} {text : List Char} (hne : text ≠ [])
    (hkey : toNumber text = none) :
    jsonStep (.object members) text = match members.lookup text with
      | some value => .ok value
      | none => .error (.thrown (.invalidArgument "Expected object".toList)) := by
  rw [jsonStep, if_neg (by simpa using hne), hkey]
  rfl

/-- Any other step throws. -/
private theorem jsonStep_other {v : JsonValue D} {text : List Char}
    (harray : ∀ elems i, v = .array elems → toNumber text ≠ some i)
    (hobject : ∀ members, v = .object members → toNumber text ≠ none) :
    ∃ e, jsonStep v text = .error (.thrown e) := by
  rw [jsonStep]
  split
  · exact ⟨_, rfl⟩
  · cases hnumber : toNumber text with
    | some i =>
      cases hget : v.getIf .array with
      | none => exact ⟨_, rfl⟩
      | some elems => exact absurd hnumber (harray elems i (getIf_eq_some.1 hget))
    | none =>
      cases hget : v.getIf .object with
      | none => exact ⟨_, rfl⟩
      | some members => exact absurd hnumber (hobject members (getIf_eq_some.1 hget))

private theorem JsonStep.Selects.valid {step : JsonStep} {v value : JsonValue D} (h : step.Selects v value)
    (hv : v.Valid) :
    value.Valid := by
  cases h with
  | key hmem =>
    obtain ⟨hordered, hsized⟩ := hv
    cases hordered with
    | object _ hordered =>
      cases hsized with
      | object hsized => exact ⟨hordered _ hmem, hsized _ hmem⟩
  | index hn helem =>
    have hmem := List.mem_of_getElem? helem
    obtain ⟨hordered, hsized⟩ := hv
    cases hordered with
    | array hordered =>
      cases hsized with
      | array _ hsized => exact ⟨hordered _ hmem, hsized _ hmem⟩

/-- A step selects at most one sub-value. -/
private theorem JsonStep.Selects.unique {step : JsonStep} {v value value' : JsonValue D} (hv : v.Valid)
    (h : step.Selects v value) (h' : step.Selects v value') : value = value' := by
  cases h with
  | key hmem =>
    cases h' with
    | key hmem' =>
      obtain ⟨hordered, -⟩ := hv
      cases hordered with
      | object hkeys _ =>
        have hlookup := Emplace.lookup_of_mem (nodup_of_pairwise hkeys) hmem
        rw [Emplace.lookup_of_mem (nodup_of_pairwise hkeys) hmem'] at hlookup
        exact (Option.some.inj hlookup).symm
  | index hn helem =>
    cases h' with
    | index hn' helem' =>
      obtain rfl := Int.ofNat.inj (hn.symm.trans hn')
      exact Option.some.inj (helem.symm.trans helem')

/-- A step goes on with the sub-value that it selects, or throws when there is none. -/
private theorem jsonStep_spec {v : JsonValue D} (hv : v.Valid) (step : JsonStep) :
    (∃ value, step.Selects v value ∧ jsonStep v step.text = .ok value) ∨
      (∀ value, ¬ step.Selects v value) ∧ ∃ e, jsonStep v step.text = .error (.thrown e) := by
  cases step with
  | key text hne hdot hlong =>
    have hkey := toNumber_eq_none_iff.2 hlong
    cases v with
    | object members =>
      have hstep := @jsonStep_object D members text hne hkey
      cases hlookup : members.lookup text with
      | some value =>
        rw [hlookup] at hstep
        exact .inl ⟨value, .key (Emplace.mem_of_lookup hlookup), hstep⟩
      | none =>
        rw [hlookup] at hstep
        refine .inr ⟨?_, _, hstep⟩
        rintro value ⟨hmem⟩
        cases hv.1 with
        | object hkeys _ =>
          rw [Emplace.lookup_of_mem (nodup_of_pairwise hkeys) hmem] at hlookup
          cases hlookup
    | _ =>
      refine .inr ⟨by rintro value ⟨⟩, jsonStep_other ?_ ?_⟩
      · rintro elems i - hsome
        exact Option.some_ne_none i (hsome.symm.trans hkey)
      · rintro members ⟨⟩
  | index text i h =>
    have hne : text ≠ [] := JsonStep.text_ne_nil (.index text i h)
    have hindex := toNumber_eq_some_iff.2 h
    cases v with
    | array elems =>
      cases hv.2 with
      | array hsize _ =>
        obtain ⟨n, elem, hn, helem, hstep⟩ | ⟨hnone, hstep⟩ := jsonStep_array hsize hne hindex
        · exact .inl ⟨elem, .index hn helem, hstep⟩
        · refine .inr ⟨?_, hstep⟩
          intro value hselects
          cases hselects with
          | index hn helem =>
            rw [hnone _ hn] at helem
            cases helem
    | _ =>
      refine .inr ⟨by rintro value ⟨⟩, jsonStep_other ?_ ?_⟩
      · rintro elems i ⟨⟩
      · rintro members - hnone
        exact Option.some_ne_none i (hindex.symm.trans hnone)

/-! ### Paths -/

/-- The loop follows the steps as far as they select something. -/
private theorem jsonWalk_spec (steps : List JsonStep) : ∀ {v : JsonValue D}, v.Valid →
    (∃ w, LeadsTo v steps w ∧ jsonWalk v (jsonPath steps) = .ok w) ∨
      (∀ w, ¬ LeadsTo v steps w) ∧ ∃ e, jsonWalk v (jsonPath steps) = .error (.thrown e) := by
  induction steps with
  | nil =>
    intro v hv
    exact .inl ⟨v, .here v, jsonWalk_nil v⟩
  | cons step steps ih =>
    intro v hv
    rw [jsonWalk_cons]
    obtain ⟨value, hselects, hstep⟩ | ⟨hnone, e, hstep⟩ := jsonStep_spec hv step
    · rw [hstep, Except.ok_bind]
      obtain ⟨w, hw, hwalk⟩ | ⟨hnone, e, hwalk⟩ := ih (hselects.valid hv)
      · exact .inl ⟨w, .step hselects hw, hwalk⟩
      · refine .inr ⟨?_, e, hwalk⟩
        rintro w (_ | ⟨hselects', hw⟩)
        exact hnone w (hselects.unique hv hselects' ▸ hw)
    · rw [hstep, Except.error_bind]
      refine .inr ⟨?_, e, rfl⟩
      rintro w (_ | ⟨hselects, -⟩)
      exact hnone _ hselects

private theorem LeadsTo.unique {v w : JsonValue D} {steps : List JsonStep} (hv : v.Valid) (h : LeadsTo v steps w) :
    ∀ {w' : JsonValue D}, LeadsTo v steps w' → w = w' := by
  induction h with
  | here v =>
    rintro w' ⟨⟩
    rfl
  | step hselects _ ih =>
    rintro w' (_ | ⟨hselects', hw'⟩)
    exact ih (hselects.valid hv) (hselects.unique hv hselects' ▸ hw')

private theorem wrap_injective (T : Alternative) : Function.Injective (T.wrap : T.Value D → JsonValue D) := by
  intro x y h
  have hx := getIf_eq_some.2 (rfl : T.wrap x = T.wrap x)
  rw [h, getIf_eq_some.2 rfl] at hx
  exact (Option.some.inj hx).symm

/-- A query returns what the steps lead to, or throws. -/
private theorem jsonQuery_cases (T : Alternative) {v : JsonValue D} (hv : v.Valid) (steps : List JsonStep) :
    (∃ x, LeadsTo v steps (T.wrap x) ∧ jsonQuery T v (jsonPath steps) = .ok x) ∨
      (∀ x, ¬ LeadsTo v steps (T.wrap x)) ∧ ∃ e, jsonQuery T v (jsonPath steps) = .error (.thrown e) := by
  rw [jsonQuery]
  obtain ⟨w, hw, hwalk⟩ | ⟨hnone, e, hwalk⟩ := jsonWalk_spec steps hv
  · rw [hwalk, Except.ok_bind]
    cases hget : w.getIf T with
    | some x => exact .inl ⟨x, getIf_eq_some.1 hget ▸ hw, rfl⟩
    | none =>
      refine .inr ⟨?_, _, rfl⟩
      intro x hx
      rw [getIf_eq_some.2 (hw.unique hv hx)] at hget
      cases hget
  · rw [hwalk]
    exact .inr ⟨fun x => hnone _, e, rfl⟩

private theorem jsonQuery_ok_iff (T : Alternative) {v : JsonValue D} (hv : v.Valid) (steps : List JsonStep)
    (x : T.Value D) :
    jsonQuery T v (jsonPath steps) = .ok x ↔ LeadsTo v steps (T.wrap x) := by
  obtain ⟨y, hy, hquery⟩ | ⟨hnone, e, hquery⟩ := jsonQuery_cases T hv steps
  · rw [hquery]
    constructor
    · intro h
      exact Except.ok.inj h ▸ hy
    · intro h
      rw [wrap_injective T (hy.unique hv h)]
  · rw [hquery]
    exact ⟨nofun, fun h => absurd h (hnone x)⟩

/-- The second stage goes on where the first one has ended. -/
private theorem jsonQuery_append (T A : Alternative) {v : JsonValue D} {first : List JsonStep} {a : A.Value D}
    (h : jsonQuery A v (jsonPath first) = .ok a) (second : List JsonStep) :
    jsonQuery T v (jsonPath (first ++ second)) = jsonQuery T (A.wrap a) (jsonPath second) := by
  obtain ⟨w, hwalk, hget⟩ := Except.bind_eq_ok h
  have hw : w = A.wrap a := by
    cases hsome : w.getIf A with
    | none =>
      rw [hsome] at hget
      cases hget
    | some a' =>
      rw [hsome] at hget
      rw [getIf_eq_some.1 hsome, Except.ok.inj hget]
  rw [jsonQuery, jsonWalk_append, hwalk, hw]
  rfl

/-- A step goes through an array or an object. -/
private theorem LeadsTo.through {v w : JsonValue D} {first second : List JsonStep} (hne : second ≠ [])
    (h : LeadsTo v (first ++ second) w) :
    ∃ A : Alternative, (A = .array ∨ A = .object) ∧ ∃ a : A.Value D, LeadsTo v first (A.wrap a) := by
  induction first generalizing v with
  | nil =>
    cases h with
    | here => exact absurd rfl hne
    | step hselects _ =>
      cases hselects with
      | key hmem => exact ⟨.object, .inr rfl, _, .here _⟩
      | index hn helem => exact ⟨.array, .inl rfl, _, .here _⟩
  | cons s first ih =>
    cases h with
    | step hselects h =>
      obtain ⟨A, hA, a, ha⟩ := ih h
      exact ⟨A, hA, a, .step hselects ha⟩

/-- A query returns the sub-value that the steps lead to when it has the type that was asked for, and throws in every
other case.  Where a first stage returns a value, the second one has the result of the joined path, and each longer path
that leads somewhere has such a first stage through an array or an object. -/
theorem jsonQuery_spec (T : Alternative) {v : JsonValue D} (hv : v.Ordered) (hs : v.Sized) (steps : List JsonStep) :
    (∀ x, jsonQuery T v (jsonPath steps) = .ok x ↔ LeadsTo v steps (T.wrap x)) ∧
      ((∀ x, ¬ LeadsTo v steps (T.wrap x)) → ∃ e, jsonQuery T v (jsonPath steps) = .error (.thrown e)) ∧
      ∀ first second, steps = first ++ second →
        (∀ A a, jsonQuery A v (jsonPath first) = .ok a →
          jsonQuery T v (jsonPath steps) = jsonQuery T (A.wrap a) (jsonPath second)) ∧
        (second ≠ [] → ∀ x, jsonQuery T v (jsonPath steps) = .ok x →
          ∃ A a, (A = .array ∨ A = .object) ∧ jsonQuery A v (jsonPath first) = .ok a ∧
            jsonQuery T (A.wrap a) (jsonPath second) = .ok x) := by
  refine ⟨jsonQuery_ok_iff T ⟨hv, hs⟩ steps, ?_, ?_⟩
  · intro hnone
    obtain ⟨x, hx, -⟩ | ⟨-, hthrown⟩ := jsonQuery_cases T ⟨hv, hs⟩ steps
    · exact absurd hx (hnone x)
    · exact hthrown
  · rintro first second rfl
    refine ⟨fun A a h => jsonQuery_append T A h second, ?_⟩
    intro hne x hx
    obtain ⟨A, hA, a, ha⟩ := ((jsonQuery_ok_iff T ⟨hv, hs⟩ _ x).1 hx).through hne
    have hfirst := (jsonQuery_ok_iff A ⟨hv, hs⟩ first a).2 ha
    exact ⟨A, a, hA, hfirst, jsonQuery_append T A hfirst second ▸ hx⟩

/-- An element of a member, and a negative index. -/
theorem jsonQuery_spec_packages :
    jsonQuery .string (.object [("packages".toList, .array [.string "libpq-dev".toList])] : JsonValue Nat)
        "packages.0".toList = .ok "libpq-dev".toList ∧
      ∃ e, jsonQuery .string (.object [("packages".toList, .array [.string "libpq-dev".toList])] : JsonValue Nat)
        "packages.-1".toList = .error (.thrown e) := by
  have hordered : JsonValue.Ordered
      (.object [("packages".toList, .array [.string "libpq-dev".toList])] : JsonValue Nat) := by
    refine .object (by simp) ?_
    rintro m hm
    obtain rfl := List.mem_singleton.1 hm
    refine .array ?_
    intro v hv
    obtain rfl := List.mem_singleton.1 hv
    exact .string _
  have hsized : JsonValue.Sized
      (.object [("packages".toList, .array [.string "libpq-dev".toList])] : JsonValue Nat) := by
    refine .object ?_
    rintro m hm
    obtain rfl := List.mem_singleton.1 hm
    refine .array (by decide) ?_
    intro v hv
    obtain rfl := List.mem_singleton.1 hv
    exact .string _
  have hkey : ∀ i : Int64, ¬ IsInteger "packages".toList i.toInt := toNumber_eq_none_iff.1 (by decide +kernel)
  have hzero : IsInteger "0".toList (0 : Int64).toInt := toNumber_eq_some_iff.1 (by decide +kernel)
  have hminus : IsInteger "-1".toList (-1 : Int64).toInt := toNumber_eq_some_iff.1 (by decide +kernel)
  constructor
  · refine ((jsonQuery_spec .string hordered hsized [.key _ (by decide) (by decide) hkey, .index _ 0 hzero]).1 _).2 ?_
    exact .step (.key (List.mem_singleton_self _)) (.step (@JsonStep.Selects.index _ _ _ _ 0 _ _ rfl rfl) (.here _))
  · refine (jsonQuery_spec .string hordered hsized [.key _ (by decide) (by decide) hkey, .index _ (-1) hminus]).2.1 ?_
    rintro x (_ | ⟨⟨hmem⟩, _ | ⟨hselects, -⟩⟩)
    rw [(Prod.mk.inj (List.mem_singleton.1 hmem)).2] at hselects
    cases hselects with
    | index hn _ =>
      have hminusOne : (-1 : Int64).toInt = -1 := rfl
      omega

end R4R

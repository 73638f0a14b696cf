import Mathlib.Data.List.Basic
import Mathlib.Data.List.Infix
import R4R.Lib.Delimited

/-!
# Extended regular expressions

The expressions, what they match in a line, a matcher, and how their texts are read.  A reader goes through a text
character by character, with a frame for each open group.  Where the standard leaves the meaning of a text undefined
there is no expression; an empty branch, however, matches the empty string, and a repetition may be repeated.  Newlines,
which separate expressions, are not part of one.  Characters have the order and the classes of the POSIX locale.
-/

/-- A set of characters: all of them, one, or those in (or not in) one of the ranges. -/
inductive CharSet where
  | any
  | single (c : Char)
  | ranges (negated : Bool) (items : List (Char × Char))
deriving DecidableEq

def CharSet.contains : CharSet → Char → Bool
  | any, _ => true
  | single d, c => c == d
  | ranges negated items, c => negated != items.any fun item => item.1 ≤ c && c ≤ item.2

inductive Ere where
  | empty
  | one (set : CharSet)
  | start
  | finish
  | seq (a b : Ere)
  | alt (a b : Ere)
  | rep (e : Ere) (min : Nat) (max : Option Nat)
deriving DecidableEq

namespace Ere

/-! ### What an expression matches -/

/-- `n` steps of a relation. -/
def Times (R : Nat → Nat → Prop) : Nat → Nat → Nat → Prop
  | 0, i, j => i = j
  | n + 1, i, j => ∃ k, R i k ∧ Times R n k j

/-- The expression matches the part of the line between two positions. -/
def Matches (input : List Char) : Ere → Nat → Nat → Prop
  | empty, i, j => i = j
  | one set, i, j => j = i + 1 ∧ ∃ c, input[i]? = some c ∧ set.contains c = true
  | start, i, j => i = 0 ∧ j = 0
  | finish, i, j => i = input.length ∧ j = input.length
  | seq a b, i, j => ∃ k, Matches input a i k ∧ Matches input b k j
  | alt a b, i, j => Matches input a i j ∨ Matches input b i j
  | rep e min max, i, j => ∃ n, min ≤ n ∧ (∀ m ∈ max, n ≤ m) ∧ Times (Matches input e) n i j

/-- The expression matches somewhere in the line. -/
def Occurs (e : Ere) (input : List Char) : Prop := ∃ i j, i ≤ input.length ∧ Matches input e i j

/-- The relation goes forward and stays within the bound. -/
def Forward (bound : Nat) (R : Nat → Nat → Prop) : Prop := ∀ i j, R i j → i ≤ j ∧ (i ≤ bound → j ≤ bound)

private theorem Forward.times {bound : Nat} {R : Nat → Nat → Prop} (h : Forward bound R) (n : Nat) :
    Forward bound (Times R n) := by
  induction n with
  | zero =>
    rintro i j rfl
    exact ⟨le_rfl, id⟩
  | succ n ih =>
    rintro i j ⟨k, hk, hrest⟩
    obtain ⟨hik, hbound⟩ := h i k hk
    obtain ⟨hkj, hbound'⟩ := ih k j hrest
    exact ⟨hik.trans hkj, fun hi => hbound' (hbound hi)⟩

private theorem times_add {R : Nat → Nat → Prop} {m n : Nat} :
    ∀ {i j : Nat}, Times R (m + n) i j ↔ ∃ k, Times R m i k ∧ Times R n k j := by
  induction m with
  | zero => simp [Times]
  | succ m ih =>
    intro i j
    rw [Nat.add_right_comm]
    simp only [Times, ih]
    constructor
    · rintro ⟨l, hl, k, hk, h⟩
      exact ⟨k, ⟨l, hl, hk⟩, h⟩
    · rintro ⟨k, ⟨l, hl, hk⟩, h⟩
      exact ⟨l, hl, k, hk, h⟩

/-- Steps that stay where they are can be left out. -/
theorem Forward.shorten {bound : Nat} {R : Nat → Nat → Prop} (h : Forward bound R) {n : Nat} :
    ∀ {i j : Nat}, Times R n i j → ∃ m, m ≤ j - i ∧ Times R m i j := by
  induction n with
  | zero =>
    rintro i j rfl
    exact ⟨0, Nat.zero_le _, rfl⟩
  | succ n ih =>
    rintro i j ⟨k, hk, hrest⟩
    obtain ⟨m, hm, hshort⟩ := ih hrest
    have hik := (h i k hk).1
    have hkj := (h.times n k j hrest).1
    rcases hik.eq_or_lt with rfl | hlt
    · exact ⟨m, hm, hshort⟩
    · exact ⟨m + 1, by omega, k, hk, hshort⟩

/-- A match goes forward in the line. -/
theorem forward_matches (input : List Char) (e : Ere) : Forward input.length (Matches input e) := by
  induction e with
  | empty =>
    rintro i j rfl
    exact ⟨le_rfl, id⟩
  | one set =>
    rintro i j ⟨rfl, c, hc, -⟩
    exact ⟨Nat.le_succ i, fun _ => (List.getElem?_eq_some_iff.1 hc).1⟩
  | start =>
    rintro i j ⟨rfl, rfl⟩
    exact ⟨le_rfl, id⟩
  | finish =>
    rintro i j ⟨rfl, rfl⟩
    exact ⟨le_rfl, id⟩
  | seq a b iha ihb =>
    rintro i j ⟨k, ha, hb⟩
    obtain ⟨hik, hbound⟩ := iha i k ha
    obtain ⟨hkj, hbound'⟩ := ihb k j hb
    exact ⟨hik.trans hkj, fun hi => hbound' (hbound hi)⟩
  | alt a b iha ihb =>
    rintro i j (ha | hb)
    · exact iha i j ha
    · exact ihb i j hb
  | rep e min max ih =>
    rintro i j ⟨n, -, -, hn⟩
    exact ih.times n i j hn

/-! ### The matcher -/

def timesEnds (f : Nat → List Nat) : Nat → Nat → List Nat
  | 0, i => [i]
  | n + 1, i => (f i).flatMap (timesEnds f n)

/-- The positions where a match that begins at a position may end. -/
def ends (input : List Char) : Ere → Nat → List Nat
  | empty, i => [i]
  | one set, i => if input[i]?.any set.contains then [i + 1] else []
  | start, i => if i = 0 then [0] else []
  | finish, i => if i = input.length then [i] else []
  | seq a b, i => (ends input a i).flatMap (ends input b)
  | alt a b, i => ends input a i ++ ends input b i
  | rep e min max, i =>
    ((List.range (max.getD (min + input.length) + 1)).filter (min ≤ ·)).flatMap fun n => timesEnds (ends input e) n i

def occurs (e : Ere) (input : List Char) : Bool :=
  (List.range (input.length + 1)).any fun i => !(ends input e i).isEmpty

private theorem mem_timesEnds {f : Nat → List Nat} {R : Nat → Nat → Prop} {bound : Nat}
    (hR : Forward bound R) (hf : ∀ i j, i ≤ bound → (j ∈ f i ↔ R i j)) {n : Nat} :
    ∀ {i j : Nat}, i ≤ bound → (j ∈ timesEnds f n i ↔ Times R n i j) := by
  induction n with
  | zero =>
    intro i j hi
    rw [timesEnds, Times, List.mem_singleton, eq_comm]
  | succ n ih =>
    intro i j hi
    rw [timesEnds, Times, List.mem_flatMap]
    refine exists_congr fun k => ?_
    rw [hf i k hi]
    exact and_congr_right fun hk => ih ((hR i k hk).2 hi)

/-- The matcher tries enough repetitions. -/
theorem mem_ends_rep {input : List Char} {e : Ere}
    (he : ∀ i j, i ≤ input.length → (j ∈ ends input e i ↔ Matches input e i j)) (min : Nat) (max : Option Nat)
    {i j : Nat} (hi : i ≤ input.length) : j ∈ ends input (rep e min max) i ↔ Matches input (rep e min max) i j := by
  have hforward := forward_matches input e
  have htimes : ∀ n, j ∈ timesEnds (ends input e) n i ↔ Times (Matches input e) n i j := fun n =>
    mem_timesEnds hforward he hi
  rw [ends, Matches, List.mem_flatMap]
  simp only [List.mem_filter, List.mem_range, decide_eq_true_eq, htimes]
  cases max with
  | some m =>
    refine exists_congr fun n => ?_
    simp only [Option.getD_some, Option.mem_some_iff, forall_eq', Nat.lt_succ_iff]
    tauto
  | none =>
    constructor
    · rintro ⟨n, ⟨-, hmin⟩, h⟩
      exact ⟨n, hmin, nofun, h⟩
    · rintro ⟨n, hmin, -, h⟩
      -- steps that stay where they are do not count, and there are no more other ones than characters
      obtain ⟨r, rfl⟩ := Nat.exists_eq_add_of_le hmin
      obtain ⟨k, hfirst, hrest⟩ := times_add.1 h
      obtain ⟨m, hm, hshort⟩ := hforward.shorten hrest
      have hj := (hforward.times r k j hrest).2 ((hforward.times min i k hfirst).2 hi)
      refine ⟨min + m, ⟨?_, Nat.le_add_right min m⟩, times_add.2 ⟨k, hfirst, hshort⟩⟩
      rw [Option.getD_none]
      omega

/-- The matcher finds the matches. -/
theorem mem_ends {input : List Char} {e : Ere} :
    ∀ i j, i ≤ input.length → (j ∈ ends input e i ↔ Matches input e i j) := by
  induction e with
  | empty =>
    intro i j hi
    rw [ends, Matches, List.mem_singleton, eq_comm]
  | one set =>
    intro i j hi
    rw [ends, Matches]
    cases hc : input[i]? with
    | none => simp
    | some c => simp; tauto
  | start =>
    intro i j hi
    rw [ends, Matches]
    split <;> simp_all
  | finish =>
    intro i j hi
    rw [ends, Matches]
    split <;> simp_all
  | seq a b iha ihb =>
    intro i j hi
    rw [ends, Matches, List.mem_flatMap]
    refine exists_congr fun k => ?_
    rw [iha i k hi]
    exact and_congr_right fun hk => ihb k j ((forward_matches input a i k hk).2 hi)
  | alt a b iha ihb =>
    intro i j hi
    rw [ends, Matches, List.mem_append, iha i j hi, ihb i j hi]
  | rep e min max ih =>
    intro i j hi
    exact mem_ends_rep ih min max hi

theorem occurs_iff {e : Ere} {input : List Char} : e.occurs input = true ↔ e.Occurs input := by
  rw [occurs, List.any_eq_true]
  constructor
  · rintro ⟨i, hi, hends⟩
    have hle := Nat.lt_succ_iff.1 (List.mem_range.1 hi)
    rw [Bool.not_eq_true', List.isEmpty_eq_false_iff_exists_mem] at hends
    obtain ⟨j, hj⟩ := hends
    exact ⟨i, j, hle, (mem_ends i j hle).1 hj⟩
  · rintro ⟨i, j, hi, h⟩
    refine ⟨i, List.mem_range.2 (Nat.lt_succ_iff.2 hi), ?_⟩
    rw [Bool.not_eq_true', List.isEmpty_eq_false_iff_exists_mem]
    exact ⟨j, (mem_ends i j hi).2 h⟩

/-! ### Reading an expression -/

/-- What has been read of a group: the finished branches and the expressions of the branch, the last one first. -/
structure Frame where
  alts : List Ere := []
  branch : List Ere := []

namespace Frame

def sequence (f : Frame) : Ere := f.branch.foldl (fun e a => seq a e) empty

def expression (f : Frame) : Ere := f.alts.foldl (fun e a => alt a e) f.sequence

def push (f : Frame) (e : Ere) : Frame := { f with branch := e :: f.branch }

def pushAll (f : Frame) (es : List Ere) : Frame := { f with branch := es.reverse ++ f.branch }

/-- The branch ends. -/
def bar (f : Frame) : Frame := ⟨f.sequence :: f.alts, []⟩

/-- The last expression of the branch is repeated, if there is one that is not an anchor. -/
def repeated (f : Frame) (min : Nat) (max : Option Nat) : Option Frame :=
  match f.branch with
  | [] => none
  | start :: _ => none
  | finish :: _ => none
  | e :: branch => some { f with branch := rep e min max :: branch }

end Frame

/-- Where a character stands; the texts so far of brackets, of a name in brackets and of braces have their last
character first. -/
inductive Mode where
  | plain
  | escaped
  | bracket (text : List Char)
  | named (kind : Char) (name text : List Char)
  | interval (text : List Char)

/-- What a reader does with a character. -/
inductive Action where
  | push (e : Ere)
  | rep (min : Nat) (max : Option Nat)
  | bar
  | opening
  | closing
  | wait (mode : Mode)
  | undefined

/-- The characters of a class. -/
def classRanges (name : String) : Option (List (Char × Char)) :=
  match name with
  | "upper" => some [('A', 'Z')]
  | "lower" => some [('a', 'z')]
  | "alpha" => some [('A', 'Z'), ('a', 'z')]
  | "digit" => some [('0', '9')]
  | "alnum" => some [('0', '9'), ('A', 'Z'), ('a', 'z')]
  | "xdigit" => some [('0', '9'), ('A', 'F'), ('a', 'f')]
  | "space" => some [('\t', '\r'), (' ', ' ')]
  | "blank" => some [('\t', '\t'), (' ', ' ')]
  | "punct" => some [('!', '/'), (':', '@'), ('[', '\x60'), ('\x7b', '~')]
  | "print" => some [(' ', '~')]
  | "graph" => some [('!', '~')]
  | "cntrl" => some [('\x00', '\x1f'), ('\x7f', '\x7f')]
  | _ => none

/-- What a name in brackets stands for: a class, or a single character. -/
def namedItem (kind : Char) (name : List Char) : Option (List (Char × Char)) :=
  match name with
  | [c] => if kind = ':' then none else some [(c, c)]
  | name => if kind = ':' then classRanges (String.ofList name) else none

/-- The kinds of names in brackets. -/
def kinds : List Char := ['.', '=', ':']

/-- The items between brackets: names, ranges and characters.  A name is no end of a range. -/
def readItems : Nat → List Char → Option (List (Char × Char))
  | _, [] => some []
  | 0, _ :: _ => none
  | fuel + 1, c :: cs =>
    if c = '[' ∧ ∃ kind ∈ cs.head?, kind ∈ kinds then
      (Delimited.cut [cs.headD '.', ']'] cs.tail).bind fun (name, rest) =>
        if rest.head? = some '-' ∧ rest.tail ≠ [] then none
        else (namedItem (cs.headD '.') name).bind fun item => (readItems fuel rest).map (item ++ ·)
    else
      match cs with
      | '-' :: d :: ds =>
        if c ≤ d ∧ ¬ (d = '[' ∧ ∃ kind ∈ ds.head?, kind ∈ kinds) then (readItems fuel ds).map ((c, d) :: ·) else none
      | cs => (readItems fuel cs).map ((c, c) :: ·)

/-- The set between brackets. -/
def readSet : List Char → Option CharSet
  | '^' :: cs => (readItems cs.length cs).map (.ranges true)
  | cs => (readItems cs.length cs).map (.ranges false)

def readNumber (digits : List Char) : Option Nat :=
  if digits.isEmpty || !digits.all Char.isDigit then none else some (Nat.ofDigitChars 10 digits 0)

/-- The bounds between braces. -/
def readInterval (text : List Char) : Option (Nat × Option Nat) :=
  match text.idxOf? ',' with
  | none => (readNumber text).map fun n => (n, some n)
  | some k =>
    (readNumber (text.take k)).bind fun min =>
      if text.drop (k + 1) = [] then some (min, none)
      else (readNumber (text.drop (k + 1))).bind fun max => if min ≤ max then some (min, some max) else none

/-- The characters with a meaning of their own outside brackets. -/
def specials : List Char := ['.', '^', '$', '|', '(', ')', '*', '+', '?', '{', '[', '\\', '\n']

def plainAction : Char → Action
  | '.' => .push (one .any)
  | '^' => .push start
  | '$' => .push finish
  | '|' => .bar
  | '(' => .opening
  | ')' => .closing
  | '*' => .rep 0 none
  | '+' => .rep 1 none
  | '?' => .rep 0 (some 1)
  | '{' => .wait (.interval [])
  | '[' => .wait (.bracket [])
  | '\\' => .wait .escaped
  | '\n' => .undefined
  | c => .push (one (.single c))

def Mode.action : Mode → Char → Action
  | plain, c => plainAction c
  | escaped, c => if c ∈ specials ∧ c ≠ '\n' then .push (one (.single c)) else .undefined
  | bracket text, c =>
    if c = ']' ∧ text ≠ [] ∧ text ≠ ['^'] then
      match readSet text.reverse with
      | some set => .push (one set)
      | none => .undefined
    else if c = '\n' then .undefined
    else if text.head? = some '[' ∧ c ∈ kinds then .wait (.named c [] (c :: text))
    else .wait (.bracket (c :: text))
  | named kind name text, c =>
    if c = '\n' then .undefined
    else if c = ']' ∧ name.head? = some kind ∧ name.tail ≠ [] then .wait (.bracket (c :: text))
    else .wait (.named kind (c :: name) (c :: text))
  | interval text, c =>
    if c = '\x7d' then
      match readInterval text.reverse with
      | some (min, max) => .rep min max
      | none => .undefined
    else .wait (.interval (c :: text))

/-- What has been read of a text: outside groups, and in the open groups, the innermost first. -/
structure Reader where
  bottom : Frame := {}
  groups : List Frame := []
  mode : Mode := .plain

namespace Reader

def current (r : Reader) : Frame := r.groups.headD r.bottom

/-- The innermost frame is changed. -/
def update (r : Reader) (f : Frame) : Reader :=
  match r.groups with
  | [] => ⟨f, [], .plain⟩
  | _ :: groups => ⟨r.bottom, f :: groups, .plain⟩

def act (r : Reader) : Action → Option Reader
  | .push e => some (r.update (r.current.push e))
  | .rep min max => (r.current.repeated min max).map r.update
  | .bar => some (r.update r.current.bar)
  | .opening => some ⟨r.bottom, {} :: r.groups, .plain⟩
  | .closing =>
    match r.groups with
    | [] => none
    | g :: groups => some (update ⟨r.bottom, groups, .plain⟩ ((current ⟨r.bottom, groups, .plain⟩).push g.expression))
  | .wait mode => some { r with mode := mode }
  | .undefined => none

def step (r : Reader) (c : Char) : Option Reader := r.act (r.mode.action c)

def result (r : Reader) : Option Ere :=
  match r.groups, r.mode with
  | [], .plain => some r.bottom.expression
  | _, _ => none

/-- The same below some more branches. -/
def above (r : Reader) (alts : List Ere) : Reader :=
  { r with bottom := { r.bottom with alts := r.bottom.alts ++ alts } }

end Reader

/-- The expression of a text. -/
def read (text : List Char) : Option Ere := (text.foldlM Reader.step {}).bind Reader.result

theorem read_eq_some_iff {text : List Char} {e : Ere} :
    read text = some e ↔ ∃ f : Frame, text.foldlM Reader.step {} = some ⟨f, [], .plain⟩ ∧ f.expression = e := by
  rw [read, Option.bind_eq_some_iff]
  constructor
  · rintro ⟨⟨f, groups, mode⟩, hr, hresult⟩
    cases groups with
    | nil =>
      cases mode with
      | plain => exact ⟨f, hr, Option.some.inj hresult⟩
      | _ => cases hresult
    | cons g groups => cases hresult
  · rintro ⟨f, hr, rfl⟩
    exact ⟨_, hr, rfl⟩

/-! ### Branches -/

private theorem matches_foldl_seq {input : List Char} (branch : List Ere) : ∀ {e : Ere} {i j : Nat},
    Matches input (branch.foldl (fun e a => seq a e) e) i j ↔
      ∃ k, Matches input (branch.foldl (fun e a => seq a e) empty) i k ∧ Matches input e k j := by
  induction branch with
  | nil =>
    intro e i j
    simp [Matches]
  | cons a branch ih =>
    intro e i j
    rw [List.foldl_cons, List.foldl_cons, ih]
    constructor
    · rintro ⟨k, hk, l, ha, he⟩
      exact ⟨l, ih.2 ⟨k, hk, l, ha, rfl⟩, he⟩
    · rintro ⟨l, hl, he⟩
      obtain ⟨k, hk, l', ha, rfl⟩ := ih.1 hl
      exact ⟨k, hk, l', ha, he⟩

private theorem Frame.matches_sequence_push {input : List Char} {f : Frame} {e : Ere} {i j : Nat} :
    Matches input (f.push e).sequence i j ↔ ∃ k, Matches input f.sequence i k ∧ Matches input e k j := by
  rw [sequence, push, List.foldl_cons, matches_foldl_seq]
  simp [Matches, sequence]

theorem Frame.pushAll_cons (f : Frame) (e : Ere) (es : List Ere) : f.pushAll (e :: es) = (f.push e).pushAll es := by
  rw [pushAll, List.reverse_cons, List.append_assoc]
  rfl

/-- An expression matches where one of its branches does. -/
private theorem Frame.matches_expression {input : List Char} {f : Frame} {i j : Nat} :
    Matches input f.expression i j ↔ Matches input f.sequence i j ∨ ∃ a ∈ f.alts, Matches input a i j := by
  have hfold : ∀ (alts : List Ere) (e : Ere), Matches input (alts.foldl (fun e a => alt a e) e) i j ↔
      Matches input e i j ∨ ∃ a ∈ alts, Matches input a i j := by
    intro alts
    induction alts with
    | nil => simp
    | cons a alts ih =>
      intro e
      rw [List.foldl_cons, ih, Matches]
      simp only [List.mem_cons, exists_eq_or_imp]
      tauto
  exact hfold f.alts f.sequence

private theorem occurs_expression {input : List Char} {f : Frame} :
    f.expression.Occurs input ↔ f.sequence.Occurs input ∨ ∃ a ∈ f.alts, a.Occurs input := by
  simp only [Occurs, Frame.matches_expression]
  constructor
  · rintro ⟨i, j, hi, h | ⟨a, ha, h⟩⟩
    · exact .inl ⟨i, j, hi, h⟩
    · exact .inr ⟨a, ha, i, j, hi, h⟩
  · rintro (⟨i, j, hi, h⟩ | ⟨a, ha, i, j, hi, h⟩)
    · exact ⟨i, j, hi, .inl h⟩
    · exact ⟨i, j, hi, .inr ⟨a, ha, h⟩⟩

/-! ### What stands before a text -/

namespace Reader

@[simp] theorem mode_above (r : Reader) (alts : List Ere) : (r.above alts).mode = r.mode := rfl

@[simp] theorem groups_above (r : Reader) (alts : List Ere) : (r.above alts).groups = r.groups := rfl

/-- A step does not depend on the branches that have been read before. -/
private theorem step_above (r : Reader) (alts : List Ere) (c : Char) :
    (r.above alts).step c = (r.step c).map (·.above alts) := by
  obtain ⟨⟨bottomAlts, branch⟩, groups, mode⟩ := r
  rw [step, step, mode_above]
  cases mode.action c with
  | push e => cases groups <;> rfl
  | rep min max =>
    cases groups with
    | nil =>
      cases branch with
      | nil => rfl
      | cons e branch => cases e <;> rfl
    | cons g groups =>
      obtain ⟨galts, gbranch⟩ := g
      cases gbranch with
      | nil => rfl
      | cons e gbranch => cases e <;> rfl
  | bar => cases groups <;> rfl
  | opening => rfl
  | closing =>
    cases groups with
    | nil => rfl
    | cons g groups => cases groups <;> rfl
  | wait mode => rfl
  | undefined => rfl

private theorem foldlM_above (text : List Char) : ∀ (r : Reader) (alts : List Ere),
    text.foldlM step (r.above alts) = (text.foldlM step r).map (·.above alts) := by
  induction text with
  | nil =>
    intro r alts
    rfl
  | cons c text ih =>
    intro r alts
    rw [List.foldlM_cons, List.foldlM_cons, step_above]
    cases r.step c with
    | none => rfl
    | some r' => exact ih r' alts

end Reader

/-- A bar between two expressions. -/
theorem read_bar {s t : List Char} {e f : Ere} (he : read s = some e) (hf : read t = some f) :
    ∃ g, read (s ++ '|' :: t) = some g ∧ ∀ input, g.Occurs input ↔ e.Occurs input ∨ f.Occurs input := by
  obtain ⟨left, hleft, rfl⟩ := read_eq_some_iff.1 he
  obtain ⟨right, hright, rfl⟩ := read_eq_some_iff.1 hf
  have hbar : Reader.step ⟨left, [], .plain⟩ '|' = some (Reader.above {} (left.sequence :: left.alts)) := rfl
  refine ⟨_, read_eq_some_iff.2 ⟨⟨right.alts ++ left.sequence :: left.alts, right.branch⟩, ?_, rfl⟩, ?_⟩
  · rw [List.foldlM_append, hleft, Option.bind_eq_bind, Option.bind_some, List.foldlM_cons, hbar, Option.bind_eq_bind,
      Option.bind_some, Reader.foldlM_above, hright]
    rfl
  · intro input
    simp only [occurs_expression, List.mem_append, List.mem_cons, Frame.sequence, or_and_right, exists_or,
      exists_eq_left]
    exact or_assoc.symm.trans or_comm

/-- The characters that stand for themselves. -/
def ordinary (c : Char) : Bool := !specials.contains c

private theorem plainAction_of_ordinary {c : Char} (h : ordinary c = true) :
    plainAction c = .push (one (.single c)) := by
  rw [plainAction] <;> (rintro rfl; exact absurd h (by decide))

def literals (s : List Char) : List Ere := s.map fun c => one (.single c)

private theorem foldlM_ordinary {s : List Char} (h : ∀ c ∈ s, ordinary c = true) : ∀ f : Frame,
    s.foldlM Reader.step ⟨f, [], .plain⟩ = some ⟨f.pushAll (literals s), [], .plain⟩ := by
  induction s with
  | nil =>
    intro f
    rfl
  | cons c s ih =>
    intro f
    obtain ⟨hc, hs⟩ := List.forall_mem_cons.1 h
    have hstep : Reader.step ⟨f, [], .plain⟩ c = some ⟨f.push (one (.single c)), [], .plain⟩ := by
      rw [Reader.step, Mode.action, plainAction_of_ordinary hc]
      rfl
    rw [List.foldlM_cons, hstep, Option.bind_eq_bind, Option.bind_some, literals, List.map_cons, Frame.pushAll_cons]
    exact ih hs _

/-- Repetitions of a character behind an expression do not change where it occurs. -/
theorem read_star {s : List Char} {e : Ere} (he : read s = some e) {c : Char} (hc : ordinary c = true) :
    ∃ g, read (s ++ [c, '*']) = some g ∧ ∀ input, g.Occurs input ↔ e.Occurs input := by
  obtain ⟨f, hf, rfl⟩ := read_eq_some_iff.1 he
  have hchar := foldlM_ordinary (List.forall_mem_singleton.2 hc) f
  have hstar : Reader.step ⟨f.push (one (.single c)), [], .plain⟩ '*' =
      some ⟨f.push (rep (one (.single c)) 0 none), [], .plain⟩ := rfl
  refine ⟨_, read_eq_some_iff.2 ⟨f.push (rep (one (.single c)) 0 none), ?_, rfl⟩, ?_⟩
  · rw [List.append_cons s c ['*'], List.foldlM_append, List.foldlM_append, hf, Option.bind_eq_bind,
      Option.bind_some, hchar, Option.bind_some]
    exact hstar
  · intro input
    have hsequence : (f.push (rep (one (.single c)) 0 none)).sequence.Occurs input ↔ f.sequence.Occurs input := by
      constructor
      · rintro ⟨i, j, hi, h⟩
        obtain ⟨k, hk, -⟩ := Frame.matches_sequence_push.1 h
        exact ⟨i, k, hi, hk⟩
      · rintro ⟨i, j, hi, h⟩
        exact ⟨i, j, hi, Frame.matches_sequence_push.2 ⟨j, h, 0, le_rfl, nofun, rfl⟩⟩
    rw [occurs_expression, occurs_expression, hsequence]
    rfl

/-- A text without special characters occurs where it is a part of the line. -/
theorem matches_ordinary {input : List Char} (s : List Char) : ∀ {f : Frame} {i j : Nat},
    Matches input (f.pushAll (literals s)).sequence i j ↔
      ∃ k, Matches input f.sequence i k ∧ j = k + s.length ∧ s <+: input.drop k := by
  induction s with
  | nil =>
    intro f i j
    simp [literals, Frame.pushAll]
  | cons c s ih =>
    intro f i j
    rw [literals, List.map_cons, Frame.pushAll_cons]
    rw [← literals, ih]
    constructor
    · rintro ⟨k, hk, rfl, hs⟩
      obtain ⟨l, hl, rfl, d, hd, hc⟩ := Frame.matches_sequence_push.1 hk
      obtain rfl := beq_iff_eq.1 hc
      obtain ⟨hlt, rfl⟩ := List.getElem?_eq_some_iff.1 hd
      refine ⟨l, hl, ?_, ?_⟩
      · rw [List.length_cons, Nat.add_assoc, Nat.add_comm 1]
      · rw [List.drop_eq_getElem_cons hlt]
        exact List.cons_prefix_cons.2 ⟨rfl, hs⟩
    · rintro ⟨l, hl, rfl, hs⟩
      have hlt : l < input.length := by
        have hle := hs.length_le
        rw [List.length_cons, List.length_drop] at hle
        omega
      rw [List.drop_eq_getElem_cons hlt] at hs
      obtain ⟨hc, hs⟩ := List.cons_prefix_cons.1 hs
      refine ⟨l + 1, Frame.matches_sequence_push.2 ⟨l, hl, rfl, input[l], ?_, ?_⟩, ?_, hs⟩
      · exact List.getElem?_eq_getElem hlt
      · exact beq_iff_eq.2 hc.symm
      · rw [List.length_cons, Nat.add_assoc, Nat.add_comm 1]

theorem read_ordinary {s : List Char} (h : ∀ c ∈ s, ordinary c = true) :
    ∃ e, read s = some e ∧ ∀ input, e.Occurs input ↔ s <:+: input := by
  refine ⟨_, read_eq_some_iff.2 ⟨_, foldlM_ordinary h {}, rfl⟩, ?_⟩
  intro input
  have halts : (Frame.pushAll {} (literals s)).alts = [] := rfl
  rw [occurs_expression, halts]
  simp only [List.not_mem_nil, false_and, exists_false, or_false, Occurs, matches_ordinary]
  constructor
  · rintro ⟨i, j, hi, k, -, -, hs⟩
    exact hs.isInfix.trans (List.drop_suffix k input).isInfix
  · rintro ⟨before, after, rfl⟩
    exact ⟨before.length, _, by simp, before.length, rfl, rfl, by simp⟩

end Ere

import Mathlib.Algebra.Group.Int.Defs
import Mathlib.Data.Char
import Mathlib.Data.List.Lex
import Mathlib.Data.List.Sort
import R4R.Lib.Except
import R4R.Lib.Lines

/-!
# JSON

The values, the printer and the parser of `json.h`.  A text is its bytes, each as the character of that number.  The
parser is a function of `rest`, the part of `input_` from `pos_` on; `size` is `input_.size()`, so that `pos_` is
`size - rest.length`.  Of the type `double` only what `from_chars` makes of a decimal numeral is used.
-/

namespace R4R

open Lines

/-- An object is the list of its elements in the order of their keys. -/
inductive JsonValue (D : Type) where
  | null
  | bool (b : Bool)
  | int (i : Int32)
  | double (d : D)
  | string (s : List Char)
  | array (elems : List (JsonValue D))
  | object (members : List (List Char × JsonValue D))

abbrev JsonArray (D : Type) := List (JsonValue D)

abbrev JsonObject (D : Type) := List (List Char × JsonValue D)

/-- `emplace` of the map: a key that is present keeps its value. -/
def JsonObject.emplace {D : Type} (obj : JsonObject D) (key : List Char) (value : JsonValue D) : JsonObject D :=
  if key ∈ obj.map Prod.fst then obj else obj.orderedInsert (fun a b => a.1 ≤ b.1) (key, value)

/-- The values that there are: the keys of every object ascend. -/
inductive JsonValue.Ordered {D : Type} : JsonValue D → Prop
  | null : Ordered .null
  | bool (b : Bool) : Ordered (.bool b)
  | int (i : Int32) : Ordered (.int i)
  | double (d : D) : Ordered (.double d)
  | string (s : List Char) : Ordered (.string s)
  | array {elems : JsonArray D} (h : ∀ v ∈ elems, v.Ordered) : Ordered (.array elems)
  | object {members : JsonObject D} (hkeys : (members.map Prod.fst).Pairwise (· < ·))
      (h : ∀ m ∈ members, m.2.Ordered) : Ordered (.object members)

/-! ### The printer -/

/-- How the printer writes a character of a string. -/
def escape : Char → List Char
  | '"' => ['\\', '"']
  | '\\' => ['\\', '\\']
  | '\x08' => ['\\', 'b']
  | '\x0c' => ['\\', 'f']
  | '\n' => ['\\', 'n']
  | '\r' => ['\\', 'r']
  | '\t' => ['\\', 't']
  | c => [c]

def printInt (i : Int32) : List Char :=
  if i.toInt < 0 then '-' :: Nat.toDigits 10 i.toInt.natAbs else Nat.toDigits 10 i.toInt.natAbs

def printString (s : List Char) : List Char := '"' :: s.flatMap escape ++ ['"']

section

variable {D : Type} (printDouble : D → List Char)

mutual

/-- `JsonValuePrinter`. -/
def JsonValue.print : JsonValue D → List Char
  | .null => "null".toList
  | .bool b => if b then "true".toList else "false".toList
  | .int i => printInt i
  | .double d => printDouble d
  | .string s => printString s
  | .array elems => '[' :: printElements true elems ++ [']']
  | .object members => '\x7b' :: printMembers true members ++ ['\x7d']

/-- The loop of the printer over the elements of an array. -/
def printElements : Bool → JsonArray D → List Char
  | _, [] => []
  | first, elem :: elems => (if first then [] else [',']) ++ elem.print ++ printElements false elems

/-- The loop of the printer over the elements of an object. -/
def printMembers : Bool → JsonObject D → List Char
  | _, [] => []
  | first, (key, value) :: members =>
    (if first then [] else [',']) ++ printString key ++ ':' :: value.print ++ printMembers false members

end

end

/-! ### The parser -/

structure JsonParseError where
  msg : List Char
  pos : Nat
deriving DecidableEq

def JsonParseError.what (e : JsonParseError) : List Char := e.msg ++ " at offset ".toList ++ Nat.toDigits 10 e.pos

namespace JsonParser

/-- What ends the parser other than a value. -/
inductive Failure where
  | outOfFuel
  | thrown (e : JsonParseError)
deriving DecidableEq

/-- `throw JsonParseError(msg, pos_)`. -/
def throwAt {α : Type} (size : Nat) (msg rest : List Char) : Except Failure α :=
  .error (.thrown ⟨msg, size - rest.length⟩)

def current (rest : List Char) : Char := rest.headD '\x00'

def next (rest : List Char) (n : Nat) : List Char := rest.drop n

def skipWhitespace (rest : List Char) : List Char := rest.dropWhile isSpace

/-- The characters that the escapes of `parse_string` stand for. -/
def unescape : Char → Option Char
  | '"' => some '"'
  | '\\' => some '\\'
  | '/' => some '/'
  | 'b' => some '\x08'
  | 'f' => some '\x0c'
  | 'n' => some '\n'
  | 'r' => some '\r'
  | 't' => some '\t'
  | _ => none

/-- The loop of `parse_string`. -/
def stringLoop (size : Nat) : List Char → List Char → Except Failure (List Char × List Char)
  | _, [] => throwAt size "Unterminated string".toList []
  | str, c :: rest =>
    if c = '"' then .ok (str, rest)
    else if c = '\\' then
      match rest with
      | [] => throwAt size "Invalid escape character".toList []
      | e :: rest' =>
        match unescape e with
        | some d => stringLoop size (str ++ [d]) rest'
        | none => throwAt size "Invalid escape character".toList rest
    else stringLoop size (str ++ [c]) rest

def parseString (size : Nat) (rest : List Char) : Except Failure (List Char × List Char) :=
  stringLoop size [] (next rest 1)

def parseBoolean (size : Nat) (rest : List Char) : Except Failure (Bool × List Char) :=
  if rest.take 4 = "true".toList then .ok (true, next rest 4)
  else if rest.take 5 = "false".toList then .ok (false, next rest 5)
  else throwAt size "Invalid boolean value".toList rest

def parseNull (size : Nat) (rest : List Char) : Except Failure (List Char) :=
  if rest.take 4 = "null".toList then .ok (next rest 4) else throwAt size "Invalid null value".toList rest

/-- The loop of `parse_number`: `is_dbl`, the characters that it has passed over, and the rest. -/
def numberLoop : Bool → List Char → List Char → Bool × List Char × List Char
  | isDbl, str, [] => (isDbl, str, [])
  | isDbl, str, c :: rest =>
    if c.isDigit then numberLoop isDbl (str ++ [c]) rest
    else if c = '.' then numberLoop true (str ++ [c]) rest
    else if c = 'e' ∨ c = 'E' then
      match rest with
      | [] => (true, str ++ [c], [])
      | s :: rest' =>
        if s = '+' ∨ s = '-' then numberLoop true (str ++ [c, s]) rest' else numberLoop true (str ++ [c]) (s :: rest')
    else (isDbl, str, c :: rest)

/-- The characters that `parse_number` passes over. -/
def scanNumber (rest : List Char) : Bool × List Char × List Char :=
  if current rest = '-' then numberLoop false ['-'] (next rest 1) else numberLoop false [] rest

/-- What `from_chars` makes of a text, `invalid` when it does not read it to its end. -/
inductive FromChars (α : Type) where
  | invalid
  | outOfRange
  | value (a : α)

/-- An integer as `from_chars` reads it: its sign and its digits. -/
def signed (str : List Char) : Bool × List Char :=
  match str with
  | '-' :: digits => (true, digits)
  | digits => (false, digits)

/-- `from_chars` for an `int`. -/
def fromCharsInt (str : List Char) : FromChars Int32 :=
  let digits := (signed str).2
  let n := Nat.ofDigitChars 10 digits 0
  let i : Int := if (signed str).1 then -n else n
  if digits.isEmpty || !digits.all Char.isDigit then .invalid
  else if -2 ^ 31 ≤ i ∧ i < 2 ^ 31 then .value (Int32.ofInt i)
  else .outOfRange

/-- The exponents of the decimal numerals. -/
def isExponent : List Char → Bool
  | [] => true
  | c :: str =>
    (c == 'e' || c == 'E') &&
      let digits := match str with
        | '+' :: digits => digits
        | '-' :: digits => digits
        | digits => digits
      !digits.isEmpty && digits.all Char.isDigit

/-- Digits with at most one point among them and an optional exponent. -/
def isUnsigned (str : List Char) : Bool :=
  let whole := str.takeWhile Char.isDigit
  match str.dropWhile Char.isDigit with
  | '.' :: str =>
    let frac := str.takeWhile Char.isDigit
    (!whole.isEmpty || !frac.isEmpty) && isExponent (str.dropWhile Char.isDigit)
  | str => !whole.isEmpty && isExponent str

/-- The decimal numerals that `from_chars` reads as a `double`. -/
def isDecimal (str : List Char) : Bool := isUnsigned (signed str).2

section

variable {D : Type} (fromDecimal : List Char → Option D) (size : Nat)

/-- `from_chars` for a `double`; `fromDecimal` has no value for a numeral that is out of range. -/
def fromCharsDouble (str : List Char) : Option D := if isDecimal str then fromDecimal str else none

/-- The value of the characters that `parse_number` has passed over. -/
def numberValue (isDbl : Bool) (str : List Char) : Option (JsonValue D) :=
  let double := (fromCharsDouble fromDecimal str).map JsonValue.double
  if isDbl then double
  else
    match fromCharsInt str with
    | .invalid => none
    | .value i => some (.int i)
    -- out of range falls to the double case
    | .outOfRange => double

def parseNumber (rest : List Char) : Except Failure (JsonValue D × List Char) :=
  let (isDbl, str, rest') := scanNumber rest
  match numberValue fromDecimal isDbl str with
  | some value => .ok (value, rest')
  | none => throwAt size "Invalid number format".toList rest

mutual

def parseValue : Nat → List Char → Except Failure (JsonValue D × List Char)
  | 0, _ => .error .outOfFuel
  | fuel + 1, rest => do
    let rest := skipWhitespace rest
    let c := current rest
    if c = '\x7b' then
      let (obj, rest) ← parseObject fuel [] (next rest 1)
      .ok (.object obj, rest)
    else if c = '[' then
      let (arr, rest) ← parseArray fuel [] (next rest 1)
      .ok (.array arr, rest)
    else if c = '"' then
      let (str, rest) ← parseString size rest
      .ok (.string str, rest)
    else if c = 't' ∨ c = 'f' then
      let (b, rest) ← parseBoolean size rest
      .ok (.bool b, rest)
    else if c = 'n' then
      let rest ← parseNull size rest
      .ok (.null, rest)
    else if c = '-' ∨ c.isDigit then parseNumber fromDecimal size rest
    else throwAt size ("Unexpected character '".toList ++ [c, '\'']) rest

/-- The loop of `parse_object`. -/
def parseObject : Nat → JsonObject D → List Char → Except Failure (JsonObject D × List Char)
  | 0, _, _ => .error .outOfFuel
  | fuel + 1, obj, rest => do
    let rest := skipWhitespace rest
    if current rest = '\x7d' then .ok (obj, next rest 1)
    else
      let (key, rest) ← parseString size rest
      let rest := skipWhitespace rest
      if current rest ≠ ':' then throwAt size "Expected ':'".toList rest
      else
        let (value, rest) ← parseValue fuel (next rest 1)
        let obj := JsonObject.emplace obj key value
        let rest := skipWhitespace rest
        if current rest = ',' then parseObject fuel obj (next rest 1)
        else if current rest ≠ '\x7d' then throwAt size "Expected ',' or '\x7d'".toList rest
        else parseObject fuel obj rest

/-- The loop of `parse_array`. -/
def parseArray : Nat → JsonArray D → List Char → Except Failure (JsonArray D × List Char)
  | 0, _, _ => .error .outOfFuel
  | fuel + 1, arr, rest => do
    let rest := skipWhitespace rest
    if current rest = ']' then .ok (arr, next rest 1)
    else
      let (value, rest) ← parseValue fuel rest
      let arr := arr ++ [value]
      let rest := skipWhitespace rest
      if current rest = ',' then parseArray fuel arr (next rest 1)
      else if current rest ≠ ']' then throwAt size "Expected ',' or ']'".toList rest
      else parseArray fuel arr rest

end

end

/-- `JsonParser::parse`; the fuel is enough for every text (`parse_total`). -/
def parse {D : Type} (fromDecimal : List Char → Option D) (input : List Char) : Except Failure (JsonValue D) := do
  let (value, rest) ← parseValue fromDecimal input.length (2 * input.length + 1) input
  if rest.isEmpty then .ok value
  else throwAt input.length ("Unexpected reminder after JSON value parsed: ".toList ++ rest) rest

end JsonParser

end R4R

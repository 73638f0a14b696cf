import R4R.Json
import R4R.Lib.JsonText

/-!
# The grammar of JSON

The grammar of RFC 8259 with the liberties that a reader of JSON may take.  A derivation relates a text to the value
that it denotes and to the part of the text behind it, and it records as marks which liberties and which features it
uses: a text of the RFC is one whose marks are all among those of `Mark.rfc8259`.  The grammar is unambiguous, marks
included (`IsText.unique`).
-/

namespace R4R

open Lines

/-- What a reader of JSON may or may not allow. -/
inductive Mark where
  /-- A vertical tab or a form feed as white space. -/
  | foreignSpace
  /-- A control character that stands for itself in a string. -/
  | rawControl
  /-- An escape with the four hexadecimal digits of a code unit. -/
  | unicodeEscape
  /-- A number other than an `int` without leading zeros. -/
  | otherNumber
  /-- A key that occurs twice in an object. -/
  | duplicateKey
  /-- A key whose first character is not a quote. -/
  | unopenedKey
  /-- A comma before a closing bracket. -/
  | trailingComma
deriving DecidableEq

/-- The marks that texts of RFC 8259 may have. -/
def Mark.rfc8259 (m : Mark) : Prop := m = .unicodeEscape ∨ m = .otherNumber ∨ m = .duplicateKey

/-- The marks of the lexical level: what is white space and which characters and numbers a token may have. -/
def Mark.lexical (m : Mark) : Prop := m.rfc8259 ∨ m = .foreignSpace ∨ m = .rawControl

/-- White space. -/
inductive Blank : List Mark → List Char → List Char → Prop
  | nil (rest : List Char) : Blank [] rest rest
  | cons {marks : List Mark} {text rest : List Char} (c : Char) (hc : isSpace c = true) (h : Blank marks text rest) :
    Blank ((if JsonText.isWs c then [] else [.foreignSpace]) ++ marks) (c :: text) rest

/-- The bytes of a character in UTF-8. -/
def utf8 (c : Char) : List Char := (String.utf8EncodeChar c).map fun b => Char.ofNat b.toNat

/-- A string behind its first character: the bytes it denotes. -/
inductive StringBody : List Char → List Mark → List Char → List Char → Prop
  | close (rest : List Char) : StringBody [] [] ('"' :: rest) rest
  | plain {s : List Char} {marks : List Mark} {text rest : List Char} (c : Char) (hq : c ≠ '"') (hb : c ≠ '\\')
      (h : StringBody s marks text rest) :
    StringBody (c :: s) ((if JsonText.isUnescaped c then [] else [.rawControl]) ++ marks) (c :: text) rest
  | escape {s : List Char} {marks : List Mark} {text rest : List Char} (e c : Char)
      (he : JsonText.shortEscape e = some c) (h : StringBody s marks text rest) :
    StringBody (c :: s) marks ('\\' :: e :: text) rest
  | unicode {s : List Char} {marks : List Mark} {text rest : List Char} (a b c d : Char) (n : Nat)
      (hn : JsonText.codeUnit a b c d = some n) (hhigh : JsonText.isHigh n = false) (hlow : JsonText.isLow n = false)
      (h : StringBody s marks text rest) :
    StringBody (utf8 (Char.ofNat n) ++ s) (.unicodeEscape :: marks) ('\\' :: 'u' :: a :: b :: c :: d :: text) rest
  | pair {s : List Char} {marks : List Mark} {text rest : List Char} (a b c d e f g h' : Char) (m n : Nat)
      (hm : JsonText.codeUnit a b c d = some m) (hhigh : JsonText.isHigh m = true)
      (hn : JsonText.codeUnit e f g h' = some n) (hlow : JsonText.isLow n = true) (h : StringBody s marks text rest) :
    StringBody (utf8 (Char.ofNat (0x10000 + (m - 0xD800) * 0x400 + (n - 0xDC00))) ++ s) (.unicodeEscape :: marks)
      ('\\' :: 'u' :: a :: b :: c :: d :: '\\' :: 'u' :: e :: f :: g :: h' :: text) rest

/-- The number that an optional minus sign and digits write. -/
def IsInteger (lexeme : List Char) (i : Int) : Prop :=
  ∃ (neg : Bool) (digits : List Char), lexeme = (if neg then ['-'] else []) ++ digits ∧ digits ≠ [] ∧
    (∀ c ∈ digits, c.isDigit = true) ∧
    i = (if neg then -(Nat.ofDigitChars 10 digits 0 : Int) else Nat.ofDigitChars 10 digits 0)

def leadingZero (lexeme : List Char) : Bool :=
  match lexeme with
  | '-' :: '0' :: _ :: _ => true
  | '0' :: _ :: _ => true
  | _ => false

/-- The rest does not continue a number. -/
def Ends (rest : List Char) : Prop := ∀ c ∈ rest.head?, c.isDigit = false ∧ c ≠ '.' ∧ c ≠ 'e' ∧ c ≠ 'E'

/-- What a derivation is about. -/
inductive Symbol (D : Type) where
  | value (v : JsonValue D)
  /-- The elements of an array, behind its bracket when they are all of them and else behind a comma. -/
  | elements (all : Bool) (vs : List (JsonValue D))
  | member (key : List Char) (v : JsonValue D)
  | members (all : Bool) (ms : List (List Char × JsonValue D))

/-- The object of a list of members: a key keeps its first value. -/
def JsonObject.ofMembers {D : Type} (ms : List (List Char × JsonValue D)) : JsonObject D :=
  ms.foldl (fun obj m => obj.emplace m.1 m.2) []

section

variable {D : Type} (fromDecimal : List Char → Option D)

/-- The numbers: an integer that fits is an `int`, and everything else is a `double`. -/
inductive NumberToken : JsonValue D → List Mark → List Char → Prop
  | int {lexeme : List Char} (i : Int32) (h : IsInteger lexeme i.toInt) :
    NumberToken (.int i) (if leadingZero lexeme then [.otherNumber] else []) lexeme
  | double {lexeme : List Char} {d : D} (hint : ∀ i : Int32, ¬ IsInteger lexeme i.toInt)
      (hhead : lexeme.head? ≠ some '.') (hdec : JsonParser.isDecimal lexeme = true) (hd : fromDecimal lexeme = some d) :
    NumberToken (.double d) [.otherNumber] lexeme

inductive Derives : Symbol D → List Mark → List Char → List Char → Prop
  | nullLiteral (rest : List Char) : Derives (.value .null) [] ('n' :: 'u' :: 'l' :: 'l' :: rest) rest
  | trueLiteral (rest : List Char) : Derives (.value (.bool true)) [] ('t' :: 'r' :: 'u' :: 'e' :: rest) rest
  | falseLiteral (rest : List Char) : Derives (.value (.bool false)) [] ('f' :: 'a' :: 'l' :: 's' :: 'e' :: rest) rest
  | number {v : JsonValue D} {marks : List Mark} {lexeme text rest : List Char}
      (h : NumberToken fromDecimal v marks lexeme) (hend : Ends rest) (ht : text = lexeme ++ rest) :
    Derives (.value v) marks text rest
  | string {s : List Char} {marks : List Mark} {text rest : List Char} (h : StringBody s marks text rest) :
    Derives (.value (.string s)) marks ('"' :: text) rest
  | array {vs : List (JsonValue D)} {marks : List Mark} {text rest : List Char}
      (h : Derives (.elements true vs) marks text rest) : Derives (.value (.array vs)) marks ('[' :: text) rest
  | object {ms : List (List Char × JsonValue D)} {marks : List Mark} {text rest : List Char}
      (h : Derives (.members true ms) marks text rest) :
    Derives (.value (.object (JsonObject.ofMembers ms)))
      ((if (ms.map Prod.fst).Nodup then [] else [.duplicateKey]) ++ marks) ('\x7b' :: text) rest
  | noElements (all : Bool) {b : List Mark} {text rest : List Char} (hb : Blank b text (']' :: rest)) :
    Derives (.elements all []) (b ++ if all then [] else [.trailingComma]) text rest
  | lastElement (all : Bool) {v : JsonValue D} {b m b' : List Mark} {text text₁ text₂ rest : List Char}
      (hb : Blank b text text₁) (hv : Derives (.value v) m text₁ text₂) (hb' : Blank b' text₂ (']' :: rest)) :
    Derives (.elements all [v]) (b ++ m ++ b') text rest
  | element (all : Bool) {v : JsonValue D} {vs : List (JsonValue D)} {b m b' marks : List Mark}
      {text text₁ text₂ text₃ rest : List Char} (hb : Blank b text text₁) (hv : Derives (.value v) m text₁ text₂)
      (hb' : Blank b' text₂ (',' :: text₃)) (h : Derives (.elements false vs) marks text₃ rest) :
    Derives (.elements all (v :: vs)) (b ++ m ++ b' ++ marks) text rest
  -- the first character of a key is no white space and does not close the object
  | member {key : List Char} {v : JsonValue D} {mk b b' m : List Mark} {text text₁ text₂ text₃ rest : List Char}
      (c : Char) (hc : isSpace c = false) (hclose : c ≠ '\x7d') (hk : StringBody key mk text text₁)
      (hb : Blank b text₁ (':' :: text₂)) (hb' : Blank b' text₂ text₃) (hv : Derives (.value v) m text₃ rest) :
    Derives (.member key v) ((if c = '"' then [] else [.unopenedKey]) ++ mk ++ b ++ b' ++ m) (c :: text) rest
  | noMembers (all : Bool) {b : List Mark} {text rest : List Char} (hb : Blank b text ('\x7d' :: rest)) :
    Derives (.members all []) (b ++ if all then [] else [.trailingComma]) text rest
  | lastMember (all : Bool) {key : List Char} {v : JsonValue D} {b m b' : List Mark}
      {text text₁ text₂ rest : List Char} (hb : Blank b text text₁) (hm : Derives (.member key v) m text₁ text₂)
      (hb' : Blank b' text₂ ('\x7d' :: rest)) : Derives (.members all [(key, v)]) (b ++ m ++ b') text rest
  | moreMembers (all : Bool) {key : List Char} {v : JsonValue D} {ms : List (List Char × JsonValue D)}
      {b m b' marks : List Mark} {text text₁ text₂ text₃ rest : List Char} (hb : Blank b text text₁)
      (hm : Derives (.member key v) m text₁ text₂) (hb' : Blank b' text₂ (',' :: text₃))
      (h : Derives (.members false ms) marks text₃ rest) :
    Derives (.members all ((key, v) :: ms)) (b ++ m ++ b' ++ marks) text rest

/-- A whole text: a value with white space around it. -/
def IsText (marks : List Mark) (text : List Char) (v : JsonValue D) : Prop :=
  ∃ b m b' text₁ text₂, Blank b text text₁ ∧ Derives fromDecimal (.value v) m text₁ text₂ ∧ Blank b' text₂ [] ∧
    marks = b ++ m ++ b'

end

end R4R

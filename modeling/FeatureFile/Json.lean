/-
# FeatureFile.Json — reading JSON

Hosts hand over their formatter settings as JSON. The value type keeps what the settings need:
fields in the order in which they are written, repeated ones included, and natural numbers apart
from all other numbers, since only a plain run of digits is a size. A string with a lone surrogate
is well-formed but has no text.
-/

import FeatureFile.Text.Number

namespace FeatureFile

/-- A JSON value. -/
inductive Json where
  | null
  | bool (value : Bool)
  /-- A number written with digits only. -/
  | natural (n : Nat)
  /-- Any other number. -/
  | otherNumber
  | string (text : Option String)
  | array (items : List Json)
  | object (fields : List (Option String × Json))
  deriving Repr

namespace Json

/-! ## §A Blanks, numbers and strings -/

/-- Whether a character is white space between JSON values. -/
def isJsonBlank (c : Char) : Bool := c == ' ' || c == '\t' || c == '\n' || c == '\r'

/-- The text without the white space at its beginning. -/
def skipBlank (cs : List Char) : List Char := cs.dropWhile isJsonBlank

/-- The rest behind a run of at least one digit. -/
def afterDigits? (cs : List Char) : Option (List Char) :=
  if cs.head?.any Text.isAsciiDigit then some (cs.dropWhile Text.isAsciiDigit) else none

/-- The rest behind a fraction, if one begins here; nothing if it has no digits. -/
def afterFraction? : List Char → Option (List Char)
  | '.' :: rest => afterDigits? rest
  | cs => some cs

/-- The rest behind an exponent, if one begins here; nothing if it has no digits. -/
def afterExponent? : List Char → Option (List Char)
  | c :: rest =>
    if c == 'e' || c == 'E' then
      match rest with
      | s :: digits => if s == '+' || s == '-' then afterDigits? digits else afterDigits? rest
      | [] => none
    else some (c :: rest)
  | [] => some []

/-- The number at the beginning of a text, and the rest. A number of several digits does not begin
with a zero. -/
def readNumber? (cs : List Char) : Option (Json × List Char) := do
  let negative := cs.head? == some '-'
  let cs := if negative then cs.tail else cs
  let digits := cs.takeWhile Text.isAsciiDigit
  if digits.isEmpty || (digits.head? == some '0' && digits.length != 1) then none
  else
    let whole := cs.dropWhile Text.isAsciiDigit
    let rest ← afterFraction? whole
    let rest ← afterExponent? rest
    let plain := !negative && rest.length == whole.length
    return (if plain then natural (Text.decimal digits) else otherNumber, rest)

/-- The code unit of four hexadecimal digits, and the rest. -/
def readUnit? : List Char → Option (Nat × List Char)
  | a :: b :: c :: d :: rest => (Text.hexadecimal? 0 [a, b, c, d]).map fun n => (n, rest)
  | _ => none

/-- The characters that a backslash and a letter stand for. -/
def escapes : List (Char × Char) :=
  [('"', '"'), ('\\', '\\'), ('/', '/'), ('b', '\x08'), ('f', '\x0c'), ('n', '\n'), ('r', '\r'),
    ('t', '\t')]

/-- Code units as characters: a high and a low surrogate together are one character, and either
alone is none. -/
def decodeUnits : List (Nat ⊕ Char) → Option (List Char)
  | [] => some []
  | .inr c :: rest => (decodeUnits rest).map (c :: ·)
  | .inl high :: .inl low :: rest =>
    if 0xd800 ≤ high && high < 0xdc00 then
      if 0xdc00 ≤ low && low < 0xe000 then
        (decodeUnits rest).map
          (Char.ofNat (0x10000 + (high - 0xd800) * 0x400 + (low - 0xdc00)) :: ·)
      else none
    else if 0xdc00 ≤ high && high < 0xe000 then none
    else (decodeUnits (.inl low :: rest)).map (Char.ofNat high :: ·)
  | .inl unit :: rest =>
    if 0xd800 ≤ unit && unit < 0xe000 then none
    else (decodeUnits rest).map (Char.ofNat unit :: ·)

/-- The code units and characters of a string behind its opening quote, last first, and the rest.
The fuel bounds their number. -/
def readUnits? : Nat → List (Nat ⊕ Char) → List Char → Option (List (Nat ⊕ Char) × List Char)
  | 0, _, _ | _ + 1, _, [] => none
  | _ + 1, units, '"' :: rest => some (units, rest)
  | fuel + 1, units, '\\' :: 'u' :: rest => do
    let (unit, rest) ← readUnit? rest
    readUnits? fuel (.inl unit :: units) rest
  | fuel + 1, units, '\\' :: c :: rest => do
    let escaped ← escapes.lookup c
    readUnits? fuel (.inr escaped :: units) rest
  | fuel + 1, units, c :: rest =>
    if c.toNat < 0x20 || c == '\\' then none else readUnits? fuel (.inr c :: units) rest

/-- The text of a string behind its opening quote, and the rest. -/
def readString? (cs : List Char) : Option (Option String × List Char) :=
  (readUnits? (cs.length + 1) [] cs).map fun (units, rest) =>
    ((decodeUnits units.reverse).map String.ofList, rest)

/-- The rest behind a word. -/
def afterWord? (word : String) (cs : List Char) : Option (List Char) :=
  if word.toList.isPrefixOf cs then some (cs.drop word.length) else none

/-! ## §B Values -/

mutual

/-- The value at the beginning of a text, and the rest. The fuel bounds the depth and the number of
items. -/
def readValue? : Nat → List Char → Option (Json × List Char)
  | 0, _ => none
  | fuel + 1, cs =>
    match skipBlank cs with
    | '{' :: rest =>
      match skipBlank rest with
      | '}' :: rest => some (object [], rest)
      | rest => (readFields? fuel rest).map fun (fields, rest) => (object fields, rest)
    | '[' :: rest =>
      match skipBlank rest with
      | ']' :: rest => some (array [], rest)
      | rest => (readItems? fuel rest).map fun (items, rest) => (array items, rest)
    | '"' :: rest => (readString? rest).map fun (text, rest) => (string text, rest)
    | 't' :: rest => (afterWord? "rue" rest).map fun rest => (bool true, rest)
    | 'f' :: rest => (afterWord? "alse" rest).map fun rest => (bool false, rest)
    | 'n' :: rest => (afterWord? "ull" rest).map fun rest => (null, rest)
    | rest => readNumber? rest

/-- The items of an array up to its closing bracket, and the rest. -/
def readItems? : Nat → List Char → Option (List Json × List Char)
  | 0, _ => none
  | fuel + 1, cs =>
    match readValue? fuel cs with
    | none => none
    | some (item, rest) =>
      match skipBlank rest with
      | ']' :: rest => some ([item], rest)
      | ',' :: rest => (readItems? fuel rest).map fun (items, rest) => (item :: items, rest)
      | _ => none

/-- The fields of an object up to its closing brace, and the rest. -/
def readFields? : Nat → List Char → Option (List (Option String × Json) × List Char)
  | 0, _ => none
  | fuel + 1, cs =>
    match skipBlank cs with
    | '"' :: rest =>
      match readString? rest with
      | none => none
      | some (name, rest) =>
        match skipBlank rest with
        | ':' :: rest =>
          match readValue? fuel rest with
          | none => none
          | some (value, rest) =>
            match skipBlank rest with
            | '}' :: rest => some ([(name, value)], rest)
            | ',' :: rest =>
              (readFields? fuel rest).map fun (fields, rest) => ((name, value) :: fields, rest)
            | _ => none
        | _ => none
    | _ => none

end

/-- The value that a text writes, with nothing but white space around it. -/
def parse? (text : String) : Option Json :=
  match readValue? (2 * text.length + 2) text.toList with
  | some (value, rest) => if (skipBlank rest).isEmpty then some value else none
  | none => none

/-- The value of the last field of a name. -/
def field? (name : String) : Json → Option Json
  | object fields => (fields.reverse.lookup (some name))
  | _ => none

end Json

end FeatureFile

/-
# FeatureFile.Regex.Escape — what a backslash stands for

A backslash makes a literal of a character that means something, a control character, a set or an
assertion of a letter, a character of its code point in hexadecimal digits, and a set of the name of
a property.
-/

import FeatureFile.Regex.Flags
import FeatureFile.Text.Number

namespace FeatureFile

namespace Regex

/-- What an escape stands for. -/
inductive Escape where
  | literal (c : Char)
  | set (s : CharSet)
  | check (a : Assertion)
  deriving DecidableEq, Repr

/-! ## §A Letters -/

/-- The set of decimal digits, white space or word characters under the flags. -/
def letterSet? (flags : Flags) (letter : Char) : Option CharSet :=
  match letter with
  | 'd' => if flags.ascii then CharSet.asciiClass? "digit" else some .digits
  | 's' => if flags.ascii then CharSet.asciiClass? "space" else some .whiteSpace
  | 'w' => if flags.ascii then some .asciiWordCharacters else some .wordCharacters
  | _ => none

/-- The control characters that are written with a letter. -/
def control? : Char → Option Char
  | 'a' => some '\x07'
  | 'f' => some '\x0c'
  | 't' => some '\t'
  | 'n' => some '\n'
  | 'r' => some '\r'
  | 'v' => some '\x0b'
  | _ => none

/-- The assertions that are written with one character. -/
def assertion? (flags : Flags) : Char → Option Assertion
  | 'A' => some .textStart
  | 'z' => some .textEnd
  | 'b' => some (.word .boundary flags.ascii)
  | 'B' => some (.word .noBoundary flags.ascii)
  | '<' => some (.word .start flags.ascii)
  | '>' => some (.word .finish flags.ascii)
  | _ => none

/-- Whether an escaped character stands for itself: ASCII, and neither a letter nor a digit. -/
def isEscapable (c : Char) : Bool := c.toNat < 128 && !c.isAlphanum

/-- What an escaped character stands for on its own. A capital letter stands for the complement of
the set of the small one. -/
def readLetter (flags : Flags) (c : Char) : Except Error Escape :=
  match control? c, assertion? flags c, letterSet? flags c.toLower with
  | some c, _, _ => .ok (.literal c)
  | none, some a, _ => .ok (.check a)
  | none, none, some s => (flags.negate c.isUpper s).map .set
  | none, none, none => if isEscapable c then .ok (.literal c) else .error .badEscape

/-! ## §B Word boundaries with a name -/

/-- The word boundaries that are written with a name in braces. -/
def namedBoundary? (name : String) : Option WordPlace :=
  match name with
  | "start" => some .start
  | "end" => some .finish
  | "start-half" => some .startHalf
  | "end-half" => some .finishHalf
  | _ => none

/-- Whether a character may stand in the name of a word boundary. -/
def isBoundaryNameChar (c : Char) : Bool := c.isAlpha || c == '-'

/-- A word boundary and the rest behind its letter. It takes a name in braces with it; braces around
anything else are left for a repetition. -/
def readBoundary (flags : Flags) (cs : List Char) : Except Error (Escape × List Char) :=
  let plain : Escape := .check (.word .boundary flags.ascii)
  match cs with
  | '{' :: rest =>
    match flags.span isBoundaryNameChar rest with
    | (_, []) => .error .badEscape
    | ([], _) => .ok (plain, cs)
    | (name, c :: after) =>
      match namedBoundary? (String.ofList name), c with
      | some place, '}' => .ok (.check (.word place flags.ascii), after)
      | _, _ => .error .badEscape
  | _ => .ok (plain, cs)

/-! ## §C Code points -/

/-- The character of a code point written in hexadecimal digits. -/
def charOfHex? (cs : List Char) : Option Char :=
  if cs.isEmpty then none
  else
    match Text.hexadecimal? 0 cs with
    | some n => if n.isValidChar then some (Char.ofNat n) else none
    | none => none

/-- A character given by its code point, and the rest: so many digits, or any number of them in
braces. Two digits write a byte, which is no character beyond ASCII where only ASCII is meant. -/
def readCodePoint (flags : Flags) (digits : Nat) (cs : List Char) :
    Except Error (Escape × List Char) :=
  match flags.skip cs with
  | '{' :: rest =>
    match flags.span (· != '}') rest with
    | (code, _ :: after) =>
      match charOfHex? code with
      | some c => .ok (.literal c, after)
      | none => .error .badEscape
    | (_, []) => .error .badEscape
  | cs =>
    match flags.take? digits cs with
    | some (code, after) =>
      match charOfHex? code with
      | some c =>
        if flags.ascii && digits == 2 && 0x80 ≤ c.toNat then .error .notAscii
        else .ok (.literal c, after)
      | none => .error .badEscape
    | none => .error .badEscape

/-! ## §D Properties -/

/-- The parts of a text before and behind the first occurrence of a mark. -/
def cut? (mark : List Char) : List Char → Option (List Char × List Char)
  | [] => none
  | c :: rest =>
    if mark.isPrefixOf (c :: rest) then some ([], (c :: rest).drop mark.length)
    else (cut? mark rest).map fun (before, after) => (c :: before, after)

/-- The set that a name in braces stands for: a name alone, or a property and its value. -/
def propertySet? (name : List Char) : Option CharSet :=
  match cut? ['!', '='] name, cut? [':'] name, cut? ['='] name with
  | some (property, value), _, _ => CharSet.valued? property value
  | none, some (property, value), _ => CharSet.valued? property value
  | none, none, some (property, value) => CharSet.valued? property value
  | none, none, none => CharSet.named? name

/-- The set of a property, or its complement, and the rest: the name is in braces or one letter. -/
def readProperty (flags : Flags) (negated : Bool) (cs : List Char) :
    Except Error (Escape × List Char) :=
  let found (name : List Char) (rest : List Char) : Except Error (Escape × List Char) :=
    if flags.ascii then .error .notAscii
    else
      match propertySet? name with
      | some s => (flags.negate negated (flags.fold s)).map fun s => (.set s, rest)
      | none => .error .unknownProperty
  match flags.skip cs with
  | [] | '\\' :: _ => .error .badEscape
  | '{' :: rest =>
    match flags.span (· != '}') rest with
    | (name, _ :: after) => found name after
    | (_, []) => .error .badEscape
  | c :: rest => found [c] rest

/-! ## §E Escapes -/

/-- What a backslash and the text after it stand for, and the rest. -/
def readEscape (flags : Flags) : List Char → Except Error (Escape × List Char)
  | [] => .error .badEscape
  | 'b' :: rest => readBoundary flags rest
  | 'x' :: rest => readCodePoint flags 2 rest
  | 'u' :: rest => readCodePoint flags 4 rest
  | 'U' :: rest => readCodePoint flags 8 rest
  | 'p' :: rest => readProperty flags false rest
  | 'P' :: rest => readProperty flags true rest
  | c :: rest => (readLetter flags c).map fun e => (e, rest)

end Regex

end FeatureFile

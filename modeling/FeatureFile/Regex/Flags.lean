/-
# FeatureFile.Regex.Flags — the flags of an expression

Flags change what an expression means from where they are set to the end of the group around them.
One of them lets an expression be spaced: then blanks and comments, from a number sign to the end of
the line, do not count, even inside an escape.
-/

import FeatureFile.CharSet.Fold
import FeatureFile.Regex.Basic

namespace FeatureFile

namespace Regex

/-! ## §A Errors -/

/-- Why a text is no regular expression. -/
inductive Error where
  | unclosedGroup
  | unopenedGroup
  | unclosedClass
  | nothingToRepeat
  | badRepetition
  | badEscape
  | badClassItem
  | badRange
  | badGroupName
  | duplicateGroupName
  | badFlags
  | lookAround
  /-- A set may hold characters beyond ASCII only where all characters are meant. -/
  | notAscii
  | unknownProperty
  | tooDeep
  | tooLarge
  deriving DecidableEq, Repr

/-! ## §B Flags -/

/-- What the flags of an expression switch. -/
structure Flags where
  /-- Letters match their case variants. -/
  ignoreCase : Bool := false
  /-- The anchors match at line breaks. -/
  multiLine : Bool := false
  /-- The dot matches line breaks. -/
  dotAll : Bool := false
  /-- Greedy loops are lazy and lazy ones greedy. -/
  swapGreed : Bool := false
  /-- Sets and words are those of ASCII. -/
  ascii : Bool := false
  /-- Carriage returns end lines too. -/
  carriageReturns : Bool := false
  /-- Blanks and comments do not count. -/
  spaced : Bool := false
  deriving DecidableEq, Repr

namespace Flags

/-- Switches the flag of a letter. -/
def set? (f : Flags) (letter : Char) (on : Bool) : Option Flags :=
  match letter with
  | 'i' => some { f with ignoreCase := on }
  | 'm' => some { f with multiLine := on }
  | 's' => some { f with dotAll := on }
  | 'U' => some { f with swapGreed := on }
  | 'u' => some { f with ascii := !on }
  | 'R' => some { f with carriageReturns := on }
  | 'x' => some { f with spaced := on }
  | _ => none

/-- A set of characters under the flags. -/
def fold (f : Flags) (s : CharSet) : CharSet :=
  if f.ignoreCase then (if f.ascii then s.asciiFolded else s.folded) else s

/-- A set or its complement. Where only ASCII is meant, no other character may come in. -/
def negate (f : Flags) (negated : Bool) (s : CharSet) : Except Error CharSet :=
  let s := if negated then s.complement else s
  if f.ascii && !s.isAscii then .error .notAscii else .ok s

/-- A character under the flags. -/
def literal (f : Flags) (c : Char) : Regex :=
  if !f.ignoreCase then .literal c []
  else if f.ascii then ofSet (CharSet.single c).asciiFolded
  else ofSet (.variants c)

/-- The dot under the flags. -/
def dot (f : Flags) : Except Error CharSet :=
  if f.ascii then .error .notAscii
  else if f.dotAll then .ok .all
  else if f.carriageReturns then .ok (CharSet.ofCodes [0xa, 0xd]).complement
  else .ok (CharSet.single '\n').complement

/-- The caret under the flags. -/
def start (f : Flags) : Assertion :=
  if f.multiLine then .lineStart f.carriageReturns else .textStart

/-- The dollar sign under the flags. -/
def finish (f : Flags) : Assertion :=
  if f.multiLine then .lineEnd f.carriageReturns else .textEnd

end Flags

/-- Reads the letters of a flag group up to its colon or its closing parenthesis, which comes with
the rest. The letters seen so far may not recur, a hyphen switches off what follows it, and it may
not come last. -/
def readFlags (flags : Flags) (seen : List Char) : List Char → Except Error (Flags × List Char)
  | [] => .error .badFlags
  | c :: rest =>
    if c == ':' || c == ')' then
      if seen.head? == some '-' then .error .badFlags else .ok (flags, c :: rest)
    else if seen.contains c then .error .badFlags
    else if c == '-' then readFlags flags (c :: seen) rest
    else
      match flags.set? c (!seen.contains '-') with
      | some flags => readFlags flags (c :: seen) rest
      | none => .error .badFlags

/-! ## §C Spaced texts -/

/-- The longest beginning of a text whose characters satisfy a condition, and the rest. In a spaced
text, blanks and comments before, between and behind these characters are left out; the first
argument tells whether the text begins inside a comment. -/
def spanSpaced (spaced : Bool) (p : Char → Bool) : Bool → List Char → List Char × List Char
  | _, [] => ([], [])
  | true, c :: rest => spanSpaced spaced p (c != '\n') rest
  | false, c :: rest =>
    if spaced && Text.isBlank c then spanSpaced spaced p false rest
    else if spaced && c == '#' then spanSpaced spaced p true rest
    else if p c then
      let (taken, rest) := spanSpaced spaced p false rest
      (c :: taken, rest)
    else ([], c :: rest)

/-- The next so many characters of a text, and the rest; in a spaced text, blanks and comments are
left out. -/
def takeSpaced (spaced : Bool) : Nat → Bool → List Char → Option (List Char × List Char)
  | 0, _, cs => some ([], cs)
  | _ + 1, _, [] => none
  | n + 1, true, c :: rest => takeSpaced spaced (n + 1) (c != '\n') rest
  | n + 1, false, c :: rest =>
    if spaced && Text.isBlank c then takeSpaced spaced (n + 1) false rest
    else if spaced && c == '#' then takeSpaced spaced (n + 1) true rest
    else (takeSpaced spaced n false rest).map fun (taken, rest) => (c :: taken, rest)

namespace Flags

/-- What follows the blanks and comments that do not count. -/
def skip (f : Flags) (cs : List Char) : List Char :=
  (spanSpaced f.spaced (fun _ => false) false cs).2

/-- The longest beginning of a text whose characters satisfy a condition, without what does not
count, and the rest. -/
def span (f : Flags) (p : Char → Bool) (cs : List Char) : List Char × List Char :=
  spanSpaced f.spaced p false cs

/-- The next so many characters that count, and the rest. -/
def take? (f : Flags) (n : Nat) (cs : List Char) : Option (List Char × List Char) :=
  takeSpaced f.spaced n false cs

/-- The next character of a text. In a spaced text blanks are passed over, and so is one number
sign among them; behind nothing else, it is the very first character. -/
def peek (f : Flags) (cs : List Char) : Option Char :=
  if f.spaced then
    let rest :=
      match Text.trimStart cs with
      | '#' :: rest => Text.trimStart rest
      | rest => rest
    if rest.isEmpty then cs.head? else rest.head?
  else cs.head?

end Flags

end Regex

end FeatureFile

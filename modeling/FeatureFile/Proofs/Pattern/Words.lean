/-
# FeatureFile.Proofs.Pattern.Words — the words of a brace expression

What each piece of a brace expression contributes to a text, said without regular expressions: a
literal its text, an optional text itself or nothing, an alternation one of its words, a brace
itself, and a placeholder a word of its type. A text is read by pieces if it is one word of each of
them behind the other (`Spells`), and then the words of the placeholders are the arguments
(`argumentsOf`).
-/

import FeatureFile.Pattern
import FeatureFile.Proofs.Regex.Matches

namespace FeatureFile

/-! ## §A The words of a type -/

namespace Hint

open Regex

/-- A sign or none. -/
def sign : Language Char := wordsOf [[], ['+'], ['-']]

/-- At least one decimal digit, of any script. -/
def digits : Language Char := someOf .digits

/-- Digits with a point behind them, among them or before them, or with none. -/
def mantissa : Language Char :=
  digits * {['.']} * manyOf .digits + {['.']} * digits + digits

/-- The letter of an exponent, a sign or none, and digits. -/
def exponent : Language Char := wordsOf [['e'], ['E']] * sign * digits

/-- The texts of what is no finite number, in capital or small letters. -/
def notFinite : Language Char :=
  {w | w.map Char.toLower ∈ ["nan".toList, "inf".toList, "infinity".toList]}

/-- A text between two quotes of a kind that does not occur in it. -/
def quoted (quote : Char) : Language Char :=
  {w | ∃ inside, quote ∉ inside ∧ w = quote :: (inside ++ [quote])}

/-- At least one character, and no line feed. -/
def untyped : Language Char := {w | w ≠ [] ∧ '\n' ∉ w}

/-- At least one character, none of them blank. -/
def unbroken : Language Char := {w | w ≠ [] ∧ ∀ c ∈ w, Text.isBlank c = false}

/-- **`words hint`** — what a placeholder of a type may stand for. -/
def words : Option String → Language Char
  | none => untyped
  | some hint =>
    if unsigned.contains hint then digits
    else if signed.contains hint then sign * digits
    else if decimal.contains hint then sign * mantissa * (1 + exponent) + notFinite
    else if hint == "word" then unbroken
    else if hint == "string" then quoted '"' + quoted '\''
    else untyped

end Hint

/-! ## §B The words of a piece -/

namespace Piece

/-- **`p.Admits w`** — a piece may contribute a word to a text. -/
def Admits : Piece → List Char → Prop
  | literal text, w => w = text
  | placeholder p, w => w ∈ Hint.words (Hint.effective p.name p.hint)
  | optional text, w => w = text ∨ w = []
  | alternation words, w => w ∈ words
  | openBrace _, w => w = ['{']
  | closeBrace _, w => w = ['}']

/-- **`Spells pieces words text`** — a text is one word of each piece behind the other. -/
structure Spells (pieces : List Piece) (words : List (List Char)) (text : List Char) : Prop where
  admits : List.Forall₂ Admits pieces words
  flatten_eq : words.flatten = text

/-- Whether a piece is a placeholder. -/
def isPlaceholder : Piece → Bool
  | placeholder _ => true
  | _ => false

/-- **`argumentsOf offset pieces words`** — the words of the placeholders, in order and without
names, with their places behind a byte offset. -/
def argumentsOf : Nat → List Piece → List (List Char) → List StepArgument
  | offset, placeholder _ :: pieces, w :: words =>
    ⟨none, String.ofList w, some (.ofLength offset (Text.byteLength w))⟩ ::
      argumentsOf (offset + Text.byteLength w) pieces words
  | offset, _ :: pieces, w :: words => argumentsOf (offset + Text.byteLength w) pieces words
  | _, _, _ => []

end Piece

end FeatureFile

/-
# FeatureFile.Pattern.Specificity — how much a pattern says

Of two patterns the more specific one has more literal characters, or else fewer placeholders, or
else more placeholders of a type. A brace expression is scored by its pieces; a regular expression
is scored by a reading of its characters that counts escaped punctuation and plain characters as
literal, and parentheses without a question mark behind them as placeholders.
-/

import FeatureFile.Pattern.Hint
import FeatureFile.Pattern.Piece

namespace FeatureFile

/-- What the specificity of a pattern is judged by. -/
structure Specificity where
  literals : Nat := 0
  placeholders : Nat := 0
  typed : Nat := 0
  deriving DecidableEq, Repr

namespace Specificity

/-- The sum of two scores. -/
def add (a b : Specificity) : Specificity :=
  ⟨a.literals + b.literals, a.placeholders + b.placeholders, a.typed + b.typed⟩

/-- The score of a piece. An alternation counts for its shortest word. -/
def ofPiece : Piece → Specificity
  | .literal text | .optional text => { literals := text.length }
  | .alternation words => { literals := ((words.map List.length).min?).getD 0 }
  | .placeholder p =>
    { placeholders := 1, typed := if (Hint.effective p.name p.hint).isSome then 1 else 0 }
  | .openBrace _ | .closeBrace _ => { literals := 1 }

/-- The score of a brace expression. -/
def ofExpression (pattern : List Char) : Except PatternError Specificity :=
  (Piece.lex pattern).map fun pieces => (pieces.map ofPiece).foldl add {}

/-- Whether a character of a regular expression counts for nothing by itself. -/
def isOperator (c : Char) : Bool := ".^$*+?)[]\x7b\x7d|".toList.contains c

/-- The score of a regular expression, by its characters. -/
def ofRegex : List Char → Specificity
  | [] => {}
  | ['\\'] => {}
  | '\\' :: c :: rest => add { literals := if c.isAlphanum then 0 else 1 } (ofRegex rest)
  | '(' :: rest => add { placeholders := if rest.head? == some '?' then 0 else 1 } (ofRegex rest)
  | c :: rest => add { literals := if isOperator c then 0 else 1 } (ofRegex rest)

/-- The order of scores, from general to specific. -/
def compare (a b : Specificity) : Ordering :=
  (Ord.compare a.literals b.literals).then <|
    (Ord.compare b.placeholders a.placeholders).then (Ord.compare a.typed b.typed)

end Specificity

end FeatureFile

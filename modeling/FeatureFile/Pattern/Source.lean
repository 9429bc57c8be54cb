/-
# FeatureFile.Pattern.Source — brace expressions as regular expressions

Every piece of a brace expression is written as a regular expression, and the whole is anchored at
both ends. Only placeholders become capturing groups, so the groups of the result are the
placeholders in order. Braces that belong to no placeholder must balance.
-/

import FeatureFile.Pattern.Hint
import FeatureFile.Pattern.Piece

namespace FeatureFile

/-- Whether a character means something in a regular expression. -/
def isMeta (c : Char) : Bool := "\\.+*?()|[]\x7b\x7d^$#&-~".toList.contains c

/-- A text as a regular expression that matches it and nothing else. -/
def escape (cs : List Char) : List Char := cs.flatMap fun c => if isMeta c then ['\\', c] else [c]

/-- Words with bars between them, each escaped. -/
def escapeWords : List (List Char) → List Char
  | [] => []
  | [word] => escape word
  | word :: words => escape word ++ '|' :: escapeWords words

namespace Placeholder

/-- The regular expression of what a placeholder matches. -/
def fragment (p : Placeholder) : List Char := (Hint.fragment (Hint.effective p.name p.hint)).toList

end Placeholder

namespace Piece

/-- A piece as a regular expression. -/
def source : Piece → List Char
  | literal text => escape text
  | placeholder p => '(' :: p.fragment ++ [')']
  | optional text => "(?:".toList ++ escape text ++ ")?".toList
  | alternation words => "(?:".toList ++ escapeWords words ++ [')']
  | openBrace _ => ['\\', '{']
  | closeBrace _ => ['\\', '}']

/-- The regular expression of pieces, given how many braces are open before them. The end of the
pattern is reported for a brace that is never closed. -/
def sourceOf (total : Nat) : Nat → List Piece → Except PatternError (List Char)
  | 0, [] => .ok []
  | _ + 1, [] => .error (.placeholder .unbalanced total none)
  | 0, closeBrace position :: _ => .error (.placeholder .unmatched position none)
  | depth + 1, closeBrace position :: rest =>
    (sourceOf total depth rest).map ((closeBrace position).source ++ ·)
  | depth, openBrace position :: rest =>
    (sourceOf total (depth + 1) rest).map ((openBrace position).source ++ ·)
  | depth, piece :: rest => (sourceOf total depth rest).map (piece.source ++ ·)

end Piece

/-- The anchored regular expression of a brace expression. -/
def expressionSource (pattern : List Char) : Except PatternError (List Char) :=
  match Piece.lex pattern with
  | .error e => .error e
  | .ok pieces =>
    (Piece.sourceOf (Text.byteLength pattern) 0 pieces).map fun body => '^' :: body ++ ['$']

end FeatureFile

/-
# FeatureFile.Token — the classified pieces of a source text

A token is a non-empty piece of the source with its kind and its place. Kinds are decided line by
line (`FeatureFile.Token.Lexer`); which keyword may stand where is not decided here but when the
outline is built. Blanks, line breaks and comments are *trivia*: they carry no structure.
-/

import FeatureFile.Span
import FeatureFile.StepKeyword

namespace FeatureFile

/-! ## §A Keywords -/

/-- What a keyword opens. -/
inductive Keyword where
  | feature
  | rule
  | background
  | scenario
  | scenarioOutline
  | examples
  | step (keyword : StepKeyword)
  deriving DecidableEq, Repr

namespace Keyword

/-- The name of the keyword's kind. -/
def name : Keyword → String
  | feature => "Feature"
  | rule => "Rule"
  | background => "Background"
  | scenario => "Scenario"
  | scenarioOutline => "ScenarioOutline"
  | examples => "Examples"
  | step keyword => "Step(" ++ keyword.name ++ ")"

/-- The step keyword, when the keyword opens a step. -/
def stepKeyword? : Keyword → Option StepKeyword
  | step keyword => some keyword
  | _ => none

/-- Whether the keyword opens a step. -/
def isStep (k : Keyword) : Bool := k.stepKeyword?.isSome

/-- Every spelling with what it opens. Two spellings of one keyword are synonyms; the star reads as
`And`. -/
def spellings : List (String × Keyword) :=
  [("Scenario Outline", scenarioOutline), ("Scenario Template", scenarioOutline),
    ("Business Need", feature), ("Background", background), ("Scenarios", examples),
    ("Scenario", scenario), ("Examples", examples), ("Example", scenario), ("Feature", feature),
    ("Ability", feature), ("Rule", rule), ("Given", step .given), ("When", step .when),
    ("Then", step .then), ("And", step .and), ("But", step .but), ("*", step .and)]

end Keyword

/-! ## §B Token kinds -/

/-- The class of a token. -/
inductive TokenKind where
  /-- A keyword at the start of a line. -/
  | keyword (keyword : Keyword)
  /-- The colon after a block keyword. -/
  | colon
  /-- A run of spaces and tabs. -/
  | whitespace
  /-- A line break: `\n`, `\r\n` or `\r`. -/
  | newline
  /-- A comment up to the end of its line. -/
  | comment
  /-- A tag. -/
  | tag
  /-- A word of a title, a description or a step, or a line of a doc string. -/
  | text
  /-- The bracket that opens a step parameter. -/
  | parameterStart
  /-- The name of a step parameter. -/
  | parameterName
  /-- The bracket that closes a step parameter. -/
  | parameterEnd
  /-- A separator of table cells. -/
  | pipe
  /-- The contents of a table cell, without the blanks around them. -/
  | tableCell
  /-- Three quotes or three backticks around a doc string. -/
  | docStringDelimiter
  deriving DecidableEq, Repr

namespace TokenKind

/-- The name of the kind. -/
def name : TokenKind → String
  | keyword k => "Keyword(" ++ k.name ++ ")"
  | colon => "Colon"
  | whitespace => "Whitespace"
  | newline => "Newline"
  | comment => "Comment"
  | tag => "Tag"
  | text => "Text"
  | parameterStart => "ParameterStart"
  | parameterName => "ParameterName"
  | parameterEnd => "ParameterEnd"
  | pipe => "Pipe"
  | tableCell => "TableCell"
  | docStringDelimiter => "DocStringDelimiter"

/-- Whether tokens of the kind carry no structure. -/
def isTrivia : TokenKind → Bool
  | whitespace | newline | comment => true
  | _ => false

/-- The keyword, when the kind is one. -/
def keyword? : TokenKind → Option Keyword
  | keyword k => some k
  | _ => none

end TokenKind

/-! ## §C Tokens -/

/-- A classified piece of the source. -/
structure Token where
  /-- What the token is. -/
  kind : TokenKind
  /-- Where it stands. -/
  span : Span
  /-- The piece of the source. -/
  text : String
  deriving DecidableEq, Repr

namespace Token

/-- Whether the token carries no structure. -/
def isTrivia (t : Token) : Bool := t.kind.isTrivia

/-- The keyword, when the token is one. -/
def keyword? (t : Token) : Option Keyword := t.kind.keyword?

end Token

end FeatureFile

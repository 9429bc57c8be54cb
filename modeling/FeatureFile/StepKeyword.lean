/-
# FeatureFile.StepKeyword — the five words that open a step

`And` and `But` carry no meaning of their own: they continue the last `Given`, `When` or `Then` of
the same block, and that one, the *effective* keyword, is what a step is looked up by.
`StepKeyword.resolve` threads the last concrete keyword through a block.
-/

import FeatureFile.Text.Blank

namespace FeatureFile

/-- A keyword that opens a step. -/
inductive StepKeyword where
  | given
  | when
  | then
  | and
  | but
  deriving DecidableEq, Repr, Inhabited

namespace StepKeyword

/-- The English spelling. -/
def name : StepKeyword → String
  | given => "Given"
  | when => "When"
  | .then => "Then"
  | and => "And"
  | but => "But"

/-- Every keyword. -/
def all : List StepKeyword := [given, when, .then, and, but]

/-- The keywords that stand for themselves. -/
def concrete : List StepKeyword := [given, when, .then]

/-- Whether the keyword continues the step before it. -/
def isConjunction : StepKeyword → Bool
  | and | but => true
  | given | when | .then => false

/-- The effective keyword, and the last concrete keyword afterwards. A conjunction takes the last
concrete keyword, `Given` when there is none, and keeps it; any other keyword becomes it. -/
def resolve (keyword : StepKeyword) (last : Option StepKeyword) :
    StepKeyword × Option StepKeyword :=
  if keyword.isConjunction then (last.getD given, last) else (keyword, some keyword)

/-- A text that names no step keyword, without the blanks around it. -/
structure UnknownName where
  text : String
  deriving DecidableEq, Repr

/-- What is reported about a text that names no step keyword. -/
def UnknownName.message (e : UnknownName) : String := "invalid step keyword: " ++ e.text

/-- The keyword that a text names, whatever the case of its ASCII letters and the blanks around
it. -/
def ofName (text : String) : Except UnknownName StepKeyword :=
  let word := Text.trim text.toList
  match all.find? fun k => k.name.toList.map Char.toLower == word.map Char.toLower with
  | some keyword => .ok keyword
  | none => .error ⟨String.ofList word⟩

end StepKeyword

/-- The three kinds of step that a feature document distinguishes. -/
inductive StepType where
  | given
  | when
  | then
  deriving DecidableEq, Repr

namespace StepType

/-- The name of the step type. -/
def name : StepType → String
  | given => "Given"
  | when => "When"
  | .then => "Then"

/-- The keyword of a step type. -/
def keyword : StepType → StepKeyword
  | given => .given
  | when => .when
  | .then => .then

/-- What is reported about a step type that has no keyword. -/
def unsupportedMessage (t : StepType) : String := "unsupported step type: " ++ t.name

end StepType

end FeatureFile

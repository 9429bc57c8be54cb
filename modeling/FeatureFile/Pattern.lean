/-
# FeatureFile.Pattern — patterns of step definitions

A definition describes the steps that it implements by a pattern in one of two notations, told
apart by the anchors of regular expressions. Either is turned into an anchored regular expression,
which is compiled and then matched against step texts; the groups of a match are the arguments of
the step.
-/

import FeatureFile.Pattern.Source
import FeatureFile.Pattern.Specificity
import FeatureFile.Regex.Footprint
import FeatureFile.Regex.Search

namespace FeatureFile

/-- A pattern as written. -/
inductive StepPattern where
  | regex (text : String)
  | expression (text : String)
  deriving DecidableEq, Repr

/-- A pattern ready to be matched: the text of its regular expression, and the expression. -/
structure CompiledPattern where
  source : String
  regex : Regex
  deriving DecidableEq, Repr

namespace StepPattern

/-- A pattern that begins with a caret or ends with a dollar sign is a regular expression. -/
def ofText (text : String) : StepPattern :=
  if text.toList.head? == some '^' || text.toList.getLast? == some '$' then regex text
  else expression text

/-- The text as written. -/
def text : StepPattern → String
  | regex t | expression t => t

/-- A regular expression with the anchors that it lacks. -/
def anchored (cs : List Char) : List Char :=
  (if cs.head? == some '^' then [] else ['^']) ++ cs ++
    (if cs.getLast? == some '$' then [] else ['$'])

/-- The text of the anchored regular expression of a pattern. -/
def regexSource (p : StepPattern) : Except PatternError String :=
  if p.text.isEmpty then .error .empty
  else
    match p with
    | regex t => .ok (String.ofList (anchored t.toList))
    | expression t => (expressionSource t.toList).map String.ofList

/-- The pattern ready to be matched. -/
def compile (p : StepPattern) : Except PatternError CompiledPattern :=
  match p.regexSource with
  | .error e => .error e
  | .ok source =>
    match Regex.parse source.toList with
    | .error e => .error (.regex e)
    | .ok r => .ok ⟨source, r⟩

/-- How specific a pattern is. -/
def specificity : StepPattern → Except PatternError Specificity
  | regex t => .ok (Specificity.ofRegex t.toList)
  | expression t => Specificity.ofExpression t.toList

end StepPattern

/-- An argument of a step: the name of its group, its text, and its place in the step text. A group
that took no part has the empty text and no place. -/
structure StepArgument where
  name : Option String
  value : String
  span : Option Span
  deriving DecidableEq, Repr

namespace CompiledPattern

/-- The arguments of a step text that matches; the whole match is none of them. -/
def arguments? (p : CompiledPattern) (text : String) : Option (List StepArgument) :=
  (p.regex.captures? text).map fun captures =>
    (p.regex.groupNames.zip captures.tail).map fun (name, capture) =>
      ⟨name, (capture.map (·.text)).getD "", capture.map (·.span)⟩

end CompiledPattern

end FeatureFile

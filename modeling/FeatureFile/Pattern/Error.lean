/-
# FeatureFile.Pattern.Error — why a pattern is refused

A pattern is refused because it is empty, because its braces are malformed, or because it is no
regular expression. Malformed braces are reported with their place in bytes and with the name that
had been read, if any.
-/

import FeatureFile.Regex.Reader

namespace FeatureFile

/-- What is wrong with a brace of a pattern. -/
inductive BraceProblem where
  /-- A placeholder is not written as one. -/
  | invalid
  /-- A placeholder is never closed. -/
  | unclosed
  /-- A brace closes nothing. -/
  | unmatched
  /-- A brace is never closed. -/
  | unbalanced
  deriving DecidableEq, Repr

/-- The description of a problem. -/
def BraceProblem.reason : BraceProblem → String
  | invalid => "invalid placeholder in step pattern"
  | unclosed => "missing closing '\x7d' for placeholder"
  | unmatched => "unmatched closing brace '\x7d' in step pattern"
  | unbalanced => "unbalanced braces in step pattern"

/-- The report of a problem at a byte offset; an empty name is not mentioned. -/
def describePlaceholder (reason : String) (position : Nat) (placeholder : Option String) : String :=
  match placeholder with
  | none | some "" => reason ++ " at byte " ++ toString position
  | some name => reason ++ " for placeholder `" ++ name ++ "` at byte " ++ toString position

/-- Why a pattern is refused. -/
inductive PatternError where
  | empty
  | placeholder (problem : BraceProblem) (position : Nat) (name : Option String)
  | regex (cause : Regex.Error)
  deriving DecidableEq, Repr

/-- What is reported about a pattern; nothing is worded for a text that is no regular
expression. -/
def PatternError.message? : PatternError → Option String
  | empty => some "step pattern is empty"
  | placeholder problem position name => some (describePlaceholder problem.reason position name)
  | regex _ => none

end FeatureFile

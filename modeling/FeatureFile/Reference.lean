/-
# FeatureFile.Reference — steps and the definitions they refer to

A reference is what a step is looked up by: the keyword that it stands for and its text. What it
resolves to depends on how many definitions match, and several matches are an outcome, not an error.
The look-up itself is any function of keyword and text.
-/

import FeatureFile.Catalog
import FeatureFile.Step

namespace FeatureFile

/-- What a step is looked up by. -/
structure StepReference where
  /-- The number of the step's node. -/
  node : Nat
  keyword : StepKeyword
  text : String
  deriving DecidableEq, Repr

namespace Step

/-- The reference of a step. -/
def reference (s : Step) : StepReference := ⟨s.node.id, s.effective, s.text⟩

/-- The reference of a step in an example. -/
def referenceForExample (s : Step) (row : ExampleRow) : StepReference :=
  ⟨s.node.id, s.effective, s.textForExample row⟩

end Step

/-- The outcome of a look-up. -/
inductive Resolution where
  | unresolved
  | resolved (found : StepMatch)
  | ambiguous (found : List StepMatch)
  deriving DecidableEq, Repr

namespace Resolution

/-- The outcome of a list of matches. -/
def ofMatches : List StepMatch → Resolution
  | [] => unresolved
  | [m] => resolved m
  | found => ambiguous found

/-- The matches of an outcome. -/
def found : Resolution → List StepMatch
  | unresolved => []
  | resolved m => [m]
  | ambiguous ms => ms

/-- Whether exactly one definition matched. -/
def isResolved : Resolution → Bool
  | resolved _ => true
  | _ => false

/-- The name of the outcome. -/
def name : Resolution → String
  | unresolved => "Unresolved"
  | resolved _ => "Resolved"
  | ambiguous _ => "Ambiguous"

@[simp] theorem found_ofMatches (ms : List StepMatch) : (ofMatches ms).found = ms := by
  match ms with
  | [] | [_] | _ :: _ :: _ => rfl

end Resolution

/-- Looks a reference up. -/
def StepReference.resolve (r : StepReference) (find : StepKeyword → String → List StepMatch) :
    Resolution :=
  .ofMatches (find r.keyword r.text)

end FeatureFile

/-
# FeatureFile.Reference.Cache — references kept for one outline

References are built on first request and kept for as long as the requests concern the same outline.
Outlines are told apart by a generation that is never used twice; a request for another generation
drops everything kept for the one before.
-/

import FeatureFile.Reference

namespace FeatureFile

/-- The references of one outline, by the numbers of their nodes. -/
structure ReferenceCache where
  /-- The generation of the outline, if there is one. -/
  generation : Option Nat := none
  references : List (Nat × StepReference) := []

namespace ReferenceCache

/-- The number of references kept. -/
def size (c : ReferenceCache) : Nat := c.references.length

/-- Whether no reference is kept. -/
def isEmpty (c : ReferenceCache) : Bool := c.references.isEmpty

/-- Drops everything. -/
def clear (_ : ReferenceCache) : ReferenceCache := {}

/-- The cache of a generation: the one given, or an empty one if it belongs to another. -/
def switchTo (c : ReferenceCache) (generation : Nat) : ReferenceCache :=
  if c.generation = some generation then c else { generation := some generation }

/-- The reference of a step of an outline, kept from now on. -/
def reference (c : ReferenceCache) (generation : Nat) (s : Step) : ReferenceCache × StepReference :=
  let c := c.switchTo generation
  match c.references.lookup s.node.id with
  | some r => (c, r)
  | none => ({ c with references := (s.node.id, s.reference) :: c.references }, s.reference)

/-- Looks up the reference of a step of an outline, kept from now on. -/
def resolve (c : ReferenceCache) (generation : Nat) (s : Step)
    (find : StepKeyword → String → List StepMatch) : ReferenceCache × Resolution :=
  let (c, r) := c.reference generation s
  (c, r.resolve find)

end ReferenceCache

end FeatureFile

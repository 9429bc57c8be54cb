/-
# FeatureFile.Catalog.Location — where a definition is declared

Paths are compared part by part: repeated slashes, a slash at the end and a dot between slashes make
no difference, while a slash or a dot at the very beginning does.
-/

namespace FeatureFile

/-- The parts of a text between slashes. -/
def slashParts : List Char → List (List Char)
  | [] => [[]]
  | c :: cs =>
    if c == '/' then [] :: slashParts cs
    else
      match slashParts cs with
      | [] => [[c]]
      | part :: parts => (c :: part) :: parts

/-- A path by its parts: whether it begins at the root, whether it begins with a dot, and the names
that it goes through. -/
structure PathParts where
  rooted : Bool
  dotted : Bool
  names : List (List Char)
  deriving DecidableEq, Repr

namespace PathParts

/-- The parts of a written path. -/
def ofText (path : String) : PathParts :=
  let parts := slashParts path.toList
  { rooted := path.toList.head? == some '/'
    dotted := parts.head? == some ['.']
    names := parts.filter fun part => part ≠ [] ∧ part ≠ ['.'] }

end PathParts

/-- Where a definition is declared: a file, a line counted from zero, and a name. -/
structure Location where
  path : String
  line : Nat
  name : String
  deriving DecidableEq, Repr

namespace Location

/-- Whether a location lies in the file of a path. -/
def isIn (l : Location) (path : String) : Bool := PathParts.ofText l.path = PathParts.ofText path

end Location

end FeatureFile

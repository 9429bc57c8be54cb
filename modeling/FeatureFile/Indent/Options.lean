/-
# FeatureFile.Indent.Options — indentation settings

How wide a level of indentation is, and how many levels stand below each kind of block. The
settings are read from JSON: an object may leave out fields and hold unknown ones but names none
twice, and an array gives the fields in their order and may be short.
-/

import FeatureFile.Error
import FeatureFile.Json

namespace FeatureFile

/-- What a level of indentation is made of. -/
inductive IndentStyle where
  | tab
  | space
  deriving DecidableEq, Repr

namespace IndentStyle

/-- The name of the style. -/
def name : IndentStyle → String
  | tab => "tab"
  | space => "space"

/-- The style that a word names, whatever the case of its letters. Letters outside ASCII name no
style: the only one that becomes ASCII in lower case is the Kelvin sign, and no name has a `k`. -/
def ofText (text : String) : Except Error IndentStyle :=
  match String.ofList (text.toList.map Char.toLower) with
  | "tab" | "tabs" => .ok tab
  | "space" | "spaces" => .ok space
  | _ => .error (.invalidConfig (.indentStyle text))

/-- The style of an exact name. -/
def ofName? (name : String) : Option IndentStyle := [tab, space].find? (·.name == name)

/-- The style of a JSON value: its name, or an object whose only field has that name and holds
nothing. -/
def ofJson? : Json → Option IndentStyle
  | .string (some name) => ofName? name
  | .object [(some name, .null)] => ofName? name
  | _ => none

end IndentStyle

/-- Indentation settings. Sizes below blocks count levels. -/
structure IndentOptions where
  style : IndentStyle := .space
  /-- The spaces of a level. -/
  width : Nat := 4
  /-- The levels below a feature or a rule. -/
  scenarioLevels : Nat := 1
  /-- The levels below a background or a scenario. -/
  stepLevels : Nat := 1
  /-- The levels below examples. -/
  tableLevels : Nat := 1
  deriving DecidableEq, Repr, Inhabited

namespace IndentOptions

/-- The largest size. -/
def sizeLimit : Nat := UInt64.size - 1

/-- The size of a JSON value. -/
def size? : Json → Option Nat
  | .natural n => if n ≤ sizeLimit then some n else none
  | _ => none

/-- The fields by their names, in their order, each with the setting that it makes. -/
def fields : List (String × (IndentOptions → Json → Option IndentOptions)) :=
  [("indentStyle", fun o v => (IndentStyle.ofJson? v).map fun style => { o with style }),
    ("indentSize", fun o v => (size? v).map fun width => { o with width }),
    ("scenarioIndentSize",
      fun o v => (size? v).map fun scenarioLevels => { o with scenarioLevels }),
    ("stepIndentSize", fun o v => (size? v).map fun stepLevels => { o with stepLevels }),
    ("tableIndentSize", fun o v => (size? v).map fun tableLevels => { o with tableLevels })]

/-- Makes the settings of a list of fields, given the names that have occurred. -/
def setFields (o : IndentOptions) (seen : List String) :
    List (Option String × Json) → Option IndentOptions
  | [] => some o
  | (none, _) :: _ => none
  | (some name, value) :: rest =>
    match fields.lookup name with
    | none => setFields o seen rest
    | some set =>
      if seen.contains name then none
      else
        match set o value with
        | none => none
        | some o => setFields o (name :: seen) rest

/-- Makes the settings of a list of values in the order of the fields. -/
def setInOrder (o : IndentOptions) :
    List (String × (IndentOptions → Json → Option IndentOptions)) → List Json → Option IndentOptions
  | _, [] => some o
  | [], _ :: _ => none
  | (_, set) :: sets, value :: values =>
    match set o value with
    | none => none
    | some o => setInOrder o sets values

/-- The settings of a JSON value. -/
def ofJson? : Json → Option IndentOptions
  | .object given => setFields {} [] given
  | .array values => setInOrder {} fields values
  | _ => none

/-- The settings of a JSON text. -/
def ofText? (text : String) : Option IndentOptions := (Json.parse? text).bind ofJson?

end IndentOptions

end FeatureFile

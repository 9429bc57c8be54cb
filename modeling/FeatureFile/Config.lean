/-
# FeatureFile.Config — configuration

The configuration can be read from named variables. Unset variables keep their defaults, and of
several bad values the first in a fixed order is reported. Words are read whatever the case of their
letters; flags and numbers also whatever the blanks around them.
-/

import FeatureFile.Indent.Options
import FeatureFile.Text.Blank

namespace FeatureFile

/-! ## §A Log levels -/

/-- How much is logged. -/
inductive LogLevel where
  | trace
  | debug
  | info
  | warn
  | error
  deriving DecidableEq, Repr

namespace LogLevel

/-- The name of the level. -/
def name : LogLevel → String
  | trace => "trace"
  | debug => "debug"
  | info => "info"
  | warn => "warn"
  | error => "error"

/-- The level that a word names, whatever the case of its letters. Letters outside ASCII name no
level. -/
def ofText (text : String) : Except Error LogLevel :=
  match String.ofList (text.toList.map Char.toLower) with
  | "trace" => .ok trace
  | "debug" => .ok debug
  | "info" => .ok info
  | "warn" | "warning" => .ok warn
  | "error" => .ok error
  | _ => .error (.invalidConfig (.logLevel text))

end LogLevel

/-! ## §B Values of variables -/

/-- The flag that a value writes. -/
def readFlag (key value : String) : Except Error Bool :=
  match String.ofList ((Text.trim value.toList).map Char.toLower) with
  | "1" | "true" | "yes" | "on" => .ok true
  | "0" | "false" | "no" | "off" => .ok false
  | _ => .error (.invalidConfig (.flag key value))

/-- The size that a value writes: ASCII digits, a plus sign allowed before them. -/
def readSize (key value : String) : Except Error Nat :=
  let digits :=
    match Text.trim value.toList with
    | '+' :: rest => rest
    | cs => cs
  if digits.isEmpty || !digits.all Text.isAsciiDigit ||
      IndentOptions.sizeLimit < Text.decimal digits then
    .error (.invalidConfig (.number key value))
  else .ok (Text.decimal digits)

/-! ## §C Configurations -/

/-- The configuration of the library. -/
structure Config where
  logLevel : LogLevel := .info
  /-- Whether line breaks are indented by the structure around them. -/
  smartIndent : Bool := true
  indent : IndentOptions := {}
  deriving DecidableEq, Repr

namespace Config

/-- The configuration of a look-up of variables. -/
def ofVariables (lookup : String → Option String) : Except Error Config := do
  let mut c : Config := {}
  if let some value := lookup "GHERKIN_ASSIST_LOG_LEVEL" then
    c := { c with logLevel := ← LogLevel.ofText value }
  if let some value := lookup "GHERKIN_ASSIST_SMART_INDENT" then
    c := { c with smartIndent := ← readFlag "GHERKIN_ASSIST_SMART_INDENT" value }
  if let some value := lookup "GHERKIN_ASSIST_INDENT_STYLE" then
    c := { c with indent.style := ← IndentStyle.ofText value }
  if let some value := lookup "GHERKIN_ASSIST_INDENT_SIZE" then
    c := { c with indent.width := ← readSize "GHERKIN_ASSIST_INDENT_SIZE" value }
  if let some value := lookup "GHERKIN_ASSIST_SCENARIO_INDENT" then
    c := { c with indent.scenarioLevels := ← readSize "GHERKIN_ASSIST_SCENARIO_INDENT" value }
  if let some value := lookup "GHERKIN_ASSIST_STEP_INDENT" then
    c := { c with indent.stepLevels := ← readSize "GHERKIN_ASSIST_STEP_INDENT" value }
  if let some value := lookup "GHERKIN_ASSIST_TABLE_INDENT" then
    c := { c with indent.tableLevels := ← readSize "GHERKIN_ASSIST_TABLE_INDENT" value }
  return c

/-- The configuration with the settings that are given in place of its own. -/
def override (c : Config) (logLevel : Option LogLevel) (indent : Option IndentOptions) : Config :=
  { c with logLevel := logLevel.getD c.logLevel, indent := indent.getD c.indent }

end Config

end FeatureFile

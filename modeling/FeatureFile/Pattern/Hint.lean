/-
# FeatureFile.Pattern.Hint — the types of placeholders

A hint restricts what a placeholder matches. Unknown hints restrict nothing. Some names are types
themselves, so a placeholder of such a name needs no hint.
-/

namespace FeatureFile.Hint

/-- The hints of unsigned numbers. -/
def unsigned : List String := ["u8", "u16", "u32", "u64", "u128", "usize"]

/-- The hints of signed numbers. -/
def signed : List String :=
  ["i8", "i16", "i32", "i64", "i128", "isize", "int", "byte", "short", "long", "biginteger"]

/-- The hints of decimal numbers. -/
def decimal : List String := ["f32", "f64", "float", "double", "bigdecimal"]

/-- The names that are types themselves. -/
def typeNames : List String :=
  ["int", "float", "word", "string", "byte", "short", "long", "double", "biginteger", "bigdecimal"]

/-- What matches any text. -/
def anything : String := ".+?"

/-- The regular expression of a hint; without one, and for an unknown one, what matches any
text. -/
def fragment : Option String → String
  | none => anything
  | some hint =>
    if unsigned.contains hint then "\\d+"
    else if signed.contains hint then "[+-]?\\d+"
    else if decimal.contains hint then
      "(?i:(?:[+-]?(?:\\d+\\.\\d*|\\.\\d+|\\d+)(?:[eE][+-]?\\d+)?|nan|inf|infinity))"
    else if hint == "word" then "[^\\s]+"
    else if hint == "string" then "(?:\"[^\"]*\"|'[^']*')"
    else anything

/-- The hint in force for a placeholder: the one written, or else its name if that is a type. -/
def effective (name : String) (hint : Option String) : Option String :=
  match hint with
  | some h => some h
  | none => if typeNames.contains name then some name else none

end FeatureFile.Hint

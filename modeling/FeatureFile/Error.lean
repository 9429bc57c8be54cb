/-
# FeatureFile.Error — what callers must react to

Malformed feature text is never an error. What remains is a document that refuses an edit, an offset
outside it, a setting that cannot be understood, and a source without the feature that was asked
for.
-/

namespace FeatureFile

/-- A setting that cannot be understood. -/
inductive BadSetting where
  | logLevel (text : String)
  | indentStyle (text : String)
  | flag (key value : String)
  | number (key value : String)
  deriving DecidableEq, Repr

/-- What is reported about a setting. -/
def BadSetting.message : BadSetting → String
  | logLevel text =>
    "unknown log level '" ++ text ++ "', expected one of: trace, debug, info, warn, error"
  | indentStyle text => "unknown indent style '" ++ text ++ "', expected 'tab' or 'space'"
  | flag key value => "invalid value '" ++ value ++ "' for " ++ key ++ ", expected true or false"
  | number key value =>
    "invalid value '" ++ value ++ "' for " ++ key ++ ", expected a non-negative integer"

/-- What callers must react to. -/
inductive Error where
  | writeBlocked
  | offsetOutOfRange (offset length : Nat)
  | invalidConfig (setting : BadSetting)
  | missingFeature
  deriving DecidableEq, Repr

/-- What is reported about an error. -/
def Error.message : Error → String
  | writeBlocked => "document is not writable"
  | offsetOutOfRange offset length =>
    "offset " ++ toString offset ++ " is outside the document (length " ++ toString length ++ ")"
  | invalidConfig setting => "invalid configuration: " ++ setting.message
  | missingFeature => "no Feature keyword found"

end FeatureFile

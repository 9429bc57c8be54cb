/-
# FeatureFile.Catalog — step definitions and their look-up

A catalog holds compiled definitions by keyword, in the order of their insertion. A definition is
registered for `Given`, `When` or `Then`; the other keywords are refused, since no step stands for
them. A look-up answers every definition that matches a text, the most specific first, and
definitions that are equally specific in the order in which they are searched.
-/

import FeatureFile.Catalog.Location
import FeatureFile.Pattern
import FeatureFile.StepKeyword

namespace FeatureFile

/-! ## §A Definitions -/

/-- Why a definition is refused. -/
inductive CatalogError where
  /-- Its pattern does not compile. -/
  | pattern (location : Location) (keyword : StepKeyword) (text : String) (cause : PatternError)
  /-- It is registered for a keyword that no step stands for. -/
  | conjunction (location : Location) (keyword : StepKeyword)
  deriving DecidableEq, Repr

/-- What is reported about a refused definition, where its cause is worded. -/
def CatalogError.message? : CatalogError → Option String
  | pattern l keyword text cause =>
    cause.message?.map fun m =>
      "failed to compile step pattern '" ++ text ++ "' for " ++ keyword.name ++ " step '" ++
        l.name ++ "' in " ++ l.path ++ ": " ++ m
  | conjunction l keyword =>
    some ("step '" ++ l.name ++ "' in " ++ l.path ++ " is registered for " ++ keyword.name ++
      "; use Given, When or Then")

/-- A compiled step definition. -/
structure StepDefinition where
  keyword : StepKeyword
  pattern : StepPattern
  compiled : CompiledPattern
  specificity : Specificity
  location : Location
  deriving DecidableEq, Repr

/-- A definition that matches a step text. -/
structure StepMatch where
  location : Location
  pattern : String
  arguments : List StepArgument
  deriving DecidableEq, Repr

namespace StepDefinition

/-- Compiles a definition. -/
def compile (keyword : StepKeyword) (text : String) (location : Location) :
    Except CatalogError StepDefinition :=
  if keyword.isConjunction then .error (.conjunction location keyword)
  else
    let pattern := StepPattern.ofText text
    match pattern.compile with
    | .error e => .error (.pattern location keyword text e)
    | .ok compiled =>
      match pattern.specificity with
      | .error e => .error (.pattern location keyword text e)
      | .ok specificity => .ok ⟨keyword, pattern, compiled, specificity, location⟩

/-- The match of a definition with a step text. -/
def match? (d : StepDefinition) (text : String) : Option StepMatch :=
  (d.compiled.arguments? text).map fun arguments => ⟨d.location, d.pattern.text, arguments⟩

end StepDefinition

/-! ## §B Catalogs -/

/-- Definitions by the keyword that they are registered for. The order of the keywords is the
table's own; the definitions of a keyword stand in the order of their insertion. -/
structure Catalog where
  byKeyword : List (StepKeyword × List StepDefinition) := []

namespace Catalog

/-- Adds a definition behind those of a keyword, which is entered if it has none yet. -/
def file (keyword : StepKeyword) (d : StepDefinition) :
    List (StepKeyword × List StepDefinition) → List (StepKeyword × List StepDefinition)
  | [] => [(keyword, [d])]
  | (key, ds) :: rest =>
    if keyword = key then (key, ds ++ [d]) :: rest else (key, ds) :: file keyword d rest

/-- Compiles a definition and files it under its keyword. -/
def insert (c : Catalog) (keyword : StepKeyword) (text : String) (location : Location) :
    Except CatalogError Catalog :=
  (StepDefinition.compile keyword text location).map fun d => ⟨file keyword d c.byKeyword⟩

/-- Adds definitions one after the other; those that are refused are left out and reported. -/
def extend (c : Catalog) : List (StepKeyword × String × Location) → Catalog × List CatalogError
  | [] => (c, [])
  | (keyword, text, location) :: rest =>
    match c.insert keyword text location with
    | .ok c => c.extend rest
    | .error e =>
      let r := c.extend rest
      (r.1, e :: r.2)

/-- Drops the definitions declared in a file, and then the keywords that have none left. -/
def removePath (c : Catalog) (path : String) : Catalog :=
  ⟨(c.byKeyword.map fun (key, ds) => (key, ds.filter fun d => !d.location.isIn path)).filter
    fun (_, ds) => !ds.isEmpty⟩

/-- The definitions registered for a keyword. -/
def definitionsFor (c : Catalog) (keyword : StepKeyword) : List StepDefinition :=
  (c.byKeyword.lookup keyword).getD []

/-- The number of definitions. -/
def size (c : Catalog) : Nat := (c.byKeyword.flatMap fun (_, ds) => ds).length

/-- Whether there are no definitions: whether no keyword is entered. -/
def isEmpty (c : Catalog) : Bool := c.byKeyword.isEmpty

/-- The matches of definitions with a text, the most specific first; the sort is stable. -/
def rank (definitions : List StepDefinition) (text : String) : List StepMatch :=
  let found := definitions.filterMap fun d => (d.match? text).map fun m => (d.specificity, m)
  (found.mergeSort fun a b => (b.1.compare a.1).isLE).map (·.2)

/-- The matches of all definitions, searched keyword by keyword. -/
def find (c : Catalog) (text : String) : List StepMatch :=
  rank (StepKeyword.concrete.flatMap c.definitionsFor) text

/-- The matches of the definitions for a keyword. A conjunction has no definitions of its own and
searches all. -/
def findFor (c : Catalog) (keyword : StepKeyword) (text : String) : List StepMatch :=
  if keyword.isConjunction then c.find text else rank (c.definitionsFor keyword) text

end Catalog

end FeatureFile

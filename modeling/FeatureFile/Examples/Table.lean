/-
# FeatureFile.Examples.Table — the table below an examples keyword

The first row of the table names the parameters, and every further row gives them values. A row of
the source is a run of pipes and cells: each pipe after the first ends a cell, so two neighbouring
pipes enclose an empty one, and a cell that no pipe ends still counts. Cells are written with three
escapes, for a pipe, a backslash and a line feed; any other backslash stands for itself.
-/

import FeatureFile.Examples.Row
import FeatureFile.Outline

namespace FeatureFile

/-! ## §A Cells -/

/-- The text that a written cell stands for. -/
def unescapeCell : List Char → List Char
  | [] => []
  | '\\' :: 'n' :: rest => '\n' :: unescapeCell rest
  | '\\' :: '|' :: rest => '|' :: unescapeCell rest
  | '\\' :: '\\' :: rest => '\\' :: unescapeCell rest
  | '\\' :: c :: rest => '\\' :: c :: unescapeCell rest
  | c :: rest => c :: unescapeCell rest

/-- The written cells of a row behind its first pipe. The cell seen since the last pipe is the first
argument. -/
def cellTexts (current : Option String) : List Token → List String
  | [] => current.toList
  | t :: rest =>
    match t.kind with
    | .pipe => current.getD "" :: cellTexts none rest
    | .tableCell => cellTexts (some t.text) rest
    | _ => cellTexts current rest

/-- The written cells of a row. The first pipe opens the row and ends no cell. -/
def rowTexts (current : Option String) : List Token → List String
  | [] => current.toList
  | t :: rest =>
    match t.kind with
    | .pipe => cellTexts current rest
    | .tableCell => rowTexts (some t.text) rest
    | _ => rowTexts current rest

/-- The cells of a row of the outline. -/
def rowCells (row : Node) : List String :=
  (rowTexts none row.childTokens).map fun cell => String.ofList (unescapeCell cell.toList)

/-! ## §B Tables -/

/-- Parameter names and the rows of values below them. -/
structure ExamplesTable where
  header : List String
  cells : List (List String)
  deriving DecidableEq, Repr

namespace ExamplesTable

/-- The table of an examples node; nothing for other nodes and for examples without a row. -/
def ofNode? (n : Node) : Option ExamplesTable :=
  if n.kind = .examples then
    match (n.childrenOfKind .table).head? with
    | none => none
    | some table =>
      match (table.childrenOfKind .tableRow).map rowCells with
      | [] => none
      | header :: cells => some ⟨header, cells⟩
  else none

/-- The number of rows of values. -/
def size (t : ExamplesTable) : Nat := t.cells.length

/-- Whether there are no rows of values. -/
def isEmpty (t : ExamplesTable) : Bool := t.cells.isEmpty

/-- Pairs names with cells; a missing cell is empty, and a cell beyond the names is left out. -/
def pair : List String → List String → List (String × String)
  | [], _ => []
  | name :: names, [] => (name, "") :: pair names []
  | name :: names, cell :: cells => (name, cell) :: pair names cells

/-- The rows of values by name. -/
def rows (t : ExamplesTable) : List ExampleRow :=
  t.cells.map fun cells => ExampleRow.ofPairs (pair t.header cells)

end ExamplesTable

/-- The tables of the examples directly below a node, in document order. -/
def Node.examplesTables (n : Node) : List ExamplesTable :=
  (n.childrenOfKind .examples).filterMap ExamplesTable.ofNode?

end FeatureFile

/-
# FeatureFile.Outline.Builder — building an outline from tokens

The builder walks the tokens once and holds the path from the innermost open node to the root. A
keyword closes open nodes until it finds one that may hold it and opens a node there; every other
significant token joins the innermost node. Trivia waits until the next significant token is
placed, so a node that is closed ends with a significant token.

Building never fails. A construct in the wrong place is recorded as a `Degradation` and kept where
it stands.
-/

import FeatureFile.Outline.Element

namespace FeatureFile

/-! ## §A Degradations -/

/-- What is wrong with a source text. -/
inductive Degradation.Kind where
  /-- There is no feature keyword. -/
  | missingFeature
  /-- A feature keyword after the first. -/
  | duplicateFeature
  /-- A keyword where no open block may hold it. -/
  | misplaced (keyword : Keyword)
  /-- A step behind the examples of its scenario. -/
  | stepAfterExamples
  /-- A table that belongs to no step and no examples. -/
  | tableOutsideStep
  /-- A doc string that belongs to no step. -/
  | docStringOutsideStep
  /-- A doc string that runs to the end of the source. -/
  | unclosedDocString
  deriving DecidableEq, Repr

/-- A recorded problem and its place. -/
structure Degradation where
  kind : Degradation.Kind
  span : Span
  deriving DecidableEq, Repr

namespace Degradation.Kind

/-- The name of the problem. -/
def name : Kind → String
  | missingFeature => "MissingFeature"
  | duplicateFeature => "DuplicateFeature"
  | misplaced keyword => "Misplaced(" ++ keyword.name ++ ")"
  | stepAfterExamples => "StepAfterExamples"
  | tableOutsideStep => "TableOutsideStep"
  | docStringOutsideStep => "DocStringOutsideStep"
  | unclosedDocString => "UnclosedDocString"

/-- What is reported about the problem. -/
def message : Kind → String
  | missingFeature => "no Feature keyword"
  | duplicateFeature => "more than one Feature"
  | misplaced keyword => "misplaced " ++ keyword.name ++ " keyword"
  | stepAfterExamples => "step after Examples"
  | tableOutsideStep => "table outside a step or Examples"
  | docStringOutsideStep => "doc string outside a step"
  | unclosedDocString => "unclosed doc string"

end Degradation.Kind

/-! ## §B Open nodes -/

/-- A node that may still receive children; they are held last first. -/
structure OpenNode where
  id : Nat
  kind : NodeKind
  reversed : List Element

namespace OpenNode

/-- Adds a child at the end. -/
def push (n : OpenNode) (e : Element) : OpenNode := { n with reversed := e :: n.reversed }

/-- The finished node, with the span that covers its children. -/
def close (n : OpenNode) : Element :=
  let children := n.reversed.reverse
  .node n.id n.kind (Span.coverAll (children.map Element.span)) children

end OpenNode

/-- The open nodes: the innermost one, and those around it from the inside out. -/
structure OpenPath where
  top : OpenNode
  outer : List OpenNode

namespace OpenPath

/-- The kinds of the open nodes from the inside out. -/
def kinds (p : OpenPath) : List NodeKind := p.top.kind :: p.outer.map (·.kind)

/-- Adds a child to the innermost node. -/
def push (p : OpenPath) (e : Element) : OpenPath := { p with top := p.top.push e }

/-- Closes nodes from the inside out for as long as their kinds satisfy a condition. The outermost
node stays open. -/
def closeWhile (p : NodeKind → Bool) (top : OpenNode) : List OpenNode → OpenPath
  | [] => ⟨top, []⟩
  | next :: outer =>
    if p top.kind then closeWhile p (next.push top.close) outer else ⟨top, next :: outer⟩

/-- Closes the innermost nodes for as long as their kinds satisfy a condition. -/
def closeAll (path : OpenPath) (p : NodeKind → Bool) : OpenPath :=
  closeWhile p path.top path.outer

/-- Closes the innermost node if its kind is the one given. -/
def closeOne (path : OpenPath) (kind : NodeKind) : OpenPath :=
  match path.outer with
  | [] => path
  | next :: outer =>
    if path.top.kind = kind then ⟨next.push path.top.close, outer⟩ else path

/-- Closes every node that is no container. -/
def closeLeaves (path : OpenPath) : OpenPath := path.closeAll fun k => !k.isContainer

/-- The whole tree, with all open nodes closed. -/
def finish (path : OpenPath) : Element := (path.closeAll fun _ => true).top.close

end OpenPath

/-! ## §C The builder's state -/

/-- The state between two tokens. -/
structure Builder where
  /-- The open nodes. -/
  path : OpenPath := ⟨⟨0, .file, []⟩, []⟩
  /-- The number of the next node. -/
  nextId : Nat := 1
  /-- The number of the next token. -/
  nextToken : Nat := 0
  /-- Trivia that no node holds yet, last first. -/
  pending : List Element := []
  /-- The recorded problems, last first. -/
  problems : List Degradation := []
  /-- The last concrete step keyword of the block. -/
  lastConcrete : Option StepKeyword := none
  /-- Whether no significant token has been seen on the line. -/
  atLineStart : Bool := true
  /-- Whether a doc string is open. -/
  inDocString : Bool := false
  /-- Whether a feature keyword has been seen. -/
  hasFeature : Bool := false

namespace Builder

/-- The kind of the innermost open node. -/
def topKind (b : Builder) : NodeKind := b.path.top.kind

/-- Replaces the open nodes. -/
def withPath (b : Builder) (f : OpenPath → OpenPath) : Builder := { b with path := f b.path }

/-- Gives the waiting trivia to the innermost node. -/
def flush (b : Builder) : Builder :=
  { b with path := b.pending.reverse.foldl OpenPath.push b.path, pending := [] }

/-- Gives the waiting trivia and then an element to the innermost node. -/
def attach (b : Builder) (e : Element) : Builder := b.flush.withPath (·.push e)

/-- Gives the waiting trivia to the innermost node and opens a node inside it. -/
def enter (b : Builder) (kind : NodeKind) : Builder :=
  let b := b.flush
  { b with path := ⟨⟨b.nextId, kind, []⟩, b.path.top :: b.path.outer⟩, nextId := b.nextId + 1 }

/-- Records a problem. -/
def degrade (b : Builder) (kind : Degradation.Kind) (span : Span) : Builder :=
  { b with problems := ⟨kind, span⟩ :: b.problems }

/-- Closes nodes up to the innermost one that may hold a keyword. Where none may, nothing is closed
and the keyword is recorded as misplaced. -/
def closeTo (b : Builder) (keyword : Keyword) (span : Span) (allowed : NodeKind → Bool) : Builder :=
  if b.path.kinds.any allowed then b.withPath (·.closeAll fun k => !allowed k)
  else b.degrade (.misplaced keyword) span

/-- Whether an examples block lies between the innermost node and the nearest one that holds
steps. -/
def insideExamples (b : Builder) : Bool :=
  (b.path.kinds.takeWhile fun k => !k.holdsSteps).contains .examples

/-- Closes what a keyword ends, and records what is wrong with its place. -/
def makeRoom (b : Builder) (keyword : Keyword) (span : Span) : Builder :=
  match keyword with
  | .feature =>
    let b := if b.hasFeature then b.degrade .duplicateFeature span else b
    { b with hasFeature := true }.withPath (·.closeAll fun _ => true)
  | .rule => b.closeTo keyword span (· = .feature)
  | .background | .scenario | .scenarioOutline =>
    b.closeTo keyword span fun k => k = .feature || k = .rule
  | .examples => b.closeTo keyword span fun k => k = .scenario || k = .scenarioOutline
  | .step _ =>
    -- Looked up before the examples are closed.
    let late := b.insideExamples
    let b := b.closeTo keyword span NodeKind.holdsSteps
    if late && b.topKind.holdsSteps then b.degrade .stepAfterExamples span else b

/-- The keyword that a keyword stands for, and the last concrete step keyword after it: a step is
resolved, examples change nothing, and any other block begins afresh. -/
def effective (keyword : Keyword) (last : Option StepKeyword) : StepKeyword × Option StepKeyword :=
  match keyword with
  | .step k => k.resolve last
  | .examples => (.given, last)
  | _ => (.given, none)

/-- A keyword opens a node. -/
def openKeyword (b : Builder) (keyword : Keyword) (span : Span) (e : Element) : Builder :=
  let b := (b.withPath OpenPath.closeLeaves).makeRoom keyword span
  let (stands, last) := effective keyword b.lastConcrete
  ({ b with lastConcrete := last }.enter (.ofKeyword stands keyword)).attach e

/-- A pipe at the start of a line opens a row, and a table unless one is open. -/
def openRow (b : Builder) (span : Span) (e : Element) : Builder :=
  let b := b.withPath (·.closeOne .tableRow)
  let b :=
    if b.topKind = .table then b
    else
      -- A table may follow a doc string of the same step.
      let b := b.withPath (·.closeAll fun k => k = .stepParameter || k = .docString)
      let b :=
        if b.topKind.isStep || b.topKind = .examples then b
        else (b.withPath OpenPath.closeLeaves).degrade .tableOutsideStep span
      b.enter .table
  (b.enter .tableRow).attach e

/-- A delimiter outside every doc string opens one. -/
def openDocString (b : Builder) (span : Span) (e : Element) : Builder :=
  let b := b.withPath (·.closeAll fun k =>
    k = .stepParameter || k = .table || k = .tableRow || k = .docString)
  let b :=
    if b.topKind.isStep then b
    else (b.withPath OpenPath.closeLeaves).degrade .docStringOutsideStep span
  { (b.enter .docString).attach e with inDocString := true }

/-- A significant token outside every doc string. -/
def placeToken (b : Builder) (lineStart : Bool) (t : Token) (e : Element) : Builder :=
  match t.kind with
  | .keyword keyword => b.openKeyword keyword t.span e
  | .parameterStart => (b.enter .stepParameter).attach e
  | .parameterEnd => (b.attach e).withPath (·.closeOne .stepParameter)
  | .docStringDelimiter => b.openDocString t.span e
  | .pipe => if lineStart then b.openRow t.span e else b.attach e
  | .text | .tag =>
    if lineStart then (b.withPath OpenPath.closeLeaves).attach e else b.attach e
  | _ => b.attach e

/-- The next token of the source. -/
def step (b : Builder) (t : Token) : Builder :=
  let e := Element.token b.nextToken t
  let b := { b with nextToken := b.nextToken + 1 }
  if t.isTrivia then
    { b with pending := e :: b.pending, atLineStart := b.atLineStart || t.kind = .newline }
  else
    let lineStart := b.atLineStart
    let b := { b with atLineStart := false }
    -- Inside a doc string nothing opens a node; a delimiter ends it.
    if b.inDocString then
      { b with inDocString := t.kind != TokenKind.docStringDelimiter }.attach e
    else b.placeToken lineStart t e

/-- Where the innermost open node begins. -/
def topStart (b : Builder) : Nat :=
  match b.path.top.reversed.getLast? with
  | some (.token _ t) => t.span.start
  | _ => 0

/-- The end of the source, of so many bytes: an open doc string is recorded, the last trivia is
placed, and a source without a feature is recorded. -/
def finish (b : Builder) (size : Nat) : Element × List Degradation :=
  let b :=
    if b.inDocString then b.degrade .unclosedDocString (Span.clamp b.topStart size)
    else b.withPath OpenPath.closeLeaves
  let b := b.flush
  let b := if b.hasFeature then b else b.degrade .missingFeature (Span.clamp 0 size)
  (b.path.finish, b.problems.reverse)

end Builder

end FeatureFile

/-
# FeatureFile.Outline.Arena — the nodes of an outline in a table

Nodes can be held in a table, each under its number. A node then names the node around it and lists
its children by number, so that it is found from both sides while it is still open. Which nodes are
open is a stack of numbers: to close a node is to take it off the stack, and nothing is moved. The
spans are measured at the end in one sweep from the last node to the first, since children have
greater numbers than the nodes that hold them.

The table is built token by token, in place. It stores what `Outline.parse` holds as a tree.
-/

import FeatureFile.Outline

namespace FeatureFile

/-! ## §A Places of the table -/

/-- A child of a node: a token or a node, by its number. -/
inductive ChildId where
  | token (index : Nat)
  | node (id : Nat)
  deriving DecidableEq, Repr

/-- The number of a child that is a node. -/
def ChildId.node? : ChildId → Option Nat
  | node id => some id
  | token _ => none

/-- A node in the table, with the number of the node around it. -/
structure Slot where
  kind : NodeKind
  parent : Option Nat
  children : List ChildId := []
  /-- Empty until the node is measured. -/
  span : Span := Span.empty 0
  deriving DecidableEq, Repr

/-- Adds a child at the end. -/
def Slot.add (s : Slot) (c : ChildId) : Slot := { s with children := s.children ++ [c] }

/-- A table of nodes over the tokens of a source. -/
structure NodeTable where
  source : String
  tokens : List Token
  nodes : List Slot
  degradations : List Degradation

/-- The span of a child in a table: nothing is covered under an unknown number. -/
def ChildId.spanIn (tokens : List Token) (nodes : List Slot) : ChildId → Span
  | token index => ((tokens[index]?).map (·.span)).getD (Span.empty 0)
  | node id => ((nodes[id]?).map (·.span)).getD (Span.empty 0)

/-- Measures one node by its children. -/
def Slot.measure (tokens : List Token) (nodes : List Slot) (id : Nat) : List Slot :=
  nodes.modify id fun s => { s with span := Span.coverAll (s.children.map (·.spanIn tokens nodes)) }

/-- Measures all nodes, the last one first. -/
def Slot.measureAll (tokens : List Token) (nodes : List Slot) : List Slot :=
  (List.range nodes.length).reverse.foldl (measure tokens) nodes

/-! ## §B The state between two tokens -/

/-- A table that is being filled. -/
structure Arena where
  tokens : List Token
  nodes : List Slot := [{ kind := .file, parent := none }]
  /-- The numbers of the open nodes from the inside out. -/
  stack : List Nat := [0]
  /-- The numbers of the trivia that no node holds yet. -/
  pending : List Nat := []
  degradations : List Degradation := []
  /-- The last concrete step keyword of the block. -/
  lastConcrete : Option StepKeyword := none
  /-- Whether no significant token has been seen on the line. -/
  atLineStart : Bool := true
  /-- Whether a doc string is open. -/
  inDocString : Bool := false
  /-- Whether a feature keyword has been seen. -/
  hasFeature : Bool := false

namespace Arena

/-- The span of a token. -/
def spanOf (a : Arena) (index : Nat) : Span := (ChildId.token index).spanIn a.tokens a.nodes

/-- The number of the innermost open node. -/
def top (a : Arena) : Nat := a.stack.headD 0

/-- The kind of a node; an unknown number is taken for the file. -/
def nodeKind (a : Arena) (id : Nat) : NodeKind := ((a.nodes[id]?).map (·.kind)).getD .file

/-- The kind of the innermost open node. -/
def topKind (a : Arena) : NodeKind := a.nodeKind a.top

/-- Adds a child to a node. -/
def append (a : Arena) (parent : Nat) (c : ChildId) : Arena :=
  { a with nodes := a.nodes.modify parent (·.add c) }

/-- Gives the waiting trivia to a node. -/
def flushInto (a : Arena) (parent : Nat) : Arena :=
  { a with
    nodes := a.pending.foldl (fun nodes index => nodes.modify parent (·.add (.token index))) a.nodes
    pending := [] }

/-- Gives the waiting trivia and then a token to the innermost node. -/
def attach (a : Arena) (index : Nat) : Arena := (a.flushInto a.top).append a.top (.token index)

/-- Gives the waiting trivia to the innermost node and opens a node inside it, under the next
number. -/
def enter (a : Arena) (kind : NodeKind) : Arena :=
  let parent := a.top
  let a := a.flushInto parent
  let id := a.nodes.length
  let a : Arena := { a with nodes := a.nodes ++ [{ kind, parent := some parent }] }
  { a.append parent (.node id) with stack := id :: a.stack }

/-- Records a problem. -/
def degrade (a : Arena) (kind : Degradation.Kind) (span : Span) : Arena :=
  { a with degradations := a.degradations ++ [⟨kind, span⟩] }

/-! ## §C Closing nodes -/

/-- Closes the innermost node. -/
def pop (a : Arena) : Arena := { a with stack := a.stack.tail }

/-- Closes the innermost nodes for as long as their kinds satisfy a condition. -/
def popWhile (a : Arena) (p : NodeKind → Bool) : Arena :=
  { a with stack := a.stack.dropWhile fun id => p (a.nodeKind id) }

/-- Takes numbers off a stack for as long as they satisfy a condition. The last one stays. -/
def untilLast (p : Nat → Bool) : List Nat → List Nat
  | id :: next :: rest => if p id then untilLast p (next :: rest) else id :: next :: rest
  | stack => stack

/-- Closes every node that is no container. -/
def closeLeaves (a : Arena) : Arena :=
  { a with stack := untilLast (fun id => !(a.nodeKind id).isContainer) a.stack }

/-- Closes every node but the root. -/
def closeToRoot (a : Arena) : Arena := { a with stack := a.stack.drop (a.stack.length - 1) }

/-- Closes nodes up to the innermost one that may hold a keyword. Where none may, nothing is closed
and the keyword is recorded as misplaced. -/
def closeTo (a : Arena) (keyword : Keyword) (span : Span) (allowed : NodeKind → Bool) : Arena :=
  match a.stack.findIdx? fun id => allowed (a.nodeKind id) with
  | some position => { a with stack := a.stack.drop position }
  | none => a.degrade (.misplaced keyword) span

/-- Whether an examples block lies between the innermost node and the nearest one that holds
steps. -/
def insideExamples (a : Arena) : Bool :=
  (a.stack.takeWhile fun id => !(a.nodeKind id).holdsSteps).any fun id => a.nodeKind id = .examples

/-! ## §D One token -/

/-- Closes what a keyword ends, and records what is wrong with its place. -/
def makeRoom (a : Arena) (keyword : Keyword) (span : Span) : Arena :=
  match keyword with
  | .feature =>
    let a := if a.hasFeature then a.degrade .duplicateFeature span else a
    { a with hasFeature := true }.closeToRoot
  | .rule => a.closeTo keyword span (· = .feature)
  | .background | .scenario | .scenarioOutline =>
    a.closeTo keyword span fun k => k = .feature || k = .rule
  | .examples => a.closeTo keyword span fun k => k = .scenario || k = .scenarioOutline
  | .step _ =>
    -- Looked up before the examples are closed.
    let late := a.insideExamples
    let a := a.closeTo keyword span NodeKind.holdsSteps
    if late && a.topKind.holdsSteps then a.degrade .stepAfterExamples span else a

/-- A keyword opens a node. -/
def openKeyword (a : Arena) (keyword : Keyword) (index : Nat) : Arena :=
  let a := a.closeLeaves.makeRoom keyword (a.spanOf index)
  let (stands, last) := Builder.effective keyword a.lastConcrete
  ({ a with lastConcrete := last }.enter (.ofKeyword stands keyword)).attach index

/-- A pipe at the start of a line opens a row, and a table unless one is open. -/
def openRow (a : Arena) (index : Nat) : Arena :=
  let a := if a.topKind = .tableRow then a.pop else a
  let a :=
    if a.topKind = .table then a
    else
      -- A table may follow a doc string of the same step.
      let a := a.popWhile fun k => k = .stepParameter || k = .docString
      let a :=
        if a.topKind.isStep || a.topKind = .examples then a
        else a.closeLeaves.degrade .tableOutsideStep (a.spanOf index)
      a.enter .table
  (a.enter .tableRow).attach index

/-- A delimiter outside every doc string opens one. -/
def openDocString (a : Arena) (index : Nat) : Arena :=
  let a := a.popWhile fun k =>
    k = .stepParameter || k = .table || k = .tableRow || k = .docString
  let a :=
    if a.topKind.isStep then a
    else a.closeLeaves.degrade .docStringOutsideStep (a.spanOf index)
  { (a.enter .docString).attach index with inDocString := true }

/-- A significant token outside every doc string. -/
def placeToken (a : Arena) (lineStart : Bool) (kind : TokenKind) (index : Nat) : Arena :=
  match kind with
  | .keyword keyword => a.openKeyword keyword index
  | .parameterStart => (a.enter .stepParameter).attach index
  | .parameterEnd =>
    let a := a.attach index
    if a.topKind = .stepParameter then a.pop else a
  | .docStringDelimiter => a.openDocString index
  | .pipe => if lineStart then a.openRow index else a.attach index
  | .text | .tag => if lineStart then a.closeLeaves.attach index else a.attach index
  | _ => a.attach index

/-- The next token of the source, by its number. -/
def pushToken (a : Arena) (index : Nat) : Arena :=
  match a.tokens[index]? with
  | none => a
  | some t =>
    if t.isTrivia then
      { a with
        pending := a.pending ++ [index], atLineStart := a.atLineStart || t.kind = .newline }
    else
      let lineStart := a.atLineStart
      let a := { a with atLineStart := false }
      -- Inside a doc string nothing opens a node; a delimiter ends it.
      if a.inDocString then
        { a with inDocString := t.kind != TokenKind.docStringDelimiter }.attach index
      else a.placeToken lineStart t.kind index

/-! ## §E The end of the source -/

/-- Where the innermost open node begins. -/
def topStart (a : Arena) : Nat :=
  match a.stack.head?.bind fun id => (a.nodes[id]?).bind (·.children.head?) with
  | some (.token index) => (a.spanOf index).start
  | _ => 0

/-- The end of a source of so many bytes: an open doc string is recorded, the last trivia is placed,
and a source without a feature is recorded. -/
def atEnd (a : Arena) (size : Nat) : Arena :=
  let a :=
    if a.inDocString then a.degrade .unclosedDocString (Span.clamp a.topStart size)
    else a.closeLeaves
  let a := a.flushInto a.top
  if a.hasFeature then a else a.degrade .missingFeature (Span.clamp 0 size)

/-- The table of a source. -/
def build (source : String) : NodeTable :=
  let tokens := tokenize source
  let a := ((List.range tokens.length).foldl pushToken { tokens }).atEnd (Text.byteSize source)
  ⟨source, tokens, Slot.measureAll tokens a.nodes, a.degradations⟩

end Arena

/-! ## §F Looking up -/

namespace NodeTable

/-- The kind of a node. -/
def kind? (t : NodeTable) (id : Nat) : Option NodeKind := (t.nodes[id]?).map (·.kind)

/-- The number of the node that a node stands in. -/
def parent? (t : NodeTable) (id : Nat) : Option Nat := (t.nodes[id]?).bind (·.parent)

/-- The children of a node. -/
def children (t : NodeTable) (id : Nat) : List ChildId := ((t.nodes[id]?).map (·.children)).getD []

/-- The span of a child. -/
def spanOf (t : NodeTable) (c : ChildId) : Span := c.spanIn t.tokens t.nodes

/-- The piece of the source that a child covers. -/
def elementText (t : NodeTable) (c : ChildId) : String :=
  String.ofList (Text.slice (t.spanOf c).start (t.spanOf c).stop t.source.toList)

/-- The numbers of the children of a node that are nodes. -/
def childIds (t : NodeTable) (id : Nat) : List Nat := (t.children id).filterMap ChildId.node?

/-- The numbers of the children of a node that are nodes of one kind. -/
def childNodes (t : NodeTable) (id : Nat) (kind : NodeKind) : List Nat :=
  (t.childIds id).filter fun child => t.kind? child = some kind

/-- A walk over the nodes on a stack and all nodes below them, of no more than so many turns. A turn
gives the node on top and puts its children in its place. -/
def walk (t : NodeTable) : Nat → List Nat → List Nat
  | 0, _ => []
  | _ + 1, [] => []
  | turns + 1, id :: stack => id :: t.walk turns (t.childIds id ++ stack)

/-- The numbers of a node and of all nodes below it. -/
def descendants (t : NodeTable) (id : Nat) : List Nat := t.walk (t.nodes.length + 1) [id]

/-- The tokens of the children on a stack, in no more than so many turns. A turn takes a token off
the stack, or puts the children of a node in its place; an unknown token ends the walk. -/
def walkLeaves (t : NodeTable) : Nat → List ChildId → List Token
  | 0, _ => []
  | _ + 1, [] => []
  | turns + 1, .node id :: stack => t.walkLeaves turns (t.children id ++ stack)
  | turns + 1, .token index :: stack =>
    match t.tokens[index]? with
    | some u => u :: t.walkLeaves turns stack
    | none => []

/-- The tokens below the root. -/
def leaves (t : NodeTable) : List Token :=
  t.walkLeaves (t.nodes.length + t.tokens.length) [.node 0]

/-- The first feature of the source. -/
def feature? (t : NodeTable) : Option Nat := (t.childNodes 0 .feature).head?

end NodeTable

end FeatureFile

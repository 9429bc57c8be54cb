/-
# FeatureFile.Outline.Element — the shape of an outline

An outline is a tree whose leaves are the tokens of the source. A node is numbered when it is
opened, so numbers increase in document order and a node's number is smaller than those below it.
A node keeps the span that covers its children, and its children are a list of elements: a node has
one parent because it stands in one list.

`entries` lists the nodes below an element in document order, each with its parent's number;
`tokens` lists the leaves. They are the two views through which an outline is read.
-/

import FeatureFile.Token

namespace FeatureFile

/-! ## §A Node kinds -/

/-- What a node of the outline stands for. -/
inductive NodeKind where
  /-- The whole source. -/
  | file
  | feature
  | rule
  | background
  | scenario
  | scenarioOutline
  | examples
  /-- A step line with its table or doc string: the keyword as written, and the keyword that it
  stands for. -/
  | step (keyword effective : StepKeyword)
  /-- A name in angle brackets inside a step. -/
  | stepParameter
  | table
  | tableRow
  /-- A doc string with its delimiters. -/
  | docString
  deriving DecidableEq, Repr

namespace NodeKind

/-- Whether nodes of the kind group other blocks, steps and descriptions. -/
def isContainer : NodeKind → Bool
  | file | feature | rule | background | scenario | scenarioOutline | examples => true
  | step .. | stepParameter | table | tableRow | docString => false

/-- Whether steps belong into nodes of the kind. -/
def holdsSteps : NodeKind → Bool
  | background | scenario | scenarioOutline => true
  | _ => false

/-- Whether nodes of the kind are steps. -/
def isStep : NodeKind → Bool
  | step .. => true
  | _ => false

/-- The kind of node that a keyword opens. -/
def ofKeyword (effective : StepKeyword) : Keyword → NodeKind
  | .feature => feature
  | .rule => rule
  | .background => background
  | .scenario => scenario
  | .scenarioOutline => scenarioOutline
  | .examples => examples
  | .step keyword => step keyword effective

/-- The name of the kind; a step carries its keywords beside it. -/
def name : NodeKind → String
  | file => "File"
  | feature => "Feature"
  | rule => "Rule"
  | background => "Background"
  | scenario => "Scenario"
  | scenarioOutline => "ScenarioOutline"
  | examples => "Examples"
  | step .. => "Step"
  | stepParameter => "StepParameter"
  | table => "Table"
  | tableRow => "TableRow"
  | docString => "DocString"

end NodeKind

/-! ## §B Elements -/

/-- A child of a node: a token with its number, or a node with its number, kind, span and
children. -/
inductive Element where
  | token (index : Nat) (token : Token)
  | node (id : Nat) (kind : NodeKind) (span : Span) (children : List Element)
  deriving Repr

/-- A node of an outline, taken out of its tree. -/
structure Node where
  id : Nat
  kind : NodeKind
  span : Span
  children : List Element
  deriving Repr

/-- A node with the number of the node that it stands in. -/
structure Entry where
  parent : Option Nat
  node : Node
  deriving Repr

namespace Element

/-- The span of the source that an element covers. -/
def span : Element → Span
  | token _ t => t.span
  | node _ _ s _ => s

/-- The node, when the element is one. -/
def node? : Element → Option Node
  | token .. => none
  | node id kind span children => some ⟨id, kind, span, children⟩

/-- The token, when the element is one. -/
def token? : Element → Option Token
  | token _ t => some t
  | node .. => none

/-- Whether the element is a token of a class. -/
def isToken (p : TokenKind → Bool) : Element → Bool
  | token _ t => p t.kind
  | node .. => false

mutual

/-- The nodes of an element in document order, each with its parent's number. -/
def entries (parent : Option Nat) : Element → List Entry
  | token .. => []
  | node id kind span children =>
    ⟨parent, ⟨id, kind, span, children⟩⟩ :: entriesOf (some id) children

/-- The nodes of several elements in document order. -/
def entriesOf (parent : Option Nat) : List Element → List Entry
  | [] => []
  | e :: rest => entries parent e ++ entriesOf parent rest

end

mutual

/-- The tokens of an element in document order. -/
def tokens : Element → List Token
  | token _ t => [t]
  | node _ _ _ children => tokensOf children

/-- The tokens of several elements in document order. -/
def tokensOf : List Element → List Token
  | [] => []
  | e :: rest => tokens e ++ tokensOf rest

end

/-- The text of an element: the texts of its tokens, end to end. -/
def text (e : Element) : List Char := e.tokens.flatMap (·.text.toList)

/-- The text of several elements, end to end. -/
def textOf (es : List Element) : List Char := es.flatMap text

end Element

namespace Node

/-- The node as an element. -/
def toElement (n : Node) : Element := .node n.id n.kind n.span n.children

/-- The children that are nodes. -/
def childNodes (n : Node) : List Node := n.children.filterMap Element.node?

/-- The children that are nodes of one kind. -/
def childrenOfKind (n : Node) (kind : NodeKind) : List Node :=
  n.childNodes.filter fun child => child.kind = kind

/-- The children that are tokens. -/
def childTokens (n : Node) : List Token := n.children.filterMap Element.token?

/-- The node and all nodes below it, in document order. -/
def descendants (n : Node) : List Node := (n.toElement.entries none).map (·.node)

end Node

end FeatureFile

/-
# FeatureFile.Outline — the outline of a source text

An outline holds the source, its tokens, the tree over them and the problems met while building it.
Nodes are looked up by number; an unknown number has no node, no kind and no children, and covers
the empty span at the start. Looking up goes through the list of all nodes in document order.
-/

import FeatureFile.Error
import FeatureFile.Outline.Builder
import FeatureFile.Token.Lexer

namespace FeatureFile

/-- A source text with its tokens, its tree and its problems. -/
structure Outline where
  source : String
  tokens : List Token
  root : Element
  degradations : List Degradation

namespace Outline

/-- The outline of a source text; there is one for every text. -/
def parse (source : String) : Outline :=
  let tokens := tokenize source
  let (root, degradations) :=
    (tokens.foldl Builder.step {}).finish (Text.byteSize source)
  ⟨source, tokens, root, degradations⟩

/-! ## §A Nodes by number -/

/-- All nodes in document order, each with its parent's number. -/
def entries (o : Outline) : List Entry := o.root.entries none

/-- All nodes in document order. -/
def nodes (o : Outline) : List Node := o.entries.map (·.node)

/-- The node of a number, with its parent's number. -/
def entry? (o : Outline) (id : Nat) : Option Entry := o.entries.find? (·.node.id == id)

/-- The node of a number. -/
def node? (o : Outline) (id : Nat) : Option Node := (o.entry? id).map (·.node)

/-- The kind of a node. -/
def kind? (o : Outline) (id : Nat) : Option NodeKind := (o.node? id).map (·.kind)

/-- The number of the node that a node stands in; the root stands in none. -/
def parent? (o : Outline) (id : Nat) : Option Nat := (o.entry? id).bind (·.parent)

/-- The children of a node. -/
def children (o : Outline) (id : Nat) : List Element := ((o.node? id).map (·.children)).getD []

/-- The span of a node. -/
def span (o : Outline) (id : Nat) : Span := ((o.node? id).map (·.span)).getD (Span.empty 0)

/-- The piece of the source that a span covers. -/
def sourceText (o : Outline) (s : Span) : String :=
  String.ofList (Text.slice s.start s.stop o.source.toList)

/-- The piece of the source that a node covers. -/
def nodeText (o : Outline) (id : Nat) : String := o.sourceText (o.span id)

/-- The numbers of a node and of all nodes below it, in document order. -/
def descendants (o : Outline) (id : Nat) : List Nat :=
  match o.node? id with
  | some n => n.descendants.map (·.id)
  | none => [id]

/-- The children of a node that are nodes of one kind. -/
def childNodes (o : Outline) (id : Nat) (kind : NodeKind) : List Node :=
  ((o.node? id).map (·.childrenOfKind kind)).getD []

/-! ## §B The whole source -/

/-- The tokens of the tree, in document order. -/
def leaves (o : Outline) : List Token := o.root.tokens

/-- The texts of the tokens of the tree, end to end. -/
def leafText (o : Outline) : String := String.ofList o.root.text

/-- The first feature of the source. -/
def feature? (o : Outline) : Option Node := (o.childNodes 0 .feature).head?

/-- The first feature of a source that must have one. -/
def feature (o : Outline) : Except Error Node :=
  match o.feature? with
  | some n => .ok n
  | none => .error .missingFeature

/-- The outline of a source that must have a feature. -/
def parseFeature (source : String) : Except Error Outline :=
  (parse source).feature.map fun _ => parse source

end Outline

end FeatureFile

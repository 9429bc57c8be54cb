/-
# FeatureFile.Step — the text of a step

A step reads as its own line: its children up to the first line break. Tables and doc strings below
the line belong to the node but never to the text. The text is what definitions are matched against;
in an outline of examples each parameter on the line stands for its value in a row.
-/

import FeatureFile.Examples.Table

namespace FeatureFile

/-- A step of an outline: its node, the keyword as written and the keyword that it stands for. -/
structure Step where
  node : Node
  keyword : StepKeyword
  effective : StepKeyword

/-- A parameter on the line of a step. -/
structure StepParameter where
  node : Node

namespace StepParameter

/-- The parameter of a node that is one. -/
def ofNode? (n : Node) : Option StepParameter :=
  if n.kind = .stepParameter then some ⟨n⟩ else none

/-- The name between the brackets. -/
def name (p : StepParameter) : String :=
  match p.node.childTokens.find? (·.kind = .parameterName) with
  | some t => t.text
  | none => ""

/-- The parameter as written, its brackets included. -/
def text (p : StepParameter) : String := String.ofList p.node.toElement.text

end StepParameter

namespace Step

/-- The step of a node that is one. -/
def ofNode? (n : Node) : Option Step :=
  match n.kind with
  | .step keyword effective => some ⟨n, keyword, effective⟩
  | _ => none

theorem ofNode?_eq_some_iff {n : Node} {s : Step} :
    ofNode? n = some s ↔ s.node = n ∧ n.kind = .step s.keyword s.effective := by
  obtain ⟨node, keyword, effective⟩ := s
  unfold ofNode?
  split
  · rename_i hkind
    rw [hkind]
    simp [eq_comm]
  · rename_i hkind
    simp only [reduceCtorEq, false_iff, not_and]
    exact fun _ => hkind keyword effective

/-! ## §A The line -/

/-- The elements on the line of the step. -/
def lineElements (s : Step) : List Element :=
  s.node.children.takeWhile fun e => !e.isToken (· = .newline)

/-- Whether an element is a keyword. -/
def isKeyword (e : Element) : Bool := e.isToken fun k => k.keyword?.isSome

/-- The elements on the line from the first one that is neither the keyword nor white space. -/
def textElements (s : Step) : List Element :=
  s.lineElements.dropWhile fun e => isKeyword e || e.isToken (· = .whitespace)

/-- The elements on the line without the keyword. -/
def bodyElements (s : Step) : List Element := s.lineElements.filter fun e => !isKeyword e

/-! ## §B Texts -/

/-- The keyword as it stands in the source. -/
def keywordText (s : Step) : String :=
  match s.lineElements.find? isKeyword with
  | some e => String.ofList e.text
  | none => ""

/-- The line of the step with its keyword, trimmed. -/
def fullText (s : Step) : String := String.ofList (Text.trim (Element.textOf s.lineElements))

/-- The line of the step without its keyword, trimmed: the text that definitions are matched
against. -/
def text (s : Step) : String := String.ofList (Text.trim (Element.textOf s.bodyElements))

/-- From the first element of the text to the end of the node; empty at the end of the node if the
line holds nothing but the keyword. -/
def textRange (s : Step) : Span :=
  match s.textElements.head? with
  | some first => Span.clamp first.span.start s.node.span.stop
  | none => Span.empty s.node.span.stop

/-- The parameters on the line. -/
def parameters (s : Step) : List StepParameter :=
  s.lineElements.filterMap fun e => e.node?.bind StepParameter.ofNode?

/-- The text of elements up to a caret, behind a text already gathered. An element that holds the
caret is cut before it, at a character boundary. -/
def gatherBefore (caret : Nat) (gathered : List Char) : List Element → List Char
  | [] => gathered
  | e :: rest =>
    if caret < e.span.start then gathered
    else
      let text := gathered ++ e.text
      if caret < e.span.stop then
        Text.takeBytes (Text.byteLength text - (e.span.stop - caret)) text
      else gatherBefore caret text rest

/-- The text of the step up to a caret, trimmed. -/
def textBefore (s : Step) (caret : Nat) : String :=
  String.ofList (Text.trim (gatherBefore caret [] s.textElements))

/-! ## §C Examples -/

/-- The text of an element in an example: a parameter stands for its value, or for its bare name if
the row has none; all else stands for itself. -/
def elementForExample (row : ExampleRow) (e : Element) : List Char :=
  match e.node?.bind StepParameter.ofNode? with
  | some p => ((row.get? p.name).getD p.name).toList
  | none => e.text

/-- The text of the step in an example, trimmed. -/
def textForExample (s : Step) (row : ExampleRow) : String :=
  String.ofList (Text.trim (s.bodyElements.flatMap (elementForExample row)))

end Step

/-! ## §D Steps of an outline -/

namespace Node

/-- The steps directly below a node. -/
def steps (n : Node) : List Step := n.childNodes.filterMap Step.ofNode?

/-- Every step directly below a node in every row of its examples: the rows are the outer loop. -/
def expansions (n : Node) : List (Step × ExampleRow) :=
  (n.examplesTables.flatMap (·.rows)).flatMap fun row => n.steps.map fun s => (s, row)

end Node

namespace Outline

/-- All steps in document order. -/
def steps (o : Outline) : List Step := o.nodes.filterMap Step.ofNode?

theorem mem_steps_iff {o : Outline} {s : Step} :
    s ∈ o.steps ↔
      (∃ parent, (⟨parent, s.node⟩ : Entry) ∈ o.entries) ∧
        s.node.kind = .step s.keyword s.effective := by
  rw [steps, List.mem_filterMap]
  constructor
  · rintro ⟨n, hn, hs⟩
    obtain ⟨rfl, hkind⟩ := Step.ofNode?_eq_some_iff.mp hs
    obtain ⟨x, hx, hnode⟩ := List.mem_map.mp hn
    exact ⟨⟨x.parent, hnode ▸ hx⟩, hkind⟩
  · rintro ⟨⟨parent, hmem⟩, hkind⟩
    exact ⟨s.node, List.mem_map.mpr ⟨_, hmem, rfl⟩, Step.ofNode?_eq_some_iff.mpr ⟨rfl, hkind⟩⟩

/-- The step of a number. -/
def step? (o : Outline) (id : Nat) : Option Step := (o.node? id).bind Step.ofNode?

/-- The first step whose span holds an offset or ends at it. -/
def stepAt? (o : Outline) (offset : Nat) : Option Step :=
  o.steps.find? fun s => s.node.span.touches offset

end Outline

end FeatureFile

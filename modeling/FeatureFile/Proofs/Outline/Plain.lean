/-
# FeatureFile.Proofs.Outline.Plain — an outline without its layout

The plain form of an outline forgets what the layout of a source decides: numbers of tokens, spans,
the spelling of line breaks, and trivia. Trivia on the line of a step is part of its text, so of the
children of a step it is kept up to the first line break.

What is read off an outline is read off its plain form: the significant children of every node
(`significant_plainOf`), the texts of steps as far as their lines are neat (`Step.reading_plain`,
`Step.textForExample_plain`), and the tables of examples (`Node.examplesTables_plain`). So outlines
with one plain form agree in all of it. Of the plain form the texts and the tables use only that it
redraws elements and nodes in a way that they do not see (`Step.Redraws`, `Node.Redraws`).
-/

import FeatureFile.Proofs.Outline.StepLine
import FeatureFile.Step

namespace FeatureFile

/-! ## §A Plain elements -/

/-- The token without its place; a line break without its spelling. -/
def Token.plain (t : Token) : Token :=
  ⟨t.kind, Span.empty 0, if t.kind = .newline then "" else t.text⟩

namespace Element

mutual

/-- **`plain e`** — the element without its layout. -/
def plain : Element → Element
  | token _ t => .token 0 t.plain
  | node id kind _ children => .node id kind (Span.empty 0) (plainOf kind.isStep children)

/-- The elements without their layout. On the line of a step trivia is kept. -/
def plainOf (onLine : Bool) : List Element → List Element
  | [] => []
  | e :: rest =>
    if e.isTrivia && !onLine then plainOf onLine rest
    else plain e :: plainOf (onLine && !e.isBreak) rest

end

theorem isToken_plain (p : TokenKind → Bool) (e : Element) : e.plain.isToken p = e.isToken p := by
  cases e <;> rw [plain] <;> rfl

theorem isBreak_plain (e : Element) : e.plain.isBreak = e.isBreak := isToken_plain _ e

theorem isTrivia_plain (e : Element) : e.plain.isTrivia = e.isTrivia := isToken_plain _ e

theorem plainOf_true_cons (e : Element) (rest : List Element) :
    plainOf true (e :: rest) = plain e :: plainOf (!e.isBreak) rest := by
  rw [plainOf, Bool.not_true, Bool.and_false, if_neg Bool.false_ne_true, Bool.true_and]

theorem plainOf_false_cons (e : Element) (rest : List Element) :
    plainOf false (e :: rest) =
      if e.isTrivia then plainOf false rest else plain e :: plainOf false rest := by
  rw [plainOf, Bool.not_false, Bool.and_true, Bool.false_and]

theorem plainOf_append (onLine : Bool) (a b : List Element) :
    plainOf onLine (a ++ b) = plainOf onLine a ++ plainOf (onLine && !a.any isBreak) b := by
  induction a generalizing onLine with
  | nil => rw [List.nil_append, List.any_nil, Bool.not_false, Bool.and_true, plainOf]; rfl
  | cons e a ih =>
    cases onLine with
    | true =>
      rw [List.cons_append, plainOf_true_cons, plainOf_true_cons, ih, List.any_cons]
      cases e.isBreak <;> rfl
    | false =>
      rw [List.cons_append, plainOf_false_cons, plainOf_false_cons, ih]
      split <;> rfl

/-- Off the line trivia is forgotten. -/
theorem plainOf_false_of_trivia {es : List Element} (h : ∀ e ∈ es, e.isTrivia = true) :
    plainOf false es = [] := by
  induction es with
  | nil => rw [plainOf]
  | cons e es ih =>
    obtain ⟨he, hes⟩ := List.forall_mem_cons.mp h
    rw [plainOf_false_cons, if_pos he, ih hes]

/-- On the line line breaks are not forgotten. -/
theorem any_isBreak_plainOf (es : List Element) : (plainOf true es).any isBreak = es.any isBreak := by
  induction es with
  | nil => rw [plainOf]
  | cons e es ih =>
    rw [plainOf_true_cons, List.any_cons, List.any_cons, isBreak_plain]
    cases he : e.isBreak with
    | true => rfl
    | false => rw [Bool.not_false, ih]

/-- Elements up to the first line break keep their places. -/
theorem takeWhile_plainOf (es : List Element) :
    (plainOf true es).takeWhile (!·.isBreak) = (es.takeWhile (!·.isBreak)).map plain := by
  induction es with
  | nil => rw [plainOf]; rfl
  | cons e es ih =>
    rw [plainOf_true_cons, List.takeWhile_cons, List.takeWhile_cons, isBreak_plain]
    cases he : e.isBreak with
    | true => rfl
    | false => rw [Bool.not_false, if_pos rfl, if_pos rfl, List.map_cons, ih]

end Element

/-- The node without its layout. -/
def Node.plain (n : Node) : Node :=
  ⟨n.id, n.kind, Span.empty 0, Element.plainOf n.kind.isStep n.children⟩

/-- The entry without the layout of its node. -/
def Entry.plain (x : Entry) : Entry := ⟨x.parent, x.node.plain⟩

namespace Element

theorem node?_plain (e : Element) : e.plain.node? = e.node?.map Node.plain := by
  cases e <;> rw [plain] <;> rfl

theorem filterMap_node?_plainOf (onLine : Bool) (es : List Element) :
    (plainOf onLine es).filterMap node? = (es.filterMap node?).map Node.plain := by
  induction es generalizing onLine with
  | nil => rw [plainOf]; rfl
  | cons e es ih =>
    rw [plainOf]
    split
    · rename_i htrivia
      have hnode : e.node? = none := node?_of_isTrivia ((Bool.and_eq_true _ _).mp htrivia).1
      rw [ih, List.filterMap_cons_none hnode]
    · rw [List.filterMap_cons, List.filterMap_cons, node?_plain, ih]
      cases e.node? <;> rfl

mutual

/-- The nodes of the plain form are the plain nodes. -/
theorem entries_plain (parent : Option Nat) : ∀ e : Element,
    e.plain.entries parent = (e.entries parent).map Entry.plain
  | token _ _ => by rw [plain, entries, entries]; rfl
  | node id kind span children => by
    rw [plain, entries, entries, List.map_cons, entriesOf_plainOf (some id) kind.isStep children]
    rfl

theorem entriesOf_plainOf (parent : Option Nat) (onLine : Bool) : ∀ es : List Element,
    entriesOf parent (plainOf onLine es) = (entriesOf parent es).map Entry.plain
  | [] => by rw [plainOf, entriesOf]; rfl
  | e :: rest => by
    rw [plainOf, entriesOf, List.map_append]
    split
    · rename_i htrivia
      -- A token has no nodes.
      have hnode : e.node? = none := node?_of_isTrivia ((Bool.and_eq_true _ _).mp htrivia).1
      have hentries : e.entries parent = [] := by
        cases e with
        | token => rw [entries]
        | node => cases hnode
      rw [hentries, entriesOf_plainOf parent onLine rest]
      rfl
    · rw [entriesOf, entries_plain parent e, entriesOf_plainOf parent _ rest]

end

/-- What is read off significant tokens is read off the plain form. -/
theorem significant_plainOf {α : Type} {number : Nat → Nat} {see : Nat → Token → α}
    (hsee : ∀ i t, t.isTrivia = false → see 0 t.plain = see i t) (onLine : Bool)
    (es : List Element) : significant number see (plainOf onLine es) = significant number see es := by
  induction es generalizing onLine with
  | nil => rw [plainOf]
  | cons e es ih =>
    have hcons : ∀ (x : Element) (xs : List Element), significant number see (x :: xs) =
        significant number see [x] ++ significant number see xs := fun x xs =>
      significant_append number see [x] xs
    have htrivia : e.isTrivia = true → significant number see [e] = [] := fun he =>
      significant_of_trivia number see (List.forall_mem_singleton.mpr he)
    rw [plainOf]
    split
    · rename_i he
      rw [ih, hcons e, htrivia ((Bool.and_eq_true _ _).mp he).1, List.nil_append]
    · rw [hcons, hcons e, ih]
      congr 1
      cases he : e.isTrivia with
      | true =>
        rw [htrivia he]
        exact significant_of_trivia number see
          (List.forall_mem_singleton.mpr ((isTrivia_plain e).trans he))
      | false =>
        cases e with
        | token i t =>
          rw [plain, significant_token number see i he,
            significant_token number see 0 (t := t.plain) he, hsee i t he]
        | node => rw [plain]; rfl

/-- The tokens among children that are no step's. -/
theorem filterMap_token?_plainOf (es : List Element) :
    (plainOf false es).filterMap token? =
      ((es.filterMap token?).filter fun t => !t.isTrivia).map Token.plain := by
  induction es with
  | nil => rw [plainOf]; rfl
  | cons e es ih =>
    rw [plainOf_false_cons]
    cases e with
    | token i t =>
      have htoken : token? (.token i t) = some t := rfl
      rw [List.filterMap_cons_some htoken, List.filter_cons, isTrivia_token]
      cases ht : t.isTrivia with
      | true => exact ih
      | false =>
        rw [if_neg Bool.false_ne_true, Bool.not_false, if_pos rfl, List.map_cons, ← ih, plain]
        rfl
    | node id kind span children =>
      have htoken : token? (.node id kind span children) = none := rfl
      rw [List.filterMap_cons_none htoken, ← ih, plain]
      rfl

end Element

/-! ## §B Texts of steps -/

@[simp] theorem Token.kind_plain (t : Token) : t.plain.kind = t.kind := rfl

theorem Token.text_plain {t : Token} (h : t.kind ≠ .newline) : t.plain.text = t.text := if_neg h

namespace Element

theorem isSignificant_token {i : Nat} {t : Token} (h : (token i t).isSignificant = true) :
    t.isTrivia = false := Bool.not_eq_true' _ ▸ h

theorem kind_ne_newline {t : Token} (h : t.isTrivia = false) : t.kind ≠ .newline := by
  intro hk
  rw [Token.isTrivia, hk] at h
  cases h

theorem flatMap_text_plainOf {es : List Element} (h : ∀ e ∈ es, e.isSignificant = true) :
    (tokensOf (plainOf false es)).flatMap (·.text.toList) =
      (tokensOf es).flatMap (·.text.toList) := by
  induction es with
  | nil => rw [plainOf]
  | cons e es ih =>
    obtain ⟨he, hes⟩ := List.forall_mem_cons.mp h
    cases e with
    | token i t =>
      have ht := isSignificant_token he
      rw [plainOf_false_cons, isTrivia_token, ht, if_neg Bool.false_ne_true, plain, tokensOf,
        tokensOf, tokens, tokens, List.flatMap_append, List.flatMap_append, ih hes,
        List.flatMap_singleton, List.flatMap_singleton, Token.text_plain (kind_ne_newline ht)]
    | node => cases he

theorem text_plain {e : Element} (h : e.OnLine) (hbreak : e.isBreak = false) :
    e.plain.text = e.text := by
  cases e with
  | token i t =>
    have hkind : t.kind ≠ .newline := of_decide_eq_false hbreak
    rw [plain, text, text, tokens, tokens, List.flatMap_singleton, List.flatMap_singleton,
      Token.text_plain hkind]
  | node id kind span children =>
    obtain ⟨rfl, hchildren⟩ := h
    rw [plain, text, text, tokens, tokens]
    exact flatMap_text_plainOf hchildren

end Element

/-- The tokens of the plain form of a node that is no step. -/
theorem Node.childTokens_plain {n : Node} (h : n.kind.isStep = false) :
    n.plain.childTokens = (n.childTokens.filter fun t => !t.isTrivia).map Token.plain := by
  rw [Node.childTokens, Node.plain, h]
  exact Element.filterMap_token?_plainOf n.children

namespace StepParameter

theorem name_plain {n : Node} (h : n.kind = .stepParameter) :
    name ⟨n.plain⟩ = name ⟨n⟩ := by
  have hstep : n.kind.isStep = false := by rw [h]; rfl
  have hfind : (n.plain.childTokens.find? (·.kind = .parameterName)) =
      (n.childTokens.find? (·.kind = .parameterName)).map Token.plain := by
    rw [Node.childTokens_plain hstep, List.find?_map, List.find?_filter]
    refine congrArg (Option.map Token.plain) (congrArg (List.find? · n.childTokens) ?_)
    funext t
    by_cases hk : t.kind = .parameterName <;> simp [Token.isTrivia, hk, TokenKind.isTrivia]
  rw [name, name, hfind]
  cases hfound : n.childTokens.find? (·.kind = .parameterName) with
  | none => rfl
  | some t =>
    have hk : t.kind = .parameterName := by simpa using List.find?_some hfound
    exact Token.text_plain (by simp [hk])

end StepParameter

namespace Step

/-- The name of an element that is a parameter. -/
def parameterName? (e : Element) : Option String :=
  (e.node?.bind StepParameter.ofNode?).map StepParameter.name

theorem parameterName?_plain (e : Element) : parameterName? e.plain = parameterName? e := by
  rw [parameterName?, parameterName?, Element.node?_plain]
  cases e.node? with
  | none => rfl
  | some n =>
    by_cases hkind : n.kind = .stepParameter
    · have hplain : n.plain.kind = .stepParameter := hkind
      simp only [Option.map_some, Option.bind_some, StepParameter.ofNode?, if_pos hkind,
        if_pos hplain, StepParameter.name_plain hkind]
    · have hplain : n.plain.kind ≠ .stepParameter := hkind
      simp only [Option.map_some, Option.bind_some, StepParameter.ofNode?, if_neg hkind,
        if_neg hplain]

theorem elementForExample_eq (row : ExampleRow) (e : Element) :
    elementForExample row e =
      match parameterName? e with
      | some name => ((row.get? name).getD name).toList
      | none => e.text := by
  rw [elementForExample, parameterName?]
  cases e.node?.bind StepParameter.ofNode? <;> rfl

/-- **What is read off a step.** -/
structure Reading where
  /-- The number of its node. -/
  id : Nat
  keyword : StepKeyword
  effective : StepKeyword
  fullText : String
  text : String
  parameters : List String
  deriving DecidableEq, Repr

def reading (s : Step) : Reading :=
  ⟨s.node.id, s.keyword, s.effective, s.fullText, s.text, s.parameters.map (·.name)⟩

theorem map_name_parameters (s : Step) :
    s.parameters.map (·.name) = s.lineElements.filterMap parameterName? := by
  rw [parameters, List.map_filterMap]
  rfl

/-- **`Redraws f s s'`** — the line of one step is that of another with its elements redrawn, so that
each keeps its class, its text and its parameter. -/
structure Redraws (f : Element → Element) (s s' : Step) : Prop where
  id_eq : s'.node.id = s.node.id
  keyword_eq : s'.keyword = s.keyword
  effective_eq : s'.effective = s.effective
  line_eq : s'.lineElements = s.lineElements.map f
  isKeyword_eq : ∀ e, isKeyword (f e) = isKeyword e
  text_eq : ∀ e ∈ s.lineElements, (f e).text = e.text
  name_eq : ∀ e, parameterName? (f e) = parameterName? e

namespace Redraws

variable {f : Element → Element} {s s' : Step}

theorem bodyElements_eq (h : Redraws f s s') : s'.bodyElements = s.bodyElements.map f := by
  rw [bodyElements, h.line_eq, List.filter_map]
  refine congrArg (List.map f) (congrArg (List.filter · s.lineElements) ?_)
  funext e
  exact congrArg (!·) (h.isKeyword_eq e)

/-- A text that is put together from the elements of the body, one by one. -/
theorem flatMap_body_eq (h : Redraws f s s') {g : Element → List Char}
    (hg : ∀ e ∈ s.lineElements, g (f e) = g e) :
    s'.bodyElements.flatMap g = s.bodyElements.flatMap g := by
  rw [h.bodyElements_eq, List.flatMap_map]
  exact List.flatMap_congr fun e he => hg e (List.mem_filter.mp he).1

/-- **The readings of the two steps are the same.** -/
theorem reading_eq (h : Redraws f s s') : s'.reading = s.reading := by
  have hfull : s'.fullText = s.fullText := by
    rw [fullText, fullText, Element.textOf, Element.textOf, h.line_eq, List.flatMap_map]
    rw [List.flatMap_congr h.text_eq]
  have htext : s'.text = s.text := by
    rw [text, text, Element.textOf, Element.textOf, h.flatMap_body_eq h.text_eq]
  have hnames : s'.parameters.map (·.name) = s.parameters.map (·.name) := by
    rw [map_name_parameters, map_name_parameters, h.line_eq, List.filterMap_map]
    exact congrArg (List.filterMap · s.lineElements) (funext h.name_eq)
  rw [reading, reading, h.id_eq, h.keyword_eq, h.effective_eq, hfull, htext, hnames]

theorem textForExample_eq (h : Redraws f s s') (row : ExampleRow) :
    s'.textForExample row = s.textForExample row := by
  rw [textForExample, textForExample, h.flatMap_body_eq]
  intro e he
  rw [elementForExample_eq, elementForExample_eq, h.name_eq, h.text_eq e he]

end Redraws

/-- The step without the layout of its node. -/
def plain (s : Step) : Step := { s with node := s.node.plain }

/-- **`s.Neat`** — the line of a step is neat. -/
structure Neat (s : Step) : Prop where
  isStep : s.node.kind.isStep = true
  neat : FeatureFile.Neat s.node.kind s.node.children

variable {s : Step}

theorem Neat.onLine (h : s.Neat) {e : Element} (he : e ∈ s.lineElements) :
    e.OnLine ∧ e.isBreak = false := by
  refine ⟨h.neat.line h.isStep e he, ?_⟩
  have hbreak := List.mem_takeWhile_imp he
  exact Bool.not_eq_true' _ ▸ hbreak

theorem redraws_plain (h : s.Neat) : Redraws Element.plain s s.plain where
  id_eq := rfl
  keyword_eq := rfl
  effective_eq := rfl
  line_eq := by
    show (Element.plainOf s.node.kind.isStep s.node.children).takeWhile (!·.isBreak) = _
    rw [h.isStep]
    exact Element.takeWhile_plainOf s.node.children
  isKeyword_eq := Element.isToken_plain _
  text_eq e he := Element.text_plain (h.onLine he).1 (h.onLine he).2
  name_eq := parameterName?_plain

theorem reading_plain (h : s.Neat) : s.plain.reading = s.reading := (redraws_plain h).reading_eq

theorem textForExample_plain (h : s.Neat) (row : ExampleRow) :
    s.plain.textForExample row = s.textForExample row := (redraws_plain h).textForExample_eq row

end Step

/-! ## §C Tables of examples -/

theorem cellTexts_of_trivia {t : Token} (h : t.isTrivia = true) (current : Option String)
    (ts : List Token) :
    cellTexts current (t :: ts) = cellTexts current ts ∧
      rowTexts current (t :: ts) = rowTexts current ts := by
  rw [Token.isTrivia] at h
  cases hk : t.kind <;> simp_all [cellTexts, rowTexts, TokenKind.isTrivia]

/-- Trivia between cells does not count. -/
theorem cellTexts_plain (current : Option String) (ts : List Token) :
    cellTexts current ((ts.filter fun t => !t.isTrivia).map Token.plain) = cellTexts current ts := by
  induction ts generalizing current with
  | nil => rfl
  | cons t ts ih =>
    cases ht : t.isTrivia with
    | true => rw [List.filter_cons_of_neg (by simp [ht]), ih, (cellTexts_of_trivia ht _ _).1]
    | false =>
      rw [List.filter_cons_of_pos (by simp [ht]), List.map_cons]
      simp only [cellTexts, Token.kind_plain, Token.text_plain (Element.kind_ne_newline ht), ih]

theorem rowTexts_plain (current : Option String) (ts : List Token) :
    rowTexts current ((ts.filter fun t => !t.isTrivia).map Token.plain) = rowTexts current ts := by
  induction ts generalizing current with
  | nil => rfl
  | cons t ts ih =>
    cases ht : t.isTrivia with
    | true => rw [List.filter_cons_of_neg (by simp [ht]), ih, (cellTexts_of_trivia ht _ _).2]
    | false =>
      rw [List.filter_cons_of_pos (by simp [ht]), List.map_cons]
      simp only [rowTexts, Token.kind_plain, Token.text_plain (Element.kind_ne_newline ht), ih,
        cellTexts_plain]

theorem rowCells_plain {n : Node} (h : n.kind = .tableRow) : rowCells n.plain = rowCells n := by
  have hstep : n.kind.isStep = false := by rw [h]; rfl
  rw [rowCells, rowCells, Node.childTokens_plain hstep, rowTexts_plain]

namespace Node

/-- **`Redraws f`** — nodes are redrawn so that each keeps its kind, its child nodes, redrawn, and as
a row its cells. Nothing is asked of the children of doc strings. -/
structure Redraws (f : Node → Node) : Prop where
  kind_eq : ∀ n, (f n).kind = n.kind
  childNodes_eq : ∀ n, n.kind ≠ .docString → (f n).childNodes = n.childNodes.map f
  rowCells_eq : ∀ n, n.kind = .tableRow → rowCells (f n) = rowCells n

namespace Redraws

variable {f : Node → Node}

theorem childrenOfKind_eq (h : Redraws f) {n : Node} (hn : (f n).childNodes = n.childNodes.map f)
    (kind : NodeKind) : (f n).childrenOfKind kind = (n.childrenOfKind kind).map f := by
  rw [childrenOfKind, childrenOfKind, hn, List.filter_map]
  refine congrArg (List.map f) (congrArg (List.filter · n.childNodes) ?_)
  funext child
  rw [Function.comp_apply, h.kind_eq]

theorem map_rowCells_eq (h : Redraws f) {n : Node} (hn : n.kind ≠ .docString) :
    ((f n).childrenOfKind .tableRow).map rowCells = (n.childrenOfKind .tableRow).map rowCells := by
  rw [h.childrenOfKind_eq (h.childNodes_eq n hn), List.map_map]
  refine List.map_congr_left fun row hrow => ?_
  have hkind : row.kind = .tableRow := by simpa using (List.mem_filter.mp hrow).2
  exact h.rowCells_eq row hkind

theorem examplesTable?_eq (h : Redraws f) (n : Node) :
    ExamplesTable.ofNode? (f n) = ExamplesTable.ofNode? n := by
  rw [ExamplesTable.ofNode?, ExamplesTable.ofNode?, h.kind_eq]
  by_cases hkind : n.kind = .examples
  · have hn : n.kind ≠ .docString := by simp [hkind]
    rw [if_pos hkind, if_pos hkind, h.childrenOfKind_eq (h.childNodes_eq n hn) .table,
      List.head?_map]
    cases htable : (n.childrenOfKind .table).head? with
    | none => rfl
    | some table =>
      have hmem : table ∈ n.childrenOfKind .table := List.mem_of_mem_head? htable
      have hdoc : table.kind ≠ .docString := by
        have htableKind : table.kind = .table := by simpa using (List.mem_filter.mp hmem).2
        simp [htableKind]
      simp only [Option.map_some, h.map_rowCells_eq hdoc]
  · rw [if_neg hkind, if_neg hkind]

/-- **The tables of the two nodes are the same.** -/
theorem examplesTables_eq (h : Redraws f) {n : Node}
    (hn : (f n).childNodes = n.childNodes.map f) : (f n).examplesTables = n.examplesTables := by
  rw [examplesTables, examplesTables, h.childrenOfKind_eq hn, List.filterMap_map]
  exact congrArg (List.filterMap · _) (funext h.examplesTable?_eq)

end Redraws

theorem redraws_plain : Redraws Node.plain where
  kind_eq _ := rfl
  childNodes_eq n _ := Element.filterMap_node?_plainOf _ n.children
  rowCells_eq _ := rowCells_plain

theorem examplesTables_plain (n : Node) : n.plain.examplesTables = n.examplesTables :=
  redraws_plain.examplesTables_eq (Element.filterMap_node?_plainOf _ n.children)

end Node

end FeatureFile

/-
# FeatureFile.Proofs.Outline.DocString — the contents of a doc string have no influence

Two sources that differ in the contents of one doc string alone have outlines that differ inside that
node alone. Up to the opening delimiter the builder reads the same; inside, no token opens or closes a
node (`Builder.Fills`); behind the closing delimiter the two builders hold the same but for the
children of the doc string (`outside`), and so they go on alike.

The tree that is left when places and these children are taken out is the `hollow` form of an
outline. All that is read off steps and tables is read off it. Main statement:
`parse_of_docString_contents`.
-/

import FeatureFile.Proofs.Outline.Frame
import FeatureFile.Proofs.Outline.Layout
import FeatureFile.Proofs.Token.DocString

namespace FeatureFile

/-! ## §A Hollow elements -/

/-- The token without its place. -/
def Token.unplaced (t : Token) : Token := { t with span := Span.empty 0 }

namespace Element

mutual

/-- **`hollow n e`** — the element without places, and without the children of the doc string of
number `n`. -/
def hollow (n : Nat) : Element → Element
  | token _ t => .token 0 t.unplaced
  | node id kind _ children =>
    .node id kind (Span.empty 0) (if kind = .docString ∧ id = n then [] else hollowOf n children)

/-- The elements without places and without the children of one doc string. -/
def hollowOf (n : Nat) : List Element → List Element
  | [] => []
  | e :: rest => hollow n e :: hollowOf n rest

end

theorem hollowOf_eq_map (n : Nat) (es : List Element) : hollowOf n es = es.map (hollow n) := by
  induction es with
  | nil => rw [hollowOf]; rfl
  | cons e es ih => rw [hollowOf, ih]; rfl

theorem isToken_hollow (n : Nat) (p : TokenKind → Bool) (e : Element) :
    (e.hollow n).isToken p = e.isToken p := by
  cases e <;> rw [hollow] <;> rfl

end Element

/-- The node without places, and without its children if it is the doc string of number `n`. -/
def Node.hollow (n : Nat) (m : Node) : Node :=
  ⟨m.id, m.kind, Span.empty 0,
    if m.kind = .docString ∧ m.id = n then [] else m.children.map (Element.hollow n)⟩

/-- The entry of a hollow node. -/
def Entry.hollow (n : Nat) (x : Entry) : Entry := ⟨x.parent, x.node.hollow n⟩

namespace Element

theorem node?_hollow (n : Nat) (e : Element) : (e.hollow n).node? = e.node?.map (Node.hollow n) := by
  cases e with
  | token => rw [hollow]; rfl
  | node => rw [hollow, hollowOf_eq_map]; rfl

theorem token?_hollow (n : Nat) (e : Element) : (e.hollow n).token? = e.token?.map Token.unplaced := by
  cases e <;> rw [hollow] <;> rfl

mutual

/-- The nodes of the hollow form are the hollow nodes, where doc strings hold tokens alone. -/
theorem entries_hollow (n : Nat) (parent : Option Nat) : ∀ e : Element,
    (∀ x ∈ e.entries parent, Framed x.node.kind x.node.children) →
      (e.hollow n).entries parent = (e.entries parent).map (Entry.hollow n)
  | token _ _, _ => by rw [hollow, entries, entries]; rfl
  | node id kind span children, h => by
    obtain ⟨hnode, hbelow⟩ := List.forall_mem_cons.mp h
    rw [hollow, entries, entries, List.map_cons, Entry.hollow, Node.hollow, hollowOf_eq_map]
    refine congrArg _ ?_
    split
    · rename_i hdoc
      rw [entriesOf_of_tokens (some id) (hnode.docString hdoc.1)]
      rfl
    · rw [← hollowOf_eq_map]
      exact entriesOf_hollowOf n (some id) children hbelow

theorem entriesOf_hollowOf (n : Nat) (parent : Option Nat) : ∀ es : List Element,
    (∀ x ∈ entriesOf parent es, Framed x.node.kind x.node.children) →
      entriesOf parent (hollowOf n es) = (entriesOf parent es).map (Entry.hollow n)
  | [], _ => by rw [hollowOf, entriesOf]; rfl
  | e :: rest, h => by
    rw [entriesOf] at h
    obtain ⟨he, hrest⟩ := List.forall_mem_append.mp h
    rw [hollowOf, entriesOf, entriesOf, List.map_append, entries_hollow n parent e he,
      entriesOf_hollowOf n parent rest hrest]

end

end Element

/-! ## §B Reading hollow elements -/

namespace Element

theorem tokensOf_hollow (n : Nat) {es : List Element} (h : ∀ e ∈ es, e.node? = none) :
    tokensOf (es.map (hollow n)) = (tokensOf es).map Token.unplaced := by
  induction es with
  | nil => rfl
  | cons e es ih =>
    obtain ⟨he, hes⟩ := List.forall_mem_cons.mp h
    cases e with
    | token i t =>
      rw [List.map_cons, tokensOf, tokensOf, ih hes, hollow, List.map_append]
      rfl
    | node => cases he

theorem node?_of_isSignificant {e : Element} (h : e.isSignificant = true) : e.node? = none := by
  cases e with
  | token => rfl
  | node => cases h

/-- What stands on the line of a step keeps its text. -/
theorem text_hollow (n : Nat) {e : Element} (h : e.OnLine) : (e.hollow n).text = e.text := by
  cases e with
  | token i t => rw [hollow]; rfl
  | node id kind span children =>
    obtain ⟨rfl, hchildren⟩ := h
    rw [hollow, if_neg (by simp), hollowOf_eq_map, text, text, tokens, tokens,
      tokensOf_hollow n fun e he => node?_of_isSignificant (hchildren e he), List.flatMap_map]
    rfl

end Element

namespace Node

variable (n : Nat) {m : Node}

theorem children_hollow (h : m.kind ≠ .docString) :
    (m.hollow n).children = m.children.map (Element.hollow n) := if_neg fun hdoc => h hdoc.1

theorem childTokens_hollow (h : m.kind ≠ .docString) :
    (m.hollow n).childTokens = m.childTokens.map Token.unplaced := by
  rw [childTokens, childTokens, children_hollow n h, List.filterMap_map, List.map_filterMap]
  exact congrArg (List.filterMap · m.children) (funext (Element.token?_hollow n))

theorem childNodes_hollow (h : m.kind ≠ .docString) :
    (m.hollow n).childNodes = m.childNodes.map (Node.hollow n) := by
  rw [childNodes, childNodes, children_hollow n h, List.filterMap_map, List.map_filterMap]
  exact congrArg (List.filterMap · m.children) (funext (Element.node?_hollow n))

/-- A doc string has no child nodes, so it loses none. -/
theorem childNodes_hollow_of_framed (h : Framed m.kind m.children) :
    (m.hollow n).childNodes = m.childNodes.map (Node.hollow n) := by
  by_cases hkind : m.kind = .docString
  · have hnone : m.childNodes = [] := List.filterMap_eq_nil_iff.mpr (h.docString hkind)
    rw [hnone, List.map_nil, childNodes, hollow]
    split
    · rfl
    · refine List.filterMap_eq_nil_iff.mpr (List.forall_mem_map.mpr ?_)
      intro e he
      rw [Element.node?_hollow, h.docString hkind e he]
      rfl
  · exact childNodes_hollow n hkind

end Node

theorem cellTexts_unplaced (current : Option String) (ts : List Token) :
    cellTexts current (ts.map Token.unplaced) = cellTexts current ts := by
  induction ts generalizing current with
  | nil => rfl
  | cons t ts ih => simp only [List.map_cons, cellTexts, Token.unplaced, ih]

theorem rowTexts_unplaced (current : Option String) (ts : List Token) :
    rowTexts current (ts.map Token.unplaced) = rowTexts current ts := by
  induction ts generalizing current with
  | nil => rfl
  | cons t ts ih =>
    simp only [List.map_cons, rowTexts, Token.unplaced, ih]
    rw [cellTexts_unplaced]

theorem Node.redraws_hollow (n : Nat) : Node.Redraws (Node.hollow n) where
  kind_eq _ := rfl
  childNodes_eq _ hkind := Node.childNodes_hollow n hkind
  rowCells_eq m hkind := by
    rw [rowCells, rowCells, Node.childTokens_hollow n (by simp [hkind]), rowTexts_unplaced]

namespace Step

theorem parameterName?_hollow (n : Nat) (e : Element) :
    parameterName? (e.hollow n) = parameterName? e := by
  rw [parameterName?, parameterName?, Element.node?_hollow]
  cases e.node? with
  | none => rfl
  | some m =>
    by_cases hkind : m.kind = .stepParameter
    · have hhollow : (m.hollow n).kind = .stepParameter := hkind
      have hname : StepParameter.name ⟨m.hollow n⟩ = StepParameter.name ⟨m⟩ := by
        have hfind : (m.childTokens.map Token.unplaced).find? (·.kind = .parameterName) =
            (m.childTokens.find? (·.kind = .parameterName)).map Token.unplaced := List.find?_map
        rw [StepParameter.name, StepParameter.name, Node.childTokens_hollow n (by simp [hkind]), hfind]
        cases m.childTokens.find? (·.kind = .parameterName) <;> rfl
      simp only [Option.map_some, Option.bind_some, StepParameter.ofNode?, if_pos hkind,
        if_pos hhollow, hname]
    · have hhollow : (m.hollow n).kind ≠ .stepParameter := hkind
      simp only [Option.map_some, Option.bind_some, StepParameter.ofNode?, if_neg hkind,
        if_neg hhollow]

theorem redraws_hollow (n : Nat) {s : Step} (h : s.Neat) :
    Redraws (Element.hollow n) s { s with node := s.node.hollow n } where
  id_eq := rfl
  keyword_eq := rfl
  effective_eq := rfl
  line_eq := by
    have hkind : s.node.kind ≠ .docString := by
      intro hdoc
      have hstep := h.isStep
      rw [hdoc] at hstep
      cases hstep
    show (s.node.hollow n).children.takeWhile _ = _
    rw [Node.children_hollow n hkind, List.takeWhile_map]
    refine congrArg (List.map (Element.hollow n)) (congrArg (List.takeWhile · s.node.children) ?_)
    funext e
    exact congrArg (!·) (Element.isToken_hollow n _ e)
  isKeyword_eq := Element.isToken_hollow n _
  text_eq e he := Element.text_hollow n (h.onLine he).1
  name_eq := parameterName?_hollow n

end Step

/-! ## §C Two builders -/

/-- **`Outside n m m'`** — two open nodes are the same but for places and the children of the doc
string of number `n`. -/
structure Outside (n : Nat) (m m' : OpenNode) : Prop where
  id_eq : m.id = m'.id
  kind_eq : m.kind = m'.kind
  children_eq : m.kind = .docString ∧ m.id = n ∨
    m.children.map (Element.hollow n) = m'.children.map (Element.hollow n)

namespace Outside

variable {n : Nat} {m m' k k' : OpenNode}

theorem refl (n : Nat) (m : OpenNode) : Outside n m m := ⟨rfl, rfl, Or.inr rfl⟩

theorem fill (h : Outside n m m') {w w' : List Element}
    (hw : w.map (Element.hollow n) = w'.map (Element.hollow n)) :
    Outside n (m.fill w) (m'.fill w') := by
  refine ⟨h.id_eq, h.kind_eq, h.children_eq.imp_right fun hchildren => ?_⟩
  rw [OpenNode.children_fill, OpenNode.children_fill, List.map_append, List.map_append, hchildren,
    List.map_reverse, List.map_reverse, hw]

theorem push (h : Outside n m m') {e e' : Element} (he : e.hollow n = e'.hollow n) :
    Outside n (m.push e) (m'.push e') := by
  show Outside n (m.fill [e]) (m'.fill [e'])
  apply h.fill
  rw [List.map_singleton, List.map_singleton, he]

/-- The finished nodes have one hollow form. -/
theorem hollow_close (h : Outside n m m') : m.close.hollow n = m'.close.hollow n := by
  rw [OpenNode.close, OpenNode.close, Element.hollow, Element.hollow, Element.hollowOf_eq_map,
    Element.hollowOf_eq_map, h.id_eq, h.kind_eq]
  rcases h.children_eq with hdoc | hchildren
  · rw [h.id_eq, h.kind_eq] at hdoc
    rw [if_pos hdoc, if_pos hdoc]
  · rw [show m.reversed.reverse.map (Element.hollow n) = _ from hchildren]
    rfl

end Outside

/-- **`outside n`** — two runs of the builder that differ in the contents of a doc string. -/
def outside (n : Nat) : Likeness where
  node _ := Outside n
  trivia _ w w' := w.map (Element.hollow n) = w'.map (Element.hollow n)
  token t t' := t.unplaced = t'.unplaced
  number := Eq
  index _ _ := True
  problems ps ps' := ps.map (·.kind) = ps'.map (·.kind)
  kind_of_node h := h.kind_eq
  kind_of_token h := by
    have hkind := congrArg Token.kind h
    exact hkind
  number_succ h := congrArg (· + 1) h
  index_succ _ := trivial
  node_new kind h := ⟨h, rfl, Or.inr rfl⟩
  node_close hn hm := hm.push hn.hollow_close
  node_push hn _ ht _ := hn.push (by rw [Element.hollow, Element.hollow, ht])
  node_fill hn hw := hn.fill hw
  trivia_nil _ := rfl
  trivia_cons hw _ ht _ := by
    rw [List.map_cons, List.map_cons, Element.hollow, Element.hollow, ht, hw]
  trivia_root h := h
  problems_cons kind h _ := congrArg (kind :: ·) h

theorem outside_nodes {n : Nat} {top top' : OpenNode} (h : Outside n top top')
    (outer : List OpenNode) : (outside n).Nodes (top :: outer) (top' :: outer) := by
  induction outer generalizing top top' with
  | nil => exact .root h
  | cons next outer ih => exact .inner h (ih (.refl n next))

namespace Builder

variable {b c c' : Builder} {t t' : Token}

/-- A delimiter outside every doc string opens one, with the next number. -/
theorem step_opens (hdoc : b.inDocString = false) (ht : t.kind = .docStringDelimiter) :
    (b.step t).inDocString = true ∧ (b.step t).path.top.kind = .docString := by
  have hsignificant : t.isTrivia = false := by rw [Token.isTrivia, ht]; rfl
  obtain ⟨p, kinds, faults, hplace, hgrown⟩ := step_grown b hsignificant
  have hpath : (b.step t).path = b.grownPath t p kinds := by
    rw [hgrown.path_eq, if_neg (by simp [ht])]
  refine ⟨by rw [hgrown.inDocString_eq, hdoc, ht]; rfl, ?_⟩
  rw [hpath]
  cases hplace with
  | docString => rfl
  | _ => simp_all

/-- A significant token inside a doc string joins it. -/
theorem step_inside (hdoc : b.inDocString = true) (ht : t.isTrivia = false) :
    b.step t =
      { b with
        path := ⟨(b.path.top.fill b.pending).push (.token b.nextToken t), b.path.outer⟩
        nextToken := b.nextToken + 1
        pending := []
        atLineStart := false
        inDocString := t.kind != TokenKind.docStringDelimiter } := by
  rw [step_significant b ht, if_pos hdoc, attach, withPath, flush_path]
  rfl

/-- **`b.Fills c`** — from `b`, inside a doc string, reading has led to `c`: only what the doc string
holds and what waits to join it has changed. -/
structure Fills (b c : Builder) : Prop where
  id_eq : c.path.top.id = b.path.top.id
  kind_eq : c.path.top.kind = b.path.top.kind
  outer_eq : c.path.outer = b.path.outer
  nextId_eq : c.nextId = b.nextId
  problems_eq : c.problems = b.problems
  lastConcrete_eq : c.lastConcrete = b.lastConcrete
  inDocString_eq : c.inDocString = b.inDocString
  hasFeature_eq : c.hasFeature = b.hasFeature

theorem Fills.refl (b : Builder) : b.Fills b := ⟨rfl, rfl, rfl, rfl, rfl, rfl, rfl, rfl⟩

/-- **One token of the contents.** -/
theorem Fills.step (h : b.Fills c) (hdoc : b.inDocString = true)
    (ht : Token.isDocText t.kind = true) : b.Fills (c.step t) := by
  have hinside : c.inDocString = true := h.inDocString_eq.trans hdoc
  cases htrivia : t.isTrivia with
  | true =>
    rw [step_trivia c htrivia]
    exact ⟨h.id_eq, h.kind_eq, h.outer_eq, h.nextId_eq, h.problems_eq, h.lastConcrete_eq,
      h.inDocString_eq, h.hasFeature_eq⟩
  | false =>
    have hopen : (t.kind != TokenKind.docStringDelimiter) = b.inDocString := by
      rw [hdoc, bne_iff_ne]
      intro hk
      rw [hk] at ht
      cases ht
    rw [step_inside hinside htrivia]
    exact ⟨h.id_eq, h.kind_eq, h.outer_eq, h.nextId_eq, h.problems_eq, h.lastConcrete_eq, hopen,
      h.hasFeature_eq⟩

/-- **The contents.** -/
theorem Fills.foldl (h : b.Fills c) (hdoc : b.inDocString = true) {ts : List Token}
    (hts : ∀ t ∈ ts, Token.isDocText t.kind = true) : b.Fills (ts.foldl Builder.step c) := by
  induction ts generalizing c with
  | nil => exact h
  | cons t ts ih =>
    obtain ⟨ht, hrest⟩ := List.forall_mem_cons.mp hts
    exact ih (h.step hdoc ht) hrest

/-- **The closing delimiter.** Behind it two builders differ in the doc string alone, however it was
filled. -/
theorem Fills.alike (h : b.Fills c) (h' : b.Fills c') (hdoc : b.inDocString = true)
    (hkind : b.path.top.kind = .docString) (ht : t.kind = .docStringDelimiter)
    (ht' : t'.kind = .docStringDelimiter) :
    Alike (outside b.path.top.id) (c.step t) (c'.step t') := by
  have hsignificant : t.isTrivia = false := by rw [Token.isTrivia, ht]; rfl
  have hsignificant' : t'.isTrivia = false := by rw [Token.isTrivia, ht']; rfl
  rw [step_inside (h.inDocString_eq.trans hdoc) hsignificant,
    step_inside (h'.inDocString_eq.trans hdoc) hsignificant']
  refine ⟨?_, rfl, h.nextId_eq.trans h'.nextId_eq.symm, trivial, ?_, ?_, rfl, ?_, ?_⟩
  · show (outside b.path.top.id).Nodes (_ :: c.path.outer) (_ :: c'.path.outer)
    rw [h.outer_eq, h'.outer_eq]
    refine outside_nodes ?_ _
    exact ⟨h.id_eq.trans h'.id_eq.symm, h.kind_eq.trans h'.kind_eq.symm,
      Or.inl ⟨h.kind_eq.trans hkind, h.id_eq⟩⟩
  · show c.problems.map _ = c'.problems.map _
    rw [h.problems_eq, h'.problems_eq]
  · exact h.lastConcrete_eq.trans h'.lastConcrete_eq.symm
  · rw [ht, ht']
  · exact h.hasFeature_eq.trans h'.hasFeature_eq.symm

/-- Nodes that were opened stay in the trace. -/
theorem mem_trace_foldl {done : List Token} (h : b.Reads done) {op : Opening}
    (hop : op ∈ b.path.trace) (ts : List Token) : op ∈ (ts.foldl step b).path.trace := by
  induction ts generalizing b done with
  | nil => exact hop
  | cons t ts ih =>
    refine ih (reads_step h t) ?_
    cases ht : t.isTrivia with
    | true =>
      rw [step_trivia b ht]
      exact hop
    | false =>
      obtain ⟨p, kinds, faults, hplace, hgrown⟩ := step_grown b ht
      rw [hgrown.trace_eq hplace.closes h.pending_token]
      exact List.mem_append_left _ hop

theorem exists_opening_top (b : Builder) :
    ∃ op ∈ b.path.trace, op.id = b.path.top.id ∧ op.kind = b.path.top.kind :=
  ⟨_, List.mem_append_right _ List.mem_cons_self, rfl, rfl⟩

end Builder

/-! ## §D The contents of a doc string -/

/-- The token of a delimiter at an offset. -/
def Token.DocDelimiter.tokenAt (d : DocDelimiter) (offset : Nat) : Token :=
  ⟨.docStringDelimiter, ⟨offset, offset + Text.byteLength d.chars, Nat.le_add_right _ _⟩,
    String.ofList d.chars⟩

theorem Token.forall₂_place_unplaced (n offset offset' : Nat) (pieces : List Lexeme) :
    List.Forall₂ (outside n).token (place offset pieces) (place offset' pieces) := by
  induction pieces generalizing offset offset' with
  | nil => exact .nil
  | cons piece rest ih => exact .cons rfl (ih _ _)

theorem Token.isDocText_place (offset : Nat) {pieces : List Lexeme}
    (h : ∀ piece ∈ pieces, isDocText piece.1 = true) :
    ∀ t ∈ place offset pieces, isDocText t.kind = true := by
  intro t ht
  have hkind : t.kind ∈ kinds pieces := by
    rw [← map_kind_place offset]
    exact List.mem_map_of_mem ht
  obtain ⟨piece, hpiece, heq⟩ := List.mem_map.mp hkind
  rw [← heq]
  exact h piece hpiece

namespace DocStringFrame

/-- **The run over the source.** Up to the opening delimiter it does not depend on the contents; then
the doc string is filled, closed by its delimiter, and the rest is read. -/
theorem run_eq (f : DocStringFrame) :
    ∃ head : List Token, ∃ rest : List Lexeme,
      (head.foldl Builder.step {}).inDocString = true ∧
      (head.foldl Builder.step {}).path.top.kind = .docString ∧
      ∀ content, f.Admits content → ∃ inside t offset,
        (∀ u ∈ inside, Token.isDocText u.kind = true) ∧ t.kind = .docStringDelimiter ∧
        tokenize (f.source content) = head ++ (inside ++ t :: Token.place offset rest) := by
  obtain ⟨indent, rest, hindent, hpieces⟩ := f.lexemes_eq
  let start := Text.byteLength ((Token.lexemes none (lines f.before.toList)).flatMap Prod.snd)
  let opener := f.delimiter.tokenAt (start + Text.byteLength (indent.flatMap Prod.snd))
  -- The builder before the opening delimiter is outside every doc string.
  have hclosed : ((Token.place start indent).foldl Builder.step
      ((tokenize f.before).foldl Builder.step {})).inDocString = false := by
    rw [(Builder.level_foldl _ (Token.isTrivia_place _ hindent)).inDocString_eq,
      Builder.inDocString_tokenize, f.before_closed]
    rfl
  obtain ⟨hdoc, hkind⟩ := Builder.step_opens (t := opener) hclosed rfl
  refine ⟨tokenize f.before ++ (Token.place start indent ++ [opener]), rest, ?_⟩
  rw [List.foldl_append, List.foldl_append]
  refine ⟨hdoc, hkind, ?_⟩
  intro content hcontent
  obtain ⟨inside, hinside, hlexemes⟩ := hpieces content hcontent
  let closer := f.delimiter.tokenAt (opener.span.stop + Text.byteLength (inside.flatMap Prod.snd))
  refine ⟨Token.place opener.span.stop inside, closer, closer.span.stop,
    Token.isDocText_place _ hinside, rfl, ?_⟩
  rw [tokenize, hlexemes]
  simp only [Token.place_append, Token.place, Nat.zero_add, List.append_assoc]
  rfl

/-- **The two runs.** The doc string is opened in both, under one number, and behind it they go on
alike. -/
theorem exists_alike (f : DocStringFrame) {old new : String} (hold : f.Admits old)
    (hnew : f.Admits new) :
    ∃ n, (∃ op ∈ ((tokenize (f.source old)).foldl Builder.step {}).path.trace,
        op.id = n ∧ op.kind = .docString) ∧
      Builder.Alike (outside n) ((tokenize (f.source old)).foldl Builder.step {})
        ((tokenize (f.source new)).foldl Builder.step {}) := by
  obtain ⟨head, rest, hdoc, hkind, hrun⟩ := f.run_eq
  obtain ⟨inside, t, offset, hinside, ht, hsource⟩ := hrun old hold
  obtain ⟨inside', t', offset', hinside', ht', hsource'⟩ := hrun new hnew
  obtain ⟨op, hop, hid, hopKind⟩ := (head.foldl Builder.step {}).exists_opening_top
  rw [hsource, hsource']
  simp only [List.foldl_append, List.foldl_cons]
  refine ⟨_, ⟨op, ?_, hid, hopKind.trans hkind⟩, ?_⟩
  · rw [← List.foldl_cons, ← List.foldl_append]
    exact Builder.mem_trace_foldl (Builder.reads_foldl Builder.reads_nil head) hop _
  · refine Builder.Alike.foldl ?_ (Token.forall₂_place_unplaced _ offset offset' rest)
    have hfills := (Builder.Fills.refl (head.foldl Builder.step {})).foldl hdoc hinside
    have hfills' := (Builder.Fills.refl (head.foldl Builder.step {})).foldl hdoc hinside'
    exact hfills.alike hfills' hdoc hkind ht ht'

end DocStringFrame

namespace Outline

/-- **`o.AgreeOutside n o'`** — two outlines differ at most in the tokens inside the doc string of
number `n`. -/
structure AgreeOutside (n : Nat) (o o' : Outline) : Prop where
  docString : o.kind? n = some .docString
  /-- The same nodes: their numbers, the nodes that they stand in, and their kinds, which for steps
  say what their keywords stand for. -/
  nodes_eq : (o.entries.map fun x => (x.parent, x.node.id, x.node.kind)) =
    o'.entries.map fun x => (x.parent, x.node.id, x.node.kind)
  /-- The same tokens under the same nodes, but for those of the doc string. -/
  tree_eq : o.root.hollow n = o'.root.hollow n
  /-- The same problems in the same order. -/
  degradations_eq : o.degradations.map (·.kind) = o'.degradations.map (·.kind)
  /-- The same steps with the same texts and parameters. -/
  steps_eq : o.steps.map Step.reading = o'.steps.map Step.reading
  /-- Steps have the same text in every example. -/
  examples_eq : ∀ row : ExampleRow,
    o.steps.map (·.textForExample row) = o'.steps.map (·.textForExample row)
  /-- Nodes have the same tables of examples. -/
  tables_eq : o.nodes.map Node.examplesTables = o'.nodes.map Node.examplesTables

/-- What is read off hollow entries is the same where the hollow forms are. -/
theorem map_entries_of_hollow {γ : Type} {n : Nat} {a b : String}
    (h : (parse a).root.hollow n = (parse b).root.hollow n) {g : Entry → γ}
    (hg : ∀ {source : String} {x : Entry}, x ∈ (parse source).entries → g (x.hollow n) = g x) :
    (parse a).entries.map g = (parse b).entries.map g := by
  have hentries : ∀ source, (parse source).entries.map g =
      (((parse source).root.hollow n).entries none).map g := by
    intro source
    rw [Element.entries_hollow n none _ fun x hx => framed_of_mem hx, List.map_map]
    exact (List.map_congr_left fun x hx => hg hx).symm
  rw [hentries, hentries, h]

theorem map_steps_of_hollow {γ : Type} {n : Nat} {a b : String}
    (h : (parse a).root.hollow n = (parse b).root.hollow n) {g : Step → γ}
    (hg : ∀ {s : Step}, s.Neat → g { s with node := s.node.hollow n } = g s) :
    (parse a).steps.map g = (parse b).steps.map g := by
  rw [map_steps, map_steps]
  refine congrArg (List.filterMap id) (map_entries_of_hollow h ?_)
  intro source x hx
  exact step_redrawn (f := Node.hollow n) (fun _ => rfl) hg (neat_of_mem hx)

/-- A node that was opened is in the outline. -/
theorem kind?_of_mem_trace {source : String} {op : Opening}
    (hop : op ∈ ((tokenize source).foldl Builder.step {}).path.trace) :
    (parse source).kind? op.id = some op.kind := by
  rw [← trace_parse] at hop
  obtain ⟨x, hx, hopened⟩ := (exists_of_forall₂ (forall₂_trace source)).2 op hop
  have hnode : (parse source).node? op.id = some x.node :=
    (node?_eq_some_iff (ids_parse source)).mpr ⟨⟨x.parent, hx⟩, hopened.id_eq⟩
  rw [kind?, hnode, Option.map_some, hopened.kind_eq]

/-- **The contents of a doc string have no influence.** Whatever lines stand between its delimiters,
as long as none begins with its own, the outlines differ inside that doc string alone. -/
theorem parse_of_docString_contents (f : DocStringFrame) {old new : String} (hold : f.Admits old)
    (hnew : f.Admits new) :
    ∃ n, (parse (f.source old)).AgreeOutside n (parse (f.source new)) := by
  obtain ⟨n, ⟨op, hop, hid, hkind⟩, halike⟩ := f.exists_alike hold hnew
  obtain ⟨m, m', hroots, hroot, hroot'⟩ :=
    halike.finish (Text.byteSize (f.source old)) (Text.byteSize (f.source new))
  have htree : (parse (f.source old)).root.hollow n = (parse (f.source new)).root.hollow n := by
    rw [root_eq, root_eq, hroot, hroot']
    exact Outside.hollow_close hroots
  refine ⟨n, ?_, ?_, htree, ?_, ?_, fun row => ?_, ?_⟩
  · rw [← hid, ← hkind]
    exact kind?_of_mem_trace hop
  · exact map_entries_of_hollow htree fun _ => rfl
  · rw [degradations_eq, degradations_eq]
    exact Builder.kinds_finish halike.problems halike.inDocString_eq halike.hasFeature_eq _ _
  · exact map_steps_of_hollow htree fun hs => (Step.redraws_hollow n hs).reading_eq
  · exact map_steps_of_hollow htree fun hs => (Step.redraws_hollow n hs).textForExample_eq row
  · rw [nodes, nodes, List.map_map, List.map_map]
    refine map_entries_of_hollow htree ?_
    intro source x hx
    exact (Node.redraws_hollow n).examplesTables_eq
      (Node.childNodes_hollow_of_framed n (framed_of_mem hx))

/-- A doc string of a step with parameters. The breaks of its first and its last line are carriage
returns. -/
def outlineFrame : DocStringFrame where
  delimiter := .quotes
  before := "Scenario Outline: s\nGiven <a>\n"
  opening := " \"\"\"json\r"
  closing := "\"\"\" b\r"
  after := "\nAnd c\nExamples:\n| a |\n| d |"
  before_ends := by decide +kernel
  before_closed := by decide +kernel
  opening_ends := by decide +kernel
  opening_line := ⟨⟨" \"\"\"json".toList, ['\r']⟩, by decide +kernel, by decide +kernel⟩
  closing_ends := Or.inl (by decide +kernel)
  closing_line := ⟨⟨"\"\"\" b".toList, ['\r']⟩, by decide +kernel, by decide +kernel⟩

/-- It is empty, or has contents that would be keywords, tags, a comment, a row and another doc string
elsewhere. Their first line feed joins the break of the opening line. -/
theorem parse_of_docString_contents_keywords :
    outlineFrame.Admits "" ∧
      outlineFrame.Admits "\n```\nFeature: x\n  Given <y>\r@t # u\n# v\n| w |\r\n" ∧
      ∃ n, (parse (outlineFrame.source "")).AgreeOutside n (parse (outlineFrame.source
        "\n```\nFeature: x\n  Given <y>\r@t # u\n# v\n| w |\r\n")) := by
  have hold : outlineFrame.Admits "" := ⟨by decide +kernel, by decide +kernel⟩
  have hnew : outlineFrame.Admits "\n```\nFeature: x\n  Given <y>\r@t # u\n# v\n| w |\r\n" :=
    ⟨by decide +kernel, by decide +kernel⟩
  exact ⟨hold, hnew, parse_of_docString_contents outlineFrame hold hnew⟩

end Outline

end FeatureFile

/-
# FeatureFile.Proofs.Outline.Path — open nodes as an unfinished tree

The builder holds the path from the innermost open node to the root. Two views read such a path as
if every node on it were closed already: `leaves`, the numbered tokens in order, and `trace`, the
nodes in the order in which they were opened, each with the nodes around it and the number of tokens
before it. Closing a node changes neither (`leaves_of_closes`, `trace_of_closes`), a token that is
added goes to the end of the leaves, and a node that is opened goes to the end of the trace. So both
views only ever grow at their ends, and they are the views of the finished tree.

`Solid` says what a closed node is: it is not empty, its span covers its children, and they are
solid. Only nodes that hold something are ever closed (`Ready`), so closing keeps it.
-/

import FeatureFile.Outline.Builder

namespace FeatureFile

/-! ## §A Views of a tree -/

namespace Element

mutual

/-- The tokens of an element with their numbers, in document order. -/
def leaves : Element → List (Nat × Token)
  | token i t => [(i, t)]
  | node _ _ _ children => leavesOf children

/-- The tokens of several elements with their numbers, in document order. -/
def leavesOf : List Element → List (Nat × Token)
  | [] => []
  | e :: rest => leaves e ++ leavesOf rest

end

end Element

/-- The opening of a node: the number of tokens before it, the numbers and kinds of the nodes around
it from the inside out, and its own. -/
structure Opening where
  start : Nat
  around : List (Nat × NodeKind)
  id : Nat
  kind : NodeKind
  deriving DecidableEq, Repr

namespace Element

mutual

/-- The openings of the nodes of an element, given the number of tokens before it and the nodes
around it. -/
def trace (start : Nat) (around : List (Nat × NodeKind)) : Element → List Opening
  | token .. => []
  | node id kind _ children =>
    ⟨start, around, id, kind⟩ :: traceOf start ((id, kind) :: around) children

/-- The openings of the nodes of several elements. -/
def traceOf (start : Nat) (around : List (Nat × NodeKind)) : List Element → List Opening
  | [] => []
  | e :: rest => trace start around e ++ traceOf (start + e.leaves.length) around rest

end

@[simp] theorem leavesOf_append (a b : List Element) :
    leavesOf (a ++ b) = leavesOf a ++ leavesOf b := by
  induction a with
  | nil => rfl
  | cons e a ih => rw [List.cons_append, leavesOf, leavesOf, ih, List.append_assoc]

theorem leavesOf_singleton (e : Element) : leavesOf [e] = e.leaves := by
  rw [leavesOf, leavesOf, List.append_nil]

theorem mem_leavesOf {e : Element} {es : List Element} (he : e ∈ es) {l : Nat × Token}
    (hl : l ∈ e.leaves) : l ∈ leavesOf es := by
  obtain ⟨a, b, rfl⟩ := List.append_of_mem he
  rw [leavesOf_append, leavesOf]
  exact List.mem_append_right _ (List.mem_append_left _ hl)

theorem traceOf_append (start : Nat) (around : List (Nat × NodeKind)) (a b : List Element) :
    traceOf start around (a ++ b) =
      traceOf start around a ++ traceOf (start + (leavesOf a).length) around b := by
  induction a generalizing start with
  | nil => rfl
  | cons e a ih =>
    rw [List.cons_append, traceOf, traceOf, ih, leavesOf, List.append_assoc, List.length_append,
      Nat.add_assoc]

theorem traceOf_singleton (start : Nat) (around : List (Nat × NodeKind)) (e : Element) :
    traceOf start around [e] = e.trace start around := by
  rw [traceOf, traceOf, List.append_nil]

theorem entriesOf_append (parent : Option Nat) (a b : List Element) :
    entriesOf parent (a ++ b) = entriesOf parent a ++ entriesOf parent b := by
  induction a with
  | nil => rfl
  | cons e a ih => rw [List.cons_append, entriesOf, entriesOf, ih, List.append_assoc]

theorem entriesOf_of_tokens (parent : Option Nat) {es : List Element}
    (h : ∀ e ∈ es, e.node? = none) : entriesOf parent es = [] := by
  induction es with
  | nil => rfl
  | cons e es ih =>
    obtain ⟨he, hes⟩ := List.forall_mem_cons.mp h
    cases e with
    | token => exact ih hes
    | node => cases he

/-- **`Solid e`** — no node in the element is empty, and the span of each covers its children. -/
inductive Solid : Element → Prop
  | token (i : Nat) (t : Token) : Solid (token i t)
  | node {id : Nat} {kind : NodeKind} {children : List Element} :
      children ≠ [] → (∀ e ∈ children, Solid e) →
      Solid (node id kind (Span.coverAll (children.map span)) children)

end Element

/-! ## §B Views of a path -/

namespace OpenNode

/-- The children of an open node so far, in document order. -/
def children (n : OpenNode) : List Element := n.reversed.reverse

@[simp] theorem children_push (n : OpenNode) (e : Element) :
    (n.push e).children = n.children ++ [e] := by
  simp [children, push]

/-- The leaves of open nodes that lie inside one another, the innermost first. -/
def leaves : List OpenNode → List (Nat × Token)
  | [] => []
  | n :: outer => leaves outer ++ Element.leavesOf n.children

/-- The numbers and kinds of open nodes. -/
def labels (ns : List OpenNode) : List (Nat × NodeKind) := ns.map fun n => (n.id, n.kind)

/-- The trace of open nodes that lie inside one another, the innermost first. -/
def trace : List OpenNode → List Opening
  | [] => []
  | n :: outer =>
    trace outer ++
      ⟨(leaves outer).length, labels outer, n.id, n.kind⟩ ::
        Element.traceOf (leaves outer).length (labels (n :: outer)) n.children

end OpenNode

namespace OpenPath

/-- The open nodes from the inside out. -/
def nodes (p : OpenPath) : List OpenNode := p.top :: p.outer

/-- The numbered tokens of a path, in document order. -/
def leaves (p : OpenPath) : List (Nat × Token) := OpenNode.leaves p.nodes

/-- The numbers and kinds of the open nodes from the inside out. -/
def labels (p : OpenPath) : List (Nat × NodeKind) := OpenNode.labels p.nodes

/-- The nodes of a path in the order in which they were opened. -/
def trace (p : OpenPath) : List Opening := OpenNode.trace p.nodes

/-- Adds children to the innermost node. -/
def pushAll (p : OpenPath) (es : List Element) : OpenPath := es.foldl push p

/-- Opens nodes inside one another, numbered from a number on. -/
def openAll (p : OpenPath) (id : Nat) : List NodeKind → OpenPath
  | [] => p
  | kind :: kinds => openAll ⟨⟨id, kind, []⟩, p.nodes⟩ (id + 1) kinds

/-- The openings of nodes that are opened inside one another. -/
def openings (start : Nat) (around : List (Nat × NodeKind)) (id : Nat) :
    List NodeKind → List Opening
  | [] => []
  | kind :: kinds => ⟨start, around, id, kind⟩ :: openings start ((id, kind) :: around) (id + 1) kinds

/-! ## §C Closing -/

/-- **`p.Closes q`** — the path `q` is `p` after closing some of its innermost nodes. -/
inductive Closes : OpenPath → OpenPath → Prop
  | refl (p : OpenPath) : Closes p p
  | close {top next : OpenNode} {outer : List OpenNode} {q : OpenPath} :
      Closes ⟨next.push top.close, outer⟩ q → Closes ⟨top, next :: outer⟩ q

namespace Closes

theorem trans {p q r : OpenPath} (h : p.Closes q) (h' : q.Closes r) : p.Closes r := by
  induction h with
  | refl => exact h'
  | close _ ih => exact .close (ih h')

theorem closeWhile (f : NodeKind → Bool) (top : OpenNode) (outer : List OpenNode) :
    Closes ⟨top, outer⟩ (OpenPath.closeWhile f top outer) := by
  induction outer generalizing top with
  | nil => exact .refl _
  | cons next outer ih =>
    rw [OpenPath.closeWhile]
    split
    · exact .close (ih _)
    · exact .refl _

theorem closeAll (p : OpenPath) (f : NodeKind → Bool) : p.Closes (p.closeAll f) :=
  closeWhile f p.top p.outer

theorem closeLeaves (p : OpenPath) : p.Closes p.closeLeaves := closeAll p _

theorem closeOne (p : OpenPath) (kind : NodeKind) : p.Closes (p.closeOne kind) := by
  obtain ⟨top, outer⟩ := p
  cases outer with
  | nil => exact .refl _
  | cons next outer =>
    simp only [OpenPath.closeOne]
    split
    · exact .close (.refl _)
    · exact .refl _

end Closes

theorem leaves_close (top next : OpenNode) (outer : List OpenNode) :
    OpenNode.leaves (next.push top.close :: outer) = OpenNode.leaves (top :: next :: outer) := by
  simp only [OpenNode.leaves, OpenNode.children_push, Element.leavesOf_append,
    Element.leavesOf_singleton, List.append_assoc]
  rfl

theorem trace_close (top next : OpenNode) (outer : List OpenNode) :
    OpenNode.trace (next.push top.close :: outer) = OpenNode.trace (top :: next :: outer) := by
  simp only [OpenNode.trace, OpenNode.leaves, OpenNode.children_push, Element.traceOf_append,
    Element.traceOf_singleton, List.append_assoc, List.length_append, List.cons_append]
  rfl

/-- Closing nodes moves no token. -/
theorem leaves_of_closes {p q : OpenPath} (h : p.Closes q) : q.leaves = p.leaves := by
  induction h with
  | refl => rfl
  | close _ ih => exact ih.trans (leaves_close _ _ _)

/-- Closing nodes opens none. -/
theorem trace_of_closes {p q : OpenPath} (h : p.Closes q) : q.trace = p.trace := by
  induction h with
  | refl => rfl
  | close _ ih => exact ih.trans (trace_close _ _ _)

/-! ## §D Adding tokens and opening nodes -/

theorem leaves_push (p : OpenPath) (e : Element) : (p.push e).leaves = p.leaves ++ e.leaves := by
  simp only [leaves, nodes, push, OpenNode.leaves, OpenNode.children_push, Element.leavesOf_append,
    Element.leavesOf_singleton, List.append_assoc]

theorem trace_push_token (p : OpenPath) (i : Nat) (t : Token) :
    (p.push (.token i t)).trace = p.trace := by
  simp only [trace, nodes, push, OpenNode.trace, OpenNode.children_push, Element.traceOf_append,
    Element.traceOf_singleton, Element.trace, List.append_nil]
  rfl

theorem leaves_pushAll (p : OpenPath) (es : List Element) :
    (p.pushAll es).leaves = p.leaves ++ Element.leavesOf es := by
  induction es generalizing p with
  | nil => exact (List.append_nil _).symm
  | cons e es ih =>
    show ((p.push e).pushAll es).leaves = _
    rw [ih, leaves_push, Element.leavesOf, List.append_assoc]

theorem trace_pushAll (p : OpenPath) {es : List Element} (h : ∀ e ∈ es, e.node? = none) :
    (p.pushAll es).trace = p.trace := by
  induction es generalizing p with
  | nil => rfl
  | cons e es ih =>
    show ((p.push e).pushAll es).trace = _
    rw [ih _ fun x hx => h x (List.mem_cons_of_mem e hx)]
    cases e with
    | token i t => exact trace_push_token p i t
    | node id kind span children =>
      have hnode := h (.node id kind span children) (by simp)
      simp [Element.node?] at hnode

/-- Tokens that are added leave the open nodes as they are but for the children of the innermost. -/
theorem pushAll_eq (p : OpenPath) (es : List Element) :
    p.pushAll es = ⟨{ p.top with reversed := es.reverse ++ p.top.reversed }, p.outer⟩ := by
  induction es generalizing p with
  | nil => rfl
  | cons e es ih =>
    show (p.push e).pushAll es = _
    rw [ih]
    simp [push, OpenNode.push]

theorem leaves_openAll (p : OpenPath) (id : Nat) (kinds : List NodeKind) :
    (p.openAll id kinds).leaves = p.leaves := by
  induction kinds generalizing p id with
  | nil => rfl
  | cons kind kinds ih =>
    rw [openAll, ih]
    exact List.append_nil _

theorem trace_openAll (p : OpenPath) (id : Nat) (kinds : List NodeKind) :
    (p.openAll id kinds).trace =
      p.trace ++ openings p.leaves.length p.labels id kinds := by
  induction kinds generalizing p id with
  | nil => exact (List.append_nil _).symm
  | cons kind kinds ih =>
    have hleaves : (OpenPath.mk ⟨id, kind, []⟩ p.nodes).leaves = p.leaves := List.append_nil _
    have htrace : (OpenPath.mk ⟨id, kind, []⟩ p.nodes).trace =
        p.trace ++ [⟨p.leaves.length, p.labels, id, kind⟩] := rfl
    rw [openAll, ih, hleaves, htrace, openings, List.append_assoc]
    rfl

theorem map_id_openings (start : Nat) (around : List (Nat × NodeKind)) (id : Nat)
    (kinds : List NodeKind) :
    (openings start around id kinds).map (·.id) = List.range' id kinds.length := by
  induction kinds generalizing around id with
  | nil => rfl
  | cons kind kinds ih =>
    rw [openings, List.map_cons, ih, List.length_cons, List.range'_succ]

/-! ## §E Solid paths -/

/-- **`p.Sound`** — everything closed on the path is solid, and its innermost node may be closed. -/
structure Sound (p : OpenPath) : Prop where
  solid : ∀ n ∈ p.nodes, ∀ e ∈ n.reversed, e.Solid
  ready : p.top.reversed ≠ [] ∨ p.outer = []

theorem sound_of_closes {p q : OpenPath} (h : p.Closes q) (hp : p.Sound) : q.Sound := by
  induction h with
  | refl => exact hp
  | @close top next outer q _ ih =>
    have hne : top.reversed ≠ [] := hp.ready.resolve_right (List.cons_ne_nil _ _)
    have htop : top.close.Solid := by
      refine .node (by simpa using hne) ?_
      intro e he
      exact hp.solid top (by simp [nodes]) e (List.mem_reverse.mp he)
    refine ih ⟨?_, Or.inl (List.cons_ne_nil _ _)⟩
    intro n hn e he
    rcases List.mem_cons.mp hn with rfl | hn
    · rcases List.mem_cons.mp he with rfl | he
      · exact htop
      · exact hp.solid next (by simp [nodes]) e he
    · exact hp.solid n (by simp [nodes, hn]) e he

/-- Adding solid elements and opening nodes keeps what is closed solid. -/
theorem solid_pushAll {p : OpenPath} {es : List Element}
    (hp : ∀ n ∈ p.nodes, ∀ e ∈ n.reversed, e.Solid) (hes : ∀ e ∈ es, e.Solid) :
    ∀ n ∈ (p.pushAll es).nodes, ∀ e ∈ n.reversed, e.Solid := by
  rw [pushAll_eq]
  intro n hn e he
  rcases List.mem_cons.mp hn with rfl | hn
  · rcases List.mem_append.mp he with he | he
    · exact hes e (List.mem_reverse.mp he)
    · exact hp p.top (by simp [nodes]) e he
  · exact hp n (List.mem_cons_of_mem _ hn) e he

theorem solid_openAll {p : OpenPath} (hp : ∀ n ∈ p.nodes, ∀ e ∈ n.reversed, e.Solid) (id : Nat)
    (kinds : List NodeKind) : ∀ n ∈ (p.openAll id kinds).nodes, ∀ e ∈ n.reversed, e.Solid := by
  induction kinds generalizing p id with
  | nil => exact hp
  | cons kind kinds ih =>
    refine ih ?_ (id + 1)
    intro n hn e he
    rcases List.mem_cons.mp hn with rfl | hn
    · simp at he
    · exact hp n hn e he

theorem closeWhile_true_outer (top : OpenNode) (outer : List OpenNode) :
    (closeWhile (fun _ => true) top outer).outer = [] := by
  induction outer generalizing top with
  | nil => rfl
  | cons next outer ih => exact ih _

/-- Closing some nodes first does not change what closing all leaves. -/
theorem closeAll_true_of_closes {p q : OpenPath} (h : p.Closes q) :
    (q.closeAll fun _ => true) = p.closeAll fun _ => true := by
  induction h with
  | refl => rfl
  | close _ ih => exact ih

/-- **The finished tree.** Its leaves and its trace are those of the path, its span covers its
children, and these are solid. -/
theorem finish_spec {p : OpenPath} (hp : p.Sound) :
    ∃ id kind children,
      p.finish = .node id kind (Span.coverAll (children.map Element.span)) children ∧
        (∀ e ∈ children, e.Solid) ∧ p.finish.leaves = p.leaves ∧
        p.finish.trace 0 [] = p.trace := by
  have hcloses : p.Closes (p.closeAll fun _ => true) := .closeAll p _
  have hsound := sound_of_closes hcloses hp
  have hleaves := leaves_of_closes hcloses
  have htrace := trace_of_closes hcloses
  have houter : (p.closeAll fun _ => true).outer = [] := closeWhile_true_outer _ _
  rw [finish]
  generalize p.closeAll (fun _ => true) = q at *
  obtain ⟨top, outer⟩ := q
  subst houter
  refine ⟨top.id, top.kind, top.children, rfl, ?_, ?_, ?_⟩
  · intro e he
    exact hsound.solid top (by simp [nodes]) e (List.mem_reverse.mp he)
  · rw [← hleaves]
    rfl
  · rw [← htrace]
    rfl

end OpenPath

end FeatureFile

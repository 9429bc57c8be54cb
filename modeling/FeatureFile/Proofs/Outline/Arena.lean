/-
# FeatureFile.Proofs.Outline.Arena — filling the table of nodes

The arena and the builder take the same steps. The builder moves a node into the one around it when
the node is closed; the arena has put its number there when it was opened, and closes it by taking it
off the stack. So what the table holds is what the builder's path would be with every node closed
already (`OpenPath.rows`), and closing changes neither.

`Arena.Stores` relates the two. Each operation of the builder keeps it with the operation of the
arena that does the same, so a token does (`Stores.pushToken`), a source does (`stores_foldl`), and
at its end the table holds the nodes of the finished tree (`stores_atEnd`).
-/

import FeatureFile.Outline.Arena
import FeatureFile.Proofs.Outline.Run
import FeatureFile.Proofs.Text.Cuts
import Mathlib.Data.List.Forall2

namespace FeatureFile

/-! ## §A Rows -/

/-- The number of an element. -/
def Element.childId : Element → ChildId
  | token index _ => .token index
  | node id .. => .node id

/-- The place in a table that a node of a tree has. -/
def Entry.slot (x : Entry) : Slot where
  kind := x.node.kind
  parent := x.parent
  children := x.node.children.map Element.childId
  span := x.node.span

/-- A place before it is measured. -/
def Slot.unmeasured (s : Slot) : Slot := { s with span := Span.empty 0 }

/-- The number of a node with its place before it is measured. -/
def Entry.row (x : Entry) : Nat × Slot := (x.node.id, x.slot.unmeasured)

/-- The place of an open node. -/
def OpenNode.slot (n : OpenNode) (parent : Option Nat) : Slot where
  kind := n.kind
  parent := parent
  children := n.children.map Element.childId

/-- The rows of the nodes below an open node. -/
def OpenNode.rowsBelow (n : OpenNode) : List (Nat × Slot) :=
  (Element.entriesOf (some n.id) n.children).map Entry.row

theorem OpenNode.slot_push (n : OpenNode) (e : Element) (parent : Option Nat) :
    (n.push e).slot parent = (n.slot parent).add e.childId := by
  simp only [slot, children_push, List.map_append, Slot.add]
  rfl

theorem OpenNode.rowsBelow_push (n : OpenNode) (e : Element) :
    (n.push e).rowsBelow = n.rowsBelow ++ (e.entries (some n.id)).map Entry.row := by
  rw [rowsBelow, children_push, Element.entriesOf_append, List.map_append]
  show n.rowsBelow ++ (e.entries (some n.id) ++ []).map Entry.row = _
  rw [List.append_nil]

theorem modify_middle {α : Type} {a b : List α} {x : α} {n : Nat} (h : a.length = n) (f : α → α) :
    (a ++ x :: b).modify n f = a ++ f x :: b := by
  subst h
  induction a with
  | nil => rfl
  | cons y a ih => exact congrArg (y :: ·) ih

namespace OpenPath

/-- The rows of the open nodes and of all nodes below them. -/
def rows (p : OpenPath) : List (Nat × Slot) := (p.finish.entries none).map Entry.row

theorem finish_of_closes {p q : OpenPath} (h : p.Closes q) : q.finish = p.finish :=
  congrArg (fun path => path.top.close) (closeAll_true_of_closes h)

theorem rows_of_closes {p q : OpenPath} (h : p.Closes q) : q.rows = p.rows := by
  rw [rows, rows, finish_of_closes h]

/-- The outermost node is not closed. -/
theorem getLast_kinds_of_closes {p q : OpenPath} (h : p.Closes q) :
    q.kinds.getLast? = p.kinds.getLast? := by
  induction h with
  | refl => rfl
  | close _ ih => exact ih.trans (by simp [kinds, OpenNode.push])

/-- Closing one node of a kind, where the outermost is of another. -/
theorem labels_closeOne {p : OpenPath} {kind : NodeKind}
    (hroot : p.kinds.getLast? = some .file) (hfile : kind ≠ .file) :
    (p.closeOne kind).labels = if p.top.kind = kind then p.labels.tail else p.labels := by
  obtain ⟨top, outer⟩ := p
  cases outer with
  | nil =>
    have htop : top.kind = .file := Option.some.inj hroot
    rw [if_neg (by rw [htop]; exact hfile.symm)]
    rfl
  | cons next outer =>
    show (if top.kind = kind then OpenPath.mk (next.push top.close) outer
      else ⟨top, next :: outer⟩).labels = _
    split <;> rfl

/-- What the open nodes around the innermost one have in front of it does not hang on its children,
since they know it by its number. -/
theorem exists_front (outer : List OpenNode) (id : Nat) :
    ∃ front, ∀ top : OpenNode, top.id = id →
      (OpenPath.mk top outer).rows =
        front ++ (id, top.slot (outer.head?.map (·.id))) :: top.rowsBelow := by
  induction outer generalizing id with
  | nil => exact ⟨[], fun top hid => hid ▸ rfl⟩
  | cons next outer ih =>
    obtain ⟨front, hfront⟩ := ih next.id
    refine ⟨front ++ (next.id, (next.slot (outer.head?.map (·.id))).add (.node id)) :: next.rowsBelow,
      fun top hid => ?_⟩
    have hnext := hfront (next.push top.close) rfl
    rw [OpenNode.slot_push, OpenNode.rowsBelow_push] at hnext
    subst hid
    rw [List.append_assoc]
    exact hnext

/-- An element that is added is a child of the innermost node, and what is below it comes last. -/
theorem exists_rows_push (p : OpenPath) :
    ∃ front s back, p.rows = front ++ (p.top.id, s) :: back ∧
      ∀ e : Element, (p.push e).rows =
        front ++ (p.top.id, s.add e.childId) ::
          (back ++ (e.entries (some p.top.id)).map Entry.row) := by
  obtain ⟨front, hfront⟩ := exists_front p.outer p.top.id
  refine ⟨front, _, _, hfront p.top rfl, fun e => ?_⟩
  have hpush := hfront (p.top.push e) rfl
  rwa [OpenNode.slot_push, OpenNode.rowsBelow_push] at hpush

/-- Every open node has a row. -/
theorem exists_row {p : OpenPath} {l : Nat × NodeKind} (h : l ∈ p.labels) :
    ∃ s, (l.1, s) ∈ p.rows ∧ s.kind = l.2 := by
  obtain ⟨top, outer⟩ := p
  induction outer generalizing top with
  | nil =>
    obtain rfl : l = (top.id, top.kind) := List.mem_singleton.mp h
    exact ⟨top.slot none, List.mem_cons_self, rfl⟩
  | cons next outer ih =>
    rcases List.mem_cons.mp h with rfl | h
    · obtain ⟨front, hfront⟩ := exists_front (next :: outer) top.id
      exact ⟨_, by rw [hfront top rfl]; exact List.mem_append_right _ List.mem_cons_self, rfl⟩
    · exact ih (next.push top.close) h

/-- Where rows are numbered in order, a row stands under its number. -/
theorem length_front {front back : List (Nat × Slot)} {id n : Nat} {s : Slot}
    (h : (front ++ (id, s) :: back).map Prod.fst = List.range n) : front.length = id := by
  have hid : ((front ++ (id, s) :: back).map Prod.fst)[front.length]? = some id := by simp
  rw [h] at hid
  obtain ⟨hlt, heq⟩ := List.getElem?_eq_some_iff.mp hid
  rwa [List.getElem_range] at heq

theorem getElem?_of_row {rows : List (Nat × Slot)} {n : Nat} {r : Nat × Slot}
    (h : rows.map Prod.fst = List.range n) (hr : r ∈ rows) : (rows.map Prod.snd)[r.1]? = some r.2 := by
  obtain ⟨front, back, rfl⟩ := List.append_of_mem hr
  have hlength : front.length = r.1 := length_front h
  rw [← hlength]
  simp

/-- The places of numbered rows, with the place of one of them changed. -/
theorem modify_rows {front back : List (Nat × Slot)} {id n : Nat} {s : Slot} (f : Slot → Slot)
    (h : (front ++ (id, s) :: back).map Prod.fst = List.range n) :
    ((front ++ (id, s) :: back).map Prod.snd).modify id f =
      (front ++ (id, f s) :: back).map Prod.snd := by
  have hlength : (front.map Prod.snd).length = id := by rw [List.length_map, length_front h]
  rw [List.map_append, List.map_append, List.map_cons, List.map_cons, modify_middle hlength]

/-- A token that is added is a child of the innermost node. -/
theorem rows_push {p : OpenPath} {n : Nat} (h : p.rows.map Prod.fst = List.range n) (index : Nat)
    (t : Token) :
    (p.push (.token index t)).rows.map Prod.fst = List.range n ∧
      (p.push (.token index t)).rows.map Prod.snd =
        (p.rows.map Prod.snd).modify p.top.id (·.add (.token index)) := by
  obtain ⟨front, s, back, hrows, hpush⟩ := exists_rows_push p
  rw [hrows] at h
  rw [hpush, hrows, modify_rows _ h, Element.entries, List.map_nil, List.append_nil]
  refine ⟨?_, rfl⟩
  rw [← h, List.map_append, List.map_append]
  rfl

/-- A node that is opened has the last row, and is a child of the node around it. -/
theorem rows_enter {p : OpenPath} {n : Nat} (h : p.rows.map Prod.fst = List.range n)
    (kind : NodeKind) :
    (OpenPath.mk ⟨n, kind, []⟩ p.nodes).rows.map Prod.fst = List.range (n + 1) ∧
      (OpenPath.mk ⟨n, kind, []⟩ p.nodes).rows.map Prod.snd =
        (p.rows.map Prod.snd ++ [({ kind, parent := some p.top.id } : Slot)]).modify p.top.id
          (·.add (.node n)) := by
  obtain ⟨front, s, back, hrows, hpush⟩ := exists_rows_push p
  have hnew := hpush (OpenNode.mk n kind []).close
  change (OpenPath.mk ⟨n, kind, []⟩ p.nodes).rows = _ at hnew
  let last : Nat × Slot := (n, { kind, parent := some p.top.id })
  change _ = front ++ (p.top.id, s.add (.node n)) :: (back ++ [last]) at hnew
  have hall : (front ++ (p.top.id, s) :: (back ++ [last])).map Prod.fst = List.range (n + 1) := by
    rw [List.range_succ, ← h, hrows]
    simp [last]
  constructor
  · rw [hnew, ← hall, List.map_append, List.map_append]
    rfl
  · rw [hnew, ← modify_rows (·.add (.node n)) hall, hrows]
    simp [last]

end OpenPath

/-! ## §B What the arena stores -/

namespace Arena

/-- **`a.Stores tokens b`** — over the tokens, the arena holds what the builder holds. -/
structure Stores (tokens : List Token) (a : Arena) (b : Builder) : Prop where
  tokens_eq : a.tokens = tokens
  nodes_eq : a.nodes = b.path.rows.map Prod.snd
  /-- Nodes are numbered as they are opened. -/
  ids_eq : b.path.rows.map Prod.fst = List.range b.nextId
  stack_eq : a.stack = b.path.labels.map Prod.fst
  /-- The root is open. -/
  root : b.path.kinds.getLast? = some .file
  pending_eq : List.Forall₂ (fun index e => ∃ t, e = Element.token index t) a.pending
    b.pending.reverse
  degradations_eq : a.degradations = b.problems.reverse
  lastConcrete_eq : a.lastConcrete = b.lastConcrete
  atLineStart_eq : a.atLineStart = b.atLineStart
  inDocString_eq : a.inDocString = b.inDocString
  hasFeature_eq : a.hasFeature = b.hasFeature

theorem stores_nil (tokens : List Token) : Stores tokens { tokens } {} where
  tokens_eq := rfl
  nodes_eq := rfl
  ids_eq := rfl
  stack_eq := rfl
  root := rfl
  pending_eq := .nil
  degradations_eq := rfl
  lastConcrete_eq := rfl
  atLineStart_eq := rfl
  inDocString_eq := rfl
  hasFeature_eq := rfl

namespace Stores

variable {tokens : List Token} {a : Arena} {b : Builder}

theorem top_eq (h : a.Stores tokens b) : a.top = b.path.top.id := by
  rw [top, h.stack_eq]
  rfl

theorem nodeKind_eq (h : a.Stores tokens b) {l : Nat × NodeKind} (hl : l ∈ b.path.labels) :
    a.nodeKind l.1 = l.2 := by
  obtain ⟨s, hs, hkind⟩ := OpenPath.exists_row hl
  rw [nodeKind, h.nodes_eq, OpenPath.getElem?_of_row h.ids_eq hs]
  exact hkind

theorem topKind_eq (h : a.Stores tokens b) : a.topKind = b.topKind := by
  rw [topKind, h.top_eq]
  exact h.nodeKind_eq (l := (b.path.top.id, b.path.top.kind)) List.mem_cons_self

/-- The kinds of the numbers on the stack are those of the open nodes. -/
theorem map_nodeKind (h : a.Stores tokens b) : a.stack.map a.nodeKind = b.path.kinds := by
  rw [h.stack_eq, OpenPath.kinds_eq, List.map_map]
  exact List.map_congr_left fun l hl => h.nodeKind_eq hl

/-! ## §C Closing nodes -/

/-- Closing nodes leaves the table as it is. -/
theorem withPath (h : a.Stores tokens b) {f : OpenPath → OpenPath} (hf : b.path.Closes (f b.path)) :
    Stores tokens { a with stack := (f b.path).labels.map Prod.fst } (b.withPath f) where
  tokens_eq := h.tokens_eq
  nodes_eq := h.nodes_eq.trans (congrArg (List.map Prod.snd) (OpenPath.rows_of_closes hf).symm)
  ids_eq := (congrArg (List.map Prod.fst) (OpenPath.rows_of_closes hf)).trans h.ids_eq
  stack_eq := rfl
  root := (OpenPath.getLast_kinds_of_closes hf).trans h.root
  pending_eq := h.pending_eq
  degradations_eq := h.degradations_eq
  lastConcrete_eq := h.lastConcrete_eq
  atLineStart_eq := h.atLineStart_eq
  inDocString_eq := h.inDocString_eq
  hasFeature_eq := h.hasFeature_eq

/-- Closing stops at the root at the latest, if this fails the condition. -/
theorem top_closeAll (h : a.Stores tokens b) {p : NodeKind → Bool} (hfile : p .file = false) :
    p (b.path.closeAll p).top.kind = false := by
  obtain ⟨closed, -, -, hstop⟩ := OpenPath.closeAll_spec b.path p
  rcases hstop with hstop | hstop
  · exact hstop
  · have hroot := (OpenPath.getLast_kinds_of_closes (.closeAll b.path p)).trans h.root
    rw [OpenPath.kinds, hstop] at hroot
    have hkind : (b.path.closeAll p).top.kind = .file := Option.some.inj hroot
    rw [hkind, hfile]

/-- Where closing stops at a node that fails the condition, it takes the others off the stack. -/
theorem labels_closeAll (h : a.Stores tokens b) {p : NodeKind → Bool}
    (htop : p (b.path.closeAll p).top.kind = false) :
    (b.path.closeAll p).labels.map Prod.fst = a.stack.dropWhile fun id => p (a.nodeKind id) := by
  obtain ⟨closed, heq, hclosed, -⟩ := OpenPath.closeAll_spec b.path p
  have hdrop : b.path.labels.dropWhile (fun l => p l.2) = (b.path.closeAll p).labels := by
    rw [heq, List.dropWhile_append_of_pos hclosed]
    exact List.dropWhile_cons_of_neg (by simpa using htop)
  rw [h.stack_eq, List.dropWhile_map, ← hdrop]
  refine congrArg (List.map Prod.fst) (Text.dropWhile_congr fun l hl => ?_)
  show p l.2 = p (a.nodeKind l.1)
  rw [h.nodeKind_eq hl]

theorem popWhile (h : a.Stores tokens b) {p : NodeKind → Bool} (hfile : p .file = false) :
    (a.popWhile p).Stores tokens (b.withPath (·.closeAll p)) := by
  have hclosed := h.withPath (f := (·.closeAll p)) (.closeAll b.path p)
  rwa [h.labels_closeAll (h.top_closeAll hfile)] at hclosed

theorem untilLast_eq {p : Nat → Bool} {stack : List Nat} (h : ∀ id ∈ stack.getLast?, p id = false) :
    untilLast p stack = stack.dropWhile p := by
  fun_induction untilLast p stack with
  | case1 id next rest hp ih =>
    rw [List.dropWhile_cons_of_pos hp]
    exact ih h
  | case2 id next rest hp => rw [List.dropWhile_cons_of_neg hp]
  | case3 stack hne =>
    match stack with
    | [] => rfl
    | [id] => rw [List.dropWhile_cons_of_neg (by simpa using h id rfl)]
    | id :: next :: rest => exact absurd rfl (hne id next rest)

theorem closeLeaves (h : a.Stores tokens b) :
    a.closeLeaves.Stores tokens (b.withPath OpenPath.closeLeaves) := by
  have hclosed := h.popWhile (p := fun k => !k.isContainer) rfl
  have hlast : ∀ id ∈ a.stack.getLast?, (!(a.nodeKind id).isContainer) = false := by
    intro id hid
    have hroot := h.root
    rw [← h.map_nodeKind, List.getLast?_map, hid] at hroot
    rw [Option.some.inj hroot]
    rfl
  rw [Arena.popWhile, ← untilLast_eq hlast] at hclosed
  exact hclosed

theorem closeToRoot (h : a.Stores tokens b) :
    a.closeToRoot.Stores tokens (b.withPath (·.closeAll fun _ => true)) := by
  have hcloses : b.path.Closes (b.path.closeAll fun _ => true) := .closeAll _ _
  obtain ⟨closed, hclosed⟩ := OpenPath.labels_of_closes hcloses
  have hone : (b.path.closeAll fun _ => true).labels =
      [((b.path.closeAll fun _ => true).top.id, (b.path.closeAll fun _ => true).top.kind)] := by
    rw [OpenPath.labels, OpenPath.nodes,
      show (b.path.closeAll fun _ => true).outer = [] from OpenPath.closeWhile_true_outer _ _]
    rfl
  have hstack : a.stack.drop (a.stack.length - 1) =
      (b.path.closeAll fun _ => true).labels.map Prod.fst := by
    rw [h.stack_eq, hclosed, List.map_append, hone, List.length_append, List.map_singleton,
      List.length_singleton, Nat.add_sub_cancel, List.drop_left]
  have hroot := h.withPath (f := (·.closeAll fun _ => true)) hcloses
  rwa [← hstack] at hroot

/-- Taking off the innermost node of a kind is closing it; the root is of another kind. -/
theorem pop (h : a.Stores tokens b) (kind : NodeKind) (hfile : kind ≠ .file) :
    (if a.topKind = kind then a.pop else a).Stores tokens (b.withPath (·.closeOne kind)) := by
  have hclosed := h.withPath (f := (·.closeOne kind)) (.closeOne b.path kind)
  rw [OpenPath.labels_closeOne h.root hfile] at hclosed
  rw [h.topKind_eq, Builder.topKind]
  by_cases htop : b.path.top.kind = kind
  · rw [if_pos htop] at hclosed ⊢
    rwa [List.map_tail, ← h.stack_eq] at hclosed
  · rw [if_neg htop] at hclosed ⊢
    rwa [← h.stack_eq] at hclosed

/-! ## §D Adding tokens and opening nodes -/

/-- Tokens that are added are children of the innermost node. -/
theorem rows_pushAll {p : OpenPath} {n : Nat} {indices : List Nat} {es : List Element}
    (hes : List.Forall₂ (fun index e => ∃ t, e = Element.token index t) indices es)
    (h : p.rows.map Prod.fst = List.range n) :
    (p.pushAll es).rows.map Prod.fst = List.range n ∧
      (p.pushAll es).rows.map Prod.snd =
        indices.foldl (fun nodes index => nodes.modify p.top.id (·.add (.token index)))
          (p.rows.map Prod.snd) := by
  induction hes generalizing p with
  | nil => exact ⟨h, rfl⟩
  | @cons index e indices es he _ ih =>
    obtain ⟨t, rfl⟩ := he
    obtain ⟨hids, hnodes⟩ := OpenPath.rows_push h index t
    obtain ⟨hall, hplaces⟩ := ih hids
    refine ⟨hall, ?_⟩
    rw [hnodes] at hplaces
    exact hplaces

theorem flush (h : a.Stores tokens b) : (a.flushInto a.top).Stores tokens b.flush := by
  obtain ⟨hids, hnodes⟩ := rows_pushAll h.pending_eq h.ids_eq
  have hlabels := OpenPath.labels_pushAll b.path b.pending.reverse
  refine { h with
    nodes_eq := ?_
    ids_eq := hids
    stack_eq := h.stack_eq.trans (congrArg (List.map Prod.fst) hlabels.symm)
    root := ?_
    pending_eq := .nil }
  · rw [flushInto, h.top_eq, h.nodes_eq]
    exact hnodes.symm
  · show (b.path.pushAll b.pending.reverse).kinds.getLast? = _
    rw [OpenPath.kinds_eq, hlabels, ← OpenPath.kinds_eq]
    exact h.root

theorem attach (h : a.Stores tokens b) (index : Nat) (t : Token) :
    (a.attach index).Stores tokens (b.attach (.token index t)) := by
  have hflush := h.flush
  obtain ⟨hids, hnodes⟩ := OpenPath.rows_push hflush.ids_eq index t
  refine { hflush with
    nodes_eq := ?_
    ids_eq := hids }
  rw [Arena.attach, append, hflush.nodes_eq, show a.top = _ from hflush.top_eq]
  exact hnodes.symm

theorem length_nodes (h : a.Stores tokens b) : a.nodes.length = b.nextId := by
  have hlength := congrArg List.length h.ids_eq
  rw [List.length_map, List.length_range] at hlength
  rw [h.nodes_eq, List.length_map, hlength]

theorem enter (h : a.Stores tokens b) (kind : NodeKind) :
    (a.enter kind).Stores tokens (b.enter kind) := by
  have hflush := h.flush
  obtain ⟨hids, hnodes⟩ := OpenPath.rows_enter hflush.ids_eq kind
  have hid : (a.flushInto a.top).nodes.length = b.flush.nextId := hflush.length_nodes
  refine { hflush with
    nodes_eq := ?_
    ids_eq := hids
    stack_eq := ?_
    root := ?_ }
  · rw [Arena.enter, append]
    show ((a.flushInto a.top).nodes ++ _).modify _ _ = _
    rw [hid, hflush.nodes_eq, show a.top = _ from hflush.top_eq]
    exact hnodes.symm
  · show (a.flushInto a.top).nodes.length :: (a.flushInto a.top).stack = _
    rw [hid, hflush.stack_eq]
    rfl
  · show (OpenPath.mk ⟨b.flush.nextId, kind, []⟩ b.flush.path.nodes).kinds.getLast? = _
    exact hflush.root

theorem degrade (h : a.Stores tokens b) (kind : Degradation.Kind) (span : Span) :
    (a.degrade kind span).Stores tokens (b.degrade kind span) := by
  refine { h with degradations_eq := ?_ }
  show a.degradations ++ [⟨kind, span⟩] = (⟨kind, span⟩ :: b.problems).reverse
  rw [List.reverse_cons, h.degradations_eq]

/-! ## §E One token -/

/-- Looking for the first member is dropping those before it. -/
theorem findIdx?_cases {α : Type} (p : α → Bool) (l : List α) :
    l.any p = false ∧ l.findIdx? p = none ∨
      l.any p = true ∧ ∃ i, l.findIdx? p = some i ∧ l.drop i = l.dropWhile (!p ·) := by
  induction l with
  | nil => exact Or.inl ⟨rfl, rfl⟩
  | cons x l ih =>
    rw [List.findIdx?_cons, List.any_cons]
    cases hx : p x with
    | true => exact Or.inr ⟨rfl, 0, rfl, by simp [hx]⟩
    | false =>
      rcases ih with ⟨hany, hnone⟩ | ⟨hany, i, hsome, hdrop⟩
      · exact Or.inl ⟨by simpa using hany, by simp [hnone]⟩
      · refine Or.inr ⟨by simpa using hany, i + 1, by simp [hsome], ?_⟩
        rw [List.drop_succ_cons, List.dropWhile_cons_of_pos (by simp [hx]), hdrop]

theorem closeTo (h : a.Stores tokens b) (keyword : Keyword) (span : Span)
    (allowed : NodeKind → Bool) :
    (a.closeTo keyword span allowed).Stores tokens (b.closeTo keyword span allowed) := by
  have hany : b.path.kinds.any allowed = a.stack.any fun id => allowed (a.nodeKind id) := by
    rw [← h.map_nodeKind, List.any_map]
    rfl
  rw [Builder.closeTo, Arena.closeTo]
  rcases findIdx?_cases (fun id => allowed (a.nodeKind id)) a.stack with
    ⟨hnone, hfind⟩ | ⟨hsome, i, hfind, hdrop⟩
  · rw [hfind, hany, hnone]
    exact h.degrade _ _
  · rw [hfind, if_pos (hany.trans hsome)]
    show Stores tokens { a with stack := a.stack.drop i } _
    rw [hdrop]
    have htop := OpenPath.closeAll_top_of_any (hany.trans hsome)
    have hclosed := h.withPath (f := (·.closeAll fun k => !allowed k)) (.closeAll b.path _)
    rwa [h.labels_closeAll (p := fun k => !allowed k) (by rw [htop]; rfl)] at hclosed

theorem insideExamples_eq (h : a.Stores tokens b) : a.insideExamples = b.insideExamples := by
  rw [Builder.insideExamples, ← h.map_nodeKind, List.takeWhile_map, List.contains_eq_any_beq,
    List.any_map]
  refine congrArg (List.any _ ·) (funext fun id => ?_)
  exact (NodeKind.beq_eq_decide_eq _ _).symm

theorem makeRoom (h : a.Stores tokens b) (keyword : Keyword) (span : Span) :
    (a.makeRoom keyword span).Stores tokens (b.makeRoom keyword span) := by
  cases keyword with
  | feature =>
    have hrecorded : (if a.hasFeature then a.degrade .duplicateFeature span else a).Stores tokens
        (if b.hasFeature then b.degrade .duplicateFeature span else b) := by
      rw [h.hasFeature_eq]
      split
      · exact h.degrade _ _
      · exact h
    exact closeToRoot { hrecorded with hasFeature_eq := rfl }
  | rule => exact h.closeTo .rule span fun k => k = .feature
  | background => exact h.closeTo .background span fun k => k = .feature || k = .rule
  | scenario => exact h.closeTo .scenario span fun k => k = .feature || k = .rule
  | scenarioOutline => exact h.closeTo .scenarioOutline span fun k => k = .feature || k = .rule
  | examples => exact h.closeTo .examples span fun k => k = .scenario || k = .scenarioOutline
  | step k =>
    have hclosed := h.closeTo (.step k) span NodeKind.holdsSteps
    show (if a.insideExamples && (a.closeTo _ _ _).topKind.holdsSteps then _ else _ : Arena).Stores
      tokens (if b.insideExamples && (b.closeTo _ _ _).topKind.holdsSteps then _ else _)
    rw [h.insideExamples_eq, hclosed.topKind_eq]
    split
    · exact hclosed.degrade _ _
    · exact hclosed

theorem spanOf_eq (h : a.Stores tokens b) {index : Nat} {t : Token}
    (ht : tokens[index]? = some t) : a.spanOf index = t.span := by
  rw [spanOf, ChildId.spanIn, h.tokens_eq, ht]
  rfl

/-- The two branch alike. -/
theorem branch {c c' : Prop} [Decidable c] [Decidable c'] {a' : Arena} {b' : Builder}
    (hc : c = c') (h : a.Stores tokens b) (h' : a'.Stores tokens b') :
    (if c then a else a').Stores tokens (if c' then b else b') := by
  subst hc
  split
  · exact h
  · exact h'

section Token

variable {index : Nat} {t : Token}

/-- A construct out of place is put into the innermost container. -/
theorem misplace (h : a.Stores tokens b) (ht : tokens[index]? = some t) (kind : Degradation.Kind) :
    (a.closeLeaves.degrade kind (a.spanOf index)).Stores tokens
      ((b.withPath OpenPath.closeLeaves).degrade kind t.span) := by
  rw [h.spanOf_eq ht]
  exact h.closeLeaves.degrade kind t.span

theorem withLast (h : a.Stores tokens b) (last : Option StepKeyword) :
    Stores tokens { a with lastConcrete := last } { b with lastConcrete := last } :=
  { h with lastConcrete_eq := rfl }

theorem openKeyword (h : a.Stores tokens b) (ht : tokens[index]? = some t) (keyword : Keyword) :
    (a.openKeyword keyword index).Stores tokens
      (b.openKeyword keyword t.span (.token index t)) := by
  have hroom := h.closeLeaves.makeRoom keyword t.span
  simp only [Arena.openKeyword, Builder.openKeyword, h.spanOf_eq ht, hroom.lastConcrete_eq]
  exact ((hroom.withLast _).enter _).attach index t

theorem openRow (h : a.Stores tokens b) (ht : tokens[index]? = some t) :
    (a.openRow index).Stores tokens (b.openRow t.span (.token index t)) := by
  have hrow := h.pop .tableRow (by decide)
  have hfree := hrow.popWhile (p := fun k => k = .stepParameter || k = .docString) rfl
  have hheld := branch (congrArg (fun k : NodeKind => (k.isStep || k = .examples) = true)
    hfree.topKind_eq) hfree (hfree.misplace ht .tableOutsideStep)
  have htable := branch (congrArg (· = NodeKind.table) hrow.topKind_eq) hrow (hheld.enter .table)
  exact (htable.enter .tableRow).attach index t

theorem openDocString (h : a.Stores tokens b) (ht : tokens[index]? = some t) :
    (a.openDocString index).Stores tokens (b.openDocString t.span (.token index t)) := by
  have hfree := h.popWhile
    (p := fun k => k = .stepParameter || k = .table || k = .tableRow || k = .docString) rfl
  have hheld := branch (congrArg (fun k : NodeKind => k.isStep = true) hfree.topKind_eq) hfree
    (hfree.misplace ht .docStringOutsideStep)
  have hopen := (hheld.enter .docString).attach index t
  exact { hopen with inDocString_eq := rfl }

theorem placeToken (h : a.Stores tokens b) (ht : tokens[index]? = some t) (lineStart : Bool) :
    (a.placeToken lineStart t.kind index).Stores tokens
      (b.placeToken lineStart t (.token index t)) := by
  have hattach := h.attach index t
  unfold Arena.placeToken Builder.placeToken
  cases t.kind with
  | keyword keyword => exact h.openKeyword ht keyword
  | parameterStart => exact (h.enter .stepParameter).attach index t
  | parameterEnd => exact hattach.pop .stepParameter (by decide)
  | docStringDelimiter => exact h.openDocString ht
  | pipe => exact branch rfl (h.openRow ht) hattach
  | text | tag => exact branch rfl (h.closeLeaves.attach index t) hattach
  | _ => exact hattach

/-- **The next token.** -/
theorem pushToken (h : a.Stores tokens b) (ht : tokens[b.nextToken]? = some t) :
    (a.pushToken b.nextToken).Stores tokens (b.step t) := by
  obtain rfl := h.tokens_eq
  simp only [Arena.pushToken, Builder.step, ht]
  refine branch rfl ?_ (branch (congrArg (· = true) h.inDocString_eq) ?_ ?_)
  · refine { h with pending_eq := ?_, atLineStart_eq := ?_ }
    · rw [List.reverse_cons]
      exact List.rel_append h.pending_eq (.cons ⟨t, rfl⟩ .nil)
    · rw [h.atLineStart_eq]
  · have hdoc : Stores a.tokens
        { a with atLineStart := false, inDocString := t.kind != TokenKind.docStringDelimiter }
        { b with
          nextToken := b.nextToken + 1
          atLineStart := false
          inDocString := t.kind != TokenKind.docStringDelimiter } :=
      { h with atLineStart_eq := rfl, inDocString_eq := rfl }
    exact hdoc.attach b.nextToken t
  · have hline : Stores a.tokens { a with atLineStart := false }
        { b with nextToken := b.nextToken + 1, atLineStart := false } :=
      { h with atLineStart_eq := rfl }
    rw [h.atLineStart_eq]
    exact hline.placeToken ht b.atLineStart

end Token

/-! ## §F The end of the source -/

/-- The row of the innermost node holds its children so far. -/
theorem top_slot (h : a.Stores tokens b) :
    a.nodes[b.path.top.id]? = some (b.path.top.slot (b.path.outer.head?.map (·.id))) := by
  obtain ⟨front, hfront⟩ := OpenPath.exists_front b.path.outer b.path.top.id
  have hrow : (b.path.top.id, b.path.top.slot (b.path.outer.head?.map (·.id))) ∈ b.path.rows := by
    rw [hfront b.path.top rfl]
    exact List.mem_append_right _ List.mem_cons_self
  rw [h.nodes_eq]
  exact OpenPath.getElem?_of_row h.ids_eq hrow

theorem topStart_eq (h : a.Stores tokens b) (hreads : b.Reads tokens) :
    a.topStart = b.topStart := by
  have hhead : a.stack.head? = some b.path.top.id := by
    rw [h.stack_eq]
    rfl
  have hfirst (parent : Option Nat) : (b.path.top.slot parent).children.head? =
      b.path.top.reversed.reverse.head?.map Element.childId := List.head?_map
  rw [topStart, Builder.topStart, hhead, Option.bind_some, h.top_slot, Option.bind_some, hfirst,
    ← List.head?_reverse]
  cases hchild : b.path.top.reversed.reverse.head? with
  | none => rfl
  | some e =>
    cases e with
    | node id kind span children => rfl
    | token index t =>
      refine congrArg Span.start (h.spanOf_eq (mem_numbered_iff.mp ?_))
      rw [← hreads.leaves_eq]
      exact List.mem_append_left _ (List.mem_append_right _
        (Element.mem_leavesOf (List.mem_of_head? hchild) (List.mem_singleton_self _)))

end Stores

/-- After the first tokens of a source, the arena holds what the builder holds. -/
theorem stores_foldl (tokens : List Token) {n : Nat} (hn : n ≤ tokens.length) :
    Stores tokens ((List.range n).foldl pushToken { tokens })
      ((tokens.take n).foldl Builder.step {}) := by
  induction n with
  | zero => exact stores_nil tokens
  | succ n ih =>
    have hread : ((tokens.take n).foldl Builder.step {}).Reads (tokens.take n) :=
      Builder.reads_foldl Builder.reads_nil _
    have hnext : ((tokens.take n).foldl Builder.step {}).nextToken = n := by
      rw [hread.nextToken_eq, List.length_take, Nat.min_eq_left (by omega)]
    have ht : tokens[((tokens.take n).foldl Builder.step {}).nextToken]? = some tokens[n] := by
      rw [hnext, List.getElem?_eq_getElem]
    have hpushed := (ih (by omega)).pushToken ht
    rw [hnext] at hpushed
    rw [List.range_succ, List.foldl_append, List.take_succ_eq_append_getElem hn, List.foldl_append]
    exact hpushed

/-- **The end of a source.** The arena then holds the finished tree and its problems. -/
theorem stores_atEnd {tokens : List Token} {a : Arena} {b : Builder} (h : a.Stores tokens b)
    (hreads : b.Reads tokens) (size : Nat) :
    (a.atEnd size).nodes =
        ((b.finish size).1.entries none).map (fun x => x.slot.unmeasured) ∧
      (a.atEnd size).degradations = (b.finish size).2 := by
  have hclosed : Stores tokens
      (if a.inDocString then a.degrade .unclosedDocString (Span.clamp a.topStart size)
        else a.closeLeaves)
      (if b.inDocString then b.degrade .unclosedDocString (Span.clamp b.topStart size)
        else b.withPath OpenPath.closeLeaves) := by
    rw [h.topStart_eq hreads]
    exact Stores.branch (congrArg (· = true) h.inDocString_eq) (h.degrade _ _) h.closeLeaves
  have hflushed := hclosed.flush
  have hend := Stores.branch (congrArg (· = true) hflushed.hasFeature_eq) hflushed
    (hflushed.degrade .missingFeature (Span.clamp 0 size))
  refine ⟨hend.nodes_eq.trans ?_, hend.degradations_eq⟩
  rw [OpenPath.rows, List.map_map]
  rfl

end Arena

end FeatureFile

/-
# FeatureFile.Proofs.Outline.Stored — the table of a source stores its outline

The arena holds the finished tree but for the spans (`Arena.stores_atEnd`). A node is measured when all
nodes behind it are, and what it holds is behind it, so one sweep from the last node to the first
finds every span (`Slot.measureAll_eq`). Looking up then reads the tree: a walk puts the children of a
node in its place on the stack, so that it meets them in document order (`walk_element`), and its
turns suffice since each of them takes up a node or a token.

Main statement: `Arena.stores_build`.
-/

import FeatureFile.Proofs.Outline.Arena
import FeatureFile.Proofs.Outline.Tree

namespace FeatureFile

/-! ## §A Measuring -/

namespace Slot

/-- **`Measured tokens nodes`** — every node covers its children, and they stand behind it. -/
def Measured (tokens : List Token) (nodes : List Slot) : Prop :=
  ∀ i s, nodes[i]? = some s →
    s.span = Span.coverAll (s.children.map (·.spanIn tokens nodes)) ∧
      ∀ id, ChildId.node id ∈ s.children → i < id

variable {tokens : List Token} {nodes : List Slot}

/-- A node is measured by those behind it. -/
theorem measure_eq (h : Measured tokens nodes) {n : Nat} (hn : n < nodes.length) :
    measure tokens ((nodes.take (n + 1)).map unmeasured ++ nodes.drop (n + 1)) n =
      (nodes.take n).map unmeasured ++ nodes.drop n := by
  obtain ⟨hspan, hbehind⟩ := h n nodes[n] (List.getElem?_eq_getElem hn)
  have hlength : ((nodes.take n).map unmeasured).length = n := by
    rw [List.length_map, List.length_take, Nat.min_eq_left (by omega)]
  have hlayout : (nodes.take (n + 1)).map unmeasured ++ nodes.drop (n + 1) =
      (nodes.take n).map unmeasured ++ unmeasured nodes[n] :: nodes.drop (n + 1) := by
    rw [List.take_succ_eq_append_getElem hn, List.map_append, List.append_assoc]
    rfl
  -- What the node holds has its span already.
  have hchild : ∀ c ∈ nodes[n].children,
      c.spanIn tokens ((nodes.take n).map unmeasured ++ unmeasured nodes[n] :: nodes.drop (n + 1)) =
        c.spanIn tokens nodes := by
    intro c hc
    cases c with
    | token index => rfl
    | node id =>
      obtain ⟨k, rfl⟩ := Nat.exists_eq_add_of_lt (hbehind id hc)
      rw [ChildId.spanIn, ChildId.spanIn, List.getElem?_append_right (by omega), hlength,
        show n + k + 1 - n = k + 1 by omega, List.getElem?_cons_succ, List.getElem?_drop,
        show n + 1 + k = n + k + 1 by omega]
  rw [hlayout, measure, modify_middle hlength, List.drop_eq_getElem_cons hn]
  refine congrArg (fun s => _ ++ s :: _) ?_
  show ({ nodes[n] with span := Span.coverAll (nodes[n].children.map _) } : Slot) = nodes[n]
  rw [List.map_congr_left hchild, ← hspan]

/-- **The sweep.** It finds the spans of all nodes. -/
theorem measureAll_eq (h : Measured tokens nodes) :
    measureAll tokens (nodes.map unmeasured) = nodes := by
  have hsweep : ∀ n, n ≤ nodes.length →
      (List.range n).reverse.foldl (measure tokens)
        ((nodes.take n).map unmeasured ++ nodes.drop n) = nodes := by
    intro n
    induction n with
    | zero => exact fun _ => rfl
    | succ n ih =>
      intro hn
      rw [List.range_succ, List.reverse_append, List.reverse_singleton, List.singleton_append,
        List.foldl_cons, measure_eq h (by omega)]
      exact ih (by omega)
  have hall := hsweep nodes.length le_rfl
  rw [List.take_length, List.drop_length, List.append_nil] at hall
  rwa [measureAll, List.length_map]

end Slot

/-! ## §B Walking -/

namespace NodeTable

/-- **`t.Lists x`** — the table holds the children of a node. -/
def Lists (t : NodeTable) (x : Entry) : Prop :=
  t.children x.node.id = x.node.children.map Element.childId

theorem filterMap_child (e : Element) (es : List Element) :
    ((e :: es).map Element.childId).filterMap ChildId.node? =
      e.childId.node?.toList ++ (es.map Element.childId).filterMap ChildId.node? := by
  cases e <;> rfl

mutual

/-- A walk that meets an element gives its nodes in document order, a turn each. -/
theorem walk_element (t : NodeTable) (parent : Option Nat) (turns : Nat) (stack : List Nat) :
    ∀ e : Element, (∀ x ∈ e.entries parent, t.Lists x) →
      t.walk ((e.entries parent).length + turns) (e.childId.node?.toList ++ stack) =
        (e.entries parent).map (·.node.id) ++ t.walk turns stack
  | .token _ _, _ => by
    rw [Element.entries, List.length_nil, Nat.zero_add]
    rfl
  | .node id kind span children, h => by
    have hchildren : t.children id = children.map Element.childId :=
      h ⟨parent, id, kind, span, children⟩ List.mem_cons_self
    have hbelow := walk_elements t (some id) turns stack children fun x hx =>
      h x (List.mem_cons_of_mem _ hx)
    rw [Element.entries, List.length_cons, Nat.add_right_comm]
    show id :: t.walk _ (t.childIds id ++ stack) = _
    rw [childIds, hchildren, hbelow]
    rfl

theorem walk_elements (t : NodeTable) (parent : Option Nat) (turns : Nat) (stack : List Nat) :
    ∀ es : List Element, (∀ x ∈ Element.entriesOf parent es, t.Lists x) →
      t.walk ((Element.entriesOf parent es).length + turns)
          ((es.map Element.childId).filterMap ChildId.node? ++ stack) =
        (Element.entriesOf parent es).map (·.node.id) ++ t.walk turns stack
  | [], _ => by
    rw [Element.entriesOf, List.length_nil, Nat.zero_add]
    rfl
  | e :: es, h => by
    rw [Element.entriesOf] at h ⊢
    obtain ⟨he, hes⟩ := List.forall_mem_append.mp h
    rw [filterMap_child, List.append_assoc, List.length_append, Nat.add_assoc,
      walk_element t parent _ _ e he, walk_elements t parent turns stack es hes, List.map_append,
      List.append_assoc]

end

mutual

/-- A walk over leaves that meets an element gives its tokens. It takes a turn for each of its nodes
and tokens. -/
theorem walkLeaves_element (t : NodeTable) (parent : Option Nat) (turns : Nat)
    (stack : List ChildId) :
    ∀ e : Element, (∀ x ∈ e.entries parent, t.Lists x) →
      (∀ l ∈ e.leaves, t.tokens[l.1]? = some l.2) →
      t.walkLeaves ((e.entries parent).length + e.leaves.length + turns) (e.childId :: stack) =
        e.tokens ++ t.walkLeaves turns stack
  | .token index u, _, htokens => by
    have hu : t.tokens[index]? = some u := htokens (index, u) (List.mem_singleton_self _)
    rw [Element.entries, Element.leaves, List.length_nil, List.length_singleton, Nat.zero_add,
      Nat.add_comm]
    show (match t.tokens[index]? with
      | some u => u :: t.walkLeaves turns stack
      | none => []) = _
    rw [hu]
    rfl
  | .node id kind span children, h, htokens => by
    have hchildren : t.children id = children.map Element.childId :=
      h ⟨parent, id, kind, span, children⟩ List.mem_cons_self
    have hbelow := walkLeaves_elements t (some id) turns stack children
      (fun x hx => h x (List.mem_cons_of_mem _ hx)) htokens
    rw [Element.entries, List.length_cons, Nat.add_right_comm _ 1, Nat.add_right_comm _ 1]
    show t.walkLeaves _ (t.children id ++ stack) = _
    rw [hchildren]
    exact hbelow

theorem walkLeaves_elements (t : NodeTable) (parent : Option Nat) (turns : Nat)
    (stack : List ChildId) :
    ∀ es : List Element, (∀ x ∈ Element.entriesOf parent es, t.Lists x) →
      (∀ l ∈ Element.leavesOf es, t.tokens[l.1]? = some l.2) →
      t.walkLeaves
          ((Element.entriesOf parent es).length + (Element.leavesOf es).length + turns)
          (es.map Element.childId ++ stack) =
        Element.tokensOf es ++ t.walkLeaves turns stack
  | [], _, _ => by
    rw [Element.entriesOf, Element.leavesOf, List.length_nil, List.length_nil, Nat.zero_add]
    rfl
  | e :: es, h, htokens => by
    rw [Element.entriesOf] at h ⊢
    rw [Element.leavesOf] at htokens ⊢
    obtain ⟨he, hes⟩ := List.forall_mem_append.mp h
    obtain ⟨hete, htes⟩ := List.forall_mem_append.mp htokens
    rw [List.length_append, List.length_append, List.map_cons, List.cons_append, Element.tokensOf,
      List.append_assoc, ← walkLeaves_elements t parent turns stack es hes htes,
      ← walkLeaves_element t parent _ _ e he hete]
    congr 1
    omega

end

/-! ## §C Looking up -/

/-- **`t.Stores o`** — the table says of every number what the outline says. -/
structure Stores (t : NodeTable) (o : Outline) : Prop where
  source_eq : t.source = o.source
  tokens_eq : t.tokens = o.tokens
  /-- The nodes stand in document order, each with its parent, its children and its span. -/
  nodes_eq : t.nodes = o.entries.map Entry.slot
  degradations_eq : t.degradations = o.degradations
  kind?_eq : ∀ id, t.kind? id = o.kind? id
  parent?_eq : ∀ id, t.parent? id = o.parent? id
  children_eq : ∀ id, t.children id = (o.children id).map Element.childId
  span_eq : ∀ id, t.spanOf (.node id) = o.span id
  /-- The span of a child is found by its number. -/
  span_child : ∀ id, ∀ e ∈ o.children id, t.spanOf e.childId = e.span
  text_eq : ∀ id, t.elementText (.node id) = o.nodeText id
  childNodes_eq : ∀ id kind, t.childNodes id kind = (o.childNodes id kind).map (·.id)
  feature?_eq : t.feature? = o.feature?.map (·.id)
  descendants_eq : ∀ id, t.descendants id = o.descendants id
  leaves_eq : t.leaves = o.leaves

/-- The nodes among the children, by their numbers. -/
theorem filterMap_node? (es : List Element) :
    (es.map Element.childId).filterMap ChildId.node? = (es.filterMap Element.node?).map (·.id) := by
  rw [List.filterMap_map, List.map_filterMap]
  refine List.filterMap_congr fun e _ => ?_
  cases e <;> rfl

theorem walk_nil (t : NodeTable) (turns : Nat) : t.walk turns [] = [] := by
  cases turns <;> rfl

section Numbered

variable {t : NodeTable} {o : Outline}
  (hids : o.entries.map (·.node.id) = List.range o.entries.length)
  (hnodes : t.nodes = o.entries.map Entry.slot)

include hids hnodes

theorem nodes_getElem? (id : Nat) : t.nodes[id]? = (o.entry? id).map Entry.slot := by
  rw [hnodes, List.getElem?_map, Outline.entry?_eq hids]

theorem kind?_eq_kind? (id : Nat) : t.kind? id = o.kind? id := by
  rw [kind?, nodes_getElem? hids hnodes, Outline.kind?, Outline.node?]
  cases o.entry? id <;> rfl

theorem parent?_eq_parent? (id : Nat) : t.parent? id = o.parent? id := by
  rw [parent?, nodes_getElem? hids hnodes, Outline.parent?]
  cases o.entry? id <;> rfl

theorem children_eq_map (id : Nat) : t.children id = (o.children id).map Element.childId := by
  rw [children, nodes_getElem? hids hnodes, Outline.children, Outline.node?]
  cases o.entry? id <;> rfl

theorem spanOf_node (id : Nat) : t.spanOf (.node id) = o.span id := by
  rw [spanOf, ChildId.spanIn, nodes_getElem? hids hnodes, Outline.span, Outline.node?]
  cases o.entry? id <;> rfl

theorem lists_of_mem {x : Entry} (hx : x ∈ o.entries) : t.Lists x := by
  rw [Lists, children_eq_map hids hnodes, Outline.children_of_mem hids hx]

theorem childNodes_eq_map (id : Nat) (kind : NodeKind) :
    t.childNodes id kind = (o.childNodes id kind).map (·.id) := by
  rw [childNodes, childIds, children_eq_map hids hnodes, filterMap_node?, Outline.children,
    Outline.childNodes]
  cases h : o.node? id with
  | none => rfl
  | some n =>
    obtain ⟨⟨parent, hmem⟩, -⟩ := (Outline.node?_eq_some_iff hids).mp h
    show (n.childNodes.map (·.id)).filter _ = (n.childNodes.filter _).map (·.id)
    rw [List.filter_map]
    refine congrArg (List.map _) (List.filter_congr fun child hchild => ?_)
    have hkind : t.kind? child.id = some child.kind := by
      have hlook := (Outline.node?_eq_some_iff hids).mpr
        ⟨⟨_, Outline.mem_of_mem_childNodes hmem hchild⟩, rfl⟩
      rw [kind?_eq_kind? hids hnodes, Outline.kind?, hlook]
      rfl
    simp only [Function.comp_apply, hkind, Option.some.injEq]

theorem descendants_eq_descendants (id : Nat) : t.descendants id = o.descendants id := by
  rw [descendants, Outline.descendants]
  cases h : o.node? id with
  | none =>
    have hnone : t.childIds id = [] := by
      rw [childIds, children_eq_map hids hnodes, Outline.children, h]
      rfl
    rw [walk, hnone, List.nil_append, walk_nil]
  | some n =>
    obtain ⟨⟨parent, hmem⟩, rfl⟩ := (Outline.node?_eq_some_iff hids).mp h
    have hbelow := Outline.sublist_of_mem hmem
    -- There are turns enough for all nodes.
    obtain ⟨rest, hturns⟩ := Nat.exists_eq_add_of_le hbelow.length_le
    have hwalk := walk_element t parent (rest + 1) [] n.toElement fun x hx =>
      lists_of_mem hids hnodes (hbelow.subset hx)
    rw [← Nat.add_assoc, ← hturns, walk_nil, List.append_nil, List.append_nil] at hwalk
    rw [hnodes, List.length_map]
    refine hwalk.trans ?_
    show _ = n.descendants.map (·.id)
    rw [Node.descendants, List.map_map, Element.ids_entries parent 0 [] n.toElement]
    exact (Element.ids_entries none 0 [] n.toElement).symm

end Numbered

end NodeTable

/-! ## §D The table of a source -/

namespace Arena

variable {source : String}

/-- A child of a node is found under its number. -/
theorem spanIn_child {x : Entry} (hx : x ∈ (Outline.parse source).entries) {e : Element}
    (he : e ∈ x.node.children) :
    e.childId.spanIn (tokenize source) ((Outline.parse source).entries.map Entry.slot) = e.span := by
  have hids := Outline.ids_parse source
  cases e with
  | token index t =>
    obtain ⟨a, b, hab⟩ := Element.leaves_split none _ hx
    have hmem : (index, t) ∈ (Outline.parse source).root.leaves := by
      rw [hab]
      exact List.mem_append_right _ (List.mem_append_left _
        (Element.mem_leavesOf he (List.mem_singleton_self _)))
    rw [(Outline.parse_covers source).numbered_leaves, mem_numbered_iff] at hmem
    rw [Element.childId, ChildId.spanIn, hmem]
    rfl
  | node id kind span children =>
    have hn : (⟨id, kind, span, children⟩ : Node) ∈ x.node.childNodes :=
      List.mem_filterMap.mpr ⟨_, he, rfl⟩
    have hslot := Outline.getElem?_of_mem hids (Outline.mem_of_mem_childNodes hx hn)
    rw [Element.childId, ChildId.spanIn, List.getElem?_map, hslot]
    rfl

theorem measured_slots (source : String) :
    Slot.Measured (tokenize source) ((Outline.parse source).entries.map Entry.slot) := by
  have hids := Outline.ids_parse source
  intro i s hs
  rw [List.getElem?_map, ← Outline.entry?_eq hids, Option.map_eq_some_iff] at hs
  obtain ⟨x, hx, rfl⟩ := hs
  obtain ⟨hmem, rfl⟩ := (Outline.entry?_eq_some_iff hids).mp hx
  obtain ⟨-, -, -, -, hspan, -⟩ := Outline.placed_of_mem hmem
  constructor
  · show x.node.span = Span.coverAll ((x.node.children.map Element.childId).map _)
    rw [hspan, List.map_map]
    exact congrArg Span.coverAll (List.map_congr_left fun e he => (spanIn_child hmem he).symm)
  · intro id hid
    obtain ⟨e, he, hchild⟩ := List.mem_map.mp hid
    cases e with
    | token => cases hchild
    | node id' kind span children =>
      obtain rfl := ChildId.node.inj hchild
      exact Outline.id_lt_of_mem_below hids hmem (y := ⟨_, ⟨id', kind, span, children⟩⟩)
        (Element.mem_entriesOf_of_mem _ (List.mem_filterMap.mpr ⟨_, he, rfl⟩))

theorem build_spec (source : String) :
    (build source).nodes = (Outline.parse source).entries.map Entry.slot ∧
      (build source).degradations = (Outline.parse source).degradations := by
  have hreads : ((tokenize source).foldl Builder.step {}).Reads (tokenize source) :=
    Builder.reads_foldl Builder.reads_nil (tokenize source)
  have hstores := stores_foldl (tokenize source) le_rfl
  rw [List.take_length] at hstores
  obtain ⟨hnodes, hdegradations⟩ := stores_atEnd hstores hreads (Text.byteSize source)
  have hmeasured := Slot.measureAll_eq (measured_slots source)
  rw [List.map_map] at hmeasured
  refine ⟨?_, hdegradations⟩
  simp only [build, hnodes]
  exact hmeasured

theorem leaves_build (source : String) : (build source).leaves = (Outline.parse source).leaves := by
  have hids := Outline.ids_parse source
  obtain ⟨hnodes, -⟩ := build_spec source
  obtain ⟨children, hroot, -, hleaves, -⟩ := Outline.parse_spec source
  have htokens : ∀ l ∈ (Outline.parse source).root.leaves,
      (build source).tokens[l.1]? = some l.2 := by
    rw [hleaves]
    exact fun l hl => mem_numbered_iff.mp hl
  have hcount : (Outline.parse source).root.leaves.length = (build source).tokens.length := by
    rw [hleaves, numbered, List.length_mapIdx]
    rfl
  have hwalk := NodeTable.walkLeaves_element (build source) none 0 [] (Outline.parse source).root
    (fun x hx => NodeTable.lists_of_mem hids hnodes hx) htokens
  have hchild : (Outline.parse source).root.childId = .node 0 := by
    rw [hroot]
    rfl
  rw [hcount, hchild, Nat.add_zero, NodeTable.walkLeaves, List.append_nil] at hwalk
  rw [NodeTable.leaves, hnodes, List.length_map]
  exact hwalk

/-- **The table of a source.** It stores the outline of the source. -/
theorem stores_build (source : String) : (build source).Stores (Outline.parse source) := by
  have hids := Outline.ids_parse source
  obtain ⟨hnodes, hdegradations⟩ := build_spec source
  have hspan := NodeTable.spanOf_node hids hnodes
  have hchildren := NodeTable.childNodes_eq_map hids hnodes
  exact {
    source_eq := rfl
    tokens_eq := rfl
    nodes_eq := hnodes
    degradations_eq := hdegradations
    kind?_eq := NodeTable.kind?_eq_kind? hids hnodes
    parent?_eq := NodeTable.parent?_eq_parent? hids hnodes
    children_eq := NodeTable.children_eq_map hids hnodes
    span_eq := hspan
    span_child := by
      intro id e he
      rcases Outline.children_cases hids id with ⟨x, hx, rfl, hlist⟩ | hlist
      · rw [hlist] at he
        rw [NodeTable.spanOf, hnodes]
        exact spanIn_child hx he
      · rw [hlist] at he
        cases he
    text_eq := by
      intro id
      rw [NodeTable.elementText, hspan]
      rfl
    childNodes_eq := hchildren
    feature?_eq := by
      rw [NodeTable.feature?, hchildren, List.head?_map]
      rfl
    descendants_eq := NodeTable.descendants_eq_descendants hids hnodes
    leaves_eq := leaves_build source }

end Arena

end FeatureFile

/-
# FeatureFile.Proofs.Outline.WellFormed — every source has a well-formed outline

The leaves of an outline are the tokens of its source, its nodes are numbered in document order, a
node has one parent, and its span runs from its first child to its last. The table of the nodes says
the same. Main statement: `parse_wellFormed`.
-/

import FeatureFile.Proofs.Outline.Stored

namespace FeatureFile

namespace Outline

/-- **`o.WellFormed source`** — the outline is a lossless tree over the source. -/
structure WellFormed (source : String) (o : Outline) : Prop extends Covers source o where
  /-- The leaves are the tokens of the source, in order. -/
  leaves_eq : o.leaves = tokenize source
  /-- The leaves, end to end, are the source. -/
  leafText_eq : o.leafText = source
  /-- The nodes below the root are all nodes, in the order of their numbers. -/
  descendants_root : o.descendants 0 = List.range o.nodes.length
  /-- Every node that was opened is in the tree. -/
  nodes_length : o.nodes.length = ((tokenize source).foldl Builder.step {}).nextId
  /-- A number below the number of nodes is the number of one node. -/
  node?_isSome : ∀ id, (o.node? id).isSome = true ↔ id < o.nodes.length
  /-- A node looked up by a number has this number. -/
  id_eq : ∀ id n, o.node? id = some n → n.id = id
  /-- A node stands among the children of its parent and of no other node. -/
  mem_childIds : ∀ p c, c ∈ o.childIds p ↔ o.parent? c = some p
  /-- No node stands twice among the children of a node. -/
  nodup_childIds : ∀ p, (o.childIds p).Nodup
  /-- A child is the node that is found under its number. -/
  node?_child : ∀ p, ∀ n ∈ (o.children p).filterMap Element.node?, o.node? n.id = some n
  /-- The root is the only node without a parent. -/
  parent?_eq_none : ∀ c, c < o.nodes.length → (o.parent? c = none ↔ c = 0)
  /-- A parent is opened before its children. -/
  parent_lt : ∀ c p, o.parent? c = some p → p < c
  /-- Each child begins where the one before it ends. -/
  children_adjacent : ∀ id, (o.children id).IsChain fun a b => a.span.stop = b.span.start
  /-- A node begins with its first child. -/
  span_start : ∀ id e, (o.children id).head? = some e → (o.span id).start = e.span.start
  /-- A node ends with its last child. -/
  span_stop : ∀ id e, (o.children id).getLast? = some e → (o.span id).stop = e.span.stop
  /-- A node other than the root has children and is not empty. -/
  span_nonempty : ∀ id, 0 < id → id < o.nodes.length →
    o.children id ≠ [] ∧ (o.span id).start < (o.span id).stop
  /-- The root covers the source. -/
  span_root : (o.span 0).start = 0 ∧ (o.span 0).stop = Text.byteSize source
  /-- The text of a node is that of the tokens below it. -/
  nodeText_eq : ∀ id n, o.node? id = some n →
    o.nodeText id = String.ofList (textOfTokens n.toElement.tokens)
  /-- The table that is filled token by token, with its stored parents and measured spans, says the
  same of every node. -/
  stored : (Arena.build source).Stores o

/-- **`parse_wellFormed`** — every source has a well-formed outline. -/
theorem parse_wellFormed (source : String) : (parse source).WellFormed source := by
  have hids := ids_parse source
  have hlength : (parse source).nodes.length = (parse source).entries.length := List.length_map _
  have hrootText : textOfTokens (parse source).root.tokens = source.toList := by
    rw [tokens_root, textOfTokens_tokenize]
  constructor
  case leaves_eq => exact tokens_root source
  case toCovers => exact parse_covers source
  case leafText_eq => exact (congrArg String.ofList hrootText).trans String.ofList_toList
  case descendants_root =>
    obtain ⟨x, hx, -, hid, -, helement⟩ := exists_root source
    have hnode : (parse source).node? 0 = some x.node :=
      (node?_eq_some_iff hids).mpr ⟨⟨x.parent, hx⟩, hid⟩
    rw [descendants, hnode, hlength, ← hids, entries, ← helement]
    exact List.map_map
  case nodes_length => exact hlength.trans (length_entries source)
  case node?_isSome =>
    intro id
    rw [node?, Option.isSome_map, entry?_eq hids, hlength]
    simp
  case id_eq => exact fun id n h => ((node?_eq_some_iff hids).mp h).2
  case mem_childIds => exact mem_childIds_iff hids
  case nodup_childIds => exact nodup_childIds_of_ids hids
  case node?_child =>
    intro p n hn
    rcases children_cases hids p with ⟨x, hx, rfl, hchildren⟩ | hchildren
    · rw [hchildren] at hn
      exact (node?_eq_some_iff hids).mpr ⟨⟨some x.node.id, mem_of_mem_childNodes hx hn⟩, rfl⟩
    · rw [hchildren] at hn
      simp at hn
  case parent?_eq_none =>
    intro c hc
    obtain ⟨x, hx, rfl⟩ := exists_entry (hlength ▸ hc)
    rw [parent?, (entry?_eq_some_iff hids).mpr ⟨hx, rfl⟩]
    exact parent_of_mem hx
  case parent_lt => exact fun c p h => parent_lt_of_ids hids h
  case children_adjacent =>
    intro id
    rcases laid_children source id with hnil | hlaid
    · rw [hnil]
      exact .nil
    · exact hlaid.isChain
  case span_start =>
    intro id e he
    obtain ⟨es, hes⟩ := List.head?_eq_some_iff.mp he
    rcases laid_children source id with hnil | hlaid
    · rw [hnil] at hes
      simp at hes
    · rw [hes] at hlaid
      exact hlaid.head_start.symm
  case span_stop =>
    intro id e he
    obtain ⟨es, hes⟩ := List.getLast?_eq_some_iff.mp he
    rcases laid_children source id with hnil | hlaid
    · rw [hnil] at hes
      simp at hes
    · rw [hes, List.map_append] at hlaid
      exact hlaid.last_stop.symm
  case span_nonempty =>
    intro id hpos hlt
    obtain ⟨x, hx, rfl⟩ := exists_entry (hlength ▸ hlt)
    have hne := children_ne_nil hx hpos
    exact ⟨hne, ((laid_children source x.node.id).resolve_left hne).lt (by simpa using hne)⟩
  case span_root => exact span_zero source
  case nodeText_eq =>
    intro id n h
    obtain ⟨⟨parent, hmem⟩, rfl⟩ := (node?_eq_some_iff hids).mp h
    obtain ⟨a, b, htokens, hstart, hstop⟩ := span_of_placed hmem
    rw [nodeText, span_of_mem hids hmem, sourceText]
    exact congrArg String.ofList (slice_of_placed htokens hstart hstop)
  case stored => exact Arena.stores_build source

end Outline

end FeatureFile

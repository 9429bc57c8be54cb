/-
# FeatureFile.Proofs.Outline.Tree — the tree over a source

The leaves of an outline are the tokens of its source (`parse_covers`), its nodes are numbered in
document order (`ids_parse`), and the children of a node lie end to end below its span
(`laid_children`).

Three facts about trees carry it. The nodes below a node are a stretch of the list of all nodes, and
the leaves below it a stretch of all leaves (`entries_split`, `leaves_split`). Every entry but the
first names the node in whose children it stands (`exists_parent`). And where the tokens of a solid
element lie end to end, so do its children, and its span reaches over exactly them
(`fits_of_solid`).
-/

import FeatureFile.Outline
import FeatureFile.Proofs.Outline.Run
import FeatureFile.Proofs.Token.Tiling
import Mathlib.Data.List.Sort

namespace FeatureFile

open Text (byteLength)

/-! ## §A Spans that lie end to end -/

/-- **`Laid start ss stop`** — the spans lie end to end from one offset to another, and none is
empty. -/
inductive Laid : Nat → List Span → Nat → Prop
  | nil {offset : Nat} : Laid offset [] offset
  | cons {offset stop : Nat} {s : Span} {ss : List Span} :
      s.start = offset → s.start < s.stop → Laid s.stop ss stop → Laid offset (s :: ss) stop

namespace Laid

theorem isChain {a b : Nat} {es : List Element} (h : Laid a (es.map Element.span) b) :
    es.IsChain fun e e' => e.span.stop = e'.span.start := by
  induction es generalizing a with
  | nil => exact .nil
  | cons e es ih =>
    cases h with
    | cons _ _ hrest =>
      cases es with
      | nil => exact .singleton e
      | cons e' es =>
        have hchain := ih hrest
        cases hrest with
        | cons hstart _ _ => exact .cons_cons hstart.symm hchain

/-- Spans that lie end to end behind a span extend the cover to their end. -/
theorem foldl_cover {s : Span} {ss : List Span} {b : Nat} (h : Laid s.stop ss b) :
    (ss.foldl Span.cover s).start = s.start ∧ (ss.foldl Span.cover s).stop = b := by
  generalize ha : s.stop = a at h
  induction h generalizing s with
  | nil => exact ⟨rfl, ha⟩
  | @cons _ _ t ss hstart hlt _ ih =>
    have hle := s.start_le_stop
    have hcover := ih (s := s.cover t) (by simp only [Span.cover]; omega)
    refine ⟨hcover.1.trans ?_, hcover.2⟩
    simp only [Span.cover]
    omega

/-- The cover of spans that lie end to end runs from the first offset to the last. -/
theorem coverAll {a b : Nat} {ss : List Span} (h : Laid a ss b) (hne : ss ≠ []) :
    (Span.coverAll ss).start = a ∧ (Span.coverAll ss).stop = b := by
  cases h with
  | nil => exact absurd rfl hne
  | cons hstart _ hrest =>
    obtain ⟨hcover, hstop⟩ := foldl_cover hrest
    exact ⟨hcover.trans hstart, hstop⟩

theorem lt {a b : Nat} {ss : List Span} (h : Laid a ss b) (hne : ss ≠ []) : a < b := by
  induction h with
  | nil => exact absurd rfl hne
  | @cons _ _ s ss hstart hlt hrest ih =>
    cases hrest with
    | nil => omega
    | cons h1 h2 h3 => exact Nat.lt_trans (by omega) (ih (List.cons_ne_nil _ _))

theorem head_start {a b : Nat} {s : Span} {ss : List Span} (h : Laid a (s :: ss) b) :
    s.start = a := by
  cases h with
  | cons hstart _ _ => exact hstart

theorem last_stop {a b : Nat} {s : Span} {ss : List Span} (h : Laid a (ss ++ [s]) b) :
    s.stop = b := by
  induction ss generalizing a with
  | nil =>
    cases h with
    | cons _ _ hrest =>
      cases hrest
      rfl
  | cons t ts ih =>
    cases h with
    | cons _ _ hrest => exact ih hrest

end Laid

/-! ## §B Trees as lists of nodes and tokens -/

namespace Element

mutual

theorem tokens_eq : ∀ e : Element, e.tokens = e.leaves.map Prod.snd
  | token _ _ => rfl
  | node _ _ _ children => tokensOf_eq children

theorem tokensOf_eq : ∀ es : List Element, tokensOf es = (leavesOf es).map Prod.snd
  | [] => rfl
  | e :: es => by rw [tokensOf, leavesOf, List.map_append, tokens_eq e, tokensOf_eq es]

end

mutual

/-- The entries of an element are its openings, each with the number of the node around it. -/
theorem ids_entries (parent : Option Nat) (start : Nat) (around : List (Nat × NodeKind)) :
    ∀ e : Element, (e.entries parent).map (·.node.id) = (e.trace start around).map (·.id)
  | token _ _ => rfl
  | node id kind _ children => by
    rw [entries, trace, List.map_cons, List.map_cons, ids_entriesOf (some id) start _ children]

theorem ids_entriesOf (parent : Option Nat) (start : Nat) (around : List (Nat × NodeKind)) :
    ∀ es : List Element,
      (entriesOf parent es).map (·.node.id) = (traceOf start around es).map (·.id)
  | [] => rfl
  | e :: es => by
    rw [entriesOf, traceOf, List.map_append, List.map_append, ids_entries parent start around e,
      ids_entriesOf parent _ around es]

end

/-- A child that is a node stands among the entries of the children. -/
theorem mem_entriesOf_of_mem {n : Node} {es : List Element} (parent : Option Nat)
    (h : n ∈ es.filterMap node?) : ⟨parent, n⟩ ∈ entriesOf parent es := by
  obtain ⟨e, he, hn⟩ := List.mem_filterMap.mp h
  obtain ⟨a, b, rfl⟩ := List.append_of_mem he
  clear h he
  induction a with
  | nil =>
    cases e with
    | token i t => simp [node?] at hn
    | node id kind span children =>
      obtain rfl := Option.some.inj hn
      simp [entriesOf, entries]
  | cons x a ih =>
    rw [List.cons_append, entriesOf]
    exact List.mem_append_right _ ih

/-- The numbers of the children come in the order of the entries. -/
theorem sublist_entriesOf (parent : Option Nat) (es : List Element) :
    List.Sublist ((es.filterMap node?).map (·.id)) ((entriesOf parent es).map (·.node.id)) := by
  induction es with
  | nil => exact List.Sublist.refl _
  | cons e es ih =>
    rw [entriesOf, List.map_append]
    cases e with
    | token i t => exact ih
    | node id kind span children =>
      refine List.Sublist.cons_cons id ?_
      exact ih.trans (List.sublist_append_right _ _)

mutual

/-- The nodes below a node are a stretch of all nodes, behind the node itself. -/
theorem entries_split (parent : Option Nat) {x : Entry} :
    ∀ e : Element, x ∈ e.entries parent →
      ∃ a b, e.entries parent = a ++ (x.node.toElement.entries x.parent ++ b)
  | token _ _, h => by simp [entries] at h
  | node id kind span children, h => by
    rcases List.mem_cons.mp h with rfl | h
    · exact ⟨[], [], (List.append_nil _).symm⟩
    · obtain ⟨a, b, hab⟩ := entriesOf_split (some id) children h
      exact ⟨_ :: a, b, by rw [entries, hab]; rfl⟩

theorem entriesOf_split (parent : Option Nat) {x : Entry} :
    ∀ es : List Element, x ∈ entriesOf parent es →
      ∃ a b, entriesOf parent es = a ++ (x.node.toElement.entries x.parent ++ b)
  | [], h => by simp [entriesOf] at h
  | e :: es, h => by
    rw [entriesOf] at h ⊢
    rcases List.mem_append.mp h with h | h
    · obtain ⟨a, b, hab⟩ := entries_split parent e h
      exact ⟨a, b ++ entriesOf parent es, by rw [hab]; simp⟩
    · obtain ⟨a, b, hab⟩ := entriesOf_split parent es h
      exact ⟨entries parent e ++ a, b, by rw [hab]; simp⟩

end

mutual

/-- The leaves below a node are a stretch of all leaves. -/
theorem leaves_split (parent : Option Nat) {x : Entry} :
    ∀ e : Element, x ∈ e.entries parent → ∃ a b, e.leaves = a ++ (leavesOf x.node.children ++ b)
  | token _ _, h => by simp [entries] at h
  | node id kind span children, h => by
    rcases List.mem_cons.mp h with rfl | h
    · exact ⟨[], [], (List.append_nil _).symm⟩
    · exact leavesOf_split (some id) children h

theorem leavesOf_split (parent : Option Nat) {x : Entry} :
    ∀ es : List Element, x ∈ entriesOf parent es →
      ∃ a b, leavesOf es = a ++ (leavesOf x.node.children ++ b)
  | [], h => by simp [entriesOf] at h
  | e :: es, h => by
    rw [entriesOf] at h
    rw [leavesOf]
    rcases List.mem_append.mp h with h | h
    · obtain ⟨a, b, hab⟩ := leaves_split parent e h
      exact ⟨a, b ++ leavesOf es, by rw [hab]; simp⟩
    · obtain ⟨a, b, hab⟩ := leavesOf_split parent es h
      exact ⟨e.leaves ++ a, b, by rw [hab]; simp⟩

end

theorem tokensOf_split (parent : Option Nat) {x : Entry} (es : List Element)
    (h : x ∈ entriesOf parent es) : ∃ a b, tokensOf es = a ++ (x.node.toElement.tokens ++ b) := by
  obtain ⟨a, b, hab⟩ := leavesOf_split parent es h
  refine ⟨a.map Prod.snd, b.map Prod.snd, ?_⟩
  show tokensOf es = _ ++ (tokensOf x.node.children ++ _)
  rw [tokensOf_eq, tokensOf_eq, hab, List.map_append, List.map_append]

mutual

/-- An entry is the element itself, or it names the node in whose children it stands. -/
theorem exists_parent (parent : Option Nat) {x : Entry} :
    ∀ e : Element, x ∈ e.entries parent →
      x.parent = parent ∧ e.node? = some x.node ∨
        ∃ y ∈ e.entries parent, x.parent = some y.node.id ∧ x.node ∈ y.node.childNodes
  | token _ _, h => by simp [entries] at h
  | node id kind span children, h => by
    rcases List.mem_cons.mp h with rfl | h
    · exact Or.inl ⟨rfl, rfl⟩
    · refine Or.inr ?_
      rcases exists_parentOf (some id) children h with ⟨hparent, hnode⟩ | ⟨y, hy, hparent, hnode⟩
      · exact ⟨⟨parent, ⟨id, kind, span, children⟩⟩, List.mem_cons_self, hparent, hnode⟩
      · exact ⟨y, List.mem_cons_of_mem _ hy, hparent, hnode⟩

theorem exists_parentOf (parent : Option Nat) {x : Entry} :
    ∀ es : List Element, x ∈ entriesOf parent es →
      x.parent = parent ∧ x.node ∈ es.filterMap node? ∨
        ∃ y ∈ entriesOf parent es, x.parent = some y.node.id ∧ x.node ∈ y.node.childNodes
  | [], h => by simp [entriesOf] at h
  | e :: es, h => by
    rw [entriesOf] at h ⊢
    rcases List.mem_append.mp h with h | h
    · rcases exists_parent parent e h with ⟨hparent, hnode⟩ | ⟨y, hy, hrest⟩
      · exact Or.inl ⟨hparent, List.mem_filterMap.mpr ⟨e, List.mem_cons_self, hnode⟩⟩
      · exact Or.inr ⟨y, List.mem_append_left _ hy, hrest⟩
    · rcases exists_parentOf parent es h with ⟨hparent, hnode⟩ | ⟨y, hy, hrest⟩
      · refine Or.inl ⟨hparent, ?_⟩
        obtain ⟨e', he', hn⟩ := List.mem_filterMap.mp hnode
        exact List.mem_filterMap.mpr ⟨e', List.mem_cons_of_mem _ he', hn⟩
      · exact Or.inr ⟨y, List.mem_append_right _ hy, hrest⟩

end

mutual

theorem solid_of_mem (parent : Option Nat) {x : Entry} :
    ∀ e : Element, e.Solid → x ∈ e.entries parent → x.node.toElement.Solid
  | token _ _, _, h => by simp [entries] at h
  | node id kind span children, hsolid, h => by
    rcases List.mem_cons.mp h with rfl | hbelow
    · exact hsolid
    · cases hsolid with
      | node _ hchildren => exact solid_of_memOf (some id) children hchildren hbelow

theorem solid_of_memOf (parent : Option Nat) {x : Entry} :
    ∀ es : List Element, (∀ e ∈ es, e.Solid) → x ∈ entriesOf parent es → x.node.toElement.Solid
  | [], _, h => by simp [entriesOf] at h
  | e :: es, hsolid, h => by
    rw [entriesOf] at h
    rcases List.mem_append.mp h with h | h
    · exact solid_of_mem parent e (hsolid e List.mem_cons_self) h
    · exact solid_of_memOf parent es (fun e' he' => hsolid e' (List.mem_cons_of_mem e he')) h

end

/-! ## §C Spans of solid elements -/

/-- **`e.Fits`** — wherever the tokens of the element lie end to end, its span reaches over exactly
them. -/
def Fits (e : Element) : Prop :=
  ∀ offset, Tiles offset e.tokens →
    e.span.start = offset ∧ e.span.stop = offset + byteLength (textOfTokens e.tokens) ∧
      e.span.start < e.span.stop

theorem laid_of_fits {es : List Element} (h : ∀ e ∈ es, e.Fits) {offset : Nat}
    (ht : Tiles offset (tokensOf es)) :
    Laid offset (es.map span) (offset + byteLength (textOfTokens (tokensOf es))) := by
  induction es generalizing offset with
  | nil => exact .nil
  | cons e es ih =>
    rw [tokensOf] at ht ⊢
    obtain ⟨hhead, htail⟩ := ht.split
    obtain ⟨hstart, hstop, hlt⟩ := h e List.mem_cons_self offset hhead
    have hrest := ih (fun e' he' => h e' (List.mem_cons_of_mem e he')) htail
    refine .cons hstart hlt ?_
    rw [hstop]
    have hjoin : textOfTokens (e.tokens ++ tokensOf es) =
        textOfTokens e.tokens ++ textOfTokens (tokensOf es) := List.flatMap_append
    rw [hjoin, Text.byteLength_append, ← Nat.add_assoc]
    exact hrest

theorem fits_of_solid {e : Element} (h : e.Solid) : e.Fits := by
  induction h with
  | token i t =>
    intro offset ht
    cases ht with
    | cons hstart hstop hne _ =>
      have hpos := Text.byteLength_pos hne
      have hone : textOfTokens (token i t).tokens = t.text.toList := by
        simp [textOfTokens, tokens]
      rw [hone]
      refine ⟨hstart, hstop, ?_⟩
      show t.span.start < t.span.stop
      omega
  | @node id kind children hne _ ih =>
    intro offset ht
    have hlaid := laid_of_fits ih ht
    have hspans : children.map span ≠ [] := by simpa using hne
    obtain ⟨hstart, hstop⟩ := hlaid.coverAll hspans
    have hlt := hlaid.lt hspans
    refine ⟨hstart, hstop, ?_⟩
    show (Span.coverAll _).start < (Span.coverAll _).stop
    rw [hstart, hstop]
    exact hlt

end Element

/-! ## §D Outlines of a source -/

namespace Outline

/-- The numbers of the children of a node that are nodes. -/
def childIds (o : Outline) (id : Nat) : List Nat :=
  ((o.children id).filterMap Element.node?).map (·.id)

/-- **`o.Covers source`** — the outline is one of the source: it holds the source with its tokens,
and they are the leaves of its tree. -/
structure Covers (source : String) (o : Outline) : Prop where
  source_eq : o.source = source
  tokens_eq : o.tokens = tokenize source
  /-- Each token stands in one leaf, under its own number. -/
  numbered_leaves : o.root.leaves = numbered (tokenize source)

/-! ## §E Looking up nodes -/

/-- In a list whose members are numbered in order, a member is found under its number. -/
theorem find?_eq_getElem? {l : List Entry} {start : Nat}
    (h : l.map (·.node.id) = List.range' start l.length) (i : Nat) :
    l.find? (·.node.id == start + i) = l[i]? := by
  induction l generalizing start i with
  | nil => rfl
  | cons x l ih =>
    rw [List.map_cons, List.length_cons, List.range'_succ] at h
    obtain ⟨hx, hl⟩ := List.cons.inj h
    cases i with
    | zero => simp [hx]
    | succ i =>
      have hne : (x.node.id == start + (i + 1)) = false := by simp [hx]
      rw [List.find?_cons_of_neg (by simp [hne]), List.getElem?_cons_succ, ← ih hl i]
      congr 2
      funext y
      rw [show start + 1 + i = start + (i + 1) by omega]

section Numbered

variable {o : Outline}

/-- A node and the nodes below it are a stretch of the entries. -/
theorem sublist_of_mem {x : Entry} (hx : x ∈ o.entries) :
    List.Sublist (x.node.toElement.entries x.parent) o.entries := by
  obtain ⟨a, b, hab⟩ := Element.entries_split none o.root hx
  rw [entries, hab]
  exact (List.sublist_append_left _ b).trans (List.sublist_append_right a _)

theorem mem_of_mem_childNodes {x : Entry} (hx : x ∈ o.entries) {n : Node}
    (hn : n ∈ x.node.childNodes) : (⟨some x.node.id, n⟩ : Entry) ∈ o.entries :=
  (sublist_of_mem hx).subset (List.mem_cons_of_mem _ (Element.mem_entriesOf_of_mem _ hn))

variable (hids : o.entries.map (·.node.id) = List.range o.entries.length)

include hids

theorem entry?_eq (id : Nat) : o.entry? id = o.entries[id]? := by
  rw [List.range_eq_range'] at hids
  simpa [ entry?] using find?_eq_getElem? hids id

theorem getElem?_of_mem {x : Entry} (hx : x ∈ o.entries) : o.entries[x.node.id]? = some x := by
  obtain ⟨i, hi⟩ := List.mem_iff_getElem?.mp hx
  have hid : (o.entries.map (·.node.id))[i]? = some x.node.id := by
    rw [List.getElem?_map, hi]
    rfl
  rw [hids] at hid
  obtain ⟨hlt, heq⟩ := List.getElem?_eq_some_iff.mp hid
  rw [List.getElem_range] at heq
  rwa [← heq]

/-- The nodes are exactly what is found under their numbers. -/
theorem entry?_eq_some_iff {id : Nat} {x : Entry} :
    o.entry? id = some x ↔ x ∈ o.entries ∧ x.node.id = id := by
  constructor
  · intro h
    refine ⟨List.mem_of_find?_eq_some h, ?_⟩
    simpa using List.find?_some h
  · rintro ⟨hx, rfl⟩
    rw [entry?_eq hids]
    exact getElem?_of_mem hids hx

theorem node?_eq_some_iff {id : Nat} {n : Node} :
    o.node? id = some n ↔ (∃ parent, (⟨parent, n⟩ : Entry) ∈ o.entries) ∧ n.id = id := by
  rw [node?, Option.map_eq_some_iff]
  constructor
  · rintro ⟨⟨parent, n'⟩, h, rfl⟩
    obtain ⟨hmem, hid⟩ := (entry?_eq_some_iff hids).mp h
    exact ⟨⟨parent, hmem⟩, hid⟩
  · rintro ⟨⟨parent, hmem⟩, hid⟩
    exact ⟨_, (entry?_eq_some_iff hids).mpr ⟨hmem, hid⟩, rfl⟩

theorem parent?_eq_some_iff {c p : Nat} :
    o.parent? c = some p ↔ ∃ n, (⟨some p, n⟩ : Entry) ∈ o.entries ∧ n.id = c := by
  rw [parent?, Option.bind_eq_some_iff]
  constructor
  · rintro ⟨⟨parent, n⟩, h, rfl⟩
    exact ⟨n, (entry?_eq_some_iff hids).mp h⟩
  · rintro ⟨n, h⟩
    exact ⟨_, (entry?_eq_some_iff hids).mpr h, rfl⟩

theorem children_of_mem {x : Entry} (hx : x ∈ o.entries) :
    o.children x.node.id = x.node.children := by
  rw [children, (node?_eq_some_iff hids).mpr ⟨⟨x.parent, hx⟩, rfl⟩]
  rfl

theorem span_of_mem {x : Entry} (hx : x ∈ o.entries) : o.span x.node.id = x.node.span := by
  rw [span, (node?_eq_some_iff hids).mpr ⟨⟨x.parent, hx⟩, rfl⟩]
  rfl

/-- The children of a number are those of a node, or there are none. -/
theorem children_cases (id : Nat) :
    (∃ x ∈ o.entries, x.node.id = id ∧ o.children id = x.node.children) ∨ o.children id = [] := by
  cases h : o.node? id with
  | none => exact Or.inr (by rw [children, h]; rfl)
  | some n =>
    obtain ⟨⟨parent, hmem⟩, hid⟩ := (node?_eq_some_iff hids).mp h
    exact Or.inl ⟨_, hmem, hid, by rw [children, h]; rfl⟩

/-- Numbers increase along the entries. -/
theorem pairwise_ids : (o.entries.map (·.node.id)).Pairwise (· < ·) := by
  rw [hids]
  exact List.pairwise_lt_range

/-- What stands below a node has a larger number. -/
theorem id_lt_of_mem_below {x y : Entry} (hx : x ∈ o.entries)
    (hy : y ∈ Element.entriesOf (some x.node.id) x.node.children) : x.node.id < y.node.id := by
  have hbelow := (pairwise_ids hids).sublist ((sublist_of_mem hx).map (·.node.id))
  exact (List.pairwise_cons.mp hbelow).1 y.node.id (List.mem_map_of_mem hy)

theorem mem_childIds_iff (p c : Nat) : c ∈ o.childIds p ↔ o.parent? c = some p := by
  rw [parent?_eq_some_iff hids]
  constructor
  · intro h
    rcases children_cases hids p with ⟨x, hx, rfl, hchildren⟩ | hchildren
    · rw [childIds, hchildren] at h
      obtain ⟨n, hn, rfl⟩ := List.mem_map.mp h
      exact ⟨n, mem_of_mem_childNodes hx hn, rfl⟩
    · rw [childIds, hchildren] at h
      simp at h
  · rintro ⟨n, hn, rfl⟩
    rcases Element.exists_parent none o.root hn with ⟨hparent, -⟩ | ⟨y, hy, hparent, hmem⟩
    · simp at hparent
    · obtain rfl := Option.some.inj hparent
      rw [childIds, children_of_mem hids hy]
      exact List.mem_map_of_mem hmem

theorem nodup_childIds_of_ids (p : Nat) : (o.childIds p).Nodup := by
  rcases children_cases hids p with ⟨x, hx, rfl, hchildren⟩ | hchildren
  · have hnodup : (o.entries.map (·.node.id)).Nodup := by
      rw [hids]
      exact List.nodup_range
    have hbelow := ((sublist_of_mem hx).map (·.node.id)).nodup hnodup
    rw [childIds, hchildren]
    exact (Element.sublist_entriesOf (some x.node.id) _).nodup (List.nodup_cons.mp hbelow).2
  · rw [childIds, hchildren]
    exact List.nodup_nil

theorem parent_lt_of_ids {c p : Nat} (h : o.parent? c = some p) : p < c := by
  obtain ⟨n, hn, rfl⟩ := (parent?_eq_some_iff hids).mp h
  rcases Element.exists_parent none o.root hn with ⟨hparent, -⟩ | ⟨y, hy, hparent, hmem⟩
  · simp at hparent
  · obtain rfl := Option.some.inj hparent
    exact id_lt_of_mem_below hids hy (Element.mem_entriesOf_of_mem (some y.node.id) hmem)

end Numbered

/-! ## §F The outline of a source -/

/-- Every node that the builder opens is in the tree. -/
theorem length_entries (source : String) :
    (parse source).entries.length = ((tokenize source).foldl Builder.step {}).nextId := by
  have hreads : ((tokenize source).foldl Builder.step {}).Reads (tokenize source) :=
    Builder.reads_foldl Builder.reads_nil (tokenize source)
  obtain ⟨-, -, -, -, htrace⟩ := Builder.finish_of_reads hreads (Text.byteSize source)
  have hids := congrArg List.length (Element.ids_entries none 0 [] (parse source).root)
  have hopened := congrArg List.length hreads.ids_eq
  rw [List.length_map, List.length_map] at hids
  rw [List.length_map, List.length_range] at hopened
  rw [entries, hids, ← hopened, ← htrace]
  rfl

/-- The tree of a source: the root with solid children, over the numbered tokens, with its nodes
numbered in document order. -/
theorem parse_spec (source : String) :
    ∃ children, (parse source).root =
        .node 0 .file (Span.coverAll (children.map Element.span)) children ∧
      (∀ e ∈ children, e.Solid) ∧ (parse source).root.leaves = numbered (tokenize source) ∧
      (parse source).entries.map (·.node.id) = List.range (parse source).entries.length := by
  have hreads : ((tokenize source).foldl Builder.step {}).Reads (tokenize source) :=
    Builder.reads_foldl Builder.reads_nil (tokenize source)
  obtain ⟨children, hroot, hsolid, hleaves, htrace⟩ :=
    Builder.finish_of_reads hreads (Text.byteSize source)
  refine ⟨children, hroot, hsolid, hleaves, ?_⟩
  rw [length_entries, ← hreads.ids_eq, ← htrace]
  exact Element.ids_entries none 0 [] _

theorem parse_covers (source : String) : (parse source).Covers source where
  source_eq := rfl
  tokens_eq := rfl
  numbered_leaves := by
    obtain ⟨-, -, -, hleaves, -⟩ := parse_spec source
    exact hleaves

theorem ids_parse (source : String) :
    (parse source).entries.map (·.node.id) = List.range (parse source).entries.length := by
  obtain ⟨-, -, -, -, hids⟩ := parse_spec source
  exact hids

theorem tokens_root (source : String) : (parse source).root.tokens = tokenize source := by
  obtain ⟨children, -, -, hleaves, -⟩ := parse_spec source
  rw [Element.tokens_eq, hleaves, map_snd_numbered]

/-- A node is solid, or it is the root over solid children. -/
theorem solid_cases {source : String} {x : Entry} (hx : x ∈ (parse source).entries) :
    x.node.toElement.Solid ∨ x.parent = none ∧ ∀ e ∈ x.node.children, e.Solid := by
  obtain ⟨children, hroot, hsolid, -, -⟩ := parse_spec source
  rw [entries, hroot] at hx
  rcases List.mem_cons.mp hx with rfl | hbelow
  · exact Or.inr ⟨rfl, hsolid⟩
  · exact Or.inl (Element.solid_of_memOf (some 0) children hsolid hbelow)

/-- Where a node of an outline lies: its tokens are a stretch of the source, its children lie end to
end over them, and its span covers them. -/
theorem placed_of_mem {source : String} {x : Entry} (hx : x ∈ (parse source).entries) :
    ∃ a b, tokenize source = a ++ (x.node.toElement.tokens ++ b) ∧
      Laid (byteLength (textOfTokens a)) (x.node.children.map Element.span)
        (byteLength (textOfTokens a) + byteLength (textOfTokens x.node.toElement.tokens)) ∧
      x.node.span = Span.coverAll (x.node.children.map Element.span) ∧
      (x.node.children = [] → x.node.id = 0 ∧ a = []) := by
  obtain ⟨children, hroot, hsolid, -, -⟩ := parse_spec source
  have htiles := tiles_tokenize source
  rw [entries, hroot] at hx
  rcases List.mem_cons.mp hx with rfl | hbelow
  · refine ⟨[], [], ?_, ?_, rfl, fun _ => ⟨rfl, rfl⟩⟩
    · rw [← tokens_root source, hroot, List.append_nil]
      rfl
    · rw [← tokens_root source, hroot] at htiles
      have hlaid := Element.laid_of_fits (fun e he => Element.fits_of_solid (hsolid e he)) htiles
      exact hlaid
  · have hnode := Element.solid_of_memOf (some 0) children hsolid hbelow
    obtain ⟨a, b, hab⟩ := Element.tokensOf_split (some 0) children hbelow
    have htokens : tokenize source = a ++ (x.node.toElement.tokens ++ b) := by
      rw [← tokens_root source, hroot]
      exact hab
    obtain ⟨parent, id, kind, span, below⟩ := x
    change Element.Solid (.node id kind span below) at hnode
    rw [htokens] at htiles
    have hstretch := htiles.split.2.split.1
    rw [Nat.zero_add] at hstretch
    cases hnode with
    | node hne hsolid =>
      exact ⟨a, b, htokens,
        Element.laid_of_fits (fun e he => Element.fits_of_solid (hsolid e he)) hstretch, rfl,
        fun hnil => absurd hnil hne⟩

/-- The text of a node is the stretch of the source that its tokens make up. -/
theorem slice_of_placed {source : String} {a b ts : List Token} {n : Node}
    (htokens : tokenize source = a ++ (ts ++ b))
    (hstart : n.span.start = byteLength (textOfTokens a))
    (hstop : n.span.stop = byteLength (textOfTokens a) + byteLength (textOfTokens ts)) :
    Text.slice n.span.start n.span.stop source.toList = textOfTokens ts := by
  have htext : source.toList = textOfTokens a ++ (textOfTokens ts ++ textOfTokens b) := by
    rw [← textOfTokens_tokenize source, htokens]
    simp [textOfTokens, List.flatMap_append]
  rw [htext, hstart, hstop, Text.slice_byteLength]

/-- The span of a node covers its tokens, and it is empty only when the node is the root. -/
theorem span_of_placed {source : String} {x : Entry} (hx : x ∈ (parse source).entries) :
    ∃ a b, tokenize source = a ++ (x.node.toElement.tokens ++ b) ∧
      x.node.span.start = byteLength (textOfTokens a) ∧
      x.node.span.stop =
        byteLength (textOfTokens a) + byteLength (textOfTokens x.node.toElement.tokens) := by
  obtain ⟨a, b, htokens, hlaid, hspan, hroot⟩ := placed_of_mem hx
  refine ⟨a, b, htokens, ?_⟩
  rw [hspan]
  by_cases hnil : x.node.children = []
  · obtain ⟨-, rfl⟩ := hroot hnil
    have hempty : x.node.toElement.tokens = [] := by
      show Element.tokensOf x.node.children = []
      rw [hnil]
      rfl
    rw [hnil, hempty]
    exact ⟨rfl, rfl⟩
  · exact hlaid.coverAll (by simpa using hnil)

theorem exists_entry {source : String} {id : Nat} (h : id < (parse source).entries.length) :
    ∃ x ∈ (parse source).entries, x.node.id = id := by
  have hids := ids_parse source
  have hsome : entry? (parse source) id = some ((parse source).entries.get ⟨id, h⟩) := by
    rw [entry?_eq hids, List.getElem?_eq_getElem h]
    rfl
  exact ⟨_, (entry?_eq_some_iff hids).mp hsome⟩

/-- The nodes directly below a node are the entries that name it, in document order. -/
theorem childNodes_eq {source : String} {x : Entry} (hx : x ∈ (parse source).entries) :
    x.node.childNodes =
      ((parse source).entries.filter (·.parent = some x.node.id)).map (·.node) := by
  have hids := ids_parse source
  have hincreasing := pairwise_ids hids
  have hlook : ∀ y ∈ (parse source).entries, (parse source).node? y.node.id = some y.node :=
    fun y hy => (node?_eq_some_iff hids).mpr ⟨⟨y.parent, hy⟩, rfl⟩
  -- Both sides are the nodes of their numbers, and the numbers increase and are the same.
  have hnumbers : x.node.childNodes.map (·.id) =
      ((parse source).entries.filter (·.parent = some x.node.id)).map (·.node.id) := by
    refine List.Pairwise.eq_of_mem_iff (r := (· < ·)) ?_ ?_ ?_
    · refine List.Pairwise.sublist ?_ hincreasing
      refine (Element.sublist_entriesOf (some x.node.id) x.node.children).trans ?_
      have hbelow := (sublist_of_mem hx).map (·.node.id)
      exact (List.sublist_cons_self x.node.id _).trans hbelow
    · exact hincreasing.sublist (List.Sublist.map _ List.filter_sublist)
    · intro id
      have hchild := mem_childIds_iff hids x.node.id id
      rw [childIds, children_of_mem hids hx, parent?_eq_some_iff hids] at hchild
      refine hchild.trans ?_
      rw [List.mem_map]
      constructor
      · rintro ⟨n, hn, rfl⟩
        exact ⟨_, List.mem_filter.mpr ⟨hn, by simp⟩, rfl⟩
      · rintro ⟨y, hy, rfl⟩
        obtain ⟨hmem, hparent⟩ := List.mem_filter.mp hy
        exact ⟨y.node, by rwa [← of_decide_eq_true hparent], rfl⟩
  refine List.map_injective_iff.mpr (Option.some_injective Node) ?_
  have hleft : x.node.childNodes.map some =
      (x.node.childNodes.map (·.id)).map (parse source).node? := by
    rw [List.map_map]
    refine List.map_congr_left ?_
    intro n hn
    rw [Function.comp_apply, hlook _ (mem_of_mem_childNodes hx hn)]
  rw [hleft, hnumbers, List.map_map, List.map_map]
  refine List.map_congr_left ?_
  intro y hy
  rw [Function.comp_apply, Function.comp_apply, hlook y (List.mem_filter.mp hy).1]

/-- The root is the node that stands in no other. -/
theorem parent_of_mem {source : String} {x : Entry} (hx : x ∈ (parse source).entries) :
    x.parent = none ↔ x.node.id = 0 := by
  obtain ⟨children, hroot, -, -, hids⟩ := parse_spec source
  rcases Element.exists_parent none _ hx with ⟨hparent, hnode⟩ | ⟨y, hy, hparent, hmem⟩
  · rw [hroot] at hnode
    obtain hnode := Option.some.inj hnode
    rw [hparent, ← hnode]
    simp
  · have hlt : y.node.id < x.node.id := by
      refine parent_lt_of_ids hids ((parent?_eq_some_iff hids).mpr ⟨x.node, ?_, rfl⟩)
      rw [← hparent]
      exact hx
    rw [hparent]
    refine ⟨fun h => absurd h (by simp), fun h => ?_⟩
    omega

/-- The children of a node lie end to end, from where it begins to where it ends. -/
theorem laid_children (source : String) (id : Nat) :
    (parse source).children id = [] ∨
      Laid ((parse source).span id).start (((parse source).children id).map Element.span)
        ((parse source).span id).stop := by
  have hids := ids_parse source
  rcases children_cases hids id with ⟨x, hx, rfl, hchildren⟩ | hchildren
  · by_cases hnil : x.node.children = []
    · exact Or.inl (hchildren.trans hnil)
    · refine Or.inr ?_
      obtain ⟨a, b, -, hlaid, hspan, -⟩ := placed_of_mem hx
      obtain ⟨hstart, hstop⟩ := hlaid.coverAll (by simpa using hnil)
      rw [hchildren, span_of_mem hids hx, hspan, hstart, hstop]
      exact hlaid
  · exact Or.inl hchildren

/-- The first entry is the root, and it stands in no other node. -/
theorem exists_root (source : String) :
    ∃ x ∈ (parse source).entries, x.parent = none ∧ x.node.id = 0 ∧ x.node.kind = .file ∧
      x.node.toElement = (parse source).root := by
  obtain ⟨children, hroot, -⟩ := parse_spec source
  refine ⟨⟨none, 0, .file, Span.coverAll (children.map Element.span), children⟩, ?_, rfl, rfl, rfl,
    hroot.symm⟩
  rw [entries, hroot]
  exact List.mem_cons_self

/-- The root covers the whole source. -/
theorem span_zero (source : String) :
    ((parse source).span 0).start = 0 ∧
      ((parse source).span 0).stop = byteLength source.toList := by
  obtain ⟨x, hx, -, hid, -, helement⟩ := exists_root source
  obtain ⟨a, b, htokens, hstart, hstop⟩ := span_of_placed hx
  -- All tokens lie below the root, so none is left before it.
  rw [helement, tokens_root] at htokens hstop
  have hnil : a = [] := by
    have hcount := congrArg List.length htokens
    rw [List.length_append, List.length_append] at hcount
    exact List.length_eq_zero_iff.mp (by omega)
  subst hnil
  rw [textOfTokens_tokenize] at hstop
  have hspan := span_of_mem (ids_parse source) hx
  rw [hid] at hspan
  rw [hspan]
  exact ⟨hstart, hstop.trans (Nat.zero_add _)⟩

/-- A node other than the root has children. -/
theorem children_ne_nil {source : String} {x : Entry} (hx : x ∈ (parse source).entries)
    (hpos : 0 < x.node.id) : (parse source).children x.node.id ≠ [] := by
  obtain ⟨a, b, -, -, -, honly⟩ := placed_of_mem hx
  rw [children_of_mem (ids_parse source) hx]
  intro hnil
  have hzero := (honly hnil).1
  omega

end Outline

end FeatureFile

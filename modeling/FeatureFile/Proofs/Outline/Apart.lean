/-
# FeatureFile.Proofs.Outline.Apart — nodes lie inside one another or apart

Of two nodes of an outline the one with the larger number lies inside the other, or it begins where
the other has ended already: `Outline.holds_or_behind`. So a place in the source is enough to tell
how two nodes stand to each other, and every token is a child of one node whose span it lies in
(`Outline.exists_holder`).

The list of all nodes carries the argument. A node is followed by those below it, which are a stretch
of the list, and what stands behind this stretch begins behind the node (`Element.pairwise_apart`).
-/

import FeatureFile.Proofs.Outline.StepTree

namespace FeatureFile

open Text (byteLength)

/-! ## §A Inside a node -/

namespace Entry

/-- **`x.Holds y`** — the node of `y` is the node of `x` or lies below it. -/
def Holds (x y : Entry) : Prop := y ∈ x.node.toElement.entries x.parent

/-- **`x.Apart y`** — `y` lies inside `x`, or it begins where `x` has ended. -/
def Apart (x y : Entry) : Prop := x.Holds y ∨ x.node.span.stop ≤ y.node.span.start

end Entry

namespace Element

/-- Where a node lies whose tokens are a stretch of tokens that lie end to end. -/
theorem Solid.place {n : Node} (h : n.toElement.Solid) {offset : Nat} {a b : List Token}
    (ht : Tiles offset (a ++ (n.toElement.tokens ++ b))) :
    n.span.start = offset + byteLength (textOfTokens a) ∧
      n.span.stop = n.span.start + byteLength (textOfTokens n.toElement.tokens) ∧
      n.span.start < n.span.stop := by
  obtain ⟨hstart, hstop, hlt⟩ := fits_of_solid h _ ht.split.2.split.1
  exact ⟨hstart, by rw [show n.span.start = _ from hstart]; exact hstop, hlt⟩

/-- The nodes of solid elements begin and end where the elements do at the earliest and the
latest. -/
theorem bounds_of_mem (parent : Option Nat) {es : List Element} (h : ∀ e ∈ es, e.Solid)
    {offset : Nat} (ht : Tiles offset (tokensOf es)) {x : Entry} (hx : x ∈ entriesOf parent es) :
    offset ≤ x.node.span.start ∧
      x.node.span.stop ≤ offset + byteLength (textOfTokens (tokensOf es)) := by
  obtain ⟨a, b, hab⟩ := tokensOf_split parent es hx
  rw [hab] at ht ⊢
  obtain ⟨hstart, hstop, -⟩ := (solid_of_memOf parent es h hx).place ht
  simp only [textOfTokens, List.flatMap_append, Text.byteLength_append] at hstart hstop ⊢
  omega

mutual

/-- In the list of all nodes each node is followed by those inside it, and these by the nodes behind
it. -/
theorem pairwise_apart (parent : Option Nat) {offset : Nat} :
    ∀ e : Element, e.Solid → Tiles offset e.tokens → (e.entries parent).Pairwise Entry.Apart
  | token _ _, _, _ => .nil
  | node id kind span children, h, ht => by
    cases h with
    | node _ hchildren =>
      refine List.pairwise_cons.mpr ⟨?_, pairwise_apartOf (some id) children hchildren ht⟩
      exact fun y hy => Or.inl (List.mem_cons_of_mem _ hy)

theorem pairwise_apartOf (parent : Option Nat) {offset : Nat} :
    ∀ es : List Element, (∀ e ∈ es, e.Solid) → Tiles offset (tokensOf es) →
      (entriesOf parent es).Pairwise Entry.Apart
  | [], _, _ => .nil
  | e :: es, h, ht => by
    obtain ⟨he, hes⟩ := List.forall_mem_cons.mp h
    have hone : ∀ x ∈ [e], x.Solid := List.forall_mem_singleton.mpr he
    have hsingle : tokensOf [e] = e.tokens := List.append_nil _
    rw [tokensOf] at ht
    obtain ⟨hhead, htail⟩ := ht.split
    refine List.pairwise_append.mpr
      ⟨pairwise_apart parent e he hhead, pairwise_apartOf parent es hes htail, ?_⟩
    intro x hx y hy
    -- The first element ends where the others begin.
    have hend := (bounds_of_mem parent hone (hsingle ▸ hhead) (List.mem_append_left _ hx)).2
    have hbegin := (bounds_of_mem parent hes htail hy).1
    rw [hsingle] at hend
    exact Or.inr (hend.trans hbegin)

end

/-- The nodes below an element do not depend on where it stands. -/
theorem map_node_entries (parent parent' : Option Nat) (e : Element) :
    (e.entries parent).map (·.node) = (e.entries parent').map (·.node) := by
  cases e with
  | token => rfl
  | node => rfl

mutual

/-- A token of an element is the element, or a child of one of its nodes. -/
theorem exists_holder (parent : Option Nat) {t : Token} :
    ∀ e : Element, t ∈ e.tokens →
      e.token? = some t ∨ ∃ x ∈ e.entries parent, t ∈ x.node.childTokens
  | token _ _, h => Or.inl (congrArg some (List.mem_singleton.mp h).symm)
  | node id kind span children, h => by
    right
    rcases exists_holderOf (some id) children h with hchild | ⟨x, hx, hholds⟩
    · exact ⟨_, List.mem_cons_self, hchild⟩
    · exact ⟨x, List.mem_cons_of_mem _ hx, hholds⟩

theorem exists_holderOf (parent : Option Nat) {t : Token} :
    ∀ es : List Element, t ∈ tokensOf es →
      t ∈ es.filterMap token? ∨ ∃ x ∈ entriesOf parent es, t ∈ x.node.childTokens
  | [], h => absurd h List.not_mem_nil
  | e :: es, h => by
    rcases List.mem_append.mp h with h | h
    · rcases exists_holder parent e h with hchild | ⟨x, hx, hholds⟩
      · exact Or.inl (List.mem_filterMap.mpr ⟨e, List.mem_cons_self, hchild⟩)
      · exact Or.inr ⟨x, List.mem_append_left _ hx, hholds⟩
    · rcases exists_holderOf parent es h with hchild | ⟨x, hx, hholds⟩
      · obtain ⟨e', he', htoken⟩ := List.mem_filterMap.mp hchild
        exact Or.inl (List.mem_filterMap.mpr ⟨e', List.mem_cons_of_mem e he', htoken⟩)
      · exact Or.inr ⟨x, List.mem_append_right _ hx, hholds⟩

end

/-- A child that is a token is among the tokens. -/
theorem mem_tokensOf_of_mem {t : Token} {es : List Element} (h : t ∈ es.filterMap token?) :
    t ∈ tokensOf es := by
  induction es with
  | nil => exact absurd h List.not_mem_nil
  | cons e es ih =>
    rw [tokensOf]
    obtain ⟨e', he', htoken⟩ := List.mem_filterMap.mp h
    rcases List.mem_cons.mp he' with rfl | he'
    · cases e' with
      | token i u =>
        obtain rfl := Option.some.inj htoken
        exact List.mem_append_left _ List.mem_cons_self
      | node => cases htoken
    · exact List.mem_append_right _ (ih (List.mem_filterMap.mpr ⟨e', he', htoken⟩))

end Element

namespace Outline

variable {source : String} {x y : Entry} {t : Token}

/-! ## §B Nodes of an outline -/

theorem eq_of_id_eq (hx : x ∈ (parse source).entries) (hy : y ∈ (parse source).entries)
    (h : x.node.id = y.node.id) : x = y := by
  have hids := ids_parse source
  exact Option.some.inj (((entry?_eq_some_iff hids).mpr ⟨hx, h⟩).symm.trans
    ((entry?_eq_some_iff hids).mpr ⟨hy, rfl⟩))

theorem mem_of_holds (hx : x ∈ (parse source).entries) (h : x.Holds y) :
    y ∈ (parse source).entries :=
  (sublist_of_mem hx).subset h

/-- What lies below a node has a larger number. -/
theorem id_lt_of_holds (hx : x ∈ (parse source).entries) (h : x.Holds y) (hne : y ≠ x) :
    x.node.id < y.node.id :=
  id_lt_of_mem_below (ids_parse source) hx ((List.mem_cons.mp h).resolve_left hne)

/-- The nodes that a node holds are its descendants. -/
theorem mem_descendants_iff (hx : x ∈ (parse source).entries) (hy : y ∈ (parse source).entries) :
    y.node.id ∈ (parse source).descendants x.node.id ↔ x.Holds y := by
  have hnode : (parse source).node? x.node.id = some x.node :=
    (node?_eq_some_iff (ids_parse source)).mpr ⟨⟨x.parent, hx⟩, rfl⟩
  simp only [descendants, hnode, Node.descendants]
  rw [Element.map_node_entries none x.parent, List.map_map, List.mem_map]
  constructor
  · rintro ⟨z, hz, hid⟩
    rwa [Entry.Holds, ← eq_of_id_eq (mem_of_holds hx hz) hy hid]
  · exact fun h => ⟨y, h, rfl⟩

/-- Nodes that lie inside one another in the tree do so in the source. -/
theorem span_le_of_holds (hx : x ∈ (parse source).entries) (h : x.Holds y) :
    x.node.span.start ≤ y.node.span.start ∧ y.node.span.stop ≤ x.node.span.stop := by
  by_cases hyx : y = x
  · rw [hyx]
    exact ⟨Nat.le_refl _, Nat.le_refl _⟩
  · have hbelow := (List.mem_cons.mp h).resolve_left hyx
    obtain ⟨a, b, htokens, hstart, hstop⟩ := span_of_placed hx
    have htiles := tiles_tokenize source
    rw [htokens] at htiles
    have hinner := htiles.split.2.split.1
    rw [Nat.zero_add, ← hstart] at hinner
    rw [hstop, ← hstart]
    exact Element.bounds_of_mem (some x.node.id) (solid_children_of_mem hx) hinner hbelow

theorem kind_of_root (hx : x ∈ (parse source).entries) (hroot : x.node.id = 0) :
    x.node.kind = .file := by
  obtain ⟨y, hy, -, hid, hkind, -⟩ := exists_root source
  rw [eq_of_id_eq hx hy (hroot.trans hid.symm), hkind]

/-- The root reaches to the end of the source. -/
theorem stop_of_root (hx : x ∈ (parse source).entries) (hroot : x.node.id = 0) :
    x.node.span.stop = Text.byteSize source := by
  rw [← span_of_mem (ids_parse source) hx, hroot]
  exact (span_zero source).2

/-- No node but the root is empty. -/
theorem start_lt_stop_of_mem (hx : x ∈ (parse source).entries) (hroot : x.node.id ≠ 0) :
    x.node.span.start < x.node.span.stop := by
  have hsolid := solid_of_mem_entries hx fun h => hroot ((parent_of_mem hx).mp h)
  obtain ⟨a, b, htokens, -, -⟩ := span_of_placed hx
  have htiles := tiles_tokenize source
  rw [htokens] at htiles
  exact (hsolid.place htiles).2.2

theorem stop_le_of_mem (hx : x ∈ (parse source).entries) :
    x.node.span.stop ≤ Text.byteSize source := by
  obtain ⟨a, b, htokens, -, hstop⟩ := span_of_placed hx
  have hsize : Text.byteSize source = byteLength (textOfTokens (tokenize source)) := by
    rw [textOfTokens_tokenize]
    rfl
  rw [hstop, hsize, htokens]
  simp only [textOfTokens, List.flatMap_append, Text.byteLength_append]
  omega

/-- **Inside or behind.** A node with a larger number lies inside a node, or begins where it has
ended. -/
theorem holds_or_behind (hx : x ∈ (parse source).entries) (hy : y ∈ (parse source).entries)
    (h : x.node.id < y.node.id) : x.Holds y ∨ x.node.span.stop ≤ y.node.span.start := by
  obtain ⟨children, hroot, hsolid, hleaves, hids⟩ := parse_spec source
  have htiles := tiles_tokenize source
  rw [← tokens_root source, hroot] at htiles
  have hapart : (parse source).entries.Pairwise Entry.Apart := by
    rw [entries, hroot]
    refine List.pairwise_cons.mpr ⟨?_, Element.pairwise_apartOf (some 0) children hsolid htiles⟩
    exact fun z hz => Or.inl (List.mem_cons_of_mem _ hz)
  obtain ⟨hxlt, hxeq⟩ := List.getElem?_eq_some_iff.mp (getElem?_of_mem hids hx)
  obtain ⟨hylt, hyeq⟩ := List.getElem?_eq_some_iff.mp (getElem?_of_mem hids hy)
  have hpair := List.pairwise_iff_getElem.mp hapart _ _ hxlt hylt h
  rwa [hxeq, hyeq] at hpair

/-- What a node holds lies within it. -/
theorem within_of_holds (hx : x ∈ (parse source).entries) (h : x.Holds y) :
    (parse source).Within x.node.id y.node.id := by
  have hids := ids_parse source
  generalize hid : y.node.id = id
  induction id using Nat.strongRecOn generalizing y with
  | ind id ih =>
    rcases Element.exists_parent x.parent _ h with ⟨-, hnode⟩ | ⟨z, hz, hparent, -⟩
    · rw [← hid, show y.node = x.node from (Option.some.inj hnode).symm]
      exact .self
    · have hup : (parse source).parent? y.node.id = some z.node.id :=
        (parent?_eq_some_iff hids).mpr ⟨y.node, hparent ▸ mem_of_holds hx h, rfl⟩
      have hlt := parent_lt_of_ids hids hup
      rw [← hid]
      exact .child hup (ih z.node.id (hid ▸ hlt) hz rfl)

/-- Two nodes in the same node do not hold one another. -/
theorem behind_of_sibling (hx : x ∈ (parse source).entries) (hy : y ∈ (parse source).entries)
    (hparent : x.parent = y.parent) (h : x.node.id < y.node.id) :
    x.node.span.stop ≤ y.node.span.start := by
  refine (holds_or_behind hx hy h).resolve_left fun hholds => ?_
  rcases Element.exists_parent x.parent _ hholds with ⟨-, hnode⟩ | ⟨z, hz, hz', -⟩
  · have hid : x.node.id = y.node.id := congrArg Node.id (Option.some.inj hnode)
    omega
  · -- The node around both would lie inside the first.
    have hids := ids_parse source
    have hup : (parse source).parent? x.node.id = some z.node.id :=
      (parent?_eq_some_iff hids).mpr ⟨x.node, by rw [← hz', ← hparent]; exact hx, rfl⟩
    have hlt := parent_lt_of_ids hids hup
    by_cases hzx : z = x
    · rw [hzx] at hlt
      omega
    · have := id_lt_of_holds hx hz hzx
      omega

/-! ## §C Tokens of an outline -/

theorem stop_le_start_of_lt {u : Token} (ht : t ∈ tokenize source) (hu : u ∈ tokenize source)
    (h : t.span.start < u.span.start) : t.span.stop ≤ u.span.start := by
  obtain ⟨a, b, htokens⟩ := List.append_of_mem ht
  have htiles := tiles_tokenize source
  rw [htokens] at htiles hu
  rcases List.mem_append.mp hu with hu | hu
  · have hback := (List.pairwise_append.mp htiles.pairwise_start).2.2 u hu t List.mem_cons_self
    omega
  · rcases List.mem_cons.mp hu with rfl | hu
    · omega
    · cases htiles.split.2 with
      | cons _ _ _ hrest => exact hrest.le_start u hu

/-- Every token is a child of a node, and lies in its span. -/
theorem exists_holder (ht : t ∈ tokenize source) :
    ∃ x ∈ (parse source).entries, t ∈ x.node.childTokens := by
  rw [← tokens_root source] at ht
  rcases Element.exists_holder none _ ht with hroot | hholder
  · obtain ⟨children, heq, -⟩ := parse_spec source
    rw [heq] at hroot
    cases hroot
  · exact hholder

/-- The tokens of a node lie in its span, and the last one ends where it does. -/
theorem span_of_token (hx : x ∈ (parse source).entries) {c d : List Token}
    (h : x.node.toElement.tokens = c ++ t :: d) :
    t ∈ tokenize source ∧ x.node.span.start ≤ t.span.start ∧ t.span.stop ≤ x.node.span.stop ∧
      (d = [] → t.span.stop = x.node.span.stop) := by
  obtain ⟨a, b, htokens, hstart, hstop⟩ := span_of_placed hx
  rw [h, List.append_assoc, ← List.append_assoc] at htokens
  obtain ⟨-, hfirst, hlast, -⟩ := (tiles_tokenize source).position htokens
  have hmem : t ∈ tokenize source := by
    rw [htokens]
    simp
  refine ⟨hmem, ?_⟩
  rw [hstart, hstop, h, hfirst, hlast]
  simp only [textOfTokens, List.flatMap_append, List.flatMap_cons, Text.byteLength_append]
  refine ⟨by omega, by omega, ?_⟩
  rintro rfl
  show _ = _ + (_ + (_ + 0))
  omega

theorem span_of_child (hx : x ∈ (parse source).entries) (ht : t ∈ x.node.childTokens) :
    t ∈ tokenize source ∧ x.node.span.start ≤ t.span.start ∧ t.span.stop ≤ x.node.span.stop := by
  obtain ⟨c, d, hcd⟩ := List.append_of_mem (Element.mem_tokensOf_of_mem ht)
  obtain ⟨hmem, hstart, hstop, -⟩ := span_of_token hx hcd
  exact ⟨hmem, hstart, hstop⟩

end Outline

end FeatureFile

/-
# FeatureFile.Proofs.Outline.Edges — no trivia at the edge of a node

A node begins with the token that opened it, and it ends with a token that is no trivia: blanks,
comments and line breaks behind it belong to a node around it. Only what is still open at the end of
the source may end with trivia, since the last trivia has nothing behind it that would close a node
first. Among the nodes that are no containers this leaves a doc string that nothing closes, and the
step that it stands in.

While the outline is built trivia waits, so the last leaf of the open nodes is always significant
(`OpenPath.Ended`). A node that is closed has its leaves at the very end of the path, and ends with
that leaf (`OpenPath.closed_cases`).

Main statement: `parse_cleanEdges`.
-/

import FeatureFile.Proofs.Outline.Apart
import FeatureFile.Proofs.Outline.Effective

namespace FeatureFile

open NodeKind (Stacked)

namespace NodeKind

/-- A step and a container stand in a container. -/
theorem isContainer_of_standsIn {kind parent : NodeKind}
    (hkind : (kind.isStep || kind.isContainer) = true) (h : kind.standsIn parent = true) :
    parent.isContainer = true := by
  cases kind <;> first | exact h | cases h | cases hkind

/-- Around what a doc string stands in there are containers alone. -/
theorem Stacked.around_docString {next : NodeKind} {ks : List NodeKind}
    (h : Stacked (.docString :: next :: ks)) : ∀ k ∈ ks, k.isContainer = true := by
  have hnext : (next.isStep || next.isContainer) = true := h.stands
  have houter : Stacked (next :: ks) := h.suffix (a := [_])
  cases ks with
  | nil => simp
  | cons k ks =>
    have hk : Stacked (k :: ks) := houter.suffix (a := [_])
    exact hk.isContainer (isContainer_of_standsIn hnext houter.stands)

end NodeKind

/-! ## §A What is closed on a path -/

/-- **`Sharp ls`** — the last of the leaves is no trivia. -/
def Sharp (ls : List (Nat × Token)) : Prop := ∀ l ∈ ls.getLast?, l.2.isTrivia = false

theorem Sharp.of_suffix {a b : List (Nat × Token)} (h : Sharp b) (hab : a <:+ b) : Sharp a := by
  obtain ⟨front, rfl⟩ := hab
  intro l hl
  refine h l ?_
  rw [Option.mem_def] at hl ⊢
  rw [List.getLast?_append, hl]
  rfl

theorem sharp_concat (ls : List (Nat × Token)) (i : Nat) {t : Token} (h : t.isTrivia = false) :
    Sharp (ls ++ [(i, t)]) := by
  intro l hl
  rw [List.getLast?_concat, Option.mem_some_iff] at hl
  rw [← hl]
  exact h

/-- The node, closed inside another one. -/
def OpenNode.entry (parent : Option Nat) (n : OpenNode) : Entry :=
  ⟨parent, n.id, n.kind, n.close.span, n.children⟩

namespace OpenPath

variable {p q : OpenPath} {x : Entry}

/-- **`p.Closed x`** — the node of the entry stands closed below a node of the path. -/
def Closed (p : OpenPath) (x : Entry) : Prop :=
  ∃ n ∈ p.nodes, x ∈ Element.entriesOf (some n.id) n.children

/-- What stands below the innermost two nodes when the innermost is closed. -/
theorem mem_push_close (top next : OpenNode) :
    x ∈ Element.entriesOf (some next.id) (next.push top.close).children ↔
      x ∈ Element.entriesOf (some next.id) next.children ∨
        x ∈ top.close.entries (some next.id) := by
  rw [OpenNode.children_push, Element.entriesOf_append, List.mem_append]
  simp only [Element.entriesOf, List.append_nil]

/-- A node that is closed stays closed. -/
theorem Closed.of_closes (h : p.Closed x) (hcloses : p.Closes q) : q.Closed x := by
  induction hcloses with
  | refl => exact h
  | @close top next outer q _ ih =>
    apply ih
    obtain ⟨n, hn, hx⟩ := h
    rcases List.mem_cons.mp hn with rfl | hn
    · refine ⟨_, List.mem_cons_self, ?_⟩
      exact (mem_push_close _ next).mpr (Or.inr (List.mem_cons_of_mem _ hx))
    · rcases List.mem_cons.mp hn with rfl | hn
      · exact ⟨_, List.mem_cons_self, (mem_push_close _ _).mpr (Or.inl hx)⟩
      · exact ⟨n, List.mem_cons_of_mem _ hn, hx⟩

/-- **What closing closes.** A node that is closed behind a closing was closed before it, or it is
one of the open nodes and its leaves are the last of the path. -/
theorem closed_cases (hcloses : p.Closes q) (h : q.Closed x) :
    p.Closed x ∨ (x.node.id, x.node.kind) ∈ p.labels ∧ x.node.toElement.leaves <:+ p.leaves := by
  induction hcloses with
  | refl => exact Or.inl h
  | @close top next outer q _ ih =>
    rcases ih h with ⟨n, hn, hx⟩ | ⟨hlabel, hleaves⟩
    · rcases List.mem_cons.mp hn with rfl | hn
      · rcases (mem_push_close top next).mp hx with hx | hx
        · exact Or.inl ⟨next, List.mem_cons_of_mem _ List.mem_cons_self, hx⟩
        · -- It is the innermost node, or it stands below it.
          rcases List.mem_cons.mp hx with rfl | hx
          · exact Or.inr ⟨List.mem_cons_self, List.suffix_append _ _⟩
          · exact Or.inl ⟨top, List.mem_cons_self, hx⟩
      · exact Or.inl ⟨n, List.mem_cons_of_mem _ (List.mem_cons_of_mem _ hn), hx⟩
    · refine Or.inr ⟨List.mem_cons_of_mem _ hlabel, ?_⟩
      rw [← show _ = OpenPath.leaves ⟨top, next :: outer⟩ from leaves_close top next outer]
      exact hleaves

theorem closed_of_pushAll {es : List Element} (hes : ∀ e ∈ es, e.node? = none)
    (h : (p.pushAll es).Closed x) : p.Closed x := by
  rw [pushAll_eq] at h
  obtain ⟨n, hn, hx⟩ := h
  rcases List.mem_cons.mp hn with rfl | hn
  · refine ⟨p.top, List.mem_cons_self, ?_⟩
    have hchildren : (OpenNode.mk p.top.id p.top.kind (es.reverse ++ p.top.reversed)).children =
        p.top.children ++ es := by
      simp [OpenNode.children]
    rw [show OpenNode.children _ = _ from hchildren, Element.entriesOf_append,
      Element.entriesOf_of_tokens _ hes, List.append_nil] at hx
    exact hx
  · exact ⟨n, List.mem_cons_of_mem _ hn, hx⟩

theorem closed_of_openAll {id : Nat} {kinds : List NodeKind} (h : (p.openAll id kinds).Closed x) :
    p.Closed x := by
  induction kinds generalizing p id with
  | nil => exact h
  | cons kind kinds ih =>
    obtain ⟨n, hn, hx⟩ := ih h
    rcases List.mem_cons.mp hn with rfl | hn
    · exact absurd hx List.not_mem_nil
    · exact ⟨n, hn, hx⟩

/-- With all nodes closed, only the root stands below no other. -/
theorem mem_entries_finish : x ∈ p.finish.entries none ↔
    (p.closeAll fun _ => true).Closed x ∨ x = (p.closeAll fun _ => true).top.entry none := by
  have houter : (p.closeAll fun _ => true).outer = [] := closeWhile_true_outer _ _
  have hnodes : (p.closeAll fun _ => true).nodes = [(p.closeAll fun _ => true).top] := by
    rw [nodes, houter]
  rw [Closed, hnodes, finish, OpenNode.close, Element.entries, List.mem_cons, or_comm]
  simp only [List.mem_singleton, exists_eq_left]
  rfl

/-- **What is in the tree.** A node of the finished tree was closed already, or it is one of the open
nodes and its leaves are the last. -/
theorem finish_cases (h : x ∈ p.finish.entries none) :
    p.Closed x ∨ (x.node.id, x.node.kind) ∈ p.labels ∧ x.node.toElement.leaves <:+ p.leaves := by
  have hcloses : p.Closes (p.closeAll fun _ => true) := .closeAll p _
  rcases mem_entries_finish.mp h with h | rfl
  · exact closed_cases hcloses h
  · obtain ⟨closed, hlabels⟩ := labels_of_closes hcloses
    refine Or.inr ⟨?_, ?_⟩
    · rw [hlabels]
      exact List.mem_append_right _ List.mem_cons_self
    · rw [← leaves_of_closes hcloses]
      exact List.suffix_append _ _

theorem mem_finish_of_closed (h : p.Closed x) : x ∈ p.finish.entries none :=
  mem_entries_finish.mpr (Or.inl (h.of_closes (.closeAll p _)))

/-! ## §B Closed nodes end with significant tokens -/

/-- **`p.Ended`** — every closed node ends with a token that is no trivia, and so does the path. -/
structure Ended (p : OpenPath) : Prop where
  closed : ∀ x, p.Closed x → Sharp x.node.toElement.leaves
  last : Sharp p.leaves

theorem Ended.of_closes (h : p.Ended) (hcloses : p.Closes q) : q.Ended := by
  refine ⟨fun x hx => ?_, ?_⟩
  · rcases closed_cases hcloses hx with hx | ⟨-, hleaves⟩
    · exact h.closed x hx
    · exact h.last.of_suffix hleaves
  · rw [leaves_of_closes hcloses]
    exact h.last

end OpenPath

namespace Builder

variable {b : Builder} {ts : List Token} {t : Token}

/-- **One token.** Trivia waits, and a significant token is the last leaf of the path that it joins. -/
theorem ended_step (h : b.path.Ended) (hreads : b.Reads ts) (t : Token) :
    (b.step t).path.Ended := by
  cases ht : t.isTrivia with
  | true =>
    rw [step_trivia b ht]
    exact h
  | false =>
    obtain ⟨p, kinds, faults, hplace, hgrown⟩ := step_grown b ht
    refine OpenPath.Ended.of_closes ⟨fun x hx => ?_, ?_⟩ hgrown.closes
    · -- What the token closes was closed while the last leaf was the one before it.
      refine (h.of_closes hplace.closes).closed x ?_
      have hpushed : ((p.pushAll b.pending.reverse).openAll b.nextId kinds).Closed x := by
        have hwith : (OpenPath.pushAll _ [.token b.nextToken t]).Closed x := hx
        exact OpenPath.closed_of_pushAll (List.forall_mem_singleton.mpr rfl) hwith
      refine OpenPath.closed_of_pushAll ?_ (OpenPath.closed_of_openAll hpushed)
      exact fun e he => hreads.pending_token e (List.mem_reverse.mp he)
    · rw [leaves_grownPath b t kinds hplace.closes]
      exact sharp_concat _ _ ht

/-- **A stretch of tokens.** -/
theorem ended_foldl (h : b.path.Ended) (hreads : b.Reads ts) (more : List Token) :
    (more.foldl step b).path.Ended := by
  induction more generalizing b ts with
  | nil => exact h
  | cons t more ih => exact ih (ended_step h hreads t) (reads_step hreads t)

theorem ended_new : OpenPath.Ended (Builder.path {}) where
  closed x h := by
    obtain ⟨n, hn, hx⟩ := h
    rw [List.mem_singleton.mp hn] at hx
    exact absurd hx List.not_mem_nil
  last l hl := by cases hl

/-- At the end of a source containers are open, and around an open doc string maybe a step. -/
theorem labels_endPath (hstacked : Stacked b.path.kinds)
    (hdoc : b.inDocString = true → b.topKind = .docString) {l : Nat × NodeKind}
    (hl : l ∈ b.endPath.labels) (hkind : l.2.isContainer = false) :
    b.inDocString = true ∧ ∃ next rest, b.path.outer = next :: rest ∧
      (l.1 = b.path.top.id ∨ l.1 = next.id ∧ l.2.isStep = true) := by
  have hmem : l.2 ∈ b.endPath.kinds := by
    rw [OpenPath.kinds_eq]
    exact List.mem_map_of_mem hl
  cases hopen : b.inDocString with
  | false =>
    rw [endPath, hopen] at hmem
    have hclosed := OpenPath.stacked_of_closes (.closeLeaves b.path) hstacked
    have hcontainer :=
      hclosed.isContainer (OpenPath.closeLeaves_isContainer hstacked) l.2 hmem
    rw [hkind] at hcontainer
    cases hcontainer
  | true =>
    rw [endPath, if_pos hopen] at hl
    have htop : b.path.top.kind = .docString := hdoc hopen
    rcases houter : b.path.outer with _ | ⟨next, rest⟩
    · rw [show b.path.top.kind = .file from OpenPath.top_eq_file hstacked houter] at htop
      cases htop
    · refine ⟨rfl, next, rest, rfl, ?_⟩
      rw [OpenPath.kinds, houter, htop] at hstacked
      rw [OpenPath.labels, OpenPath.nodes, houter] at hl
      rcases List.mem_cons.mp hl with rfl | hl
      · exact Or.inl rfl
      · rcases List.mem_cons.mp hl with rfl | hl
        · refine Or.inr ⟨rfl, ?_⟩
          have hstands : (next.kind.isStep || next.kind.isContainer) = true := hstacked.stands
          rwa [show next.kind.isContainer = false from hkind, Bool.or_false] at hstands
        · obtain ⟨n, hn, rfl⟩ := List.mem_map.mp hl
          have hcontainer := hstacked.around_docString n.kind (List.mem_map_of_mem hn)
          rw [show n.kind.isContainer = false from hkind] at hcontainer
          cases hcontainer

end Builder

/-! ## §C The nodes of an outline -/

/-- The last token of the node is no trivia. -/
def Node.EndsSignificant (n : Node) : Prop :=
  ∃ t, n.toElement.tokens.getLast? = some t ∧ t.isTrivia = false

namespace Outline

/-- **`o.LeftOpen n`** — the node is a doc string that nothing closes: no delimiter follows the one
that it begins with. -/
def LeftOpen (o : Outline) (n : Node) : Prop :=
  n.kind = .docString ∧ ∃ a t b, o.tokens = a ++ t :: b ∧ t.kind = .docStringDelimiter ∧
    (∀ u ∈ b, u.kind ≠ .docStringDelimiter) ∧ n.children.head? = some (.token a.length t)

/-- **`o.TriviaBehind n t`** — nothing but trivia stands between the node and the end of the
token. -/
def TriviaBehind (o : Outline) (n : Node) (t : Token) : Prop :=
  t ∈ o.tokens ∧ n.span.stop ≤ t.span.start ∧
    ∀ u ∈ o.tokens, n.span.stop ≤ u.span.start → u.span.start ≤ t.span.start → u.isTrivia = true

variable {source : String} {x : Entry}

theorem endsSignificant_of_sharp (hx : x ∈ (parse source).entries) (hroot : x.node.id ≠ 0)
    (h : Sharp x.node.toElement.leaves) : x.node.EndsSignificant := by
  have hsolid := solid_of_mem_entries hx fun hnone => hroot ((parent_of_mem hx).mp hnone)
  have hne := Element.tokens_ne_nil hsolid
  obtain ⟨t, ht⟩ := Option.isSome_iff_exists.mp (List.getLast?_isSome.mpr hne)
  refine ⟨t, ht, ?_⟩
  rw [Element.tokens_eq, List.getLast?_map, Option.map_eq_some_iff] at ht
  obtain ⟨l, hl, rfl⟩ := ht
  exact h l hl

/-- A node ends with a significant token, or it is open at the end of the source and reaches there. -/
theorem ends_or_open (hx : x ∈ (parse source).entries) (hroot : x.node.id ≠ 0) :
    x.node.EndsSignificant ∨
      (x.node.id, x.node.kind) ∈ ((tokenize source).foldl Builder.step {}).endPath.labels ∧
        x.node.toElement.leaves <:+ numbered (tokenize source) := by
  have hended : ((tokenize source).foldl Builder.step {}).path.Ended :=
    Builder.ended_foldl Builder.ended_new Builder.reads_nil (tokenize source)
  have hreads := (Builder.judged_tokenize source).reads
  have hentry := hx
  rw [entries, root_eq, Builder.finish_fst, ← Builder.pushAll_pending] at hx
  have hpending : ∀ e ∈ ((tokenize source).foldl Builder.step {}).pending.reverse,
      e.node? = none := fun e he => hreads.pending_token e (List.mem_reverse.mp he)
  have hcloses := ((tokenize source).foldl Builder.step {}).closes_endPath
  rcases OpenPath.finish_cases hx with hclosed | ⟨hlabel, hleaves⟩
  · refine Or.inl (endsSignificant_of_sharp hentry hroot ?_)
    exact (hended.of_closes hcloses).closed x (OpenPath.closed_of_pushAll hpending hclosed)
  · right
    rw [OpenPath.labels_pushAll] at hlabel
    rw [OpenPath.leaves_pushAll, OpenPath.leaves_of_closes hcloses] at hleaves
    rw [← hreads.leaves_eq]
    exact ⟨hlabel, hleaves⟩

/-- **Nodes that end before the source does.** They end with a token that is no trivia. -/
theorem ends_of_stop_lt (hx : x ∈ (parse source).entries) (hroot : x.node.id ≠ 0)
    (h : x.node.span.stop < Text.byteSize source) : x.node.EndsSignificant := by
  refine (ends_or_open hx hroot).resolve_right ?_
  rintro ⟨-, front, hfront⟩
  -- The node would have the last tokens, and so reach to the end.
  have htokens := congrArg (List.map Prod.snd) hfront
  rw [List.map_append, ← Element.tokens_eq, map_snd_numbered] at htokens
  have hsolid := solid_of_mem_entries hx fun hnone => hroot ((parent_of_mem hx).mp hnone)
  have htiles := tiles_tokenize source
  have hsize : Text.byteSize source = Text.byteLength (textOfTokens (tokenize source)) := by
    rw [textOfTokens_tokenize]
    rfl
  rw [← htokens] at htiles hsize
  rw [← List.append_nil x.node.toElement.tokens] at htiles
  obtain ⟨hstart, hstop, -⟩ := hsolid.place htiles
  simp only [textOfTokens, List.flatMap_append, Text.byteLength_append] at hstart hstop hsize
  omega

/-- An open doc string is left open in the tree, inside the node that is open around it. -/
theorem exists_leftOpen {next : OpenNode} {rest : List OpenNode}
    (hdoc : ((tokenize source).foldl Builder.step {}).inDocString = true)
    (hkind : ((tokenize source).foldl Builder.step {}).topKind = .docString)
    (houter : ((tokenize source).foldl Builder.step {}).path.outer = next :: rest) :
    ∃ d ∈ (parse source).entries, d.parent = some next.id ∧
      d.node.id = ((tokenize source).foldl Builder.step {}).path.top.id ∧
      (parse source).LeftOpen d.node := by
  obtain ⟨a, t, b, htokens, ht, hb, hfirst⟩ := (Builder.judged_tokenize source).delimiter_last hdoc
  have hroot := (root_eq source).trans (Builder.finish_fst _ (Text.byteSize source))
  rw [Builder.endPath, if_pos hdoc, houter] at hroot
  generalize (tokenize source).foldl Builder.step {} = c at hkind hfirst hroot ⊢
  have hclosed : OpenPath.Closed ⟨next.push (c.path.top.fill c.pending).close, rest⟩
      ((c.path.top.fill c.pending).entry (some next.id)) := by
    refine ⟨_, List.mem_cons_self, ?_⟩
    exact (OpenPath.mem_push_close _ next).mpr (Or.inr List.mem_cons_self)
  have hmem := OpenPath.mem_finish_of_closed hclosed
  refine ⟨(c.path.top.fill c.pending).entry (some next.id), ?_, rfl, rfl, hkind, a, t, b, htokens,
    ht, hb, ?_⟩
  · rw [entries, hroot]
    exact hmem
  · show (c.path.top.fill c.pending).children.head? = _
    rw [OpenNode.children_fill, List.head?_append, OpenNode.children, List.head?_reverse, hfirst]
    rfl

/-- A node that is no container ends with a significant token, but for an open doc string and its
step. -/
theorem ends_of_leaf (hx : x ∈ (parse source).entries) (hkind : x.node.kind.isContainer = false)
    (hopen : ¬ (parse source).LeftOpen x.node)
    (hholds : ¬ (x.node.kind.isStep = true ∧
      ∃ d ∈ x.node.childNodes, (parse source).LeftOpen d)) : x.node.EndsSignificant := by
  have hroot : x.node.id ≠ 0 := by
    intro hid
    rw [kind_of_root hx hid] at hkind
    cases hkind
  refine (ends_or_open hx hroot).resolve_right ?_
  rintro ⟨hlabel, -⟩
  obtain ⟨_, hlined⟩ := Builder.lined_tokenize source
  obtain ⟨hdoc, next, rest, houter, hcases⟩ := Builder.labels_endPath
    (Builder.judged_tokenize source).stacked hlined.docString hlabel hkind
  obtain ⟨d, hd, hparent, hid, hleft⟩ := exists_leftOpen hdoc (hlined.docString hdoc) houter
  rcases hcases with htop | ⟨hnext, hstep⟩
  · rw [eq_of_id_eq hx hd (htop.trans hid.symm)] at hopen
    exact hopen hleft
  · -- The doc string stands in the node that is open around it.
    refine hholds ⟨hstep, d.node, ?_, hleft⟩
    rcases Element.exists_parent none _ hd with ⟨hnone, -⟩ | ⟨y, hy, hy', hmem⟩
    · rw [hparent] at hnone
      cases hnone
    · rw [hparent, ← show x.node.id = next.id from hnext] at hy'
      rwa [eq_of_id_eq hx hy (Option.some.inj hy')]

theorem exists_opens (hx : x ∈ (parse source).entries) (hroot : x.node.id ≠ 0) :
    ∃ t p, (parse source).Opens t x.node p ∧ t.kind.opens x.node.kind := by
  obtain ⟨op, hop, hopened⟩ := (exists_of_forall₂ (forall₂_trace source)).1 x hx
  have hne : op.around ≠ [] := by
    intro hnil
    refine hroot ((parent_of_mem hx).mp ?_)
    rw [hopened.parent_eq, hnil]
    rfl
  obtain ⟨t, p, htraces⟩ := traces_of_opened hx hop hopened hne
  refine ⟨t, p, htraces.opens, ?_⟩
  rw [htraces.kind_eq]
  exact opened_of_traces htraces

theorem significant_of_opens {k : TokenKind} {kind : NodeKind} (h : k.opens kind) :
    k.isTrivia = false := by
  cases k <;> first | rfl | exact False.elim h

/-- **Trivia behind a node.** It is a child of a node around it. -/
theorem exists_around (hx : x ∈ (parse source).entries) {t : Token}
    (ht : (parse source).TriviaBehind x.node t) :
    ∃ y ∈ (parse source).entries, y.Holds x ∧ y.node.id ≠ x.node.id ∧ t ∈ y.node.childTokens := by
  obtain ⟨hmem, hbehind, htrivia⟩ := ht
  obtain ⟨y, hy, hchild⟩ := exists_holder hmem
  obtain ⟨-, hstart, hstop⟩ := span_of_child hy hchild
  have hlt := (tiling_tokenize source).start_lt_stop t hmem
  have hspan := x.node.span.start_le_stop
  refine ⟨y, hy, ?_⟩
  rcases Nat.lt_trichotomy y.node.id x.node.id with hid | hid | hid
  · rcases holds_or_behind hy hx hid with hholds | hbefore
    · exact ⟨hholds, by omega, hchild⟩
    · omega
  · rw [eq_of_id_eq hy hx hid] at hstop
    omega
  · rcases holds_or_behind hx hy hid with hholds | hafter
    · have := (span_le_of_holds hx hholds).2
      omega
    · -- A node behind this one would begin with a significant token before the trivia.
      obtain ⟨u, p, hopens, hkind⟩ := exists_opens hy (by omega)
      obtain ⟨us, hus⟩ := List.head?_eq_some_iff.mp hopens.first_eq
      obtain ⟨a, b, htokens, -⟩ := span_of_placed hy
      have hu : u ∈ tokenize source := by
        rw [htokens, hus]
        simp
      have hbegin := span_start_of_opens hopens
      have hfalse := htrivia u hu (by omega) (by omega)
      rw [Token.isTrivia, significant_of_opens hkind] at hfalse
      cases hfalse

/-! ## §D Clean edges -/

/-- **`o.CleanEdges source`** — no trivia stands at the edge of a node of the source. -/
structure CleanEdges (source : String) (o : Outline) : Prop extends Covers source o where
  /-- Every node but the root begins with the token that opened it: a keyword, the bracket of a
  parameter, a pipe, or the delimiter of a doc string. -/
  begins : ∀ n ∈ o.nodes, n.id ≠ 0 →
    ∃ t p, o.Opens t n p ∧ t.kind.opens n.kind ∧ t.isTrivia = false
  /-- Steps, parameters, tables, rows and doc strings end with a significant token, except a doc
  string that is left open and the step that holds it. -/
  ends : ∀ n ∈ o.nodes, n.kind.isContainer = false → ¬ o.LeftOpen n →
    ¬ (n.kind.isStep = true ∧ ∃ d ∈ n.childNodes, o.LeftOpen d) → n.EndsSignificant
  /-- A node that another one follows in the same node ends with a significant token. -/
  ends_before_sibling : ∀ x ∈ o.entries, ∀ y ∈ o.entries, x.parent = y.parent →
    x.node.id < y.node.id → x.node.EndsSignificant
  /-- A node that ends before a keyword ends with a significant token. -/
  ends_before_keyword : ∀ n ∈ o.nodes, ∀ t ∈ o.tokens, t.keyword?.isSome = true →
    n.span.stop ≤ t.span.start → n.EndsSignificant
  /-- The trivia directly behind a node are children of nodes around it. -/
  trivia_behind : ∀ n ∈ o.nodes, ∀ t, o.TriviaBehind n t →
    ∃ m ∈ o.nodes, m.id ≠ n.id ∧ n.id ∈ o.descendants m.id ∧ t ∈ m.childTokens

/-- **No trivia at the edges.** In the outline of every source each node begins with the token that
opened it, each node that something follows ends with a significant token, and the trivia behind it
belong to a node around it. -/
theorem parse_cleanEdges (source : String) : (parse source).CleanEdges source := by
  constructor
  case toCovers => exact parse_covers source
  case begins =>
    intro n hn hroot
    obtain ⟨x, hx, rfl⟩ := List.mem_map.mp hn
    obtain ⟨t, p, hopens, hkind⟩ := exists_opens hx hroot
    exact ⟨t, p, hopens, hkind, significant_of_opens hkind⟩
  case ends =>
    intro n hn hkind hopen hholds
    obtain ⟨x, hx, rfl⟩ := List.mem_map.mp hn
    exact ends_of_leaf hx hkind hopen hholds
  case ends_before_sibling =>
    intro x hx y hy hparent hid
    have hroot : x.node.id ≠ 0 := by
      intro hroot
      rw [(parent_of_mem hx).mpr hroot] at hparent
      have := (parent_of_mem hy).mp hparent.symm
      omega
    refine ends_of_stop_lt hx hroot ?_
    calc x.node.span.stop ≤ y.node.span.start := behind_of_sibling hx hy hparent hid
      _ < y.node.span.stop := start_lt_stop_of_mem hy (by omega)
      _ ≤ Text.byteSize source := stop_le_of_mem hy
  case ends_before_keyword =>
    intro n hn t ht _ hbefore
    obtain ⟨x, hx, rfl⟩ := List.mem_map.mp hn
    obtain ⟨y, hy, hchild⟩ := exists_holder ht
    have hlt : x.node.span.stop < Text.byteSize source :=
      calc x.node.span.stop ≤ t.span.start := hbefore
        _ < t.span.stop := (tiling_tokenize source).start_lt_stop t ht
        _ ≤ y.node.span.stop := (span_of_child hy hchild).2.2
        _ ≤ Text.byteSize source := stop_le_of_mem hy
    refine ends_of_stop_lt hx (fun hroot => ?_) hlt
    have := stop_of_root hx hroot
    omega
  case trivia_behind =>
    intro n hn t ht
    obtain ⟨x, hx, rfl⟩ := List.mem_map.mp hn
    obtain ⟨y, hy, hholds, hne, hchild⟩ := exists_around hx ht
    exact ⟨y.node, List.mem_map_of_mem hy, hne, (mem_descendants_iff hy hx).mpr hholds, hchild⟩

end Outline

end FeatureFile

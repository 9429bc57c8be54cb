/-
# FeatureFile.Proofs.Outline.Degradations — problems say what is wrong with the nesting

Main statement: the problems recorded with an outline are exactly the faults that its finished tree
shows, each recorded once and in the order of the source (`parse_showsFaults`). Each kind of problem
is recorded at a token exactly when the node which that token opens stands where it does not belong.

The verdicts over the trace are carried over to the tree. The entries of the tree and its openings
go together one by one (`forall₂_entries`), and the nodes around an opening are the nodes around it
in the tree (`around_of_mem`), so a parent's kind may be read from either.
-/

import FeatureFile.Proofs.Outline.Faults
import FeatureFile.Proofs.Outline.Tree

namespace FeatureFile

/-! ## §A Entries and openings -/

/-- **`Opened tokens x op`** — the entry is the opening, seen in the finished tree. -/
structure Opened (tokens : List Token) (x : Entry) (op : Opening) : Prop where
  parent_eq : x.parent = op.around.head?.map Prod.fst
  id_eq : x.node.id = op.id
  kind_eq : x.node.kind = op.kind
  tokens_eq : ∃ rest, tokens.drop op.start = x.node.toElement.tokens ++ rest

namespace Element

mutual

theorem forall₂_entries {tokens rest : List Token} (start : Nat) (around : List (Nat × NodeKind)) :
    ∀ e : Element, tokens.drop start = e.tokens ++ rest →
      List.Forall₂ (Opened tokens) (e.entries (around.head?.map Prod.fst)) (e.trace start around)
  | token _ _, _ => .nil
  | node id kind _ children, h =>
    .cons ⟨rfl, rfl, rfl, rest, h⟩ (forall₂_entriesOf start ((id, kind) :: around) children h)

theorem forall₂_entriesOf {tokens rest : List Token} (start : Nat)
    (around : List (Nat × NodeKind)) :
    ∀ es : List Element, tokens.drop start = tokensOf es ++ rest →
      List.Forall₂ (Opened tokens) (entriesOf (around.head?.map Prod.fst) es)
        (traceOf start around es)
  | [], _ => .nil
  | e :: es, h => by
    rw [tokensOf, List.append_assoc] at h
    have hlength : e.leaves.length = e.tokens.length := by rw [tokens_eq, List.length_map]
    have hrest : tokens.drop (start + e.leaves.length) = tokensOf es ++ rest := by
      rw [← List.drop_drop, h, hlength, List.drop_left]
    exact List.rel_append (forall₂_entries start around e h)
      (forall₂_entriesOf (start + e.leaves.length) around es hrest)

end

mutual

/-- What stands around an opening is another opening with what stands around it. -/
theorem around_of_mem (start : Nat) (around : List (Nat × NodeKind)) {op : Opening} :
    ∀ e : Element, op ∈ e.trace start around →
      op.around = around ∨ ∃ op' ∈ e.trace start around, op.around = op'.chain
  | token _ _, h => by simp [trace] at h
  | node id kind span children, h => by
    rcases List.mem_cons.mp h with rfl | h
    · exact Or.inl rfl
    · refine Or.inr ?_
      rcases around_of_memOf start ((id, kind) :: around) children h with heq | ⟨op', hop', heq⟩
      · exact ⟨⟨start, around, id, kind⟩, List.mem_cons_self, heq⟩
      · exact ⟨op', List.mem_cons_of_mem _ hop', heq⟩

theorem around_of_memOf (start : Nat) (around : List (Nat × NodeKind)) {op : Opening} :
    ∀ es : List Element, op ∈ traceOf start around es →
      op.around = around ∨ ∃ op' ∈ traceOf start around es, op.around = op'.chain
  | [], h => by simp [traceOf] at h
  | e :: es, h => by
    rw [traceOf] at h ⊢
    rcases List.mem_append.mp h with h | h
    · rcases around_of_mem start around e h with heq | ⟨op', hop', heq⟩
      · exact Or.inl heq
      · exact Or.inr ⟨op', List.mem_append_left _ hop', heq⟩
    · rcases around_of_memOf (start + e.leaves.length) around es h with heq | ⟨op', hop', heq⟩
      · exact Or.inl heq
      · exact Or.inr ⟨op', List.mem_append_right _ hop', heq⟩

end

mutual

theorem suffix_of_mem (start : Nat) (around : List (Nat × NodeKind)) {op : Opening} :
    ∀ e : Element, op ∈ e.trace start around → around <:+ op.around
  | token _ _, h => by simp [trace] at h
  | node id kind _ children, h => by
    rcases List.mem_cons.mp h with rfl | h
    · exact List.suffix_refl _
    · exact (List.suffix_cons _ _).trans (suffix_of_memOf start ((id, kind) :: around) children h)

theorem suffix_of_memOf (start : Nat) (around : List (Nat × NodeKind)) {op : Opening} :
    ∀ es : List Element, op ∈ traceOf start around es → around <:+ op.around
  | [], h => by simp [traceOf] at h
  | e :: es, h => by
    rw [traceOf] at h
    rcases List.mem_append.mp h with h | h
    · exact suffix_of_mem start around e h
    · exact suffix_of_memOf _ around es h

end

theorem around_head_trace (start : Nat) (around : List (Nat × NodeKind)) {op : Opening}
    (e : Element) (h : (e.trace start around).head? = some op) : op.around = around := by
  cases e with
  | token i t => simp [trace] at h
  | node id kind span children =>
    obtain rfl := Option.some.inj h
    rfl

theorem around_head_traceOf (start : Nat) (around : List (Nat × NodeKind)) {op : Opening}
    (es : List Element) (h : (traceOf start around es).head? = some op) : op.around = around := by
  induction es generalizing start with
  | nil => simp [traceOf] at h
  | cons e es ih =>
    rw [traceOf, List.head?_append, Option.or_eq_some_iff] at h
    rcases h with h | ⟨-, h⟩
    · exact around_head_trace start around e h
    · exact ih _ h

mutual

/-- The node opened next stands in the node opened before it, or in one around that. -/
theorem isChain_trace (start : Nat) (around : List (Nat × NodeKind)) :
    ∀ e : Element, (e.trace start around).IsChain fun prev op => op.around <:+ prev.chain
  | token _ _ => .nil
  | node id kind _ children => by
    refine List.isChain_cons.mpr ⟨?_, isChain_traceOf start ((id, kind) :: around) children⟩
    intro op hop
    rw [around_head_traceOf start _ children hop]
    exact List.suffix_refl _

theorem isChain_traceOf (start : Nat) (around : List (Nat × NodeKind)) :
    ∀ es : List Element, (traceOf start around es).IsChain fun prev op => op.around <:+ prev.chain
  | [] => .nil
  | e :: es => by
    rw [traceOf]
    refine List.isChain_append.mpr
      ⟨isChain_trace start around e, isChain_traceOf _ around es, ?_⟩
    intro prev hprev op hop
    rw [around_head_traceOf _ around es hop]
    have hmem := suffix_of_mem start around e (List.mem_of_getLast? hprev)
    exact hmem.trans (List.suffix_cons _ _)

end

theorem tokens_ne_nil {e : Element} (h : e.Solid) : e.tokens ≠ [] := by
  induction h with
  | token i t => simp [tokens]
  | @node id kind children hne _ ih =>
    obtain ⟨e, es, rfl⟩ := List.exists_cons_of_ne_nil hne
    intro hnil
    exact ih e List.mem_cons_self (List.append_eq_nil_iff.mp hnil).1

end Element

/-- Lists that go together have members that go together. -/
theorem exists_of_forall₂ {α β : Type} {R : α → β → Prop} {l : List α} {l' : List β}
    (h : List.Forall₂ R l l') :
    (∀ a ∈ l, ∃ b ∈ l', R a b) ∧ ∀ b ∈ l', ∃ a ∈ l, R a b := by
  induction h with
  | nil => exact ⟨by simp, by simp⟩
  | @cons a b l l' hab _ ih =>
    refine ⟨?_, ?_⟩
    · intro x hx
      rcases List.mem_cons.mp hx with rfl | hx
      · exact ⟨b, List.mem_cons_self, hab⟩
      · obtain ⟨y, hy, hxy⟩ := ih.1 x hx
        exact ⟨y, List.mem_cons_of_mem _ hy, hxy⟩
    · intro y hy
      rcases List.mem_cons.mp hy with rfl | hy
      · exact ⟨a, List.mem_cons_self, hab⟩
      · obtain ⟨x, hx, hxy⟩ := ih.2 y hy
        exact ⟨x, List.mem_cons_of_mem _ hx, hxy⟩

/-! ## §B What an opening is blamed for -/

theorem Builder.mem_keywordFaults {hasFeature late : Bool} {k : Keyword} {parent : NodeKind}
    {fault : Degradation.Kind} :
    fault ∈ keywordFaults hasFeature late k parent ↔
      fault = .duplicateFeature ∧ k = .feature ∧ hasFeature = true ∨
        fault = .misplaced k ∧ k ≠ .feature ∧ parent.mayHold k = false ∨
        fault = .stepAfterExamples ∧ k.isStep = true ∧ parent.mayHold k = true ∧ late = true := by
  by_cases hk : k = .feature
  · subst hk
    cases hasFeature <;> simp [keywordFaults, Keyword.isStep, Keyword.stepKeyword?]
  · rw [keywordFaults]
    · cases hholds : parent.mayHold k <;> cases hstep : k.isStep <;> cases late <;> simp [hk]
    · exact hk

theorem Opening.mem_faults {op : Opening} {before : List Opening} {id : Nat} {parent : NodeKind}
    {rest : List (Nat × NodeKind)} {fault : Degradation.Kind}
    (h : op.around = (id, parent) :: rest) :
    fault ∈ op.faults before ↔
      (∃ k, op.kind.keyword? = some k ∧
        fault ∈ Builder.keywordFaults (before.any (·.kind = .feature)) (op.late before) k parent) ∨
      (op.kind = .table ∧ parent.isStep = false ∧ parent ≠ .examples ∧
        fault = .tableOutsideStep) ∨
      (op.kind = .docString ∧ parent.isStep = false ∧ fault = .docStringOutsideStep) := by
  rw [faults, h]
  cases hk : op.kind with
  | table =>
    cases hstep : parent.isStep <;> by_cases hexamples : parent = .examples <;>
      simp [NodeKind.keyword?, hstep, hexamples]
  | docString => cases hstep : parent.isStep <;> simp [NodeKind.keyword?, hstep]
  | _ => simp [NodeKind.keyword?]

/-! ## §C Openings of an outline -/

namespace Outline

/-- The openings of the nodes of an outline. -/
def trace (o : Outline) : List Opening := o.root.trace 0 []

/-- **`o.Opens t n p`** — the token `t` opens the node `n` inside the node `p`. -/
structure Opens (o : Outline) (t : Token) (n p : Node) : Prop where
  node_eq : o.node? n.id = some n
  parent_eq : o.parent? n.id = some p.id
  parent_node : o.node? p.id = some p
  first_eq : n.toElement.tokens.head? = some t

/-- **`o.Traces op t n p`** — the opening is that of the node `n` inside `p` by the token `t`. -/
structure Traces (o : Outline) (op : Opening) (t : Token) (n p : Node) : Prop where
  mem : op ∈ o.trace
  opens : o.Opens t n p
  id_eq : n.id = op.id
  kind_eq : n.kind = op.kind
  around_eq : ∃ rest, op.around = (p.id, p.kind) :: rest
  token_eq : o.tokens[op.start]? = some t

theorem trace_parse (source : String) :
    (parse source).trace = ((tokenize source).foldl Builder.step {}).path.trace := by
  obtain ⟨-, -, -, -, htrace⟩ :=
    Builder.finish_of_reads (Builder.judged_tokenize source).reads (Text.byteSize source)
  exact htrace

theorem forall₂_trace (source : String) :
    List.Forall₂ (Opened (tokenize source)) (parse source).entries (parse source).trace := by
  have htokens : (tokenize source).drop 0 = (parse source).root.tokens ++ [] := by
    rw [tokens_root, List.append_nil]
    rfl
  exact Element.forall₂_entries 0 [] (parse source).root htokens

theorem ids_trace (source : String) :
    (parse source).trace.map (·.id) = List.range (parse source).entries.length := by
  rw [← ids_parse, entries, trace, Element.ids_entries none 0 [] (parse source).root]

theorem solid_of_mem_entries {source : String} {x : Entry} (hx : x ∈ (parse source).entries)
    (hparent : x.parent ≠ none) : x.node.toElement.Solid :=
  (solid_cases hx).resolve_right fun hroot => hparent hroot.1

/-- An entry and its opening make up a node that a token opens inside its parent. -/
theorem traces_of_opened {source : String} {x : Entry} {op : Opening}
    (hx : x ∈ (parse source).entries) (hop : op ∈ (parse source).trace)
    (hopened : Opened (tokenize source) x op) (hne : op.around ≠ []) :
    ∃ t p, (parse source).Traces op t x.node p := by
  have hids := ids_parse source
  have hall := exists_of_forall₂ (forall₂_trace source)
  -- The parent is the opening around, seen as an entry.
  obtain ⟨up, hup, haround⟩ :=
    (Element.around_of_mem 0 [] (parse source).root hop).resolve_left hne
  obtain ⟨y, hy, hyup⟩ := hall.2 up hup
  have hparent : x.parent = some y.node.id := by
    rw [hopened.parent_eq, haround, hyup.id_eq]
    rfl
  have hsolid := solid_of_mem_entries hx (by simp [hparent])
  obtain ⟨rest, hrest⟩ := hopened.tokens_eq
  obtain ⟨t, ts, hts⟩ := List.exists_cons_of_ne_nil (Element.tokens_ne_nil hsolid)
  refine ⟨t, y.node, hop, ⟨?_, ?_, ?_, ?_⟩, hopened.id_eq, hopened.kind_eq, ⟨up.around, ?_⟩, ?_⟩
  · exact (node?_eq_some_iff hids).mpr ⟨⟨x.parent, hx⟩, rfl⟩
  · exact (parent?_eq_some_iff hids).mpr ⟨x.node, hparent ▸ hx, rfl⟩
  · exact (node?_eq_some_iff hids).mpr ⟨⟨y.parent, hy⟩, rfl⟩
  · rw [hts]
    rfl
  · rw [haround, hyup.id_eq, hyup.kind_eq]
    rfl
  · show (tokenize source)[op.start]? = some t
    have hhead := congrArg List.head? hrest
    rwa [List.head?_drop, hts] at hhead

theorem exists_traces {source : String} {op : Opening} (hop : op ∈ (parse source).trace)
    (hne : op.around ≠ []) : ∃ t n p, (parse source).Traces op t n p := by
  obtain ⟨x, hx, hopened⟩ := (exists_of_forall₂ (forall₂_trace source)).2 op hop
  obtain ⟨t, p, htraces⟩ := traces_of_opened hx hop hopened hne
  exact ⟨t, x.node, p, htraces⟩

theorem exists_opening {source : String} {t : Token} {n p : Node}
    (h : (parse source).Opens t n p) : ∃ op, (parse source).Traces op t n p := by
  have hids := ids_parse source
  obtain ⟨n', hmem, hid⟩ := (parent?_eq_some_iff hids).mp h.parent_eq
  have hnode : n' = n := by
    have hsome := (node?_eq_some_iff hids).mpr ⟨⟨some p.id, hmem⟩, hid⟩
    exact Option.some.inj (hsome.symm.trans h.node_eq)
  subst hnode
  obtain ⟨op, hop, hopened⟩ := (exists_of_forall₂ (forall₂_trace source)).1 _ hmem
  have hne : op.around ≠ [] := by
    intro hnil
    have hparent := hopened.parent_eq
    rw [hnil] at hparent
    cases hparent
  obtain ⟨u, q, htraces⟩ := traces_of_opened hmem hop hopened hne
  -- The token and the parent are those of the node.
  have hu : u = t := Option.some.inj (htraces.opens.first_eq.symm.trans h.first_eq)
  have hq : q = p := by
    have hqid := Option.some.inj (htraces.opens.parent_eq.symm.trans h.parent_eq)
    have hqnode := htraces.opens.parent_node
    rw [hqid, h.parent_node] at hqnode
    exact (Option.some.inj hqnode).symm
  subst hu hq
  exact ⟨op, htraces⟩

/-! ## §D Recorded problems -/

theorem opened_of_traces {source : String} {op : Opening} {t : Token} {n p : Node}
    (h : (parse source).Traces op t n p) : t.kind.opens op.kind := by
  obtain ⟨rest, haround⟩ := h.around_eq
  have hop := h.mem
  rw [trace_parse] at hop
  obtain ⟨u, hu, hopens⟩ := (Builder.judged_tokenize source).opened op hop (by simp [haround])
  have hut : u = t := Option.some.inj (hu.symm.trans h.token_eq)
  exact hut ▸ hopens

theorem degradations_eq (source : String) :
    (parse source).degradations =
      (((tokenize source).foldl Builder.step {}).finish (Text.byteSize source)).2 := rfl

/-- A problem belongs to an opening, or to the end of the source. -/
theorem mem_degradations {source : String} {d : Degradation} :
    d ∈ (parse source).degradations ↔
      (∃ a op b t n p, (parse source).trace = a ++ op :: b ∧ (parse source).Traces op t n p ∧
        d.span = t.span ∧ d.kind ∈ op.faults a) ∨
      ((tokenize source).foldl Builder.step {}).inDocString = true ∧
        d = ⟨.unclosedDocString, Span.clamp ((tokenize source).foldl Builder.step {}).topStart
          (Text.byteSize source)⟩ ∨
      ((tokenize source).foldl Builder.step {}).hasFeature = false ∧
        d = ⟨.missingFeature, Span.clamp 0 (Text.byteSize source)⟩ := by
  have hjudged := Builder.judged_tokenize source
  rw [degradations_eq, Builder.finish_snd, List.mem_append, List.mem_append, hjudged.problems_eq,
    ← trace_parse]
  refine or_congr ?_ (or_congr ?_ ?_)
  · rw [mem_verdicts]
    constructor
    · rintro ⟨a, op, b, htrace, hd⟩
      have hne : op.around ≠ [] := by
        intro hroot
        rw [Opening.verdict, Opening.faults, hroot] at hd
        split at hd <;> simp at hd
      obtain ⟨t, n, p, htraces⟩ := exists_traces (by rw [htrace]; simp) hne
      have htoken : (tokenize source)[op.start]? = some t := htraces.token_eq
      rw [Opening.verdict_of_getElem? htoken] at hd
      obtain ⟨fault, hfault, rfl⟩ := List.mem_map.mp hd
      exact ⟨a, op, b, t, n, p, htrace, htraces, rfl, hfault⟩
    · rintro ⟨a, op, b, t, n, p, htrace, htraces, hspan, hfault⟩
      refine ⟨a, op, b, htrace, ?_⟩
      have htoken : (tokenize source)[op.start]? = some t := htraces.token_eq
      rw [Opening.verdict_of_getElem? htoken]
      refine List.mem_map.mpr ⟨d.kind, hfault, ?_⟩
      rw [← hspan]
  · cases ((tokenize source).foldl Builder.step {}).inDocString <;> simp
  · cases ((tokenize source).foldl Builder.step {}).hasFeature <;> simp

/-- A fault of a node, in the terms of its tree. -/
theorem mem_faults_of_traces {source : String} {op : Opening} {t : Token} {n p : Node}
    {before : List Opening} {fault : Degradation.Kind} (h : (parse source).Traces op t n p) :
    fault ∈ op.faults before ↔
      (∃ k, t.kind = .keyword k ∧
        fault ∈ Builder.keywordFaults (before.any (·.kind = .feature)) (op.late before) k p.kind) ∨
      (n.kind = .table ∧ p.kind.isStep = false ∧ p.kind ≠ .examples ∧ fault = .tableOutsideStep) ∨
      (n.kind = .docString ∧ p.kind.isStep = false ∧ fault = .docStringOutsideStep) := by
  obtain ⟨rest, haround⟩ := h.around_eq
  rw [Opening.mem_faults haround, h.kind_eq]
  simp only [TokenKind.eq_keyword_iff (opened_of_traces h)]

/-- A problem of one kind that belongs to an opening. -/
theorem mem_degradations_iff {source : String} {kind : Degradation.Kind} {s : Span}
    (hunclosed : kind ≠ .unclosedDocString) (hmissing : kind ≠ .missingFeature) :
    ⟨kind, s⟩ ∈ (parse source).degradations ↔
      ∃ a op b t n p, (parse source).trace = a ++ op :: b ∧ (parse source).Traces op t n p ∧
        s = t.span ∧ kind ∈ op.faults a := by
  rw [mem_degradations]
  simp [hunclosed, hmissing]

/-- Openings before another are those of smaller numbers. -/
theorem mem_before_iff {source : String} {a b : List Opening} {op x : Opening}
    (htrace : (parse source).trace = a ++ op :: b) :
    x ∈ a ↔ x ∈ (parse source).trace ∧ x.id < op.id := by
  have hincreasing : ((parse source).trace.map (·.id)).Pairwise (· < ·) := by
    rw [ids_trace]
    exact List.pairwise_lt_range
  rw [htrace, List.map_append, List.pairwise_append] at hincreasing
  obtain ⟨-, hbehind, hacross⟩ := hincreasing
  constructor
  · intro hx
    refine ⟨by rw [htrace]; exact List.mem_append_left _ hx, ?_⟩
    exact hacross x.id (List.mem_map_of_mem hx) op.id (by simp)
  · rintro ⟨hx, hlt⟩
    rw [htrace] at hx
    rcases List.mem_append.mp hx with hx | hx
    · exact hx
    · rcases List.mem_cons.mp hx with rfl | hx
      · omega
      · have hle : op.id < x.id :=
          (List.pairwise_cons.mp hbehind).1 x.id (List.mem_map_of_mem hx)
        omega

/-- The openings of a kind are the nodes of the kind. -/
theorem exists_opening_iff {source : String} {kind : NodeKind} {bound : Nat} :
    (∃ op ∈ (parse source).trace, op.kind = kind ∧ op.id < bound) ↔
      ∃ m ∈ (parse source).nodes, m.kind = kind ∧ m.id < bound := by
  have hall := exists_of_forall₂ (forall₂_trace source)
  constructor
  · rintro ⟨op, hop, hkind, hid⟩
    obtain ⟨x, hx, hopened⟩ := hall.2 op hop
    exact ⟨x.node, List.mem_map_of_mem hx, hopened.kind_eq.trans hkind, hopened.id_eq ▸ hid⟩
  · rintro ⟨m, hm, hkind, hid⟩
    obtain ⟨x, hx, rfl⟩ := List.mem_map.mp hm
    obtain ⟨op, hop, hopened⟩ := hall.1 x hx
    exact ⟨op, hop, hopened.kind_eq.symm.trans hkind, hopened.id_eq ▸ hid⟩

/-! ## §E Nodes around a node -/

/-- **`o.Within a b`** — the node `b` is the node `a` or lies below it. -/
inductive Within (o : Outline) (a : Nat) : Nat → Prop
  | self : Within o a a
  | child {b c : Nat} : o.parent? c = some b → Within o a b → Within o a c

/-- The node around an opening, as an opening. -/
theorem exists_up {source : String} {op : Opening} (hop : op ∈ (parse source).trace)
    (hne : op.around ≠ []) :
    ∃ up ∈ (parse source).trace, op.around = up.chain ∧
      (parse source).parent? op.id = some up.id := by
  obtain ⟨up, hup, haround⟩ :=
    (Element.around_of_mem 0 [] (parse source).root hop).resolve_left hne
  obtain ⟨t, n, p, htraces⟩ := exists_traces hop hne
  obtain ⟨rest, hrest⟩ := htraces.around_eq
  refine ⟨up, hup, haround, ?_⟩
  have hid : p.id = up.id := by
    rw [haround] at hrest
    exact (congrArg Prod.fst (List.cons.inj hrest).1).symm
  rw [← htraces.id_eq, htraces.opens.parent_eq, hid]

/-- The nodes on the chain of an opening are the nodes that it lies within. -/
theorem within_iff_mem_chain {source : String} {op : Opening} (hop : op ∈ (parse source).trace)
    (x : Nat) : (parse source).Within x op.id ↔ ∃ kind, (x, kind) ∈ op.chain := by
  have hids := ids_parse source
  constructor
  · intro h
    generalize hid : op.id = c at h
    induction h generalizing op with
    | self => exact ⟨op.kind, by rw [← hid]; exact List.mem_cons_self⟩
    | @child b c hparent _ ih =>
      have hne : op.around ≠ [] := by
        intro hroot
        obtain ⟨y, hy, hopened⟩ := (exists_of_forall₂ (forall₂_trace source)).2 op hop
        have hentry := (entry?_eq_some_iff hids).mpr ⟨hy, hopened.id_eq.trans hid⟩
        rw [parent?, hentry] at hparent
        have := hopened.parent_eq
        rw [hroot] at this
        simp [this] at hparent
      obtain ⟨up, hup, haround, hupid⟩ := exists_up hop hne
      rw [hid, hparent] at hupid
      obtain ⟨kind, hmem⟩ := ih hup (Option.some.inj hupid).symm
      exact ⟨kind, List.mem_cons_of_mem _ (haround ▸ hmem)⟩
  · rintro ⟨kind, hmem⟩
    generalize hlength : op.chain.length = length
    induction length generalizing op with
    | zero => simp [Opening.chain] at hlength
    | succ length ih =>
      rcases List.mem_cons.mp hmem with heq | hmem
      · obtain ⟨rfl, -⟩ := Prod.mk.inj heq
        exact .self
      · obtain ⟨up, hup, haround, hupid⟩ := exists_up hop (List.ne_nil_of_mem hmem)
        refine .child hupid (ih hup (haround ▸ hmem) ?_)
        rw [← haround]
        simpa [Opening.chain] using hlength

/-- The kind of a node on the chain of an opening, and its number. -/
theorem kind_of_mem_chain {source : String} {op : Opening} (hop : op ∈ (parse source).trace)
    {x : Nat} {kind : NodeKind} (hmem : (x, kind) ∈ op.chain) :
    (parse source).kind? x = some kind ∧ x ≤ op.id := by
  have hids := ids_parse source
  generalize hlength : op.chain.length = length
  induction length generalizing op with
  | zero => simp [Opening.chain] at hlength
  | succ length ih =>
    rcases List.mem_cons.mp hmem with heq | hmem
    · obtain ⟨y, hy, hopened⟩ := (exists_of_forall₂ (forall₂_trace source)).2 op hop
      obtain ⟨rfl, rfl⟩ := Prod.mk.inj heq
      refine ⟨?_, Nat.le_refl _⟩
      rw [kind?, (node?_eq_some_iff hids).mpr ⟨⟨y.parent, hy⟩, hopened.id_eq⟩]
      exact congrArg some hopened.kind_eq
    · obtain ⟨up, hup, haround, hupid⟩ := exists_up hop (List.ne_nil_of_mem hmem)
      have hlt := parent_lt_of_ids hids hupid
      obtain ⟨hkind, hle⟩ := ih hup (haround ▸ hmem) (by
        rw [← haround]
        simpa [Opening.chain] using hlength)
      exact ⟨hkind, by omega⟩

/-- Numbers fall along a chain. -/
theorem pairwise_chain {source : String} {op : Opening} (hop : op ∈ (parse source).trace) :
    op.chain.Pairwise fun l l' => l'.1 < l.1 := by
  have hids := ids_parse source
  generalize hlength : op.chain.length = length
  induction length generalizing op with
  | zero => simp [Opening.chain] at hlength
  | succ length ih =>
    by_cases hroot : op.around = []
    · rw [Opening.chain, hroot]
      exact List.pairwise_singleton _ _
    · obtain ⟨up, hup, haround, hupid⟩ := exists_up hop hroot
      have hlt := parent_lt_of_ids hids hupid
      refine List.pairwise_cons.mpr ⟨?_, ?_⟩
      · rintro ⟨x, kind⟩ hl
        have hle := (kind_of_mem_chain hup (haround ▸ hl)).2
        show x < op.id
        omega
      · rw [haround]
        refine ih hup ?_
        rw [← haround]
        simpa [Opening.chain] using hlength

theorem id_eq_length {source : String} {a b : List Opening} {op : Opening}
    (htrace : (parse source).trace = a ++ op :: b) : op.id = a.length := by
  have hget := congrArg (·[a.length]?) (ids_trace source)
  simp only [htrace, List.map_append, List.map_cons] at hget
  rw [List.getElem?_append_right (by simp), List.length_map, Nat.sub_self,
    List.getElem?_cons_zero] at hget
  obtain ⟨hlt, heq⟩ := List.getElem?_eq_some_iff.mp hget.symm
  rw [← heq, List.getElem_range]

/-- A node is late when the node opened before it lies in examples that were opened inside its
parent. -/
theorem late_iff {source : String} {a b : List Opening} {op : Opening} {t : Token} {n p : Node}
    (htrace : (parse source).trace = a ++ op :: b) (h : (parse source).Traces op t n p) :
    op.late a = true ↔
      ∃ x, (parse source).kind? x = some .examples ∧ p.id < x ∧
        (parse source).Within x (n.id - 1) := by
  obtain ⟨rest, haround⟩ := h.around_eq
  obtain ⟨up, hup, hupchain, hupid⟩ := exists_up h.mem (by simp [haround])
  have hlt := parent_lt_of_ids (ids_parse source) hupid
  -- The parent comes before, so there is an opening just before, with the number before.
  have hane : a ≠ [] := List.ne_nil_of_mem ((mem_before_iff htrace).mpr ⟨hup, hlt⟩)
  obtain ⟨front, prev, rfl⟩ := (List.eq_nil_or_concat a).resolve_left hane
  rw [List.concat_eq_append] at htrace ⊢
  have hchain := Element.isChain_trace 0 [] (parse source).root
  change (parse source).trace.IsChain _ at hchain
  rw [htrace, List.isChain_append] at hchain
  obtain ⟨inner, hinner⟩ := hchain.2.2 prev (by simp) op rfl
  have hprev : prev ∈ (parse source).trace := by simp [htrace]
  have hprevid : prev.id = n.id - 1 := by
    have hopid := id_eq_length htrace
    rw [List.append_assoc] at htrace
    have hfront := id_eq_length htrace
    rw [List.length_append, List.length_singleton] at hopid
    rw [h.id_eq]
    omega
  have hlate : op.late (front ++ [prev]) = inner.any fun l => l.2 = .examples := by
    have htake : prev.chain.length - op.around.length = inner.length := by
      rw [← hinner, List.length_append, Nat.add_sub_cancel]
    rw [Opening.late, List.getLast?_concat]
    show (prev.chain.take (prev.chain.length - op.around.length)).any _ = _
    rw [htake, ← hinner, List.take_left]
  rw [hlate, List.any_eq_true, ← hprevid]
  constructor
  · rintro ⟨⟨x, kind⟩, hmem, hkind⟩
    simp only [decide_eq_true_eq] at hkind
    subst hkind
    have hmemchain : (x, NodeKind.examples) ∈ prev.chain := hinner ▸ List.mem_append_left _ hmem
    refine ⟨x, (kind_of_mem_chain hprev hmemchain).1, ?_,
      (within_iff_mem_chain hprev x).mpr ⟨_, hmemchain⟩⟩
    have hfall := pairwise_chain hprev
    rw [← hinner, List.pairwise_append] at hfall
    exact hfall.2.2 _ hmem (p.id, p.kind) (by simp [haround])
  · rintro ⟨x, hkind, hx, hwithin⟩
    obtain ⟨kind, hmem⟩ := (within_iff_mem_chain hprev x).mp hwithin
    have hsame := (kind_of_mem_chain hprev hmem).1
    rw [hkind] at hsame
    obtain rfl := Option.some.inj hsame
    rw [← hinner] at hmem
    rcases List.mem_append.mp hmem with hmem | hmem
    · exact ⟨(x, .examples), hmem, by simp⟩
    · -- The nodes around the parent have smaller numbers.
      have hle := (kind_of_mem_chain hup (hupchain ▸ hmem)).2
      have hpid : p.id = up.id := by
        rw [hupchain] at haround
        exact (congrArg Prod.fst (List.cons.inj haround).1).symm
      omega

/-! ## §F What is recorded -/

/-- **`o.ShowsFaults source`** — the recorded problems of a source are the faults that its tree
shows. -/
structure ShowsFaults (source : String) (o : Outline) : Prop extends Covers source o where
  /-- Every keyword opens one node, of its kind. -/
  keyword_opens : ∀ t ∈ o.tokens, ∀ k, t.kind = .keyword k →
    ∃ n p, o.Opens t n p ∧ n.kind.keyword? = some k ∧
      ∀ n' p', o.Opens t n' p' → n' = n ∧ p' = p
  /-- Every node is opened by a token that opens such nodes. -/
  opens_kind : ∀ t n p, o.Opens t n p → t ∈ o.tokens ∧ t.kind.opens n.kind
  /-- A keyword is misplaced when the parent of its node may not hold it. -/
  misplaced_iff : ∀ k s, ⟨.misplaced k, s⟩ ∈ o.degradations ↔
    ∃ t n p, o.Opens t n p ∧ t.span = s ∧ t.kind = .keyword k ∧ p.kind.mayHold k = false
  /-- Features stand in the file. -/
  feature_parent : ∀ t n p, o.Opens t n p → n.kind = .feature → p.kind = .file
  /-- Features are never misplaced. -/
  feature_placed : ∀ s, ⟨.misplaced .feature, s⟩ ∉ o.degradations
  /-- Every feature but the first is a duplicate. -/
  duplicate_iff : ∀ s, ⟨.duplicateFeature, s⟩ ∈ o.degradations ↔
    ∃ t n p, o.Opens t n p ∧ t.span = s ∧ n.kind = .feature ∧
      ∃ m ∈ o.nodes, m.kind = .feature ∧ m.id < n.id
  /-- A step comes late when the node before it lies in examples inside the parent. -/
  late_step_iff : ∀ s, ⟨.stepAfterExamples, s⟩ ∈ o.degradations ↔
    ∃ t n p, o.Opens t n p ∧ t.span = s ∧ n.kind.isStep = true ∧ p.kind.holdsSteps = true ∧
      ∃ x, o.kind? x = some .examples ∧ p.id < x ∧ o.Within x (n.id - 1)
  /-- A table belongs into a step or into examples. -/
  table_iff : ∀ s, ⟨.tableOutsideStep, s⟩ ∈ o.degradations ↔
    ∃ t n p, o.Opens t n p ∧ t.span = s ∧ n.kind = .table ∧ p.kind.isStep = false ∧
      p.kind ≠ .examples
  /-- A doc string belongs into a step. -/
  docString_iff : ∀ s, ⟨.docStringOutsideStep, s⟩ ∈ o.degradations ↔
    ∃ t n p, o.Opens t n p ∧ t.span = s ∧ n.kind = .docString ∧ p.kind.isStep = false
  /-- A doc string is not closed when the number of delimiters is odd; it begins at the last. -/
  unclosed_iff : ∀ s, ⟨.unclosedDocString, s⟩ ∈ o.degradations ↔
    Builder.delimiters o.tokens % 2 = 1 ∧ s.stop = Text.byteSize o.source ∧
      ∃ a t b, o.tokens = a ++ t :: b ∧ t.kind = .docStringDelimiter ∧
        (∀ u ∈ b, u.kind ≠ .docStringDelimiter) ∧ s.start = t.span.start
  /-- A source without a feature is recorded as a whole. -/
  missing_iff : ∀ s, ⟨.missingFeature, s⟩ ∈ o.degradations ↔
    (∀ n ∈ o.nodes, n.kind ≠ .feature) ∧ s.start = 0 ∧ s.stop = Text.byteSize o.source
  /-- The problems are recorded in the order in which they begin. -/
  in_order : o.degradations.Pairwise Degradation.Before
  /-- Each is recorded once. -/
  once : o.degradations.Nodup

section Source

variable {source : String}

/-- A fault of one kind at an opening, for the faults that depend on the parent alone. -/
theorem mem_degradations_of_faults {kind : Degradation.Kind} {s : Span}
    {Shown : Token → Node → Node → Prop} (hunclosed : kind ≠ .unclosedDocString)
    (hmissing : kind ≠ .missingFeature)
    (hshown : ∀ a op b t n p, (parse source).trace = a ++ op :: b →
      (parse source).Traces op t n p → (kind ∈ op.faults a ↔ Shown t n p)) :
    ⟨kind, s⟩ ∈ (parse source).degradations ↔
      ∃ t n p, (parse source).Opens t n p ∧ t.span = s ∧ Shown t n p := by
  rw [mem_degradations_iff hunclosed hmissing]
  constructor
  · rintro ⟨a, op, b, t, n, p, htrace, htraces, rfl, hfault⟩
    exact ⟨t, n, p, htraces.opens, rfl, (hshown a op b t n p htrace htraces).mp hfault⟩
  · rintro ⟨t, n, p, hopens, rfl, hfault⟩
    obtain ⟨op, htraces⟩ := exists_opening hopens
    obtain ⟨a, b, htrace⟩ := List.append_of_mem htraces.mem
    exact ⟨a, op, b, t, n, p, htrace, htraces, rfl,
      (hshown a op b t n p htrace htraces).mpr hfault⟩

theorem feature_parent_of_opens {t : Token} {n p : Node} (h : (parse source).Opens t n p)
    (hfeature : n.kind = .feature) : p.kind = .file := by
  obtain ⟨op, htraces⟩ := exists_opening h
  obtain ⟨rest, haround⟩ := htraces.around_eq
  have hop := htraces.mem
  rw [trace_parse] at hop
  obtain ⟨id, hfile⟩ := (Builder.judged_tokenize source).feature_around op hop
    (htraces.kind_eq.symm.trans hfeature)
  rw [hfile] at haround
  exact (congrArg Prod.snd (List.cons.inj haround).1).symm

theorem kind_of_feature {t : Token} {n p : Node} (h : (parse source).Opens t n p)
    (hk : t.kind = .keyword .feature) : n.kind = .feature := by
  obtain ⟨op, htraces⟩ := exists_opening h
  have hkeyword := (TokenKind.eq_keyword_iff (opened_of_traces htraces) .feature).mp hk
  exact htraces.kind_eq.trans (NodeKind.keyword?_eq_feature.mp hkeyword)

theorem misplaced_mem_iff (k : Keyword) (s : Span) :
    ⟨.misplaced k, s⟩ ∈ (parse source).degradations ↔
      ∃ t n p, (parse source).Opens t n p ∧ t.span = s ∧
        t.kind = .keyword k ∧ p.kind.mayHold k = false := by
  refine mem_degradations_of_faults (by simp) (by simp) ?_
  intro a op b t n p _ htraces
  rw [mem_faults_of_traces htraces]
  simp only [Builder.mem_keywordFaults, Degradation.Kind.misplaced.injEq, reduceCtorEq, false_and,
    and_false, or_false, false_or]
  constructor
  · rintro ⟨k', hk', rfl, -, hholds⟩
    exact ⟨hk', hholds⟩
  · rintro ⟨hk, hholds⟩
    refine ⟨k, hk, rfl, ?_, hholds⟩
    -- A feature stands in the file, which may hold it.
    rintro rfl
    rw [feature_parent_of_opens htraces.opens (kind_of_feature htraces.opens hk)] at hholds
    cases hholds

theorem duplicate_mem_iff (s : Span) :
    ⟨.duplicateFeature, s⟩ ∈ (parse source).degradations ↔
      ∃ t n p, (parse source).Opens t n p ∧ t.span = s ∧
        n.kind = .feature ∧ ∃ m ∈ (parse source).nodes, m.kind = .feature ∧ m.id < n.id := by
  refine mem_degradations_of_faults (by simp) (by simp) ?_
  intro a op b t n p htrace htraces
  rw [mem_faults_of_traces htraces]
  simp only [Builder.mem_keywordFaults, reduceCtorEq, false_and, and_false, or_false, true_and]
  have hbefore : a.any (·.kind = .feature) = true ↔
      ∃ m ∈ (parse source).nodes, m.kind = .feature ∧ m.id < n.id := by
    rw [htraces.id_eq, ← exists_opening_iff, List.any_eq_true]
    constructor
    · rintro ⟨x, hx, hkind⟩
      obtain ⟨hmem, hlt⟩ := (mem_before_iff htrace).mp hx
      exact ⟨x, hmem, by simpa using hkind, hlt⟩
    · rintro ⟨x, hmem, hkind, hlt⟩
      exact ⟨x, (mem_before_iff htrace).mpr ⟨hmem, hlt⟩, by simpa using hkind⟩
  have hkeyword := TokenKind.eq_keyword_iff (opened_of_traces htraces) .feature
  rw [NodeKind.keyword?_eq_feature, ← htraces.kind_eq] at hkeyword
  rw [← hbefore, ← hkeyword]
  constructor
  · rintro ⟨k, hk, rfl, hany⟩
    exact ⟨hk, hany⟩
  · rintro ⟨hk, hany⟩
    exact ⟨.feature, hk, rfl, hany⟩

theorem late_mem_iff (s : Span) :
    ⟨.stepAfterExamples, s⟩ ∈ (parse source).degradations ↔
      ∃ t n p, (parse source).Opens t n p ∧ t.span = s ∧
        n.kind.isStep = true ∧ p.kind.holdsSteps = true ∧
          ∃ x, (parse source).kind? x = some .examples ∧ p.id < x ∧
            (parse source).Within x (n.id - 1) := by
  refine mem_degradations_of_faults (by simp) (by simp) ?_
  intro a op b t n p htrace htraces
  rw [mem_faults_of_traces htraces, ← late_iff htrace htraces, htraces.kind_eq]
  simp only [Builder.mem_keywordFaults, reduceCtorEq, false_and, and_false, or_false, false_or,
    true_and, TokenKind.eq_keyword_iff (opened_of_traces htraces)]
  constructor
  · rintro ⟨k, hk, hstep, hholds, hlate⟩
    cases k with
    | step k => 
      refine ⟨?_, hholds, hlate⟩
      cases hkind : op.kind <;> simp_all [NodeKind.keyword?, NodeKind.isStep]
    | _ => cases hstep
  · rintro ⟨hstep, hholds, hlate⟩
    cases hkind : op.kind with
    | step k stands => exact ⟨.step k, rfl, rfl, hholds, hlate⟩
    | _ => simp [hkind, NodeKind.isStep] at hstep

theorem table_mem_iff (s : Span) :
    ⟨.tableOutsideStep, s⟩ ∈ (parse source).degradations ↔
      ∃ t n p, (parse source).Opens t n p ∧ t.span = s ∧
        n.kind = .table ∧ p.kind.isStep = false ∧ p.kind ≠ .examples := by
  refine mem_degradations_of_faults (by simp) (by simp) ?_
  intro a op b t n p _ htraces
  rw [mem_faults_of_traces htraces]
  simp [Builder.mem_keywordFaults]

theorem docString_mem_iff (s : Span) :
    ⟨.docStringOutsideStep, s⟩ ∈ (parse source).degradations ↔
      ∃ t n p, (parse source).Opens t n p ∧ t.span = s ∧
        n.kind = .docString ∧ p.kind.isStep = false := by
  refine mem_degradations_of_faults (by simp) (by simp) ?_
  intro a op b t n p _ htraces
  rw [mem_faults_of_traces htraces]
  simp [Builder.mem_keywordFaults]

/-- The faults of openings are neither of the two that belong to the end. -/
theorem not_mem_faults {op : Opening} {t : Token} {n p : Node} {before : List Opening}
    (h : (parse source).Traces op t n p) :
    .unclosedDocString ∉ op.faults before ∧ .missingFeature ∉ op.faults before := by
  rw [mem_faults_of_traces h, mem_faults_of_traces h]
  simp [Builder.mem_keywordFaults]

theorem missing_mem_iff (s : Span) :
    ⟨.missingFeature, s⟩ ∈ (parse source).degradations ↔
      (∀ n ∈ (parse source).nodes, n.kind ≠ .feature) ∧ s.start = 0 ∧
        s.stop = Text.byteSize source := by
  have hnone : ((tokenize source).foldl Builder.step {}).hasFeature = false ↔
      ∀ n ∈ (parse source).nodes, n.kind ≠ .feature := by
    rw [(Builder.judged_tokenize source).hasFeature_eq, ← trace_parse, List.any_eq_false]
    have hall := exists_of_forall₂ (forall₂_trace source)
    constructor
    · intro h n hn hfeature
      obtain ⟨x, hx, rfl⟩ := List.mem_map.mp hn
      obtain ⟨op, hop, hopened⟩ := hall.1 x hx
      exact h op hop (by simpa using hopened.kind_eq.symm.trans hfeature)
    · intro h op hop hfeature
      obtain ⟨x, hx, hopened⟩ := hall.2 op hop
      exact h x.node (List.mem_map_of_mem hx) (hopened.kind_eq.trans (by simpa using hfeature))
  rw [mem_degradations, ← hnone]
  constructor
  · rintro (⟨a, op, b, t, n, p, -, htraces, -, hfault⟩ | ⟨-, hd⟩ | ⟨hfeature, hd⟩)
    · exact absurd hfault (not_mem_faults htraces).2
    · cases hd
    · injection hd with _ hs
      subst hs
      exact ⟨hfeature, rfl, Nat.zero_max _⟩
  · rintro ⟨hfeature, hstart, hstop⟩
    refine Or.inr (Or.inr ⟨hfeature, ?_⟩)
    obtain ⟨start, stop, hle⟩ := s
    subst hstart hstop
    simp [Span.clamp]

/-- The last delimiter of tokens is one token. -/
theorem getLast?_delimiters {a b : List Token} {t : Token} (ht : t.kind = .docStringDelimiter)
    (hb : ∀ u ∈ b, u.kind ≠ .docStringDelimiter) :
    ((a ++ t :: b).filter fun u => u.kind = .docStringDelimiter).getLast? = some t := by
  have hnone : b.filter (fun u => u.kind = .docStringDelimiter) = [] := by
    refine List.filter_eq_nil_iff.mpr ?_
    intro u hu
    simpa using hb u hu
  rw [List.filter_append, List.filter_cons_of_pos (by simpa using ht), hnone, List.getLast?_concat]

/-- Where the innermost node begins when a doc string is open. -/
theorem topStart_eq {a b : List Token} {t : Token} (htokens : tokenize source = a ++ t :: b)
    (ht : t.kind = .docStringDelimiter) (hb : ∀ u ∈ b, u.kind ≠ .docStringDelimiter)
    (hdoc : ((tokenize source).foldl Builder.step {}).inDocString = true) :
    ((tokenize source).foldl Builder.step {}).topStart = t.span.start ∧
      t.span.start ≤ Text.byteSize source := by
  obtain ⟨a', u, b', htokens', hu, hb', htop⟩ :=
    (Builder.judged_tokenize source).delimiter_last hdoc
  have hlast := getLast?_delimiters (a := a) ht hb
  rw [← htokens, htokens', getLast?_delimiters hu hb'] at hlast
  obtain rfl := Option.some.inj hlast
  refine ⟨?_, ?_⟩
  · rw [Builder.topStart, htop]
  · obtain ⟨htext, hstart, -, -⟩ := (tiles_tokenize source).position htokens
    rw [textOfTokens_tokenize] at htext
    rw [hstart, Text.byteSize, htext, Text.byteLength_append]
    exact Nat.le_add_right _ _

/-- The end of a source with an open doc string. -/
theorem unclosed_mem_iff (s : Span) :
    ⟨.unclosedDocString, s⟩ ∈ (parse source).degradations ↔
      Builder.delimiters (tokenize source) % 2 = 1 ∧ s.stop = Text.byteSize source ∧
        ∃ a t b, tokenize source = a ++ t :: b ∧ t.kind = .docStringDelimiter ∧
          (∀ u ∈ b, u.kind ≠ .docStringDelimiter) ∧ s.start = t.span.start := by
  have hjudged := Builder.judged_tokenize source
  have hodd : ((tokenize source).foldl Builder.step {}).inDocString = true ↔
      Builder.delimiters (tokenize source) % 2 = 1 := by
    rw [hjudged.inDocString_eq, decide_eq_true_iff]
  rw [mem_degradations, ← hodd]
  constructor
  · rintro (⟨a, op, b, t, n, p, -, htraces, -, hfault⟩ | ⟨hdoc, hd⟩ | ⟨-, hd⟩)
    · exact absurd hfault (not_mem_faults htraces).1
    · obtain ⟨a, t, b, htokens, ht, hb, -⟩ := hjudged.delimiter_last hdoc
      obtain ⟨hstart, hle⟩ := topStart_eq htokens ht hb hdoc
      injection hd with _ hs
      rw [hstart] at hs
      subst hs
      exact ⟨hdoc, Nat.max_eq_right hle, a, t, b, htokens, ht, hb, rfl⟩
    · cases hd
  · rintro ⟨hdoc, hstop, a, t, b, htokens, ht, hb, hs⟩
    obtain ⟨hstart, hle⟩ := topStart_eq htokens ht hb hdoc
    refine Or.inr (Or.inl ⟨hdoc, ?_⟩)
    obtain ⟨start, stop, hspan⟩ := s
    subst hs hstop
    rw [hstart]
    simp [Span.clamp, Nat.max_eq_right hle]

/-- What is recorded at a delimiter is that its doc string is out of place. -/
theorem kind_of_delimiter {d : Degradation} {u : Token} (hd : d ∈ (parse source).degradations)
    (hunclosed : d.kind ≠ .unclosedDocString) (hmissing : d.kind ≠ .missingFeature)
    (hu : u ∈ tokenize source) (hk : u.kind = .docStringDelimiter) (hspan : d.span = u.span) :
    d.kind = .docStringOutsideStep := by
  obtain ⟨a, op, b, t, n, p, -, htraces, ht, hfault⟩ :=
    (mem_degradations_iff hunclosed hmissing).mp hd
  obtain rfl : t = u := by
    have htoken : t ∈ tokenize source := List.mem_of_getElem? htraces.token_eq
    refine (tiles_tokenize source).eq_of_start htoken hu ?_
    rw [← ht, hspan]
  have hopens := opened_of_traces htraces
  rw [hk, ← htraces.kind_eq] at hopens
  have hkind : n.kind = .docString := hopens
  rw [mem_faults_of_traces htraces] at hfault
  rcases hfault with ⟨k, hkeyword, -⟩ | ⟨htable, -⟩ | ⟨-, -, hfault⟩
  · rw [hk] at hkeyword
    cases hkeyword
  · rw [hkind] at htable
    cases htable
  · exact hfault

/-- **The problems of a source are recorded in order.** -/
theorem pairwise_degradations (source : String) :
    (parse source).degradations.Pairwise Degradation.Before := by
  have hjudged := Builder.judged_tokenize source
  have horder := Builder.inOrder_foldl (tokenize source)
  have hstarts : ((tokenize source).map (·.span)).Pairwise fun s s' => s.start < s'.start :=
    List.pairwise_map.mpr (tiles_tokenize source).pairwise_start
  have hmem : ∀ d ∈ ((tokenize source).foldl Builder.step {}).problems.reverse,
      d ∈ (parse source).degradations := by
    intro d hd
    rw [degradations_eq, Builder.finish_snd]
    exact List.mem_append_left _ hd
  rw [degradations_eq, Builder.finish_snd, List.pairwise_append]
  refine ⟨?_, ?_, ?_⟩
  · -- At the tokens: no two at the same one.
    have hsublist := horder.spans_sublist.trans ((Builder.judgedTokens_sublist _ _).map _)
    refine (List.pairwise_map.mp (hstarts.sublist hsublist)).imp_of_mem ?_
    intro d d' hd _ hlt
    exact ⟨(horder.kind_ne d hd).2, Or.inr (Or.inl hlt)⟩
  · cases ((tokenize source).foldl Builder.step {}).inDocString <;>
      cases ((tokenize source).foldl Builder.step {}).hasFeature <;> simp [Degradation.Before]
  · intro d hd d' hd'
    obtain ⟨hunclosed, hmissing⟩ := horder.kind_ne d hd
    refine ⟨hmissing, ?_⟩
    rcases List.mem_append.mp hd' with hd' | hd'
    · cases hdoc : ((tokenize source).foldl Builder.step {}).inDocString with
      | false => simp [hdoc] at hd'
      | true =>
        rw [hdoc, if_pos rfl, List.mem_singleton] at hd'
        subst hd'
        -- Nothing is recorded behind the delimiter of the open doc string.
        obtain ⟨a, u, rest, htokens, hk, hrest, -⟩ := hjudged.delimiter_last hdoc
        obtain ⟨hstart, -⟩ := topStart_eq htokens hk hrest hdoc
        have hspan := horder.spans_sublist.mem (List.mem_map_of_mem hd)
        rw [Builder.judgedTokens, if_pos hdoc, htokens,
          Builder.throughDelimiter_append hk hrest, List.map_append, List.mem_append] at hspan
        show _ ∨ d.span.start < Builder.topStart _ ∨ d.span.start = Builder.topStart _ ∧ _
        rw [hstart]
        rcases hspan with hspan | hspan
        · rw [htokens, List.map_append] at hstarts
          exact Or.inr (Or.inl ((List.pairwise_append.mp hstarts).2.2 _ hspan _ (by simp)))
        · have hu : d.span = u.span := List.mem_singleton.mp hspan
          refine Or.inr (Or.inr ⟨congrArg Span.start hu, ?_, rfl⟩)
          exact kind_of_delimiter (hmem d hd) hunclosed hmissing (by rw [htokens]; simp) hk hu
    · cases hfeature : ((tokenize source).foldl Builder.step {}).hasFeature with
      | true => simp [hfeature] at hd'
      | false =>
        rw [hfeature] at hd'
        rw [List.mem_singleton.mp hd']
        exact Or.inl rfl

/-- A keyword opens one node. -/
theorem opens_of_keyword {t : Token} {k : Keyword} (ht : t ∈ tokenize source)
    (hk : t.kind = .keyword k) :
    ∃ n p, (parse source).Opens t n p ∧ n.kind.keyword? = some k ∧
      ∀ n' p', (parse source).Opens t n' p' → n' = n ∧ p' = p := by
  obtain ⟨i, hi⟩ := List.mem_iff_getElem?.mp ht
  obtain ⟨op, honly⟩ := (Builder.judged_tokenize source).keyword_opened i t k hi hk
  rw [← trace_parse] at honly
  have hmem : op ∈ Builder.openingsAt (parse source).trace i := by rw [honly]; simp
  rw [Builder.openingsAt, List.mem_filter] at hmem
  simp only [Bool.and_eq_true, beq_iff_eq, Bool.not_eq_true', List.isEmpty_eq_false_iff] at hmem
  obtain ⟨hop, hstart, hne⟩ := hmem
  obtain ⟨u, n, p, htraces⟩ := exists_traces hop hne
  have hut : u = t := by
    have hu : (tokenize source)[op.start]? = some u := htraces.token_eq
    rw [hstart, hi] at hu
    exact (Option.some.inj hu).symm
  subst hut
  refine ⟨n, p, htraces.opens, ?_, ?_⟩
  · rw [htraces.kind_eq]
    exact (TokenKind.eq_keyword_iff (opened_of_traces htraces) k).mp hk
  · -- Another node opened by the token would be another opening at it.
    intro n' p' hopens
    obtain ⟨op', htraces'⟩ := exists_opening hopens
    have hstart' : op'.start = i := (tiles_tokenize source).index_unique htraces'.token_eq hi
    obtain ⟨rest, haround⟩ := htraces'.around_eq
    have hmem' : op' ∈ Builder.openingsAt (parse source).trace i := by
      rw [Builder.openingsAt, List.mem_filter]
      exact ⟨htraces'.mem, by simp [hstart', haround]⟩
    rw [honly] at hmem'
    obtain rfl := List.mem_singleton.mp hmem'
    have hnode : n' = n := by
      have hsame := htraces'.opens.node_eq
      rw [htraces'.id_eq, ← htraces.id_eq, htraces.opens.node_eq] at hsame
      exact (Option.some.inj hsame).symm
    subst hnode
    refine ⟨rfl, ?_⟩
    have hid := Option.some.inj (hopens.parent_eq.symm.trans htraces.opens.parent_eq)
    have hparent := hopens.parent_node
    rw [hid, htraces.opens.parent_node] at hparent
    exact (Option.some.inj hparent).symm

end Source

/-- **`parse_showsFaults`** — the recorded problems of every source are the faults of its tree. -/
theorem parse_showsFaults (source : String) : (parse source).ShowsFaults source where
  toCovers := parse_covers source
  keyword_opens t ht k hk := opens_of_keyword ht hk
  opens_kind t n p h := by
    obtain ⟨op, htraces⟩ := exists_opening h
    refine ⟨List.mem_of_getElem? htraces.token_eq, ?_⟩
    rw [htraces.kind_eq]
    exact opened_of_traces htraces
  misplaced_iff := misplaced_mem_iff
  feature_parent t n p h := feature_parent_of_opens h
  feature_placed s hmem := by
    obtain ⟨t, n, p, hopens, -, hk, hholds⟩ := (misplaced_mem_iff .feature s).mp hmem
    rw [feature_parent_of_opens hopens (kind_of_feature hopens hk)] at hholds
    cases hholds
  duplicate_iff := duplicate_mem_iff
  late_step_iff := late_mem_iff
  table_iff := table_mem_iff
  docString_iff := docString_mem_iff
  unclosed_iff := unclosed_mem_iff
  missing_iff := missing_mem_iff
  in_order := pairwise_degradations source
  once := by
    refine List.nodup_iff_pairwise_ne.mpr ((pairwise_degradations source).imp ?_)
    rintro d d' hbefore rfl
    exact d.not_before_self hbefore

end Outline

end FeatureFile

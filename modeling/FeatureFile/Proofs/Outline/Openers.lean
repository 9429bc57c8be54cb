/-
# FeatureFile.Proofs.Outline.Openers — no opening token is lost

The lexer and the builder each keep track of the open doc string, and neither asks the other. Both
change it at delimiters alone, so they agree behind every token (`inDocString_eq_behind`), and the
tokens that open nodes outside doc strings do open them.

A token opens at most one node besides a table, and `opened?` says which. The nodes of an outline
other than its root and its tables are the tokens that open one, in order, and each begins with its
token (`forall₂_openers`). The classes of nodes are parts of that correspondence (`forall₂_class`).
Main statement: `parse_keepsOpeners`.
-/

import FeatureFile.Proofs.Outline.Frame
import FeatureFile.Step

namespace FeatureFile

open NodeKind (Stacked)

/-! ## §A Open doc strings -/

namespace LineCut

/-- Whether reading on behind a token is inside a doc string changes at delimiters alone. -/
def Toggles (doc : Option Token.DocDelimiter) (cut : LineCut) : Prop :=
  cut.doc.isSome = (doc.isSome != (cut.kind == .docStringDelimiter))

theorem toggles_next (place : LinePlace) (doc : Option Token.DocDelimiter) (line : List Char) :
    (LineCut.next place doc line).Toggles doc := by
  have hfound := found_next place doc line
  generalize next place doc line = cut at hfound ⊢
  cases hfound with
  | inside h => rw [Toggles, h.doc_eq, beq_eq_false_iff_ne.mpr (h.kind_ne rfl), Bool.bne_false]
  | indent => cases doc <;> rfl
  | delimiter _ h =>
    rw [Toggles, h]
    cases doc <;> rfl
  | keyword _ hdoc =>
    rw [hdoc]
    rfl

end LineCut

namespace TokenStream

/-- The stream after it was asked so many times. -/
def behind : TokenStream → Nat → TokenStream
  | s, 0 => s
  | s, n + 1 => s.next.2.behind n

theorem behind_succ (s : TokenStream) (n : Nat) : s.behind (n + 1) = (s.behind n).next.2 := by
  induction n generalizing s with
  | zero => rfl
  | succ n ih => exact ih s.next.2

theorem output_eq_behind (s : TokenStream) (n : Nat) : s.output n = (s.behind n).next.1 := by
  induction n generalizing s with
  | zero => rfl
  | succ n ih => exact ih s.next.2

/-- What the stream of a source gives next. -/
theorem next_ofSource (source : String) (n : Nat) :
    ((ofSource source).behind n).next.1 = (tokenize source)[n]? := by
  rw [← output_eq_behind, output_ofSource]

theorem isSome_doc_next {s : TokenStream} {t : Token} (h : s.next.1 = some t) :
    s.next.2.doc.isSome = (s.doc.isSome != (t.kind == .docStringDelimiter)) := by
  have hemit := (emit_of_next h).2
  have hdoc : s.next.2.doc = s.cut.doc := (congrArg (·.2.doc) hemit).symm
  have hkind : t.kind = s.cut.kind := (congrArg (·.1.kind) hemit).symm
  rw [hdoc, hkind]
  unfold cut
  split
  · exact (Bool.bne_false _).symm
  · exact LineCut.toggles_next s.place s.doc s.line

theorem next_of_none {s : TokenStream} (h : s.next.1 = none) : s.next.2 = s := by
  unfold next at h ⊢
  split at h
  · rfl
  · cases h

end TokenStream

namespace Builder

theorem inDocString_step (b : Builder) (t : Token) :
    (b.step t).inDocString = (b.inDocString != (t.kind == .docStringDelimiter)) := by
  cases ht : t.isTrivia with
  | true =>
    have hkind : t.kind ≠ .docStringDelimiter := by
      intro hk
      rw [Token.isTrivia, hk] at ht
      cases ht
    rw [step_trivia b ht, beq_eq_false_iff_ne.mpr hkind, Bool.bne_false]
  | false =>
    obtain ⟨p, kinds, faults, -, hgrown⟩ := step_grown b ht
    exact hgrown.inDocString_eq

/-- **The builder and the lexer agree on doc strings** behind every token. -/
theorem inDocString_eq_behind (source : String) (n : Nat) :
    (((tokenize source).take n).foldl step {}).inDocString =
      ((TokenStream.ofSource source).behind n).doc.isSome := by
  induction n with
  | zero => rfl
  | succ n ih =>
    have hnext := TokenStream.next_ofSource source n
    rw [TokenStream.behind_succ, List.take_add_one]
    cases htoken : (tokenize source)[n]? with
    | none =>
      rw [htoken] at hnext
      rw [TokenStream.next_of_none hnext, Option.toList_none, List.append_nil, ih]
    | some t =>
      rw [htoken] at hnext
      rw [TokenStream.isSome_doc_next hnext, ← ih, Option.toList_some, List.foldl_append]
      exact inDocString_step _ t

end Builder

/-! ## §B First children -/

namespace Element

theorem eq_token_of_tokenKind? {e : Element} {k : TokenKind} (h : e.tokenKind? = some k) :
    ∃ i t, e = .token i t ∧ t.kind = k := by
  cases e with
  | token i t => exact ⟨i, t, rfl, Option.some.inj h⟩
  | node => cases h

end Element

namespace Outline

variable {source : String}

/-- The tokens below a node are numbered one after the other. -/
theorem exists_first_number {x : Entry} (hx : x ∈ (parse source).entries) :
    ∃ first, ∀ (j : Nat) (y : Nat × Token), (Element.leavesOf x.node.children)[j]? = some y →
      y.1 = first + j ∧ (tokenize source)[y.1]? = some y.2 := by
  obtain ⟨children, -, -, hleaves, -⟩ := parse_spec source
  obtain ⟨a, b, hab⟩ := Element.leaves_split none _ hx
  rw [hleaves] at hab
  refine ⟨a.length, ?_⟩
  intro j y hy
  have hplace : (numbered (tokenize source))[a.length + j]? = some y := by
    rw [hab, List.getElem?_append_right (by omega), Nat.add_sub_cancel_left]
    rw [List.getElem?_append_left (List.getElem?_eq_some_iff.mp hy).1, hy]
  rw [numbered, List.getElem?_mapIdx, Option.map_eq_some_iff] at hplace
  obtain ⟨t, ht, rfl⟩ := hplace
  exact ⟨rfl, ht⟩

/-- The token that opens a node is its first child. -/
theorem head?_of_opened {parent : Option Nat} {n : Node} {op : Opening} {t : Token}
    (hn : ⟨parent, n⟩ ∈ (parse source).entries) (hopened : Opened (tokenize source) ⟨parent, n⟩ op)
    (ht : (tokenize source)[op.start]? = some t) (hfile : n.kind ≠ .file) (htable : n.kind ≠ .table) :
    n.children.head? = some (.token op.start t) := by
  obtain ⟨i, u, hhead⟩ := (framed_of_mem hn).begun hfile htable
  obtain ⟨rest, hchildren⟩ := List.head?_eq_some_iff.mp hhead
  obtain ⟨first, hfirst⟩ := exists_first_number hn
  have hleaf : (Element.leavesOf n.children)[0]? = some (i, u) := by
    rw [hchildren]
    rfl
  have hi : (tokenize source)[i]? = some u := (hfirst 0 (i, u) hleaf).2
  -- Both are the first token of the node.
  obtain ⟨after, hafter⟩ := hopened.tokens_eq
  have hu : u = t := by
    have hget := congrArg List.head? hafter
    rw [List.head?_drop, ht, List.head?_append] at hget
    rw [show n.toElement.tokens = Element.tokensOf n.children from rfl, hchildren] at hget
    exact (Option.some.inj hget).symm
  subst hu
  rw [hhead, (tiles_tokenize source).index_unique hi ht]

/-- The children of a parameter are the three tokens from its opening bracket on. -/
theorem children_of_parameter {parent : Option Nat} {n : Node} {i : Nat} {t : Token}
    (hn : ⟨parent, n⟩ ∈ (parse source).entries) (hkind : n.kind = .stepParameter)
    (hhead : n.children.head? = some (.token i t)) :
    ∃ name close, n.children = [.token i t, .token (i + 1) name, .token (i + 2) close] ∧
      name.kind = .parameterName ∧ close.kind = .parameterEnd := by
  have hkinds := (framed_of_mem hn).parameter hkind
  obtain ⟨first, hfirst⟩ := exists_first_number hn
  obtain ⟨rest, hchildren⟩ := List.head?_eq_some_iff.mp hhead
  simp only [hchildren] at hkinds hfirst ⊢
  obtain ⟨-, hrest⟩ := List.cons.inj hkinds
  obtain ⟨e, rest, rfl, hname, hrest⟩ := List.map_eq_cons_iff.mp hrest
  obtain ⟨e', rest, rfl, hclose, hrest⟩ := List.map_eq_cons_iff.mp hrest
  obtain rfl := List.map_eq_nil_iff.mp hrest
  obtain ⟨j, name, rfl, hnameKind⟩ := Element.eq_token_of_tokenKind? hname
  obtain ⟨k, close, rfl, hcloseKind⟩ := Element.eq_token_of_tokenKind? hclose
  have hi : i = first + 0 := (hfirst 0 (i, t) rfl).1
  have hj : j = first + 1 := (hfirst 1 (j, name) rfl).1
  have hk : k = first + 2 := (hfirst 2 (k, close) rfl).1
  subst hi hj hk
  exact ⟨name, close, rfl, hnameKind, hcloseKind⟩

end Outline

/-! ## §C Tokens that open nodes -/

theorem mem_numbered {ts : List Token} {x : Nat × Token} :
    x ∈ numbered ts ↔ ts[x.1]? = some x.2 := by
  obtain ⟨i, t⟩ := x
  rw [numbered, List.mem_iff_getElem?]
  simp only [List.getElem?_mapIdx, Option.map_eq_some_iff, Prod.mk.injEq]
  constructor
  · rintro ⟨j, u, hu, rfl, rfl⟩
    exact hu
  · intro h
    exact ⟨i, t, h, rfl, rfl⟩

theorem take_of_mem_numbered {ts : List Token} {x : Nat × Token} (h : x ∈ numbered ts) (t : Token) :
    (ts ++ [t]).take x.1 = ts.take x.1 := by
  have hlt := (List.getElem?_eq_some_iff.mp (mem_numbered.mp h)).1
  exact List.take_append_of_le_length (by omega)

/-- The numbered tokens that satisfy a condition on the tokens before them and on themselves. -/
def marked (opens : List Token → Token → Bool) (ts : List Token) : List (Nat × Token) :=
  (numbered ts).filter fun x => opens (ts.take x.1) x.2

theorem mem_numbered_of_mem_marked {opens : List Token → Token → Bool} {ts : List Token}
    {x : Nat × Token} (h : x ∈ marked opens ts) : x ∈ numbered ts :=
  (List.mem_filter.mp h).1

theorem marked_concat (opens : List Token → Token → Bool) (ts : List Token) (t : Token) :
    marked opens (ts ++ [t]) = marked opens ts ++ if opens ts t then [(ts.length, t)] else [] := by
  have hold : (numbered ts).filter (fun x => opens ((ts ++ [t]).take x.1) x.2) = marked opens ts := by
    refine List.filter_congr ?_
    intro x hx
    rw [take_of_mem_numbered hx]
  rw [marked, numbered_concat, List.filter_append, hold, List.filter_singleton]
  simp only [List.take_left]
  cases opens ts t <;> rfl

namespace Builder

variable {b : Builder} {t : Token} {p : OpenPath} {kinds : List NodeKind}
  {faults : List Degradation.Kind} {ph ph' : Phase}

/-- The kind of the node other than a table that a token opens. -/
def opened? (b : Builder) (t : Token) : Option NodeKind :=
  match t.kind with
  | .keyword k => some (.ofKeyword (effective k b.lastConcrete).1 k)
  | .parameterStart => some .stepParameter
  | .pipe => if b.atLineStart then some .tableRow else none
  | .docStringDelimiter => if b.inDocString then none else some .docString
  | _ => none

/-- The kind of the node other than a table that a token opens behind other tokens. -/
def openedAfter? (done : List Token) (t : Token) : Option NodeKind := (done.foldl step {}).opened? t

/-- Whether nodes of a kind are opened one to a token: the root is open from the start, and a table
is opened with its first row. -/
def isSingle (kind : NodeKind) : Bool := kind ≠ .file && kind ≠ .table

theorem isSingle_ofKeyword (stands : StepKeyword) (k : Keyword) :
    isSingle (.ofKeyword stands k) = true := by
  cases k <;> rfl

/-- Whether a token opens a node of a class. -/
theorem any_opened? (b : Builder) (t : Token) (holds : NodeKind → Bool) :
    (b.opened? t).any holds =
      match t.kind with
      | .keyword k => holds (.ofKeyword (effective k b.lastConcrete).1 k)
      | .parameterStart => holds .stepParameter
      | .pipe => b.atLineStart && holds .tableRow
      | .docStringDelimiter => !b.inDocString && holds .docString
      | _ => false := by
  unfold opened?
  cases t.kind with
  | pipe => cases b.atLineStart <;> rfl
  | docStringDelimiter => cases b.inDocString <;> rfl
  | _ => rfl

theorem opened?_of_trivia (ht : t.isTrivia = true) : b.opened? t = none := by
  rw [Token.isTrivia] at ht
  cases hk : t.kind <;> simp_all [opened?, TokenKind.isTrivia]

/-- **What a token opens is what its placement opens**, tables apart. -/
theorem Placement.filter_kinds (h : b.Placement t p kinds faults) (hat : b.At ph)
    (hafter : ph.after t.kind = some ph') : kinds.filter isSingle = (b.opened? t).toList := by
  cases h with
  | inside hdoc =>
    -- The phase of a doc string allows no other opening token.
    obtain rfl := hat.inDocString hdoc
    cases hk : t.kind <;> simp_all [opened?, Phase.after]
  | join hdoc hkeyword hparameter hdelimiter _ hpipe =>
    cases hk : t.kind <;> simp_all [opened?, TokenKind.keyword?]
  | keyword hdoc hk =>
    rw [opened?, hk, List.filter_singleton, isSingle_ofKeyword]
    rfl
  | parameter hdoc hk =>
    rw [opened?, hk]
    rfl
  | row hdoc hk _ hline =>
    simp only [opened?, hk, hline]
    rfl
  | table hdoc hk _ _ _ hline =>
    simp only [opened?, hk, hline]
    rfl
  | docString hdoc hk =>
    simp only [opened?, hk, hdoc]
    rfl

/-- The openings that a token makes, by where they begin and their kinds. -/
theorem map_openings (start id : Nat) (around : List (Nat × NodeKind)) (kinds : List NodeKind) :
    ((OpenPath.openings start around id kinds).filter (isSingle ·.kind)).map
        (fun op => (op.start, some op.kind)) =
      (kinds.filter isSingle).map fun kind => (start, some kind) := by
  induction kinds generalizing around id with
  | nil => rfl
  | cons kind kinds ih =>
    rw [OpenPath.openings, List.filter_cons, List.filter_cons]
    cases hkind : isSingle kind with
    | true => simpa [hkind] using ih (id + 1) _
    | false => simpa [hkind] using ih (id + 1) _

/-- **The nodes after any tokens are the tokens that open them**, in order. -/
theorem map_trace {ts : List Token} (hruns : Phase.free.Runs (ts.map (·.kind)) ph) :
    ((ts.foldl step {}).path.trace.filter (isSingle ·.kind)).map
        (fun op => (op.start, some op.kind)) =
      (marked (fun done t => (openedAfter? done t).isSome) ts).map
        fun x => (x.1, openedAfter? (ts.take x.1) x.2) := by
  induction ts using List.reverseRecOn generalizing ph with
  | nil => rfl
  | append_singleton done t ih =>
    rw [List.map_append] at hruns
    obtain ⟨before, hdone, hlast⟩ := hruns.split
    have hnew : At {} .free := rfl
    have hjudged : (done.foldl step {}).Judged done := judged_foldl judged_nil hnew hdone
    have hat : (done.foldl step {}).At before := at_foldl judged_nil hnew hdone
    have hold : (marked (fun done t => (openedAfter? done t).isSome) done).map
        (fun x => (x.1, openedAfter? ((done ++ [t]).take x.1) x.2)) =
        ((done.foldl step {}).path.trace.filter (isSingle ·.kind)).map
          (fun op => (op.start, some op.kind)) := by
      rw [ih hdone]
      refine List.map_congr_left ?_
      intro x hx
      rw [take_of_mem_numbered (mem_numbered_of_mem_marked hx)]
    rw [marked_concat, List.map_append, hold, List.foldl_append]
    generalize hb : done.foldl step {} = b at hjudged hat
    have hopened : openedAfter? done t = b.opened? t := by rw [openedAfter?, hb]
    show ((b.step t).path.trace.filter _).map _ = _
    cases hlast with
    | cons hafter _ =>
      cases ht : t.isTrivia with
      | true =>
        rw [step_trivia b ht, hopened, opened?_of_trivia ht]
        exact (List.append_nil _).symm
      | false =>
        obtain ⟨p, kinds, faults, hplace, hgrown⟩ := step_grown b ht
        rw [hgrown.trace_eq hplace.closes hjudged.reads.pending_token, hjudged.reads.length_leaves,
          List.filter_append, List.map_append, map_openings, hplace.filter_kinds hat hafter]
        cases hkind : b.opened? t with
        | none => simp [hopened, hkind]
        | some kind => simp [hopened, hkind]

end Builder

/-- Two lists that go with a third, the one by a relation and the other by equal values, go with
each other. -/
theorem forall₂_through {α β γ δ : Type} {R : α → β → Prop} {f : β → δ} {g : γ → δ} {as : List α}
    {bs : List β} {cs : List γ} (h : List.Forall₂ R as bs) (hmap : bs.map f = cs.map g) :
    List.Forall₂ (fun c a => c ∈ cs ∧ a ∈ as ∧ ∃ b ∈ bs, R a b ∧ f b = g c) cs as := by
  induction h generalizing cs with
  | nil =>
    rw [List.map_eq_nil_iff.mp hmap.symm]
    exact .nil
  | @cons a b as bs hab _ ih =>
    cases cs with
    | nil => cases hmap
    | cons c cs =>
      obtain ⟨hhead, htail⟩ := List.cons.inj hmap
      refine .cons ⟨List.mem_cons_self, List.mem_cons_self, b, List.mem_cons_self, hab, hhead⟩ ?_
      refine (ih htail).imp ?_
      rintro c' a' ⟨hc, ha, b', hb, hrest⟩
      exact ⟨List.mem_cons_of_mem _ hc, List.mem_cons_of_mem _ ha, b', List.mem_cons_of_mem _ hb,
        hrest⟩

namespace Outline

/-- **`o.Begins x n`** — the numbered token opens the node, which begins with it. -/
structure Begins (o : Outline) (x : Nat × Token) (n : Node) : Prop where
  mem : ∃ parent, ⟨parent, n⟩ ∈ o.entries
  head_eq : n.children.head? = some (.token x.1 x.2)
  kind_eq : Builder.openedAfter? (o.tokens.take x.1) x.2 = some n.kind

/-- The step keyword that a keyword stands for behind so many tokens. -/
def standsFor (o : Outline) (i : Nat) (k : Keyword) : StepKeyword :=
  (Builder.effective k ((o.tokens.take i).foldl Builder.step {}).lastConcrete).1

theorem Begins.kind_of_keyword {o : Outline} {x : Nat × Token} {n : Node} (h : o.Begins x n)
    (hx : x.2.kind.keyword?.isSome = true) :
    ∃ k, x.2.kind = .keyword k ∧ n.kind = .ofKeyword (o.standsFor x.1 k) k := by
  have hkind := h.kind_eq
  rw [Builder.openedAfter?, Builder.opened?] at hkind
  cases hk : x.2.kind with
  | keyword k =>
    rw [hk] at hkind
    exact ⟨k, rfl, (Option.some.inj hkind).symm⟩
  | _ =>
    rw [hk] at hx
    cases hx

theorem Begins.kind_of_parameterStart {o : Outline} {x : Nat × Token} {n : Node} (h : o.Begins x n)
    (hx : x.2.kind = .parameterStart) : n.kind = .stepParameter := by
  have hkind := h.kind_eq
  rw [Builder.openedAfter?, Builder.opened?, hx] at hkind
  exact (Option.some.inj hkind).symm

/-- **The nodes other than the root and the tables are the tokens that open them**, one for one and
in order. -/
theorem forall₂_openers (source : String) :
    List.Forall₂ (parse source).Begins
      (marked (fun done t => (Builder.openedAfter? done t).isSome) (tokenize source))
      ((parse source).nodes.filter (Builder.isSingle ·.kind)) := by
  obtain ⟨ph, hruns⟩ := runs_tokenize source
  have hstarts := Builder.map_trace hruns
  rw [← trace_parse] at hstarts
  have hentries : List.Forall₂ (Opened (tokenize source))
      ((parse source).entries.filter (Builder.isSingle ·.node.kind))
      ((parse source).trace.filter (Builder.isSingle ·.kind)) := by
    refine List.rel_filter ?_ (forall₂_trace source)
    intro x op hopened
    show Builder.isSingle x.node.kind = true ↔ Builder.isSingle op.kind = true
    rw [hopened.kind_eq]
  rw [nodes, List.filter_map]
  refine List.forall₂_map_right_iff.mpr ((forall₂_through hentries hstarts).imp ?_)
  rintro ⟨i, t⟩ ⟨parent, n⟩ ⟨hx, hn, op, -, hopened, hsame⟩
  obtain ⟨hstart, hkind⟩ := Prod.mk.inj hsame
  have ht : (tokenize source)[i]? = some t := mem_numbered.mp (mem_numbered_of_mem_marked hx)
  obtain ⟨hmem, hsingle⟩ := List.mem_filter.mp hn
  have hkinds : n.kind ≠ .file ∧ n.kind ≠ .table := by
    simpa [Builder.isSingle, Bool.and_eq_true] using hsingle
  subst hstart
  refine ⟨⟨parent, hmem⟩, head?_of_opened hmem hopened ht hkinds.1 hkinds.2, ?_⟩
  rw [show n.kind = op.kind from hopened.kind_eq, hkind]
  rfl

/-- **The nodes of a class are the tokens that open them.** The class is a condition on kinds, and
the tokens are those of a condition on them and on what stands before them. -/
theorem forall₂_class (source : String) (holds : NodeKind → Bool) (opens : Nat × Token → Bool)
    (hsingle : ∀ kind, holds kind = true → Builder.isSingle kind = true)
    (hopens : ∀ x ∈ numbered (tokenize source),
      opens x = (Builder.openedAfter? ((tokenize source).take x.1) x.2).any holds) :
    List.Forall₂ (parse source).Begins ((numbered (tokenize source)).filter opens)
      ((parse source).nodes.filter (holds ·.kind)) := by
  have hclass : List.Forall₂ (parse source).Begins
      ((marked (fun done t => (Builder.openedAfter? done t).isSome) (tokenize source)).filter
        fun x => (Builder.openedAfter? ((tokenize source).take x.1) x.2).any holds)
      (((parse source).nodes.filter (Builder.isSingle ·.kind)).filter (holds ·.kind)) := by
    refine List.rel_filter ?_ (forall₂_openers source)
    intro x n hbegins
    have hkind : Builder.openedAfter? ((tokenize source).take x.1) x.2 = some n.kind :=
      hbegins.kind_eq
    show Option.any holds _ = true ↔ holds n.kind = true
    rw [hkind, Option.any_some]
  convert hclass using 1
  · rw [marked, List.filter_filter]
    refine List.filter_congr ?_
    intro x hx
    rw [hopens x hx]
    cases Builder.openedAfter? ((tokenize source).take x.1) x.2 <;> simp
  · rw [List.filter_filter]
    refine List.filter_congr ?_
    intro n _
    cases hholds : holds n.kind with
    | true => rw [hsingle n.kind hholds]; rfl
    | false => rfl

end Outline

/-! ## §D Lines and delimiters -/

/-- Whether no significant token stands on the last line of some tokens. -/
def leadsLine (before : List Token) : Bool :=
  (before.reverse.takeWhile fun t => t.kind ≠ .newline).all (·.isTrivia)

theorem leadsLine_concat (before : List Token) (t : Token) :
    leadsLine (before ++ [t]) = t.kind.keepsStart (leadsLine before) := by
  rw [leadsLine, List.reverse_append, List.reverse_singleton, List.singleton_append,
    List.takeWhile_cons, TokenKind.keepsStart]
  by_cases hk : t.kind = .newline
  · simp [hk, TokenKind.isTrivia]
  · simp [hk, leadsLine, Token.isTrivia]

theorem Builder.atLineStart_foldl (ts : List Token) :
    (ts.foldl step {}).atLineStart = leadsLine ts := by
  induction ts using List.reverseRecOn with
  | nil => rfl
  | append_singleton ts t ih =>
    rw [List.foldl_append, leadsLine_concat, ← ih]
    exact atLineStart_step _ t

theorem Builder.inDocString_foldl (ts : List Token) :
    (ts.foldl step {}).inDocString = decide (delimiters ts % 2 = 1) := by
  induction ts using List.reverseRecOn with
  | nil => rfl
  | append_singleton ts t ih =>
    rw [List.foldl_append, delimiters_concat]
    show (step _ t).inDocString = _
    rw [inDocString_step, ih]
    have hmod : delimiters ts % 2 = 0 ∨ delimiters ts % 2 = 1 := Nat.mod_two_eq_zero_or_one _
    by_cases hk : t.kind = .docStringDelimiter
    · rcases hmod with hmod | hmod <;> simp [hk, hmod, Nat.add_mod]
    · rw [if_neg hk, beq_eq_false_iff_ne.mpr hk, Bool.bne_false, Nat.add_zero]

/-- The members of a list in odd places, counted from one. -/
def oddNumbered {α : Type} : List α → List α
  | [] => []
  | [a] => [a]
  | a :: _ :: rest => a :: oddNumbered rest

theorem oddNumbered_concat {α : Type} (l : List α) (a : α) :
    oddNumbered (l ++ [a]) = oddNumbered l ++ if l.length % 2 = 0 then [a] else [] := by
  fun_induction oddNumbered l with
  | case1 => rfl
  | case2 b => rfl
  | case3 b c rest ih =>
    rw [List.cons_append, List.cons_append, oddNumbered, ih, List.length_cons, List.length_cons,
      Nat.add_assoc, Nat.add_mod_right]
    rfl

/-- The delimiters that open a doc string are those in odd places. -/
theorem oddNumbered_delimiters (ts : List Token) :
    oddNumbered ((numbered ts).filter (·.2.kind = .docStringDelimiter)) =
      marked (fun done t =>
        t.kind = .docStringDelimiter && Builder.delimiters done % 2 = 0) ts := by
  induction ts using List.reverseRecOn with
  | nil => rfl
  | append_singleton ts t ih =>
    have hlength : ((numbered ts).filter (·.2.kind = .docStringDelimiter)).length =
        Builder.delimiters ts := by
      rw [← List.countP_eq_length_filter, Builder.delimiters]
      conv_rhs => rw [← map_snd_numbered ts, List.countP_map]
      rfl
    rw [marked_concat, numbered_concat, List.filter_append, List.filter_singleton]
    by_cases hk : t.kind = .docStringDelimiter
    · simp only [hk, decide_true, Bool.cond_true, oddNumbered_concat, ih, hlength, Bool.true_and,
        decide_eq_true_eq]
    · simp only [hk, decide_false, Bool.cond_false, List.append_nil, ih, Bool.false_and,
        Bool.false_eq_true, if_false]

/-! ## §E Main statement -/

namespace Outline

/-- **`o.KeepsOpeners source`** — the outline of a source agrees with its tokens on what is open, and
every opening token has its node. -/
structure KeepsOpeners (source : String) (o : Outline) : Prop where
  /-- Behind every token the builder is inside a doc string when the lexer is. -/
  inDocString_eq : ∀ n,
    ((o.tokens.take n).foldl Builder.step {}).inDocString =
      ((TokenStream.ofSource source).behind n).doc.isSome
  /-- The keywords are the blocks and the steps, and each is the first child of its node. -/
  keywords : List.Forall₂
    (fun x n => n.children.head? = some (.token x.1 x.2) ∧
      ∃ k, x.2.kind = .keyword k ∧ n.kind = .ofKeyword (o.standsFor x.1 k) k)
    ((numbered o.tokens).filter (·.2.kind.keyword?.isSome))
    (o.nodes.filter fun n => n.kind.isContainer && n.kind ≠ .file || n.kind.isStep)
  /-- The opening brackets are the parameters, and a parameter is three tokens. -/
  parameters : List.Forall₂
    (fun x n => ∃ name close,
      n.children = [.token x.1 x.2, .token (x.1 + 1) name, .token (x.1 + 2) close] ∧
        name.kind = .parameterName ∧ close.kind = .parameterEnd)
    ((numbered o.tokens).filter (·.2.kind = .parameterStart))
    (o.nodes.filter (·.kind = .stepParameter))
  /-- The pipes that are the first significant token of their line are the rows. -/
  rows : List.Forall₂ (fun x n => n.children.head? = some (.token x.1 x.2))
    ((numbered o.tokens).filter fun x => x.2.kind = .pipe && leadsLine (o.tokens.take x.1))
    (o.nodes.filter (·.kind = .tableRow))
  /-- Every other delimiter, from the first on, is a doc string. -/
  docStrings : List.Forall₂ (fun x n => n.children.head? = some (.token x.1 x.2))
    (oddNumbered ((numbered o.tokens).filter (·.2.kind = .docStringDelimiter)))
    (o.nodes.filter (·.kind = .docString))
  /-- There is no feature when there is no feature keyword. -/
  feature_eq_error_iff : o.feature = .error .missingFeature ↔
    ∀ t ∈ o.tokens, t.kind ≠ .keyword .feature
  parseFeature_eq_error_iff : parseFeature source = .error .missingFeature ↔
    ∀ t ∈ o.tokens, t.kind ≠ .keyword .feature
  /-- Otherwise the feature is the node of the first feature keyword. -/
  feature_eq_ok : ∀ i t, o.tokens[i]? = some t → t.kind = .keyword .feature →
    (∀ u ∈ o.tokens.take i, u.kind ≠ .keyword .feature) →
      parseFeature source = .ok o ∧
        ∃ n ∈ o.nodes, o.feature = .ok n ∧ n.kind = .feature ∧
          n.children.head? = some (.token i t)

variable {source : String}

theorem isSome_keyword?_eq (kind : NodeKind) :
    kind.keyword?.isSome = (kind.isContainer && kind ≠ .file || kind.isStep) := by
  cases kind <;> rfl

/-- The keywords are the nodes that keywords open. -/
theorem forall₂_keywords (source : String) :
    List.Forall₂ (parse source).Begins
      ((numbered (tokenize source)).filter (·.2.kind.keyword?.isSome))
      ((parse source).nodes.filter (·.kind.keyword?.isSome)) := by
  refine forall₂_class source (·.keyword?.isSome) _ ?_ ?_
  · intro kind hkind
    cases kind <;> first | rfl | cases hkind
  · intro x _
    rw [Builder.openedAfter?, Builder.any_opened?]
    cases x.2.kind with
    | keyword k => cases k <;> rfl
    | pipe | docStringDelimiter => exact (Bool.and_false _).symm
    | _ => rfl

/-- The nodes of one kind are the tokens that open nodes of the kind. -/
theorem forall₂_kind (source : String) {kind : NodeKind} (opens : List Token → Token → Bool)
    (hsingle : Builder.isSingle kind = true)
    (hopens : ∀ (done : List Token) (t : Token),
      opens done t = (Builder.openedAfter? done t).any (· = kind)) :
    List.Forall₂ (parse source).Begins (marked opens (tokenize source))
      ((parse source).nodes.filter (·.kind = kind)) := by
  refine forall₂_class source (· = kind) _ ?_ fun x _ => hopens _ _
  intro kind' hkind
  rwa [of_decide_eq_true hkind]

theorem forall₂_parameters (source : String) :
    List.Forall₂ (parse source).Begins
      ((numbered (tokenize source)).filter (·.2.kind = .parameterStart))
      ((parse source).nodes.filter (·.kind = .stepParameter)) := by
  refine forall₂_kind source (fun _ t => t.kind = .parameterStart) rfl ?_
  intro done t
  rw [Builder.openedAfter?, Builder.any_opened?]
  cases t.kind with
  | keyword k => cases k <;> rfl
  | pipe | docStringDelimiter => exact (Bool.and_false _).symm
  | _ => rfl

theorem forall₂_rows (source : String) :
    List.Forall₂ (parse source).Begins
      ((numbered (tokenize source)).filter fun x =>
        x.2.kind = .pipe && leadsLine ((tokenize source).take x.1))
      ((parse source).nodes.filter (·.kind = .tableRow)) := by
  refine forall₂_kind source (fun done t => t.kind = .pipe && leadsLine done) rfl ?_
  intro done t
  rw [Builder.openedAfter?, Builder.any_opened?, Builder.atLineStart_foldl]
  cases t.kind with
  | keyword k => cases k <;> rfl
  | pipe => exact (Bool.and_true _).symm
  | docStringDelimiter => exact (Bool.and_false _).symm
  | _ => rfl

theorem forall₂_docStrings (source : String) :
    List.Forall₂ (parse source).Begins
      (oddNumbered ((numbered (tokenize source)).filter (·.2.kind = .docStringDelimiter)))
      ((parse source).nodes.filter (·.kind = .docString)) := by
  rw [oddNumbered_delimiters]
  refine forall₂_kind source _ rfl ?_
  intro done t
  rw [Builder.openedAfter?, Builder.any_opened?, Builder.inDocString_foldl]
  cases t.kind with
  | keyword k => cases k <;> rfl
  | pipe => exact (Bool.and_false _).symm
  | docStringDelimiter =>
    rcases Nat.mod_two_eq_zero_or_one (Builder.delimiters done) with h | h <;> simp [h]
  | _ => rfl

theorem forall₂_features (source : String) :
    List.Forall₂ (parse source).Begins
      ((numbered (tokenize source)).filter (·.2.kind = .keyword .feature))
      ((parse source).nodes.filter (·.kind = .feature)) := by
  refine forall₂_kind source (fun _ t => t.kind = .keyword .feature) rfl ?_
  intro done t
  rw [Builder.openedAfter?, Builder.any_opened?]
  cases t.kind with
  | keyword k => cases k <;> rfl
  | pipe | docStringDelimiter => exact (Bool.and_false _).symm
  | _ => rfl

/-! ## §F Features -/

/-- Features stand in the root. -/
theorem parent_of_feature {x : Entry} (hx : x ∈ (parse source).entries)
    (hkind : x.node.kind = .feature) : x.parent = some 0 := by
  obtain ⟨op, hop, hopened⟩ := (exists_of_forall₂ (forall₂_trace source)).1 x hx
  obtain ⟨id, haround⟩ : ∃ id, op.around = [(id, .file)] := by
    refine (Builder.judged_tokenize source).feature_around op ?_ (hopened.kind_eq ▸ hkind)
    rwa [← trace_parse]
  obtain ⟨up, hup, hchain, -⟩ := exists_up hop (by simp [haround])
  rw [haround] at hchain
  obtain ⟨hlabel, htop⟩ := List.cons.inj hchain
  -- The node around the feature stands in no other, so it is the root.
  obtain ⟨y, hy, hyup⟩ := (exists_of_forall₂ (forall₂_trace source)).2 up hup
  have hparent : y.parent = none := by
    rw [hyup.parent_eq, ← htop]
    rfl
  have hid : id = 0 :=
    calc id = up.id := congrArg Prod.fst hlabel
      _ = y.node.id := hyup.id_eq.symm
      _ = 0 := (parent_of_mem hy).mp hparent
  rw [hopened.parent_eq, haround, hid]
  rfl

/-- The feature of a source is its first node that is one. -/
theorem feature?_eq (source : String) :
    (parse source).feature? = ((parse source).nodes.filter (·.kind = .feature)).head? := by
  obtain ⟨x, hx, -, hid, -⟩ := exists_root source
  have hnode : (parse source).node? 0 = some x.node :=
    (node?_eq_some_iff (ids_parse source)).mpr ⟨⟨x.parent, hx⟩, hid⟩
  rw [feature?, childNodes, hnode]
  show (x.node.childrenOfKind .feature).head? = _
  rw [Node.childrenOfKind, childNodes_eq hx, hid, nodes, List.filter_map, List.filter_map,
    List.filter_filter]
  have hparent : ∀ y ∈ (parse source).entries, y.node.kind = .feature → y.parent = some 0 :=
    fun _ hy hkind => parent_of_feature hy hkind
  generalize (parse source).entries = es at hparent ⊢
  refine congrArg (fun es : List Entry => (es.map (·.node)).head?) (List.filter_congr ?_)
  intro y hy
  by_cases hkind : y.node.kind = .feature
  · simp [hkind, hparent y hy hkind]
  · simp [hkind]

theorem map_fst_numbered (ts : List Token) : (numbered ts).map Prod.fst = List.range ts.length := by
  induction ts using List.reverseRecOn with
  | nil => rfl
  | append_singleton ts t ih =>
    rw [numbered_concat, List.map_append, ih, List.length_append, List.length_singleton,
      List.range_succ]
    rfl

/-- The first numbered token of a class. -/
theorem head?_numbered_filter {ts : List Token} {p : Token → Bool} {i : Nat} {t : Token}
    (ht : ts[i]? = some t) (hp : p t = true) (hbefore : ∀ u ∈ ts.take i, p u = false) :
    ((numbered ts).filter (p ·.2)).head? = some (i, t) := by
  have hmem : (i, t) ∈ (numbered ts).filter (p ·.2) :=
    List.mem_filter.mpr ⟨mem_numbered.mpr ht, hp⟩
  have hsorted : ((numbered ts).filter (p ·.2)).Pairwise fun x y => x.1 < y.1 := by
    refine List.Pairwise.sublist List.filter_sublist ?_
    rw [← List.pairwise_map (f := Prod.fst), map_fst_numbered]
    exact List.pairwise_lt_range
  cases hfilter : (numbered ts).filter (p ·.2) with
  | nil => simp [hfilter] at hmem
  | cons x rest =>
    rw [hfilter] at hmem hsorted
    rcases List.mem_cons.mp hmem with rfl | hrest
    · rfl
    · -- A token of the class before the given one is among those that have none.
      have hlt : x.1 < i := (List.pairwise_cons.mp hsorted).1 _ hrest
      have hx : x ∈ (numbered ts).filter (p ·.2) := by
        rw [hfilter]
        exact List.mem_cons_self
      obtain ⟨hnumber, hpx⟩ := List.mem_filter.mp hx
      have htake : x.2 ∈ ts.take i := by
        rw [List.mem_iff_getElem?]
        exact ⟨x.1, by rw [List.getElem?_take_of_lt hlt]; exact mem_numbered.mp hnumber⟩
      rw [hbefore x.2 htake] at hpx
      cases hpx

theorem numbered_filter_eq_nil (ts : List Token) (p : Token → Bool) :
    (numbered ts).filter (p ·.2) = [] ↔ ∀ t ∈ ts, p t = false := by
  rw [List.filter_eq_nil_iff]
  constructor
  · intro h t ht
    rw [← map_snd_numbered ts] at ht
    obtain ⟨x, hx, rfl⟩ := List.mem_map.mp ht
    exact Bool.eq_false_iff.mpr (h x hx)
  · intro h x hx
    have hmem : x.2 ∈ ts := List.mem_of_getElem? (mem_numbered.mp hx)
    rw [h x.2 hmem]
    exact Bool.false_ne_true

/-- The feature is the node of the first feature keyword. -/
theorem feature_eq (source : String) :
    ((numbered (tokenize source)).filter (·.2.kind = .keyword .feature) = [] ∧
      (parse source).feature = .error .missingFeature) ∨
      ∃ x n, ((numbered (tokenize source)).filter (·.2.kind = .keyword .feature)).head? = some x ∧
        (parse source).Begins x n ∧ n.kind = .feature ∧ (parse source).feature = .ok n := by
  have hfeatures := forall₂_features source
  have hfirst := feature?_eq source
  rw [feature]
  generalize (numbered (tokenize source)).filter _ = tokens at hfeatures
  generalize hnodes : (parse source).nodes.filter (·.kind = .feature) = nodes at hfeatures hfirst
  cases hfeatures with
  | nil =>
    left
    rw [hfirst]
    exact ⟨rfl, rfl⟩
  | @cons x n _ _ hbegins _ =>
    right
    have hkind : n ∈ (parse source).nodes.filter (·.kind = .feature) := by
      rw [hnodes]
      exact List.mem_cons_self
    refine ⟨x, n, rfl, hbegins, of_decide_eq_true (List.mem_filter.mp hkind).2, ?_⟩
    rw [hfirst]
    rfl

theorem feature_eq_error_iff (source : String) :
    (parse source).feature = .error .missingFeature ↔
      ∀ t ∈ tokenize source, t.kind ≠ .keyword .feature := by
  have hnil := numbered_filter_eq_nil (tokenize source) (·.kind = .keyword .feature)
  simp only [decide_eq_false_iff_not] at hnil
  refine Iff.trans ?_ hnil
  rcases feature_eq source with ⟨htokens, herror⟩ | ⟨x, n, htokens, -, -, hok⟩
  · exact iff_of_true herror htokens
  · refine iff_of_false (by simp [hok]) ?_
    intro h
    rw [h] at htokens
    cases htokens

theorem parseFeature_eq (source : String) :
    parseFeature source = .error .missingFeature ∧
        (parse source).feature = .error .missingFeature ∨
      parseFeature source = .ok (parse source) ∧ ∃ n, (parse source).feature = .ok n := by
  rw [parseFeature]
  rcases feature_eq source with ⟨-, herror⟩ | ⟨x, n, -, -, -, hok⟩
  · exact Or.inl ⟨by rw [herror]; rfl, herror⟩
  · exact Or.inr ⟨by rw [hok]; rfl, n, hok⟩

/-- **Lexer and builder agree, and no opening token is lost.** -/
theorem parse_keepsOpeners (source : String) : (parse source).KeepsOpeners source where
  inDocString_eq := Builder.inDocString_eq_behind source
  keywords := by
    simp only [← isSome_keyword?_eq]
    have htokens := (List.forall₂_and_left _ _).mpr
      ⟨fun x hx => (List.mem_filter.mp hx).2, forall₂_keywords source⟩
    refine htokens.imp ?_
    rintro x n ⟨hx, hbegins⟩
    exact ⟨hbegins.head_eq, hbegins.kind_of_keyword hx⟩
  parameters := by
    have htokens := (List.forall₂_and_left _ _).mpr
      ⟨fun x hx => (List.mem_filter.mp hx).2, forall₂_parameters source⟩
    refine htokens.imp ?_
    rintro x n ⟨hx, hbegins⟩
    obtain ⟨parent, hmem⟩ := hbegins.mem
    exact children_of_parameter hmem (hbegins.kind_of_parameterStart (of_decide_eq_true hx))
      hbegins.head_eq
  rows := (forall₂_rows source).imp fun _ _ h => h.head_eq
  docStrings := (forall₂_docStrings source).imp fun _ _ h => h.head_eq
  feature_eq_error_iff := feature_eq_error_iff source
  parseFeature_eq_error_iff := by
    refine Iff.trans ?_ (feature_eq_error_iff source)
    rcases parseFeature_eq source with ⟨herror, hfeature⟩ | ⟨hok, n, hfeature⟩
    · exact iff_of_true herror hfeature
    · exact iff_of_false (by simp [hok]) (by simp [hfeature])
  feature_eq_ok := by
    intro i t ht hkind hbefore
    have hhead := head?_numbered_filter (p := (·.kind = .keyword .feature)) ht
      (decide_eq_true hkind) fun u hu => decide_eq_false (hbefore u hu)
    rcases feature_eq source with ⟨htokens, -⟩ | ⟨x, n, htokens, hbegins, hnkind, hok⟩
    · rw [show (numbered (parse source).tokens).filter _ = [] from htokens] at hhead
      cases hhead
    · obtain rfl := Option.some.inj (htokens.symm.trans hhead)
      obtain ⟨parent, hmem⟩ := hbegins.mem
      refine ⟨?_, n, List.mem_map.mpr ⟨_, hmem, rfl⟩, hok, hnkind, hbegins.head_eq⟩
      rcases parseFeature_eq source with ⟨-, hfeature⟩ | ⟨hparse, -⟩
      · rw [hok] at hfeature
        cases hfeature
      · exact hparse

/-! ## §G Steps -/

/-- **`o.ListsSteps source`** — the outline is one of the source, and its steps are the step keywords
of the source, one for one and in order. -/
structure ListsSteps (source : String) (o : Outline) : Prop extends Covers source o where
  /-- A step begins with its keyword. -/
  keywords_steps : List.Forall₂
    (fun x s => s.node.children.head? = some (.token x.1 x.2) ∧
      x.2.kind = .keyword (.step s.keyword))
    ((numbered o.tokens).filter fun x => x.2.kind.keyword?.any (·.isStep)) o.steps

theorem filter_isStep (o : Outline) :
    o.nodes.filter (·.kind.isStep) = o.steps.map (·.node) := by
  rw [steps, List.map_filterMap, ← List.filterMap_eq_filter]
  refine List.filterMap_congr fun n _ => ?_
  obtain ⟨id, kind, span, children⟩ := n
  cases kind <;> rfl

theorem forall₂_steps (source : String) :
    List.Forall₂ (fun x s => (parse source).Begins x s.node)
      ((numbered (tokenize source)).filter fun x => x.2.kind.keyword?.any (·.isStep))
      (parse source).steps := by
  rw [← List.forall₂_map_right_iff, ← filter_isStep]
  refine forall₂_class source (·.isStep) _ ?_ ?_
  · intro kind hkind
    cases kind <;> first | rfl | cases hkind
  · intro x _
    rw [Builder.openedAfter?, Builder.any_opened?]
    cases x.2.kind with
    | keyword k => cases k <;> rfl
    | pipe | docStringDelimiter => exact (Bool.and_false _).symm
    | _ => rfl

theorem parse_listsSteps (source : String) : (parse source).ListsSteps source where
  toCovers := parse_covers source
  keywords_steps := by
    have htokens := (List.forall₂_and_left _ _).mpr
      ⟨fun x hx => (List.mem_filter.mp hx).2, forall₂_steps source⟩
    have hsteps := (List.forall₂_and_left _ _).mpr
      ⟨fun s hs => (mem_steps_iff.mp hs).2, htokens.flip⟩
    refine hsteps.flip.imp ?_
    rintro x s ⟨hkind, hx, hbegins⟩
    obtain ⟨k, hk, hopened⟩ := hbegins.kind_of_keyword (Option.isSome_of_any hx)
    refine ⟨hbegins.head_eq, ?_⟩
    rw [hkind] at hopened
    rw [hk]
    cases k with
    | step k => rw [(NodeKind.step.inj hopened).1]
    | _ => cases hopened

end Outline

end FeatureFile

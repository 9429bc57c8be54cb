/-
# FeatureFile.Proofs.Outline.Layout — the layout of a source does not show in its outline

Two runs of the builder are compared up to the plain form of what they have built (`laidOut`). Every
source is compared with its bodies, each on a line of its own (`ruled`): what a source has besides
them is trivia at the start of a line, and there it is absorbed by the line break that waits already
(`Rests.absorb`). The last line may lack its break, so at the end the runs need to agree in less
(`Ends`); the trivia that waits then joins a container or a doc string, where it does not count.

Main statement: sources that differ by edits of their layout agree in everything that is read off
their outlines (`parse_of_edits`).
-/

import FeatureFile.Proofs.Outline.Plain

namespace FeatureFile

open Element (plainOf isBreak)
open Text (isIndent)

/-! ## §A Nodes with one plain form -/

/-- **`LaidOut root n n'`** — open nodes that differ in their layout alone. -/
structure LaidOut (root : Bool) (n n' : OpenNode) : Prop where
  id_eq : n.id = n'.id
  kind_eq : n.kind = n'.kind
  plain_eq : plainOf n.kind.isStep n.children = plainOf n.kind.isStep n'.children
  /-- The root is the file. -/
  root_kind : root = true → n.kind = .file

namespace Element

theorem plainOf_singleton (onLine : Bool) {e : Element} (h : e.isTrivia = false) :
    plainOf onLine [e] = [e.plain] := by
  rw [plainOf, h, Bool.false_and, if_neg Bool.false_ne_true, plainOf]

theorem plainOf_false_singleton {e : Element} (h : e.isTrivia = true) : plainOf false [e] = [] :=
  plainOf_false_of_trivia (List.forall_mem_singleton.mpr h)

/-- Significant elements with one plain form are added at the end. -/
theorem plainOf_concat_congr (onLine : Bool) {a a' : List Element} {e e' : Element}
    (h : plainOf onLine a = plainOf onLine a') (he : e.isTrivia = false)
    (hplain : e.plain = e'.plain) : plainOf onLine (a ++ [e]) = plainOf onLine (a' ++ [e']) := by
  have he' : e'.isTrivia = false := by rw [← isTrivia_plain, ← hplain, isTrivia_plain, he]
  rw [plainOf_append, plainOf_append, plainOf_singleton _ he, plainOf_singleton _ he', h, hplain]

theorem any_isBreak_congr {a a' : List Element} (h : plainOf true a = plainOf true a') :
    a.any isBreak = a'.any isBreak := by
  rw [← any_isBreak_plainOf, h, any_isBreak_plainOf]

/-- Elements are added at the end of a line. -/
theorem plainOf_append_congr {a a' b b' : List Element} (h : plainOf true a = plainOf true a')
    (hb : plainOf true b = plainOf true b') (hoff : plainOf false b = plainOf false b') :
    plainOf true (a ++ b) = plainOf true (a' ++ b') := by
  rw [plainOf_append, plainOf_append, h, any_isBreak_congr h]
  cases a'.any isBreak with
  | true => exact congrArg (plainOf true a' ++ ·) hoff
  | false => exact congrArg (plainOf true a' ++ ·) hb

end Element

/-- Waiting trivia, last first, that differs in its layout alone. The root forgets it. -/
structure LaidTrivia (root : Bool) (w w' : List Element) : Prop where
  left : ∀ e ∈ w, e.isTrivia = true
  right : ∀ e ∈ w', e.isTrivia = true
  plain_eq : root = false → plainOf true w.reverse = plainOf true w'.reverse

namespace LaidOut

variable {root : Bool} {n n' m m' : OpenNode}

theorem plain_close (h : LaidOut root n n') : n.close.plain = n'.close.plain := by
  show Element.plain (.node n.id n.kind _ n.children) = Element.plain (.node n'.id n'.kind _ n'.children)
  rw [Element.plain, Element.plain, h.plain_eq, ← h.id_eq, ← h.kind_eq]

theorem close (hn : LaidOut false n n') (hm : LaidOut root m m') :
    LaidOut root (m.push n.close) (m'.push n'.close) := by
  refine ⟨hm.id_eq, hm.kind_eq, ?_, hm.root_kind⟩
  rw [OpenNode.children_push, OpenNode.children_push]
  exact Element.plainOf_concat_congr _ hm.plain_eq rfl hn.plain_close

theorem push (h : LaidOut root n n') {i i' : Nat} {t t' : Token} (ht : t.plain = t'.plain)
    (hsignificant : t.isTrivia = false) :
    LaidOut root (n.push (.token i t)) (n'.push (.token i' t')) := by
  refine ⟨h.id_eq, h.kind_eq, ?_, h.root_kind⟩
  rw [OpenNode.children_push, OpenNode.children_push]
  refine Element.plainOf_concat_congr _ h.plain_eq hsignificant ?_
  rw [Element.plain, Element.plain, ht]

/-- Trivia that joins a node which is no step does not count. -/
theorem fill_of_not_step (h : LaidOut root n n') (hstep : n.kind.isStep = false)
    {w w' : List Element} (hw : ∀ e ∈ w, e.isTrivia = true) (hw' : ∀ e ∈ w', e.isTrivia = true) :
    LaidOut root (n.fill w) (n'.fill w') := by
  have hfill : ∀ (k : OpenNode) {v : List Element}, (∀ e ∈ v, e.isTrivia = true) →
      plainOf false (k.fill v).children = plainOf false k.children := by
    intro k v hv
    rw [OpenNode.children_fill, Element.plainOf_append, Bool.false_and,
      Element.plainOf_false_of_trivia fun e he => hv e (List.mem_reverse.mp he), List.append_nil]
  refine ⟨h.id_eq, h.kind_eq, ?_, h.root_kind⟩
  have hplain := h.plain_eq
  show plainOf n.kind.isStep _ = plainOf n.kind.isStep _
  rw [hstep] at hplain ⊢
  rw [hfill n hw, hfill n' hw', hplain]

theorem fill (h : LaidOut root n n') {w w' : List Element} (hw : LaidTrivia root w w') :
    LaidOut root (n.fill w) (n'.fill w') := by
  cases hstep : n.kind.isStep with
  | false => exact h.fill_of_not_step hstep hw.left hw.right
  | true =>
    have hroot : root = false := by
      rw [Bool.eq_false_iff]
      intro hroot
      rw [h.root_kind hroot] at hstep
      cases hstep
    have hoff : ∀ {v : List Element}, (∀ e ∈ v, e.isTrivia = true) → plainOf false v.reverse = [] :=
      fun hv => Element.plainOf_false_of_trivia fun e he => hv e (List.mem_reverse.mp he)
    have hplain := h.plain_eq
    refine ⟨h.id_eq, h.kind_eq, ?_, h.root_kind⟩
    rw [OpenNode.children_fill, OpenNode.children_fill]
    show plainOf n.kind.isStep _ = plainOf n.kind.isStep _
    rw [hstep] at hplain ⊢
    refine Element.plainOf_append_congr hplain (hw.plain_eq hroot) ?_
    rw [hoff hw.left, hoff hw.right]

end LaidOut

theorem Token.kind_eq_of_plain {t t' : Token} (h : t.plain = t'.plain) : t.kind = t'.kind := by
  rw [← t.kind_plain, h, t'.kind_plain]

theorem LaidTrivia.cons {root : Bool} {w w' : List Element} (h : LaidTrivia root w w') {i i' : Nat}
    {t t' : Token} (ht : t.plain = t'.plain) (htrivia : t.isTrivia = true) :
    LaidTrivia root (.token i t :: w) (.token i' t' :: w') := by
  have htrivia' : t'.isTrivia = true := by rwa [Token.isTrivia, ← Token.kind_eq_of_plain ht]
  refine ⟨List.forall_mem_cons.mpr ⟨htrivia, h.left⟩, List.forall_mem_cons.mpr ⟨htrivia', h.right⟩,
    fun hroot => ?_⟩
  rw [List.reverse_cons, List.reverse_cons]
  refine Element.plainOf_append_congr (h.plain_eq hroot) ?_ ?_
  · rw [Element.plainOf_true_cons, Element.plainOf_true_cons, Element.plain, Element.plain, ht,
      plainOf, plainOf]
  · rw [Element.plainOf_false_singleton (e := .token i t) htrivia,
      Element.plainOf_false_singleton (e := .token i' t') htrivia']

/-- **`laidOut`** — two runs that differ in their layout alone. -/
def laidOut : Likeness where
  node := LaidOut
  trivia := LaidTrivia
  token t t' := t.plain = t'.plain
  number i i' := i = i'
  index _ _ := True
  problems ps ps' := ps.map (·.kind) = ps'.map (·.kind)
  kind_of_node h := h.kind_eq
  kind_of_token h := Token.kind_eq_of_plain h
  number_succ h := congrArg Nat.succ h
  index_succ _ := trivial
  node_new kind h := ⟨h, rfl, rfl, fun h => by cases h⟩
  node_close hn hm := hn.close hm
  node_push h _ ht hsignificant := h.push ht hsignificant
  node_fill h hw := h.fill hw
  trivia_nil _ := ⟨fun _ h => absurd h List.not_mem_nil, fun _ h => absurd h List.not_mem_nil,
    fun _ => rfl⟩
  trivia_cons h _ ht htrivia := h.cons ht htrivia
  trivia_root h := ⟨h.left, h.right, fun h => by cases h⟩
  problems_cons kind h _ := congrArg (kind :: ·) h

/-! ## §B Runs line by line -/

namespace Builder

variable {b c : Builder} {t : Token}

/-- **`Rests b c`** — two builders between lines, the first of which may go on to read trivia that
the second does not. -/
structure Rests (b c : Builder) : Prop where
  alike : Alike laidOut b c
  start : b.atLineStart = true
  /-- A line break waits, unless nothing has been opened. -/
  fresh : b.path.outer.isEmpty = false → b.pending.any isBreak = true

theorem rests_new : Rests {} {} where
  alike := ⟨.root ⟨rfl, rfl, rfl, fun _ => rfl⟩, laidOut.trivia_nil _, rfl, trivial, rfl, rfl, rfl,
    rfl, rfl⟩
  start := rfl
  fresh h := by cases h

/-- **Trivia at the start of a line does not count.** -/
theorem Rests.absorb (h : Rests b c) (ht : t.isTrivia = true) : Rests (b.step t) c := by
  rw [step_trivia b ht]
  refine ⟨{ h.alike with
      trivia := ?_
      index := trivial
      atLineStart_eq := ?_ }, ?_, ?_⟩
  · refine ⟨List.forall_mem_cons.mpr ⟨ht, h.alike.trivia.left⟩, h.alike.trivia.right,
      fun hroot => ?_⟩
    rw [← h.alike.trivia.plain_eq hroot, List.reverse_cons, Element.plainOf_append,
      List.any_reverse, h.fresh hroot, Bool.not_true, Bool.and_false,
      Element.plainOf_false_singleton (e := .token _ t) ht, List.append_nil]
  · rw [h.start, Bool.true_or, ← h.alike.atLineStart_eq, h.start]
  · rw [h.start, Bool.true_or]
  · intro houter
    rw [List.any_cons, h.fresh houter, Bool.or_true]

theorem Rests.absorbAll (h : Rests b c) {ts : List Token} (hts : ∀ t ∈ ts, t.isTrivia = true) :
    Rests (ts.foldl step b) c := by
  induction ts generalizing b with
  | nil => exact h
  | cons t ts ih =>
    obtain ⟨ht, hts⟩ := List.forall_mem_cons.mp hts
    exact ih (h.absorb ht) hts

/-- A line break brings builders between lines. -/
theorem rests_newline {t' : Token} (h : Alike laidOut b c) (ht : t.kind = .newline)
    (ht' : t'.kind = .newline) : Rests (b.step t) (c.step t') := by
  have hplain : t.plain = t'.plain := by
    rw [Token.plain, Token.plain, ht, ht', if_pos rfl, if_pos rfl]
  have htrivia : t.isTrivia = true := by
    rw [Token.isTrivia, ht]
    rfl
  refine ⟨h.step hplain, ?_, fun _ => ?_⟩
  · rw [step_trivia b htrivia, ht]
    exact Bool.or_true _
  · rw [step_trivia b htrivia, List.any_cons]
    show (decide (t.kind = .newline) || _) = true
    rw [ht]
    rfl

/-- **`Ends b c`** — two builders agree in all but the trivia that waits. -/
structure Ends (b c : Builder) : Prop where
  paths : laidOut.Paths b.path c.path
  problems : b.problems.map (·.kind) = c.problems.map (·.kind)
  inDocString_eq : b.inDocString = c.inDocString
  hasFeature_eq : b.hasFeature = c.hasFeature

theorem Alike.ends (h : Alike laidOut b c) : Ends b c :=
  ⟨h.paths, h.problems, h.inDocString_eq, h.hasFeature_eq⟩

theorem Ends.step_right (h : Ends b c) (ht : t.isTrivia = true) : Ends b (c.step t) := by
  rw [step_trivia c ht]
  exact ⟨h.paths, h.problems, h.inDocString_eq, h.hasFeature_eq⟩

end Builder

/-- Bodies, each on a line of its own. -/
def ruled (bodies : List (List Char)) : List Line := bodies.map (⟨·, ['\n']⟩)

namespace Token

/-- Pieces placed at two offsets differ in their layout alone. -/
theorem forall₂_place (offset offset' : Nat) (pieces : List Lexeme) :
    List.Forall₂ laidOut.token (place offset pieces) (place offset' pieces) := by
  induction pieces generalizing offset offset' with
  | nil => exact .nil
  | cons piece rest ih =>
    obtain ⟨kind, cs⟩ := piece
    exact .cons rfl (ih _ _)

theorem isTrivia_place (offset : Nat) {pieces : List Lexeme}
    (h : ∀ piece ∈ pieces, piece.1.isTrivia = true) :
    ∀ t ∈ place offset pieces, t.isTrivia = true := by
  induction pieces generalizing offset with
  | nil => exact fun _ h => absurd h List.not_mem_nil
  | cons piece rest ih =>
    obtain ⟨hpiece, hrest⟩ := List.forall_mem_cons.mp h
    exact List.forall_mem_cons.mpr ⟨hpiece, ih _ hrest⟩

end Token

namespace Builder

open Token (place lexemes lineLexemes contentLexemes indentLexemes breakLexemes bodies)

variable {b c : Builder}

/-- Reads pieces from an offset on. -/
def read (b : Builder) (offset : Nat) (pieces : List Lexeme) : Builder :=
  (place offset pieces).foldl step b

theorem read_append (b : Builder) (offset : Nat) (x y : List Lexeme) :
    b.read offset (x ++ y) =
      (b.read offset x).read (offset + Text.byteLength (x.flatMap Prod.snd)) y := by
  rw [read, Token.place_append, List.foldl_append]
  rfl

theorem read_singleton (b : Builder) (offset : Nat) (kind : TokenKind) (cs : List Char) :
    b.read offset [(kind, cs)] =
      b.step ⟨kind, ⟨offset, offset + Text.byteLength cs, Nat.le_add_right _ _⟩, String.ofList cs⟩ :=
  rfl

theorem rests_break (h : Alike laidOut b c) (offset offset' : Nat) (ending ending' : List Char) :
    Rests (b.read offset [(.newline, ending)]) (c.read offset' [(.newline, ending')]) := by
  rw [read_singleton, read_singleton]
  exact rests_newline h rfl rfl

theorem Ends.read_break (h : Ends b c) (offset : Nat) (ending : List Char) :
    Ends b (c.read offset [(.newline, ending)]) := by
  rw [read_singleton]
  exact h.step_right rfl

/-- A line that says nothing is absorbed. -/
theorem Rests.read_idle (h : Rests b c) {doc : Option Token.DocDelimiter} {l : Line}
    (hidle : Token.isIdle doc (l.content.dropWhile isIndent) = true) (offset : Nat) :
    Rests (b.read offset (lineLexemes doc l).1) c ∧ (lineLexemes doc l).2 = doc := by
  obtain ⟨hdoc, htrivia⟩ := Token.contentLexemes_of_isIdle hidle
  rw [Token.lineLexemes_eq]
  refine ⟨h.absorbAll (Token.isTrivia_place _ ?_), hdoc⟩
  intro piece hpiece
  rcases List.mem_append.mp hpiece with hpiece | hpiece
  · exact Token.isTrivia_indentLexemes _ piece hpiece
  · rcases List.mem_append.mp hpiece with hpiece | hpiece
    · exact htrivia piece hpiece
    · exact Token.isTrivia_breakLexemes _ piece hpiece

/-- **A source against its bodies.** By induction on lines; between two of them the builders rest. -/
theorem ends_read {ls : List Line} (hbroken : Broken ls) (doc : Option Token.DocDelimiter)
    (h : Rests b c) (offset offset' : Nat) :
    Ends (b.read offset (lexemes doc ls))
      (c.read offset' (lexemes doc (ruled (bodies doc (ls.map (·.content)))))) := by
  induction ls generalizing doc b c offset offset' with
  | nil => exact h.alike.ends
  | cons l rest ih =>
    rw [lexemes, read_append, List.map_cons, bodies]
    by_cases hidle : Token.isIdle doc (l.content.dropWhile isIndent) = true
    · obtain ⟨hrests, hdoc⟩ := h.read_idle hidle offset
      rw [if_pos hidle, hdoc]
      exact ih hbroken.tail doc hrests _ _
    · have hruled : lineLexemes doc ⟨l.content.dropWhile isIndent, ['\n']⟩ =
          ((contentLexemes doc (l.content.dropWhile isIndent)).1 ++ [(.newline, ['\n'])],
            (contentLexemes doc (l.content.dropWhile isIndent)).2) := rfl
      rw [if_neg hidle, ruled, List.map_cons, lexemes, hruled, Token.lineLexemes_eq,
        Token.contentLexemes_eq doc l.content]
      simp only [read_append]
      -- The indentation is absorbed, and the bodies go hand in hand.
      have hindent := h.absorbAll
        (Token.isTrivia_place offset (Token.isTrivia_indentLexemes l.content))
      have hbody := fun o o' => hindent.alike.foldl
        (Token.forall₂_place o o' (contentLexemes doc (l.content.dropWhile isIndent)).1)
      by_cases hending : l.ending = []
      · -- The last line has no break.
        obtain rfl := hbroken.eq_nil hending
        rw [breakLexemes, hending]
        exact (hbody _ _).ends.read_break _ _
      · rw [breakLexemes, if_neg (by simpa using hending)]
        exact ih hbroken.tail _ (rests_break (hbody _ _) _ _ _ _) _ _

/-! ## §C The end of the source -/

/-- The last trivia joins no step. -/
theorem Lined.endPath_isStep {ph : Phase} (h : b.Lined ph) (hb : NodeKind.Stacked b.path.kinds) :
    b.endPath.top.kind.isStep = false := by
  rw [endPath]
  cases hdoc : b.inDocString with
  | true =>
    have htop : b.path.top.kind = .docString := h.docString hdoc
    rw [if_pos rfl, htop]
    rfl
  | false =>
    have hcontainer := OpenPath.closeLeaves_isContainer hb
    rw [if_neg Bool.false_ne_true]
    cases hkind : b.path.closeLeaves.top.kind <;> rw [hkind] at hcontainer <;>
      first | rfl | cases hcontainer

theorem Ends.plain_finish {ph : Phase} (h : Ends b c) (hlined : b.Lined ph)
    (hb : NodeKind.Stacked b.path.kinds) (hpending : ∀ e ∈ c.pending, e.isTrivia = true)
    (size size' : Nat) : (b.finish size).1.plain = (c.finish size').1.plain := by
  have hpaths : laidOut.Paths b.endPath c.endPath := by
    rw [endPath, endPath, ← h.inDocString_eq]
    split
    · exact h.paths
    · exact h.paths.closeLeaves
  have hfill : laidOut.Paths ⟨b.endPath.top.fill b.pending, b.endPath.outer⟩
      ⟨c.endPath.top.fill c.pending, c.endPath.outer⟩ :=
    hpaths.with_top fun htop =>
      LaidOut.fill_of_not_step htop (hlined.endPath_isStep hb) hlined.trivia hpending
  obtain ⟨n, n', hn, hleft, hright⟩ := hfill.finish
  rw [finish_fst, finish_fst, hleft, hright]
  exact LaidOut.plain_close hn

/-- The problems at the end are decided by those before it, an open doc string and a feature. -/
theorem kinds_finish {b c : Builder} (hproblems : b.problems.map (·.kind) = c.problems.map (·.kind))
    (hdoc : b.inDocString = c.inDocString) (hfeature : b.hasFeature = c.hasFeature)
    (size size' : Nat) : (b.finish size).2.map (·.kind) = (c.finish size').2.map (·.kind) := by
  have hreverse : b.problems.reverse.map (·.kind) = c.problems.reverse.map (·.kind) := by
    rw [List.map_reverse, List.map_reverse, hproblems]
  simp only [finish_snd, List.map_append, hreverse, hdoc, hfeature]
  cases c.inDocString <;> cases c.hasFeature <;> rfl

end Builder

namespace Outline

/-- The builder after bodies, each on a line of its own. -/
def builderOf (bodies : List (List Char)) : Builder :=
  Builder.read {} 0 (Token.lexemes none (ruled bodies))

theorem ends_builderOf (source : String) :
    Builder.Ends ((tokenize source).foldl Builder.step {})
      (builderOf (Token.bodies none (contents source))) :=
  Builder.ends_read (broken_lines source.toList) none Builder.rests_new 0 0

/-- **The plain form of an outline is decided by the bodies of its source.** -/
theorem plain_parse (source : String) :
    (parse source).root.plain =
      ((builderOf (Token.bodies none (contents source))).finish 0).1.plain := by
  obtain ⟨ph, hlined⟩ := Builder.lined_tokenize source
  have hpending := Builder.trivia_pending
    (Token.place 0 (Token.lexemes none (ruled (Token.bodies none (contents source))))) (b := {})
    fun _ h => absurd h List.not_mem_nil
  rw [root_eq]
  exact (ends_builderOf source).plain_finish hlined (Builder.judged_tokenize source).stacked
    hpending _ _

theorem kinds_degradations (source : String) :
    (parse source).degradations.map (·.kind) =
      ((builderOf (Token.bodies none (contents source))).finish 0).2.map (·.kind) := by
  rw [degradations_eq]
  have hends := ends_builderOf source
  exact Builder.kinds_finish hends.problems hends.inDocString_eq hends.hasFeature_eq _ _

/-! ## §D Reading an outline -/

/-- The nodes of an outline by their significant children: kinds and texts of tokens. -/
def spelled : View (List (Child (TokenKind × String))) where
  number := id
  look _ es := Element.significant id (fun _ t => (t.kind, t.text)) es

/-- **`Agree o o'`** — two outlines agree in everything but their layout. -/
structure Agree (o o' : Outline) : Prop where
  /-- The same nodes: their numbers, the nodes that they stand in, their kinds, and the sequence of
  their child nodes and significant tokens. -/
  nodes_eq : o.entries.map spelled.sight = o'.entries.map spelled.sight
  /-- The same problems in the same order. -/
  degradations_eq : o.degradations.map (·.kind) = o'.degradations.map (·.kind)
  /-- The same steps with the same texts and parameters. -/
  steps_eq : o.steps.map Step.reading = o'.steps.map Step.reading
  /-- Steps have the same text in every example. -/
  examples_eq : ∀ row : ExampleRow,
    o.steps.map (·.textForExample row) = o'.steps.map (·.textForExample row)
  /-- Nodes have the same tables of examples. -/
  tables_eq : o.nodes.map Node.examplesTables = o'.nodes.map Node.examplesTables

/-- What is read off plain entries is the same where the plain forms are. -/
theorem map_entries_congr {γ : Type} {o o' : Outline} (h : o.root.plain = o'.root.plain)
    {f : Entry → γ} (ho : ∀ x ∈ o.entries, f x.plain = f x) (ho' : ∀ x ∈ o'.entries, f x.plain = f x) :
    o.entries.map f = o'.entries.map f := by
  have hplain : o.entries.map Entry.plain = o'.entries.map Entry.plain := by
    rw [entries, entries, ← Element.entries_plain, h, Element.entries_plain]
  calc o.entries.map f
      = (o.entries.map Entry.plain).map f := by
        rw [List.map_map]
        exact (List.map_congr_left ho).symm
    _ = (o'.entries.map Entry.plain).map f := by rw [hplain]
    _ = o'.entries.map f := by
        rw [List.map_map]
        exact List.map_congr_left ho'

theorem sight_plain (x : Entry) : spelled.sight x.plain = spelled.sight x := by
  have hsee : ∀ (i : Nat) (t : Token), t.isTrivia = false →
      (t.plain.kind, t.plain.text) = (t.kind, t.text) := fun _ t ht => by
    rw [Token.kind_plain, Token.text_plain (Element.kind_ne_newline ht)]
  have hlook : spelled.look x.plain.node.kind x.plain.node.children =
      spelled.look x.node.kind x.node.children :=
    Element.significant_plainOf hsee x.node.kind.isStep x.node.children
  rw [View.sight, hlook]
  rfl

/-- The steps of an outline, read one by one. -/
theorem map_steps {γ : Type} (o : Outline) (g : Step → γ) :
    o.steps.map g = (o.entries.map fun x => (Step.ofNode? x.node).map g).filterMap id := by
  rw [steps, nodes, List.map_filterMap, List.filterMap_map, List.filterMap_map]
  rfl

/-- What is read off a step is read off its node redrawn. -/
theorem step_redrawn {γ : Type} {f : Node → Node} {g : Step → γ} (hkind : ∀ n, (f n).kind = n.kind)
    (hg : ∀ {s : Step}, s.Neat → g { s with node := f s.node } = g s) {n : Node}
    (hneat : Neat n.kind n.children) :
    (Step.ofNode? (f n)).map g = (Step.ofNode? n).map g := by
  cases hn : n.kind with
  | step keyword effective =>
    have hs : Step.Neat ⟨n, keyword, effective⟩ := ⟨by rw [hn]; rfl, hneat⟩
    simp only [Step.ofNode?, hkind, hn]
    exact congrArg some (hg hs)
  | _ => simp only [Step.ofNode?, hkind, hn]

theorem map_steps_congr {γ : Type} {a b : String}
    (h : (parse a).root.plain = (parse b).root.plain) {g : Step → γ}
    (hg : ∀ {s : Step}, s.Neat → g s.plain = g s) :
    (parse a).steps.map g = (parse b).steps.map g := by
  rw [map_steps, map_steps]
  refine congrArg (List.filterMap id) (map_entries_congr h ?_ ?_)
  · exact fun x hx => step_redrawn (f := Node.plain) (fun _ => rfl) hg (neat_of_mem hx)
  · exact fun x hx => step_redrawn (f := Node.plain) (fun _ => rfl) hg (neat_of_mem hx)

/-- **The layout of a source does not show in its outline.** Sources that come from each other by
edits of their layout have outlines that agree. -/
theorem parse_of_edits {a b : String} (h : Relation.EqvGen LayoutEdit a b) :
    (parse a).Agree (parse b) := by
  have hbodies := bodies_of_edits h
  have hplain : (parse a).root.plain = (parse b).root.plain := by
    rw [plain_parse, plain_parse, hbodies]
  refine ⟨?_, ?_, ?_, fun row => ?_, ?_⟩
  · exact map_entries_congr hplain (fun x _ => sight_plain x) fun x _ => sight_plain x
  · rw [kinds_degradations, kinds_degradations, hbodies]
  · exact map_steps_congr hplain Step.reading_plain
  · exact map_steps_congr hplain fun hs => Step.textForExample_plain hs row
  · rw [nodes, nodes, List.map_map, List.map_map]
    exact map_entries_congr hplain (fun x _ => x.node.examplesTables_plain) fun x _ =>
      x.node.examplesTables_plain

/-- Other breaks, another indentation, a blank line and a comment, one edit after the other; the line
that begins with a hash inside the doc string stays. -/
theorem parse_of_edits_doc_string :
    Relation.EqvGen LayoutEdit "Scenario: s\nGiven a <n>\n\"\"\"\n# kept"
        "# new\r\n\tScenario: s\r\nGiven a <n>\r\n \t\r\n\"\"\"\r\n# kept" ∧
      (parse "Scenario: s\nGiven a <n>\n\"\"\"\n# kept").Agree
        (parse "# new\r\n\tScenario: s\r\nGiven a <n>\r\n \t\r\n\"\"\"\r\n# kept") := by
  have hedits : Relation.EqvGen LayoutEdit "Scenario: s\nGiven a <n>\n\"\"\"\n# kept"
      "# new\r\n\tScenario: s\r\nGiven a <n>\r\n \t\r\n\"\"\"\r\n# kept" := by
    refine .trans _ "Scenario: s\r\nGiven a <n>\r\n\"\"\"\r\n# kept" _
      (.rel _ _ (.breaks (by decide +kernel))) ?_
    refine .trans _ "\tScenario: s\r\nGiven a <n>\r\n\"\"\"\r\n# kept" _
      (.rel _ _ (.indent [] ["Given a <n>".toList, "\"\"\"".toList, "# kept".toList]
        "Scenario: s".toList "\tScenario: s".toList (by decide +kernel) (by decide +kernel)
        (by decide +kernel))) ?_
    refine .trans _ "\tScenario: s\r\nGiven a <n>\r\n \t\r\n\"\"\"\r\n# kept" _
      (.rel _ _ (.blank ["\tScenario: s".toList, "Given a <n>".toList]
        ["\"\"\"".toList, "# kept".toList] " \t".toList (by decide +kernel) (by decide +kernel)
        (List.all_eq_true.mp rfl))) ?_
    exact .rel _ _ (.comment []
      ["\tScenario: s".toList, "Given a <n>".toList, " \t".toList, "\"\"\"".toList, "# kept".toList]
      "# new".toList (by decide +kernel) (by decide +kernel) (by decide +kernel) rfl)
  exact ⟨hedits, parse_of_edits hedits⟩

end Outline

end FeatureFile

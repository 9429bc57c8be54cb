/-
# FeatureFile.Proofs.Outline.Table — the table below an examples keyword

Rows that are written below an examples keyword are read back from its node, whatever stands before
the keyword and behind the rows. While they are read the examples are the innermost container, and
in it there is at most one table, with the rows read so far; the last row may get no more cells but
is still open (`OpenPath.Tabled`). A pipe at the start of a line closes that row and opens the next,
the rest of the line joins it (`Builder.Joins`), and indentation, blank lines and comments wait. So
each line of a written table adds its row (`Builder.Tabled.read_row`) or nothing. The first token
behind the rows, or the end of the source, closes the table into the examples, which keep it.

Main statement: `Outline.parse_readsTables`.
-/

import FeatureFile.Proofs.Outline.StepTree
import FeatureFile.Proofs.Outline.Layout
import FeatureFile.Proofs.Token.TableRow

namespace FeatureFile

open Text (isIndent isBreak byteLength)

/-! ## §A Rows and tables among elements -/

namespace Element

/-- The cells that the tokens among elements are read as. -/
def cellsOf (es : List Element) : List String :=
  (rowTexts none (es.filterMap token?)).map fun cell => String.ofList (unescapeCell cell.toList)

/-- The rows among elements. -/
def rowsOf (es : List Element) : List (List String) :=
  ((es.filterMap node?).filter fun n => n.kind = .tableRow).map rowCells

/-- The rows of the first table among elements. -/
def tableOf? (es : List Element) : Option (List (List String)) :=
  ((es.filterMap node?).filter fun n => n.kind = .table).head?.map fun n => rowsOf n.children

/-- Trivia behind a row adds no cell. -/
theorem cellsOf_append_trivia (es : List Element) {w : List Element}
    (hw : ∀ e ∈ w, e.isTrivia = true) : cellsOf (es ++ w) = cellsOf es := by
  have hnone : (w.filterMap token?).filter (fun t => !t.isTrivia) = [] := by
    refine List.filter_eq_nil_iff.mpr fun t ht => ?_
    obtain ⟨e, he, htoken⟩ := List.mem_filterMap.mp ht
    cases e with
    | token i u =>
      obtain rfl := Option.some.inj htoken
      have htrivia : u.isTrivia = true := hw _ he
      simp [htrivia]
    | node => cases htoken
  rw [cellsOf, cellsOf, ← rowTexts_plain none ((es ++ w).filterMap token?), List.filterMap_append,
    List.filter_append, hnone, List.append_nil, rowTexts_plain]

/-- Trivia holds no node. -/
theorem filterMap_node?_trivia {w : List Element} (hw : ∀ e ∈ w, e.isTrivia = true) :
    w.filterMap node? = [] :=
  List.filterMap_eq_nil_iff.mpr fun e he => node?_of_isTrivia (hw e he)

theorem rowsOf_append_trivia (es : List Element) {w : List Element}
    (hw : ∀ e ∈ w, e.isTrivia = true) : rowsOf (es ++ w) = rowsOf es := by
  rw [rowsOf, rowsOf, List.filterMap_append, filterMap_node?_trivia hw, List.append_nil]

/-- A row that is closed is one more row. -/
theorem rowsOf_append_close (es : List Element) {row : OpenNode} (h : row.kind = .tableRow) :
    rowsOf (es ++ [row.close]) = rowsOf es ++ [cellsOf row.children] := by
  have hclose : [row.close].filterMap node? =
      [⟨row.id, row.kind, Span.coverAll (row.children.map span), row.children⟩] := rfl
  rw [rowsOf, rowsOf, List.filterMap_append, hclose, List.filter_append,
    List.filter_cons_of_pos (by simpa using h), List.map_append]
  rfl

/-- The first table stays the first. -/
theorem tableOf?_of_append {es more : List Element} {rows : List (List String)}
    (h : tableOf? es = some rows) : tableOf? (es ++ more) = some rows := by
  obtain ⟨n, hn, hrows⟩ := Option.map_eq_some_iff.mp h
  rw [tableOf?, List.filterMap_append, List.filter_append, List.head?_append, hn]
  exact congrArg some hrows

end Element

open Element (cellsOf rowsOf tableOf?)

/-- Examples have the first table among their children. -/
theorem ExamplesTable.ofNode?_of_tableOf? {n : Node} (hkind : n.kind = .examples)
    {header : List String} {rows : List (List String)}
    (h : tableOf? n.children = some (header :: rows)) : ofNode? n = some ⟨header, rows⟩ := by
  obtain ⟨table, htable, hrows⟩ := Option.map_eq_some_iff.mp h
  have hhead : (n.childrenOfKind .table).head? = some table := htable
  have hmap : (table.childrenOfKind .tableRow).map rowCells = header :: rows := hrows
  simp only [ofNode?, if_pos hkind, hhead, hmap]

/-! ## §B The path while a table is read -/

/-- **`n.Titled front`** — the open examples have children that begin with the given ones, and none
of their children is a node. -/
structure OpenNode.Titled (front : List Element) (n : OpenNode) : Prop where
  kind_eq : n.kind = .examples
  begins : front <+: n.children
  flat : n.children.filterMap Element.node? = []

theorem OpenNode.Titled.fill {front : List Element} {n : OpenNode} (h : n.Titled front)
    {w : List Element} (hw : ∀ e ∈ w, e.isTrivia = true) : (n.fill w).Titled front := by
  have hrev : ∀ e ∈ w.reverse, e.isTrivia = true := fun e he => hw e (List.mem_reverse.mp he)
  refine ⟨h.kind_eq, ?_, ?_⟩
  · rw [OpenNode.children_fill]
    exact h.begins.trans (List.prefix_append _ _)
  · rw [OpenNode.children_fill, List.filterMap_append, h.flat,
      Element.filterMap_node?_trivia hrev]
    rfl

namespace OpenPath

/-- **`p.InRow front rows`** — a row is open, in a table with the given rows before it, in examples. -/
structure InRow (front : List Element) (rows : List (List String)) (p : OpenPath) : Prop where
  kind_eq : p.top.kind = .tableRow
  around : ∃ table n outer, p.outer = table :: n :: outer ∧ table.kind = .table ∧
    rowsOf table.children = rows ∧ n.Titled front

/-- **`p.Tabled front rows`** — examples are open, with the given rows below them. -/
inductive Tabled (front : List Element) : List (List String) → OpenPath → Prop
  | title {p : OpenPath} : p.top.Titled front → Tabled front [] p
  | row {p : OpenPath} {rows : List (List String)} :
      p.InRow front rows → Tabled front (rows ++ [cellsOf p.top.children]) p

variable {front : List Element} {rows : List (List String)} {p : OpenPath}

theorem closeOne_of_ne {kind : NodeKind} (h : p.top.kind ≠ kind) : p.closeOne kind = p := by
  obtain ⟨top, outer⟩ := p
  cases outer with
  | nil => rfl
  | cons => exact if_neg h

theorem closeAll_of_top {f : NodeKind → Bool} (h : f p.top.kind = false) : p.closeAll f = p := by
  obtain ⟨top, outer⟩ := p
  cases outer with
  | nil => rfl
  | cons => exact if_neg (Bool.eq_false_iff.mp h)

/-- What closes a row and its table leaves the examples open. -/
theorem closeAll_row {f : NodeKind → Bool} (hf : f .tableRow = true ∧ f .table = true)
    (hstop : f .examples = false) {row table n : OpenNode} {outer : List OpenNode}
    (hrow : row.kind = .tableRow) (htable : table.kind = .table) (hn : n.kind = .examples) :
    closeAll ⟨row, table :: n :: outer⟩ f = ⟨n.push (table.push row.close).close, outer⟩ := by
  have htable' : f (table.push row.close).kind = true := by
    rw [show (table.push row.close).kind = .table from htable]
    exact hf.2
  have hn' : f (n.push (table.push row.close).close).kind = false := by
    rw [show (n.push (table.push row.close).close).kind = .examples from hn]
    exact hstop
  show closeWhile f row (table :: n :: outer) = _
  rw [closeWhile, if_pos (hrow ▸ hf.1), closeWhile, if_pos htable']
  exact closeAll_of_top (p := ⟨n.push (table.push row.close).close, outer⟩) hn'

/-- **Behind its last row a table is closed into the examples.** -/
theorem InRow.closed (h : p.InRow front rows) :
    (∃ es, front <+: es ∧ tableOf? es = some (rows ++ [cellsOf p.top.children]) ∧
      p.closeLeaves.Keeps .examples es) ∧ Builder.docStringPath p = p.closeLeaves := by
  obtain ⟨row, outer⟩ := p
  obtain ⟨hrow, table, n, outer, rfl, htable, rfl, hn⟩ := h
  have hleaves : closeLeaves ⟨row, table :: n :: outer⟩ =
      ⟨n.push (table.push row.close).close, outer⟩ :=
    closeAll_row ⟨rfl, rfl⟩ rfl hrow htable hn.kind_eq
  have hdocString : Builder.docStringPath ⟨row, table :: n :: outer⟩ =
      ⟨n.push (table.push row.close).close, outer⟩ :=
    closeAll_row ⟨rfl, rfl⟩ rfl hrow htable hn.kind_eq
  refine ⟨⟨(n.push (table.push row.close).close).children, ?_, ?_, ?_⟩, hdocString.trans hleaves.symm⟩
  · rw [OpenNode.children_push]
    exact hn.begins.trans (List.prefix_append _ _)
  · have hclose : [(table.push row.close).close].filterMap Element.node? =
        [⟨table.id, table.kind, Span.coverAll ((table.push row.close).children.map Element.span),
          (table.push row.close).children⟩] := rfl
    rw [tableOf?, OpenNode.children_push, List.filterMap_append, hn.flat, hclose, List.nil_append,
      List.filter_cons_of_pos (by simpa using htable), List.head?_cons, Option.map_some,
      OpenNode.children_push, Element.rowsOf_append_close _ hrow]
  · rw [hleaves]
    exact ⟨_, List.mem_cons_self, Or.inl ⟨hn.kind_eq, List.prefix_rfl⟩⟩

end OpenPath

/-! ## §C Tokens that join a line -/

namespace Builder

variable {b b' b'' : Builder} {ts ts' : List Token}

/-- **`b.Joins ts b'`** — from `b`, on a line that has begun, reading has led to `b'`: the innermost
node is the same one, and the tokens have come to its children or wait to do so. -/
structure Joins (b : Builder) (ts : List Token) (b' : Builder) : Prop where
  kind_eq : b'.path.top.kind = b.path.top.kind
  outer_eq : b'.path.outer = b.path.outer
  inDocString_eq : b'.inDocString = b.inDocString
  atLineStart_eq : b'.atLineStart = b.atLineStart
  line_eq : b'.line.map Element.token? = b.line.map Element.token? ++ ts.map some
  kept : b.path.top.children <+: b'.path.top.children

namespace Joins

theorem refl (b : Builder) : b.Joins [] b :=
  ⟨rfl, rfl, rfl, rfl, (List.append_nil _).symm, List.prefix_rfl⟩

theorem trans (h : b.Joins ts b') (h' : b'.Joins ts' b'') : b.Joins (ts ++ ts') b'' where
  kind_eq := h'.kind_eq.trans h.kind_eq
  outer_eq := h'.outer_eq.trans h.outer_eq
  inDocString_eq := h'.inDocString_eq.trans h.inDocString_eq
  atLineStart_eq := h'.atLineStart_eq.trans h.atLineStart_eq
  line_eq := by rw [h'.line_eq, h.line_eq, List.map_append, List.append_assoc]
  kept := h.kept.trans h'.kept

/-- The tokens of the line. -/
theorem filterMap_line (h : b.Joins ts b') :
    b'.line.filterMap Element.token? = b.line.filterMap Element.token? ++ ts := by
  have hid (es : List Element) :
      es.filterMap Element.token? = (es.map Element.token?).filterMap id := by
    rw [List.filterMap_map]
    rfl
  rw [hid, h.line_eq, List.filterMap_append, ← hid, List.filterMap_map]
  exact congrArg _ (List.filterMap_some)

/-- Tokens bring no node. -/
theorem flat_line (h : b.Joins ts b') (hflat : b.line.filterMap Element.node? = []) :
    b'.line.filterMap Element.node? = [] := by
  have hiff (es : List Element) :
      es.filterMap Element.node? = [] ↔ none ∉ es.map Element.token? := by
    rw [List.filterMap_eq_nil_iff, List.mem_map, not_exists]
    refine forall_congr' fun e => ?_
    cases e <;> simp [Element.node?, Element.token?]
  rw [hiff, h.line_eq, List.mem_append, not_or]
  exact ⟨(hiff _).mp hflat, by simp⟩

end Joins

/-- A token that opens nothing joins a line that has begun. -/
theorem joins_token (hdoc : b.inDocString = false) (hline : b.atLineStart = false) {t : Token}
    (hloose : Phase.isLoose t.kind = true) (hbreak : t.kind ≠ .newline) :
    b.Joins [t] (b.step t) := by
  cases ht : t.isTrivia with
  | true =>
    rw [step_trivia b ht]
    refine ⟨rfl, rfl, rfl, ?_, ?_, List.prefix_rfl⟩
    · show (b.atLineStart || decide (t.kind = .newline)) = b.atLineStart
      rw [decide_eq_false hbreak, Bool.or_false]
    · simp [line, Element.token?]
  | false =>
    have hstep : b.step t = b.begin.attach (.token b.nextToken t) := by
      rw [step_significant b ht, if_neg (by simp [hdoc]), hline]
      rw [Token.isTrivia] at ht
      unfold placeToken
      split <;> simp_all [Phase.isLoose]
    rw [hstep, attach, withPath, flush_path]
    have hchildren : ((b.begin.path.top.fill b.begin.pending).push (.token b.nextToken t)).children =
        b.path.top.children ++ b.pending.reverse ++ [.token b.nextToken t] := line_fill_push _ _ _
    refine ⟨rfl, rfl, rfl, hline.symm, ?_, ?_⟩
    · show (((b.begin.path.top.fill b.begin.pending).push _).children ++ [].reverse).map _ = _
      rw [hchildren, List.reverse_nil, List.append_nil, List.map_append]
      rfl
    · show _ <+: ((b.begin.path.top.fill b.begin.pending).push _).children
      rw [hchildren, List.append_assoc]
      exact List.prefix_append _ _

/-- **The rest of a line.** -/
theorem joins_foldl (hdoc : b.inDocString = false) (hline : b.atLineStart = false)
    (h : ∀ t ∈ ts, Phase.isLoose t.kind = true ∧ t.kind ≠ .newline) :
    b.Joins ts (ts.foldl step b) := by
  induction ts generalizing b with
  | nil => exact .refl b
  | cons t ts ih =>
    obtain ⟨⟨hloose, hbreak⟩, hts⟩ := List.forall_mem_cons.mp h
    have hone := joins_token hdoc hline hloose hbreak
    exact hone.trans (ih (hone.inDocString_eq.trans hdoc) (hone.atLineStart_eq.trans hline) hts)

/-! ## §D The lines of a table -/

/-- **`b.Tabled front rows`** — between the tokens of a table below examples: the rows read so far are
on the path, and nothing but trivia waits. -/
structure Tabled (front : List Element) (rows : List (List String)) (b : Builder) : Prop where
  path : b.path.Tabled front rows
  trivia : ∀ e ∈ b.pending, e.isTrivia = true
  inDocString_eq : b.inDocString = false

variable {front : List Element} {rows : List (List String)}

/-- Trivia waits. -/
theorem Tabled.foldl_trivia (h : b.Tabled front rows) (hts : ∀ t ∈ ts, t.isTrivia = true) :
    (ts.foldl step b).Tabled front rows where
  path := by
    rw [(level_foldl b hts).path_eq]
    exact h.path
  trivia := trivia_pending ts h.trivia
  inDocString_eq := (level_foldl b hts).inDocString_eq.trans h.inDocString_eq

theorem atLineStart_foldl_trivia (hstart : b.atLineStart = true)
    (hts : ∀ t ∈ ts, t.isTrivia = true) : (ts.foldl step b).atLineStart = true := by
  induction ts generalizing b with
  | nil => exact hstart
  | cons t ts ih =>
    obtain ⟨ht, hts⟩ := List.forall_mem_cons.mp hts
    refine ih ?_ hts
    rw [step_trivia b ht, hstart]
    rfl

/-- Behind a break a line starts. -/
theorem atLineStart_read_break (b : Builder) (offset : Nat) {ending : List Char} (h : ending ≠ []) :
    (b.read offset (Token.breakLexemes ending)).atLineStart = true := by
  rw [Token.breakLexemes, if_neg (by simpa using h), read_singleton, step_trivia _ rfl]
  exact Bool.or_true _

/-- Below its keyword line the first row of the examples opens their table. -/
theorem openRow_of_titled (hn : b.path.top.Titled front) (span : Span) (e : Element) :
    b.openRow span e = (b.settle b.path [] span).grow [.table, .tableRow] e := by
  have hrow : b.path.closeOne .tableRow = b.path :=
    OpenPath.closeOne_of_ne (by rw [hn.kind_eq]; decide)
  have htable : tablePath b.path = b.path := by
    rw [tablePath, hrow]
    exact OpenPath.closeAll_of_top (by rw [hn.kind_eq]; rfl)
  rw [openRow_of_held span e (by rw [hrow, hn.kind_eq]; decide) (by rw [htable, hn.kind_eq]; rfl),
    htable]

/-- An open row is closed into its table before the next one opens. -/
theorem openRow_of_row {row table n : OpenNode} {outer : List OpenNode}
    (hp : b.path = ⟨row, table :: n :: outer⟩) (hrow : row.kind = .tableRow)
    (htable : table.kind = .table) (span : Span) (e : Element) :
    b.openRow span e =
      (b.settle ⟨table.push row.close, n :: outer⟩ [] span).grow [.tableRow] e := by
  have hclose : b.path.closeOne .tableRow = ⟨table.push row.close, n :: outer⟩ := by
    rw [hp]
    exact if_pos hrow
  rw [openRow_of_table span e (by rw [hclose]; exact htable), hclose]

/-- **A pipe at the start of a line opens a row.** -/
theorem Tabled.step_pipe (h : b.Tabled front rows) (hstart : b.atLineStart = true) {t : Token}
    (hk : t.kind = .pipe) :
    (b.step t).path.InRow front rows ∧ (b.step t).line = [.token b.nextToken t] ∧
      (b.step t).pending = [] ∧ (b.step t).inDocString = false ∧ (b.step t).atLineStart = false := by
  have hstep : b.step t = b.begin.openRow t.span (.token b.nextToken t) := by
    rw [step_significant b (by rw [Token.isTrivia, hk]; rfl), if_neg (by simp [h.inDocString_eq]),
      placeToken, hk]
    exact if_pos hstart
  rw [hstep]
  have hpath := h.path
  generalize hp : b.path = p at hpath
  cases hpath with
  | title hn =>
    subst hp
    have hgrown : ((b.begin.settle b.begin.path [] t.span).grow [.table, .tableRow]
        (.token b.nextToken t)).path =
        ⟨⟨b.nextId + 1, .tableRow, [.token b.nextToken t]⟩,
          ⟨b.nextId, .table, []⟩ :: b.path.top.fill b.pending :: b.path.outer⟩ := by
      show ((b.path.pushAll b.pending.reverse).openAll b.nextId _).push _ = _
      rw [pushAll_pending]
      rfl
    rw [openRow_of_titled (b := b.begin) hn]
    refine ⟨?_, ?_, rfl, h.inDocString_eq, rfl⟩
    · rw [hgrown]
      exact ⟨rfl, _, _, _, rfl, rfl, rfl, hn.fill h.trivia⟩
    · rw [line, hgrown]
      rfl
  | @row _ rows hin =>
    obtain ⟨row, outer⟩ := p
    obtain ⟨hrow, table, n, outer, rfl, htable, rfl, hn⟩ := hin
    have hgrown : ((b.begin.settle ⟨table.push row.close, n :: outer⟩ [] t.span).grow [.tableRow]
        (.token b.nextToken t)).path =
        ⟨⟨b.nextId, .tableRow, [.token b.nextToken t]⟩,
          (table.push row.close).fill b.pending :: n :: outer⟩ := by
      show ((OpenPath.pushAll _ b.pending.reverse).openAll b.nextId _).push _ = _
      rw [pushAll_pending]
      rfl
    rw [openRow_of_row (b := b.begin) hp hrow htable]
    refine ⟨?_, ?_, rfl, h.inDocString_eq, rfl⟩
    · rw [hgrown]
      refine ⟨rfl, _, _, _, rfl, htable, ?_, hn⟩
      rw [OpenNode.children_fill, OpenNode.children_push,
        Element.rowsOf_append_trivia _ fun e he => h.trivia e (List.mem_reverse.mp he),
        Element.rowsOf_append_close _ hrow]
    · rw [line, hgrown]
      rfl

theorem forall_kind_place {P : TokenKind → Prop} {pieces : List Lexeme}
    (h : ∀ k ∈ Token.kinds pieces, P k) (offset : Nat) : ∀ t ∈ Token.place offset pieces, P t.kind := by
  rw [← Token.map_kind_place offset] at h
  exact fun t ht => h _ (List.mem_map_of_mem ht)

/-- The pieces of a written row but the first join it. -/
theorem isLoose_cellPieces (cells : List String) :
    ∀ k ∈ Token.kinds (cells.flatMap Token.cellPieces), Phase.isLoose k = true ∧ k ≠ .newline := by
  intro k hk
  obtain ⟨piece, hpiece, rfl⟩ := List.mem_map.mp hk
  obtain ⟨cell, -, hpiece⟩ := List.mem_flatMap.mp hpiece
  unfold Token.cellPieces at hpiece
  split at hpiece <;> simp only [List.mem_cons, List.not_mem_nil, or_false] at hpiece
  · rcases hpiece with rfl | rfl <;> simp [Phase.isLoose]
  · rcases hpiece with rfl | rfl | rfl | rfl <;> simp [Phase.isLoose]

/-- **A written row is one more row.** -/
theorem Tabled.read_row (h : b.Tabled front rows) (hstart : b.atLineStart = true) (offset : Nat)
    (cells : List String) : (b.read offset (Token.rowPieces cells)).Tabled front (rows ++ [cells]) := by
  have hread : b.read offset (Token.rowPieces cells) =
      (Token.place (offset + byteLength ['|']) (cells.flatMap Token.cellPieces)).foldl step
        (b.step (.ofPiece .pipe offset ['|'])) := rfl
  obtain ⟨hrow, hline, hpending, hdoc, hbegun⟩ :=
    h.step_pipe hstart (t := .ofPiece .pipe offset ['|']) rfl
  have hjoins := joins_foldl hdoc hbegun
    (forall_kind_place (isLoose_cellPieces cells) (offset + byteLength ['|']))
  have htrivia := trivia_pending
    (Token.place (offset + byteLength ['|']) (cells.flatMap Token.cellPieces))
    (b := b.step (.ofPiece .pipe offset ['|'])) (by simp [hpending])
  rw [← hread] at hjoins htrivia
  generalize b.read offset (Token.rowPieces cells) = c at hjoins htrivia
  have hcells : cellsOf c.path.top.children = cells := by
    rw [← Element.cellsOf_append_trivia c.path.top.children
      fun e he => htrivia e (List.mem_reverse.mp he)]
    show cellsOf c.line = cells
    rw [cellsOf, hjoins.filterMap_line, hline]
    exact Token.cells_rowPieces offset cells
  refine ⟨?_, htrivia, hjoins.inDocString_eq.trans hdoc⟩
  have hin : c.path.InRow front rows := by
    refine ⟨hjoins.kind_eq.trans hrow.kind_eq, ?_⟩
    rw [hjoins.outer_eq]
    exact hrow.around
  have hnext := OpenPath.Tabled.row hin
  rwa [hcells] at hnext

/-! ## §E The end of a table -/

/-- **What follows a table leaves it in the examples.** -/
theorem keeps_of_leavesTable {kind : NodeKind} {es : List Element}
    (hkeeps : b.path.closeLeaves.Keeps kind es)
    (hpath : docStringPath b.path = b.path.closeLeaves) (hdoc : b.inDocString = false)
    (hstart : b.atLineStart = true) {t : Token} (ht : Token.leavesTable t.kind = true) :
    (b.step t).path.Keeps kind es := by
  have htrivia : t.isTrivia = false := by
    rw [Token.isTrivia]
    cases hk : t.kind <;> rw [hk] at ht <;> first | rfl | cases ht
  -- A word or a tag joins the innermost container.
  have hword (hstep : b.step t = (b.begin.withPath OpenPath.closeLeaves).attach
      (.token b.nextToken t)) : (b.step t).path.Keeps kind es := by
    rw [hstep]
    exact (hkeeps.pushAll b.pending.reverse).pushAll [.token b.nextToken t]
  cases hk : t.kind with
  | keyword k =>
    obtain ⟨p, kinds, faults, hplace, hgrown⟩ := step_grown b htrivia
    cases hplace with
    | keyword _ _ hcloses => exact keeps_of_grown (hkeeps.of_closes hcloses) hgrown
    | _ => simp_all [TokenKind.keyword?]
  | docStringDelimiter =>
    obtain ⟨p, kinds, faults, hplace, hgrown⟩ := step_grown b htrivia
    cases hplace with
    | docString _ _ hq hheld =>
      rw [hpath] at hq
      subst hq
      rcases hheld with ⟨-, rfl, -⟩ | ⟨-, rfl, -⟩
      · exact keeps_of_grown hkeeps hgrown
      · exact keeps_of_grown (hkeeps.of_closes (.closeLeaves _)) hgrown
    | _ => simp_all
  | text | tag =>
    refine hword ?_
    rw [step_significant b htrivia, if_neg (by simp [hdoc]), placeToken, hk]
    exact if_pos hstart
  | _ => rw [hk] at ht; cases ht

/-- **The lines of a table.** By induction on them; the rows of those that have been read are on the
path, and at the end all of them are in the examples. -/
theorem exists_table_read {text : List Char} {more : List (List String)} (htext : TableText more text)
    (hcells : ∀ row ∈ more, ∀ cell ∈ row, Trimmed cell.toList ∧ '\r' ∉ cell.toList)
    (h : b.Tabled front rows) (hstart : text ≠ [] → b.atLineStart = true)
    (hne : rows ++ more ≠ []) (offset : Nat) :
    ∃ es, front <+: es ∧ tableOf? es = some (rows ++ more) ∧
      (b.read offset (Token.lexemes none (lines text))).endPath.Keeps .examples es := by
  induction htext generalizing b rows offset with
  | stop =>
    rw [List.append_nil] at hne ⊢
    cases h.path with
    | title => exact absurd rfl hne
    | row hin =>
      obtain ⟨⟨es, hfront, htable, hkeeps⟩, -⟩ := hin.closed
      refine ⟨es, hfront, htable, ?_⟩
      show b.endPath.Keeps _ _
      rwa [endPath, h.inDocString_eq, if_neg Bool.false_ne_true]
  | @other indent rest c hindent hc hbreak hhash hpipe =>
    rw [List.append_nil] at hne ⊢
    obtain ⟨blanks, kind, run, more, hblanks, hkind, heq⟩ :=
      @Token.lexemes_other indent rest c hindent hc hbreak hhash hpipe
    have hidle := Token.isTrivia_place offset hblanks
    have hrest := h.foldl_trivia hidle
    have hbegins := atLineStart_foldl_trivia (hstart (by simp)) hidle
    rw [heq, read_append]
    cases hrest.path with
    | title => exact absurd rfl hne
    | row hin =>
      obtain ⟨⟨es, hfront, htable, hkeeps⟩, hpath⟩ := hin.closed
      refine ⟨es, hfront, htable, ?_⟩
      have hstep := keeps_of_leavesTable hkeeps hpath hrest.inDocString_eq hbegins
        (t := .ofPiece kind (offset + byteLength (blanks.flatMap Prod.snd)) run) hkind
      exact (keeps_foldl hstep _).of_closes (closes_endPath _)
  | @idle line ending rest more hline hidle hending _ ih =>
    obtain ⟨pieces, htrivia, heq⟩ := Token.lexemes_idle hline hidle hending
    have hplaced := Token.isTrivia_place offset htrivia
    rw [heq, read_append]
    refine ih hcells (h.foldl_trivia hplaced) (fun hrest => ?_) hne _
    exact atLineStart_foldl_trivia (hstart (by simp [hrest])) hplaced
  | @row indent ending rest cells more hindent hending _ ih =>
    obtain ⟨hhead, hcells⟩ := List.forall_mem_cons.mp hcells
    have hbegins : b.atLineStart = true := hstart (by simp [rowText])
    have hblanks := Token.isTrivia_place offset
      (Token.isTrivia_indentLexemes (indent ++ rowText cells))
    rw [Token.lexemes_row hindent hhead hending, read_append, read_append, read_append,
      List.append_cons]
    refine ih hcells ?_ (fun hrest => ?_) (by simp) _
    · exact ((h.foldl_trivia hblanks).read_row (atLineStart_foldl_trivia hbegins hblanks) _ cells).foldl_trivia
        (Token.isTrivia_place _ (Token.isTrivia_breakLexemes ending))
    · refine atLineStart_read_break _ _ ?_
      rintro rfl
      cases hending
      exact hrest rfl

/-! ## §F The examples of a source -/

/-- A title stays on its line. -/
theorem isLoose_title (rest : List Char) :
    ∀ k ∈ Token.kinds (Token.titleLexemes rest), Phase.isLoose k = true ∧ k ≠ .newline := by
  refine fun k hk => ⟨Token.isLoose_titleLexemes rest k hk, ?_⟩
  cases rest with
  | nil => cases hk
  | cons c rest =>
    rcases List.mem_cons.mp hk with rfl | hk
    · simp
    · rcases Token.mem_kinds_wordLexemes hk with rfl | rfl <;> simp

/-- **The line of an examples keyword.** -/
theorem tabled_of_keyword {t : Token} (hdoc : b.inDocString = false)
    (hk : t.kind = .keyword .examples) (offset : Nat) (rest : List Char) :
    ((b.step t).read offset (Token.titleLexemes rest)).Tabled [.token b.nextToken t] [] := by
  obtain ⟨hchildren, hpending, hkind, hdoc', hbegun⟩ := step_keyword hdoc hk
  have hjoins : (b.step t).Joins _ ((b.step t).read offset (Token.titleLexemes rest)) :=
    joins_foldl hdoc' hbegun (forall_kind_place (isLoose_title rest) offset)
  have hflat := hjoins.flat_line (by rw [line, hchildren, hpending]; rfl)
  refine ⟨.title ⟨hjoins.kind_eq.trans hkind, ?_, ?_⟩, ?_, hjoins.inDocString_eq.trans hdoc'⟩
  · rw [← hchildren]
    exact hjoins.kept
  · rw [line, List.filterMap_append] at hflat
    exact (List.append_eq_nil_iff.mp hflat).1
  · exact trivia_pending _ (by simp [hpending])

end Builder

/-- Beginnings of a text that are of one length are the same. -/
theorem Text.append_inj_of_byteLength {a b c d : List Char} (h : a ++ c = b ++ d)
    (hlength : byteLength a = byteLength b) : a = b ∧ c = d := by
  have hcut := splitAt?_byteLength a c
  rw [hlength, h, splitAt?_byteLength b d] at hcut
  obtain ⟨rfl, rfl⟩ := Prod.mk.inj (Option.some.inj hcut)
  exact ⟨rfl, rfl⟩

/-- A text has one first line. -/
theorem line_unique {line line' after after' : List Char} (h : line ++ after = line' ++ after')
    (hline : ∀ c ∈ line, isBreak c = false) (hafter : ∀ c ∈ after.head?, isBreak c = true)
    (hline' : ∀ c ∈ line', isBreak c = false) (hafter' : ∀ c ∈ after'.head?, isBreak c = true) :
    line = line' ∧ after = after' := by
  let s : TokenStream := ⟨line ++ after, 0, .lineStart, none⟩
  obtain ⟨hleft, hright⟩ := TokenStream.line_of_rest (s := s) rfl hline hafter
  obtain ⟨hleft', hright'⟩ := TokenStream.line_of_rest (s := s) h hline' hafter'
  exact ⟨hleft.symm.trans hleft', hright.symm.trans hright'⟩

namespace Outline

variable {source : String}

/-- The builder behind the line of an examples keyword, and what it has still to read. -/
theorem tabled_of_keywordLine {a b : List Token} {t : Token} {rest ending below : List Char}
    (htokens : tokenize source = a ++ t :: b) (hk : t.kind = .keyword .examples)
    (hline : KeywordLine source a t b .examples rest (ending ++ below))
    (hending : EndsLine ending below) :
    ∃ c, Builder.Tabled [.token a.length t] [] c ∧ (below ≠ [] → c.atLineStart = true) ∧
      ∃ offset, (tokenize source).foldl Builder.step {} =
        c.read offset (Token.lexemes none (lines below)) := by
  have hnext : (a.foldl Builder.step {}).nextToken = a.length :=
    (Builder.reads_foldl Builder.reads_nil a).nextToken_eq
  have htitle := Builder.tabled_of_keyword (Builder.inDocString_of_keyword htokens hk) hk
    t.span.stop rest
  rw [hnext] at htitle
  have hbreak : Token.lexemes none (lines (ending ++ below)) =
      Token.breakLexemes ending ++ Token.lexemes none (lines below) :=
    @Token.lexemes_line [] ending below (fun _ h => absurd h List.not_mem_nil) hending none
  refine ⟨_, htitle.foldl_trivia (Token.isTrivia_place
    (t.span.stop + byteLength ((Token.titleLexemes rest).flatMap Prod.snd))
    (Token.isTrivia_breakLexemes ending)), fun hbelow => ?_, ?_⟩
  · refine Builder.atLineStart_read_break _ _ ?_
    rintro rfl
    cases hending
    exact hbelow rfl
  · rw [htokens, hline.behind_eq, List.foldl_append, List.foldl_cons, hbreak]
    show ∃ offset, Builder.read _ _ (Token.titleLexemes rest ++ _) = _
    rw [Builder.read_append, Builder.read_append]
    exact ⟨_, rfl⟩

/-- **Rows that are written below an examples keyword are read back from its node**, cell by cell. -/
theorem parse_readsTables {n : Node} (hn : n ∈ (parse source).nodes) (hkind : n.kind = .examples)
    {before title ending below : List Char}
    (hsource : source.toList = before ++ (title ++ (ending ++ below)))
    (hstart : n.span.start = byteLength before) (htitle : ∀ c ∈ title, isBreak c = false)
    (hending : EndsLine ending below) {header : List String} {rows : List (List String)}
    (htable : TableText (header :: rows) below)
    (hcells : ∀ row ∈ header :: rows, ∀ cell ∈ row, Trimmed cell.toList ∧ '\r' ∉ cell.toList) :
    ExamplesTable.ofNode? n = some ⟨header, rows⟩ := by
  obtain ⟨x, hx, rfl⟩ := List.mem_map.mp hn
  have hnode : x.node ∈ (parse source).nodes.filter (·.kind.keyword?.isSome) :=
    List.mem_filter.mpr ⟨hn, by rw [hkind]; rfl⟩
  obtain ⟨i, t, k, hget, hk, hopens, hhead⟩ := begins_of_keyword hnode
  obtain rfl : k = .examples := by
    rw [hkind] at hopens
    cases k <;> first | rfl | cases hopens
  obtain ⟨a, b, htokens, rfl⟩ := exists_split hget
  obtain ⟨rest, after, hline⟩ := keywordLine_of_token htokens hk
  -- The line of the keyword is the one that the rows stand below.
  obtain ⟨-, hbehind⟩ := Text.append_inj_of_byteLength (hsource.symm.trans hline.source_eq)
    (hstart.symm.trans (start_of_head? hx htokens hhead))
  rw [← List.append_assoc t.text.toList] at hbehind
  obtain ⟨-, rfl⟩ := line_unique hbehind htitle hending.head hline.line hline.after_break
  obtain ⟨c, htabled, hbegins, offset, hrun⟩ := tabled_of_keywordLine htokens hk hline hending
  obtain ⟨es, hfront, hrows, hkeeps⟩ :=
    Builder.exists_table_read htable hcells htabled hbegins (List.cons_ne_nil _ _) offset
  rw [← hrun] at hkeeps
  obtain ⟨y, hy, hykind, more, hmore⟩ :=
    Builder.exists_entry_of_endPath hkeeps (Text.byteSize source)
  rw [← root_eq] at hy
  have hynode : y.node ∈ (parse source).nodes.filter (·.kind.keyword?.isSome) :=
    List.mem_filter.mpr ⟨List.mem_map_of_mem hy, by rw [hykind]; rfl⟩
  have hyhead : y.node.children.head? = some (.token a.length t) := by
    obtain ⟨others, hothers⟩ := hfront
    rw [← hmore, ← hothers]
    rfl
  rw [← eq_of_head? hynode hnode hyhead hhead]
  refine ExamplesTable.ofNode?_of_tableOf? hykind ?_
  rw [← hmore]
  exact Element.tableOf?_of_append hrows

/-- What stands before the examples of an outline. -/
def outlineHead : String := "Feature: f\n  Scenario Outline: o\n    Given <a>\n  "

/-- Rows below examples: one with an empty cell, all three escapes, two kinds of breaks, and a blank
line and a comment between the rows. -/
def outlineRows : String :=
  "\n    | a | b |\n  # note\n\t| x\\|\\\\ |  |\r\n| 1 | \\n |\nScenario: s"

theorem tableText_outlineRows :
    TableText [["a", "b"], ["x|\\", ""], ["1", "\n"]] outlineRows.toList := by
  have hblank : ∀ c ∈ "    ".toList, isIndent c = true := List.all_eq_true.mp rfl
  have hnote : ∀ c ∈ "  # note".toList, isBreak c = false := fun c hc =>
    Bool.eq_false_iff.mpr (List.any_eq_false.mp rfl c hc)
  have hrest : TableText [] "Scenario: s".toList :=
    @TableText.other [] "cenario: s".toList 'S' (fun _ h => absurd h List.not_mem_nil) rfl rfl
      (by decide) (by decide)
  have hlast := @TableText.row [] ['\n'] _ ["1", "\n"] _ (fun _ h => absurd h List.not_mem_nil)
    (.lineFeed _) hrest
  have hsecond := @TableText.row ['\t'] ['\r', '\n'] _ ["x|\\", ""] _
    (List.forall_mem_singleton.mpr rfl) (.both _) hlast
  have hfirst := @TableText.row _ ['\n'] _ ["a", "b"] _ hblank (.lineFeed _)
    (@TableText.idle _ ['\n'] _ _ hnote rfl (.lineFeed _) hsecond)
  exact @TableText.idle [] ['\n'] _ _ (fun _ h => absurd h List.not_mem_nil) rfl (.lineFeed _) hfirst

theorem parse_readsTables_escapes :
    ∃ n ∈ (parse (outlineHead ++ "Examples: t\n" ++ outlineRows)).nodes,
      n.kind = .examples ∧ n.span.start = byteLength outlineHead.toList ∧
        ExamplesTable.ofNode? n = some ⟨["a", "b"], [["x|\\", ""], ["1", "\n"]]⟩ := by
  have hfound : ((parse (outlineHead ++ "Examples: t\n" ++ outlineRows)).nodes.find?
      (·.kind = .examples)).map (·.span.start) = some (byteLength outlineHead.toList) := by
    decide +kernel
  obtain ⟨n, hn, hstart⟩ := Option.map_eq_some_iff.mp hfound
  have hmem := List.mem_of_find?_eq_some hn
  have hkind : n.kind = .examples := by simpa using List.find?_some hn
  have hsource : (outlineHead ++ "Examples: t\n" ++ outlineRows).toList =
      outlineHead.toList ++ ("Examples: t".toList ++ (['\n'] ++ outlineRows.toList)) := by
    decide +kernel
  have htitle : ∀ c ∈ "Examples: t".toList, isBreak c = false := fun c hc =>
    Bool.eq_false_iff.mpr (List.any_eq_false.mp rfl c hc)
  exact ⟨n, hmem, hkind, hstart, parse_readsTables hmem hkind hsource hstart htitle (.lineFeed _)
    tableText_outlineRows (by decide)⟩

end Outline

end FeatureFile

/-
# FeatureFile.Proofs.Token.TableRow — a row of a table, written and read

A row is written cell by cell, each between blanks and with a pipe behind it, and inside a cell a
backslash, a pipe and a line feed are escaped (`rowText`). Three readers must undo that: the lexer
splits the row at pipes that no backslash escapes and trims the cells, the row is read back from its
pipes and cells, and the escapes are decoded. None of them asks the others, and an empty cell leaves
no token at all. What a cell may not do is begin or end with a space or a tab (`Trimmed`).

A written table is such rows on lines of their own (`TableText`): they may be indented, and blank
lines and comments may stand before them. Lines that write no row are trivia, and the first line of
something else begins with a token that no table takes.

Main statements: `cells_rowPieces`, `lexemes_row`, `lexemes_idle` and `lexemes_other`.
-/

import FeatureFile.Examples.Table
import FeatureFile.Proofs.Token.Layout

namespace FeatureFile

open Text (isBreak isIndent byteLength)

/-! ## §A Cells as written -/

/-- A character of a cell as it is written. -/
def escapeCellChar (c : Char) : List Char :=
  if c = '\\' then ['\\', '\\'] else if c = '|' then ['\\', '|']
  else if c = '\n' then ['\\', 'n'] else [c]

/-- The contents of a cell as they are written. -/
def escapeCell (cs : List Char) : List Char := cs.flatMap escapeCellChar

/-- **`rowText cells`** — a row as it is written. -/
def rowText (cells : List String) : List Char :=
  '|' :: cells.flatMap fun cell => ' ' :: (escapeCell cell.toList ++ [' ', '|'])

/-- **`Trimmed cs`** — a text neither begins nor ends with a space or a tab. -/
structure Trimmed (cs : List Char) : Prop where
  head : ∀ c ∈ cs.head?, isIndent c = false
  last : ∀ c ∈ cs.getLast?, isIndent c = false

instance (cs : List Char) : Decidable (Trimmed cs) :=
  decidable_of_iff (cs.head?.all (!isIndent ·) = true ∧ cs.getLast?.all (!isIndent ·) = true) <| by
    simp only [Option.all_eq_true, Bool.not_eq_true']
    exact ⟨fun h => ⟨h.1, h.2⟩, fun h => ⟨h.head, h.last⟩⟩

/-- A character is written as itself, or as a backslash and another one. -/
theorem escapeCellChar_cases (c : Char) :
    (c ≠ '\\' ∧ c ≠ '|' ∧ c ≠ '\n' ∧ escapeCellChar c = [c]) ∨
      ∃ d, escapeCellChar c = ['\\', d] ∧ isIndent d = false ∧ isBreak d = false ∧
        ∀ rest, unescapeCell ('\\' :: d :: rest) = c :: unescapeCell rest := by
  by_cases hslash : c = '\\'
  · exact .inr ⟨'\\', by simp [escapeCellChar, hslash], rfl, rfl, fun rest => by rw [hslash]; rfl⟩
  by_cases hpipe : c = '|'
  · exact .inr ⟨'|', by simp [escapeCellChar, hpipe], rfl, rfl, fun rest => by rw [hpipe]; rfl⟩
  by_cases hbreak : c = '\n'
  · exact .inr ⟨'n', by simp [escapeCellChar, hbreak], rfl, rfl, fun rest => by rw [hbreak]; rfl⟩
  · exact .inl ⟨hslash, hpipe, hbreak, by simp [escapeCellChar, hslash, hpipe, hbreak]⟩

/-- **Decoding undoes escaping.** -/
theorem unescapeCell_escapeCell (cs : List Char) : unescapeCell (escapeCell cs) = cs := by
  induction cs with
  | nil => rfl
  | cons c cs ih =>
    show unescapeCell (escapeCellChar c ++ escapeCell cs) = _
    obtain ⟨hslash, -, -, heq⟩ | ⟨d, heq, -, -, hdecode⟩ := escapeCellChar_cases c
    · rw [heq, List.singleton_append, unescapeCell.eq_6 c _ (by simp [hslash]) (by simp [hslash])
        (by simp [hslash]) (by simp [hslash]), ih]
    · rw [heq]
      exact (hdecode _).trans (congrArg _ ih)

theorem escapeCell_eq_nil_iff {cs : List Char} : escapeCell cs = [] ↔ cs = [] := by
  constructor
  · intro h
    rw [← unescapeCell_escapeCell cs, h]
    rfl
  · rintro rfl
    rfl

/-- No written cell ends at a pipe of its own. -/
theorem cellEnd_escapeCell (cs rest : List Char) :
    Token.cellEnd (escapeCell cs ++ rest) =
      (escapeCell cs ++ (Token.cellEnd rest).1, (Token.cellEnd rest).2) := by
  induction cs with
  | nil => rfl
  | cons c cs ih =>
    show Token.cellEnd (escapeCellChar c ++ escapeCell cs ++ rest) =
      (escapeCellChar c ++ escapeCell cs ++ _, _)
    obtain ⟨hslash, hpipe, -, heq⟩ | ⟨d, heq, -⟩ := escapeCellChar_cases c
    · rw [heq, List.append_assoc, List.singleton_append, Token.cellEnd, if_neg (by simpa using hpipe),
        ih]
      · rfl
      · simp [hslash]
      · simp [hslash]
    · rw [heq]
      show Token.cellEnd ('\\' :: d :: (escapeCell cs ++ rest)) = _
      rw [Token.cellEnd, ih]
      rfl

/-- A written cell begins with no blank and with no pipe. -/
theorem head_escapeCell {cs : List Char} (h : Trimmed cs) :
    ∀ c ∈ (escapeCell cs).head?, isIndent c = false ∧ c ≠ '|' := by
  cases cs with
  | nil => exact fun _ hc => (by cases hc)
  | cons c cs =>
    show ∀ d ∈ (escapeCellChar c ++ escapeCell cs).head?, _
    obtain ⟨-, hpipe, -, heq⟩ | ⟨d, heq, -⟩ := escapeCellChar_cases c
    · rw [heq]
      rintro d hd
      obtain rfl := Option.some.inj hd
      exact ⟨h.head c rfl, hpipe⟩
    · rw [heq]
      rintro d hd
      obtain rfl := Option.some.inj hd
      exact ⟨rfl, by decide⟩

/-- A written cell ends with no blank. -/
theorem last_escapeCell {cs : List Char} (h : Trimmed cs) :
    ∀ c ∈ (escapeCell cs).getLast?, isIndent c = false := by
  cases hcs : cs.getLast? with
  | none =>
    rw [List.getLast?_eq_none_iff.mp hcs]
    exact fun _ hc => (by cases hc)
  | some c =>
    obtain ⟨front, rfl⟩ := List.getLast?_eq_some_iff.mp hcs
    intro d hd
    rw [escapeCell, List.flatMap_append, List.flatMap_singleton, List.getLast?_append] at hd
    obtain ⟨-, -, -, heq⟩ | ⟨e, heq, he, -⟩ := escapeCellChar_cases c
    · rw [heq] at hd
      obtain rfl := Option.some.inj hd
      exact h.last _ hcs
    · rw [heq] at hd
      obtain rfl := Option.some.inj hd
      exact he

theorem dropIndentEnd_append_blank {cs : List Char}
    (h : ∀ c ∈ cs.getLast?, isIndent c = false) : Text.dropIndentEnd (cs ++ [' ']) = cs := by
  rw [Text.dropIndentEnd, List.reverse_append, List.reverse_singleton, List.singleton_append,
    List.dropWhile_cons_of_pos (by decide)]
  cases hcs : cs.reverse with
  | nil => exact (List.reverse_eq_nil_iff.mp hcs).symm
  | cons c rest =>
    have hlast : cs.getLast? = some c := by rw [← List.head?_reverse, hcs]; rfl
    rw [List.dropWhile_cons_of_neg (by simp [h c hlast]), ← hcs, List.reverse_reverse]

/-! ## §B Pieces of a row -/

namespace Token

/-- The pieces of a written cell and of what stands around it. An empty cell is white space. -/
def cellPieces (cell : String) : List Lexeme :=
  if cell.toList = [] then [(.whitespace, [' ', ' ']), (.pipe, ['|'])]
  else [(.whitespace, [' ']), (.tableCell, escapeCell cell.toList), (.whitespace, [' ']),
    (.pipe, ['|'])]

/-- The pieces of a written row. -/
def rowPieces (cells : List String) : List Lexeme := (.pipe, ['|']) :: cells.flatMap cellPieces

theorem tableLexemes_pipe (cs : List Char) :
    tableLexemes ('|' :: cs) = (.pipe, ['|']) :: tableLexemes cs := by
  rw [tableLexemes, if_neg (by decide), if_pos (by decide)]

theorem tableLexemes_blank {cs : List Char} (h : ∀ c ∈ cs.head?, isIndent c = false) :
    tableLexemes (' ' :: cs) = (.whitespace, [' ']) :: tableLexemes cs := by
  have hhead : cs.takeWhile isIndent = [] ∧ cs.dropWhile isIndent = cs := by
    cases cs with
    | nil => exact ⟨rfl, rfl⟩
    | cons c cs => simp [h c rfl]
  rw [tableLexemes, if_pos (by decide), hhead.1, hhead.2]

theorem tableLexemes_cell {cs : List Char} (hne : cs ≠ []) (h : Trimmed cs) (rest : List Char) :
    tableLexemes (escapeCell cs ++ ' ' :: '|' :: rest) =
      (.tableCell, escapeCell cs) :: tableLexemes (' ' :: '|' :: rest) := by
  have hcell : firstCell (escapeCell cs ++ ' ' :: '|' :: rest) = escapeCell cs := by
    rw [firstCell, cellEnd_escapeCell]
    exact dropIndentEnd_append_blank (last_escapeCell h)
  obtain ⟨c, more, heq⟩ := List.exists_cons_of_ne_nil fun hnil => hne (escapeCell_eq_nil_iff.mp hnil)
  obtain ⟨hindent, hpipe⟩ := head_escapeCell h c (by rw [heq]; rfl)
  have hunfold : tableLexemes (escapeCell cs ++ ' ' :: '|' :: rest) =
      (.tableCell, firstCell (escapeCell cs ++ ' ' :: '|' :: rest)) ::
        tableLexemes ((escapeCell cs ++ ' ' :: '|' :: rest).drop
          (firstCell (escapeCell cs ++ ' ' :: '|' :: rest)).length) := by
    rw [heq, List.cons_append, tableLexemes, if_neg (by simp [hindent]),
      if_neg (by simpa using hpipe)]
  rw [hunfold, hcell, List.drop_left]

/-- One cell with the blanks around it and the pipe behind it. -/
theorem tableLexemes_cellText {cell : String} (h : Trimmed cell.toList) (rest : List Char) :
    tableLexemes (' ' :: (escapeCell cell.toList ++ ' ' :: '|' :: rest)) =
      cellPieces cell ++ tableLexemes rest := by
  unfold cellPieces
  split
  · rename_i hnil
    have hpipe : isIndent '|' = false := by decide
    have hblanks : tableLexemes (' ' :: ' ' :: '|' :: rest) =
        (.whitespace, [' ', ' ']) :: tableLexemes ('|' :: rest) := by
      rw [tableLexemes, if_pos (by decide)]
      rfl
    rw [hnil]
    exact hblanks.trans (congrArg _ (tableLexemes_pipe rest))
  · rename_i hne
    have hhead : ∀ c ∈ (escapeCell cell.toList ++ ' ' :: '|' :: rest).head?,
        isIndent c = false := by
      obtain ⟨c, more, heq⟩ :=
        List.exists_cons_of_ne_nil fun hnil => hne (escapeCell_eq_nil_iff.mp hnil)
      rw [heq]
      exact fun d hd => (head_escapeCell h d (by rw [heq]; exact hd)).1
    rw [tableLexemes_blank hhead, tableLexemes_cell hne h, tableLexemes_blank (by simp [isIndent]),
      tableLexemes_pipe]
    rfl

/-- **A written row is cut into the pieces of its cells.** -/
theorem tableLexemes_rowText {cells : List String} (h : ∀ cell ∈ cells, Trimmed cell.toList) :
    tableLexemes (rowText cells) = rowPieces cells := by
  rw [rowText, tableLexemes_pipe]
  refine congrArg _ ?_
  induction cells with
  | nil => exact tableLexemes.eq_1
  | cons cell cells ih =>
    obtain ⟨hcell, hcells⟩ := List.forall_mem_cons.mp h
    rw [List.flatMap_cons, List.flatMap_cons, ← ih hcells, ← tableLexemes_cellText hcell]
    simp only [List.cons_append, List.append_assoc, List.nil_append]

theorem contentLexemes_rowText {cells : List String} (h : ∀ cell ∈ cells, Trimmed cell.toList) :
    contentLexemes none (rowText cells) = (rowPieces cells, none) := by
  have hindent : isIndent '|' = false := by decide
  rw [← tableLexemes_rowText h, rowText, contentLexemes_body hindent]
  rfl

/-! ## §C The cells of a row -/

/-- Behind the first pipe each pipe ends the cell before it. -/
theorem cellTexts_cellPieces (offset : Nat) (cells : List String) :
    cellTexts none (place offset (cells.flatMap cellPieces)) =
      cells.map fun cell => String.ofList (escapeCell cell.toList) := by
  induction cells generalizing offset with
  | nil => rfl
  | cons cell cells ih =>
    rw [List.flatMap_cons, place_append, List.map_cons, cellPieces]
    split
    · rename_i hnil
      rw [hnil]
      exact congrArg _ (ih _)
    · exact congrArg _ (ih _)

/-- **`cells_rowPieces`** — the tokens of a written row are read as its cells. -/
theorem cells_rowPieces (offset : Nat) (cells : List String) :
    (rowTexts none (place offset (rowPieces cells))).map
      (fun cell => String.ofList (unescapeCell cell.toList)) = cells := by
  have htexts : rowTexts none (place offset (rowPieces cells)) =
      cells.map fun cell => String.ofList (escapeCell cell.toList) :=
    cellTexts_cellPieces (offset + byteLength ['|']) cells
  rw [htexts, List.map_map]
  refine (List.map_congr_left fun cell _ => ?_).trans (List.map_id cells)
  show String.ofList (unescapeCell (String.ofList (escapeCell cell.toList)).toList) = cell
  rw [String.toList_ofList, unescapeCell_escapeCell, String.ofList_toList]

end Token

/-! ## §D Rows on lines -/

/-- **`EndsLine ending after`** — a line ends in the break `ending`, and `after` stands behind it. At
the end of the source the break may be missing. -/
inductive EndsLine : List Char → List Char → Prop
  | lineFeed (after : List Char) : EndsLine ['\n'] after
  | both (after : List Char) : EndsLine ['\r', '\n'] after
  | carriageReturn {after : List Char} : after.head? ≠ some '\n' → EndsLine ['\r'] after
  | missing : EndsLine [] []

/-- **`TableText rows text`** — the text writes the rows, each on a line of its own, and then goes on
with no further row. A row may be indented, and blank lines and comments may stand before it. -/
inductive TableText : List (List String) → List Char → Prop
  /-- The text is over. -/
  | stop : TableText [] []
  /-- A line of something else. -/
  | other {indent rest : List Char} {c : Char} :
      (∀ d ∈ indent, isIndent d = true) → isIndent c = false → isBreak c = false → c ≠ '#' →
      c ≠ '|' → TableText [] (indent ++ c :: rest)
  /-- A blank line or a comment. -/
  | idle {line ending rest : List Char} {rows : List (List String)} :
      (∀ c ∈ line, isBreak c = false) → Token.isIdle none (line.dropWhile isIndent) = true →
      EndsLine ending rest → TableText rows rest → TableText rows (line ++ (ending ++ rest))
  /-- A row. -/
  | row {indent ending rest : List Char} {cells : List String} {rows : List (List String)} :
      (∀ d ∈ indent, isIndent d = true) → EndsLine ending rest → TableText rows rest →
      TableText (cells :: rows) (indent ++ rowText cells ++ (ending ++ rest))

/-- A written cell stays on its line. -/
theorem isBreak_escapeCell {cs : List Char} (h : '\r' ∉ cs) :
    ∀ c ∈ escapeCell cs, isBreak c = false := by
  intro c hc
  obtain ⟨d, hd, hc⟩ := List.mem_flatMap.mp hc
  obtain ⟨-, -, hfeed, heq⟩ | ⟨e, heq, -, he, -⟩ := escapeCellChar_cases d
  · rw [heq] at hc
    obtain rfl := List.mem_singleton.mp hc
    have hreturn : c ≠ '\r' := fun hreturn => h (hreturn ▸ hd)
    simp [isBreak, hfeed, hreturn]
  · rw [heq] at hc
    rcases List.mem_pair.mp hc with rfl | rfl
    · rfl
    · exact he

theorem isBreak_rowText {cells : List String} (h : ∀ cell ∈ cells, '\r' ∉ cell.toList) :
    ∀ c ∈ rowText cells, isBreak c = false := by
  refine List.forall_mem_cons.mpr ⟨rfl, fun c hc => ?_⟩
  obtain ⟨cell, hcell, hc⟩ := List.mem_flatMap.mp hc
  rcases List.mem_cons.mp hc with rfl | hc
  · rfl
  · rcases List.mem_append.mp hc with hc | hc
    · exact isBreak_escapeCell (h cell hcell) c hc
    · rcases List.mem_pair.mp hc with rfl | rfl <;> rfl

theorem dropWhile_indent {indent rest : List Char} (h : ∀ d ∈ indent, isIndent d = true)
    (hrest : ∀ c ∈ rest.head?, isIndent c = false) :
    (indent ++ rest).dropWhile isIndent = rest := by
  rw [List.dropWhile_append_of_pos h]
  cases rest with
  | nil => rfl
  | cons c rest => exact List.dropWhile_cons_of_neg (by simp [hrest c rfl])

theorem EndsLine.head {ending after : List Char} (h : EndsLine ending after) :
    ∀ c ∈ (ending ++ after).head?, isBreak c = true := by
  cases h with
  | missing => exact fun _ h => (by cases h)
  | _ =>
    intro c hc
    obtain rfl := Option.some.inj hc
    rfl

/-- A text goes on behind a break. -/
theorem lines_append_break {ending after : List Char} (h : EndsLine ending after)
    (hne : ending ≠ []) : lines (ending ++ after) = ⟨[], ending⟩ :: lines after := by
  cases h with
  | lineFeed =>
    have hlen : breakLength ('\n' :: after) = 1 := @breakLength_eq_one '\n' [] after
      (fun _ h => absurd h (by decide)) fun _ h => absurd h (by decide)
    rw [List.singleton_append, lines_cons_of_isBreak rfl, hlen]
    rfl
  | both => rfl
  | carriageReturn hhead =>
    have hlen : breakLength ('\r' :: after) = 1 := @breakLength_eq_one '\r' [] after
      (fun _ _ h => absurd h (by simp)) fun _ _ => hhead
    rw [List.singleton_append, lines_cons_of_isBreak rfl, hlen]
    rfl
  | missing => exact absurd rfl hne

namespace Token

/-- **The pieces of a line**, with what stands behind it. -/
theorem lexemes_line {content ending after : List Char} (hcontent : ∀ c ∈ content, isBreak c = false)
    (h : EndsLine ending after) (doc : Option DocDelimiter) :
    lexemes doc (lines (content ++ (ending ++ after))) =
      (contentLexemes doc content).1 ++
        (breakLexemes ending ++ lexemes (contentLexemes doc content).2 (lines after)) := by
  rw [lexemes_lines doc hcontent h.head]
  by_cases hne : ending = []
  · subst hne
    rfl
  · rw [lines_append_break h hne, lexemes, lineLexemes_eq]
    rfl

theorem lexemes_row {indent ending rest : List Char} {cells : List String}
    (hindent : ∀ d ∈ indent, isIndent d = true)
    (hcells : ∀ cell ∈ cells, Trimmed cell.toList ∧ '\r' ∉ cell.toList)
    (h : EndsLine ending rest) :
    lexemes none (lines (indent ++ rowText cells ++ (ending ++ rest))) =
      indentLexemes (indent ++ rowText cells) ++
        (rowPieces cells ++ (breakLexemes ending ++ lexemes none (lines rest))) := by
  have hbreak : ∀ c ∈ indent ++ rowText cells, isBreak c = false :=
    List.forall_mem_append.mpr ⟨fun c hc => isBreak_of_isIndent (hindent c hc),
      isBreak_rowText fun cell hcell => (hcells cell hcell).2⟩
  have hbody : (indent ++ rowText cells).dropWhile isIndent = rowText cells :=
    dropWhile_indent hindent fun c hc => by obtain rfl := Option.some.inj hc; rfl
  rw [lexemes_line hbreak h, contentLexemes_eq, hbody,
    contentLexemes_rowText fun cell hcell => (hcells cell hcell).1, List.append_assoc]

/-- A line that says nothing is trivia. -/
theorem lexemes_idle {line ending rest : List Char} (hline : ∀ c ∈ line, isBreak c = false)
    (hidle : isIdle none (line.dropWhile isIndent) = true) (h : EndsLine ending rest) :
    ∃ pieces, (∀ piece ∈ pieces, piece.1.isTrivia = true) ∧
      lexemes none (lines (line ++ (ending ++ rest))) = pieces ++ lexemes none (lines rest) := by
  obtain ⟨hdoc, htrivia⟩ := contentLexemes_of_isIdle hidle
  refine ⟨(contentLexemes none line).1 ++ breakLexemes ending, ?_, ?_⟩
  · rw [contentLexemes_eq]
    exact List.forall_mem_append.mpr ⟨List.forall_mem_append.mpr
      ⟨isTrivia_indentLexemes line, htrivia⟩, isTrivia_breakLexemes ending⟩
  · rw [lexemes_line hline h, contentLexemes_eq, hdoc]
    simp only [List.append_assoc]

/-! ## §E What ends a table -/

/-- Whether a token of the kind, at the start of a line, leaves the table above it. -/
def leavesTable : TokenKind → Bool
  | .keyword _ | .text | .tag | .docStringDelimiter => true
  | _ => false

/-- The first run of a text begins with its first character. -/
theorem splitBy_cons (r : Char → Char → Bool) (c : Char) (cs : List Char) :
    ∃ run runs, (c :: cs).splitBy r = (c :: run) :: runs := by
  have hjoin := List.flatten_splitBy r (c :: cs)
  cases hruns : (c :: cs).splitBy r with
  | nil =>
    rw [hruns] at hjoin
    cases hjoin
  | cons run runs =>
    obtain ⟨d, more, rfl⟩ := List.exists_cons_of_ne_nil
      (List.ne_nil_of_mem_splitBy (by rw [hruns]; exact List.mem_cons_self))
    rw [hruns, List.flatten_cons, List.cons_append] at hjoin
    obtain ⟨rfl, -⟩ := List.cons.inj hjoin
    exact ⟨more, runs, rfl⟩

theorem head_wordLexemes {c : Char} (h : isIndent c = false) (cs : List Char) :
    ∃ run more, wordLexemes (c :: cs) = (.text, run) :: more := by
  obtain ⟨run, runs, hruns⟩ := splitBy_cons (fun a b => isIndent a == isIndent b) c cs
  rw [wordLexemes, hruns, List.map_cons, List.head?_cons, Option.any_some, h,
    if_neg Bool.false_ne_true]
  exact ⟨_, _, rfl⟩

theorem head_tagLexemes (cs : List Char) :
    ∃ run more, tagLexemes ('@' :: cs) = (.tag, run) :: more := by
  obtain ⟨run, runs, hruns⟩ := splitBy_cons (fun a b => isIndent a == isIndent b) '@' cs
  refine ⟨'@' :: run, tagRunLexemes runs, ?_⟩
  have hindent : ¬ isIndent '@' = true := by decide
  have hhash : ¬ (some '@' == some '#') = true := by decide
  rw [tagLexemes, hruns, tagRunLexemes, List.head?_cons, Option.any_some, if_neg hindent,
    if_neg hhash]

/-- A line that is neither blank nor a comment nor a row begins with a token that leaves a table. -/
theorem head_plainLexemes {c : Char} (hindent : isIndent c = false) (hhash : c ≠ '#')
    (hpipe : c ≠ '|') (cs : List Char) :
    ∃ kind run more, (plainLexemes (c :: cs)).1 = (kind, run) :: more ∧
      leavesTable kind = true := by
  unfold plainLexemes
  split
  · rename_i heq
    exact absurd (Option.some.inj heq) hhash
  · rename_i heq
    obtain rfl := Option.some.inj heq
    obtain ⟨run, more, heq⟩ := head_tagLexemes cs
    exact ⟨_, _, _, heq, rfl⟩
  · rename_i heq
    exact absurd (Option.some.inj heq) hpipe
  · split
    · exact ⟨_, _, _, rfl, rfl⟩
    · split
      · exact ⟨_, _, _, rfl, rfl⟩
      · obtain ⟨run, more, heq⟩ := head_wordLexemes hindent cs
        exact ⟨_, _, _, heq, rfl⟩

/-- A text is its first line and what begins with the break behind it. -/
theorem exists_line (cs : List Char) : ∃ line after, cs = line ++ after ∧
    (∀ c ∈ line, isBreak c = false) ∧ ∀ c ∈ after.head?, isBreak c = true := by
  let s : TokenStream := ⟨cs, 0, .lineStart, none⟩
  exact ⟨s.line, s.afterLine, s.line_append_afterLine.symm, s.isBreak_of_mem_line,
    s.isBreak_head_afterLine⟩

theorem lexemes_other {indent rest : List Char} {c : Char}
    (hindent : ∀ d ∈ indent, isIndent d = true) (hc : isIndent c = false) (hbreak : isBreak c = false)
    (hhash : c ≠ '#') (hpipe : c ≠ '|') :
    ∃ blanks kind run more, (∀ piece ∈ blanks, piece.1.isTrivia = true) ∧
      leavesTable kind = true ∧
      lexemes none (lines (indent ++ c :: rest)) = blanks ++ (kind, run) :: more := by
  obtain ⟨line, after, rfl, hline, hafter⟩ := exists_line rest
  have hcontent : ∀ d ∈ indent ++ c :: line, isBreak d = false :=
    List.forall_mem_append.mpr ⟨fun d hd => isBreak_of_isIndent (hindent d hd),
      List.forall_mem_cons.mpr ⟨hbreak, hline⟩⟩
  have hbody : (indent ++ c :: line).dropWhile isIndent = c :: line :=
    dropWhile_indent hindent fun d hd => by obtain rfl := Option.some.inj hd; exact hc
  obtain ⟨kind, run, more, hhead, hkind⟩ := head_plainLexemes hc hhash hpipe line
  have hpieces : lexemes none (lines (indent ++ c :: (line ++ after))) =
      (contentLexemes none (indent ++ c :: line)).1 ++
        lexemes (contentLexemes none (indent ++ c :: line)).2 (lines after) := by
    rw [← lexemes_lines none hcontent hafter, List.append_assoc, List.cons_append]
  have hplain : (contentLexemes none (c :: line)).1 = (kind, run) :: more := by
    rw [contentLexemes_body hc]
    exact hhead
  rw [hpieces, contentLexemes_eq, hbody, hplain]
  exact ⟨_, _, _, _, isTrivia_indentLexemes _, hkind, List.append_assoc _ _ _⟩

end Token

end FeatureFile

/-
# FeatureFile.Proofs.Token.DocString — the lines of a doc string

A doc string ends at the first line that begins with its own delimiter. The lines before it are cut
into blanks, breaks and text, whatever they say, and they hand nothing on but the doc string itself.
So a source around a doc string (`DocStringFrame`) has the same pieces before the opening delimiter
and behind the closing one, whatever stands between the two.

Main statement: `DocStringFrame.lexemes_eq`.
-/

import FeatureFile.Proofs.Token.Layout

namespace FeatureFile

open Text (isBreak isIndent)

/-! ## §A Lines with and without the delimiter -/

namespace Token

/-- Whether a line begins with the delimiter, behind its indentation. -/
def DocDelimiter.begins (d : DocDelimiter) (cs : List Char) : Bool :=
  d.chars.isPrefixOf (cs.dropWhile isIndent)

/-- The kinds of the tokens inside a doc string. -/
def isDocText : TokenKind → Bool
  | .text | .whitespace | .newline => true
  | _ => false

/-- The pieces of a line behind the delimiter that it begins with. -/
def behindDelimiter (d : DocDelimiter) (cs : List Char) : List Lexeme :=
  wordLexemes ((cs.dropWhile isIndent).drop d.chars.length)

theorem isDocText_wordLexemes (cs : List Char) :
    ∀ piece ∈ wordLexemes cs, isDocText piece.1 = true := by
  intro piece hpiece
  have hkind : piece.1 ∈ kinds (wordLexemes cs) := List.mem_map_of_mem hpiece
  rcases mem_kinds_wordLexemes hkind with h | h <;> rw [h] <;> rfl

theorem isDocText_indentLexemes (cs : List Char) :
    ∀ piece ∈ indentLexemes cs, isDocText piece.1 = true := by
  rw [indentLexemes]
  split
  · exact fun _ h => absurd h List.not_mem_nil
  · exact List.forall_mem_singleton.mpr rfl

theorem isDocText_breakLexemes (ending : List Char) :
    ∀ piece ∈ breakLexemes ending, isDocText piece.1 = true := by
  rw [breakLexemes]
  split
  · exact fun _ h => absurd h List.not_mem_nil
  · exact List.forall_mem_singleton.mpr rfl

/-- A line that begins with the delimiter, without its indentation. -/
theorem exists_body_of_begins {d : DocDelimiter} {cs : List Char} (h : d.begins cs = true) :
    ∃ c rest, cs.dropWhile isIndent = c :: rest ∧ isIndent c = false ∧
      (c = '"' ∨ c = '`') ∧ DocDelimiter.ofStart? (c :: rest) = some d := by
  obtain ⟨after, hafter⟩ := List.isPrefixOf_iff_prefix.mp h
  rw [← hafter]
  cases d with
  | quotes => exact ⟨'"', _, rfl, by decide, Or.inl rfl, rfl⟩
  | backticks => exact ⟨'`', _, rfl, by decide, Or.inr rfl, rfl⟩

/-- **The opening line.** -/
theorem contentLexemes_of_opens {d : DocDelimiter} {cs : List Char} (h : d.begins cs = true) :
    contentLexemes none cs =
      (indentLexemes cs ++ (.docStringDelimiter, d.chars) :: behindDelimiter d cs, some d) := by
  obtain ⟨c, rest, hbody, hindent, hc, hstart⟩ := exists_body_of_begins h
  have hplain : plainLexemes (c :: rest) =
      ((.docStringDelimiter, d.chars) :: wordLexemes ((c :: rest).drop d.chars.length), some d) := by
    rcases hc with rfl | rfl <;> simp only [plainLexemes, List.head?_cons, hstart] <;> rfl
  rw [contentLexemes_eq, hbody, contentLexemes_body hindent, behindDelimiter, hbody, hplain]

/-- **The closing line.** -/
theorem contentLexemes_of_closes {d : DocDelimiter} {cs : List Char} (h : d.begins cs = true) :
    contentLexemes (some d) cs =
      (indentLexemes cs ++ (.docStringDelimiter, d.chars) :: behindDelimiter d cs, none) := by
  obtain ⟨c, rest, hbody, hindent, -⟩ := exists_body_of_begins h
  have hbegins : d.chars.isPrefixOf (c :: rest) = true := by
    rw [← hbody]
    exact h
  rw [contentLexemes_eq, hbody, contentLexemes_body hindent, behindDelimiter, hbody]
  simp only [docLexemes, if_pos hbegins]

/-- **A line between the two.** -/
theorem contentLexemes_inside {d : DocDelimiter} {cs : List Char} (h : d.begins cs = false) :
    (contentLexemes (some d) cs).2 = some d ∧
      ∀ piece ∈ (contentLexemes (some d) cs).1, isDocText piece.1 = true := by
  rw [contentLexemes_eq]
  cases hbody : cs.dropWhile isIndent with
  | nil =>
    refine ⟨rfl, List.forall_mem_append.mpr ⟨isDocText_indentLexemes cs, ?_⟩⟩
    exact fun _ h => absurd h List.not_mem_nil
  | cons c rest =>
    have hindent : isIndent c = false := by
      have hhead := List.head?_dropWhile_not isIndent cs
      rw [hbody] at hhead
      simpa using hhead
    have hbegins : d.chars.isPrefixOf (c :: rest) = false := by
      rw [← hbody]
      exact h
    rw [contentLexemes_body hindent]
    simp only [docLexemes, hbegins, Bool.false_eq_true, if_false]
    refine ⟨trivial, List.forall_mem_append.mpr ⟨isDocText_indentLexemes cs, ?_⟩⟩
    exact List.forall_mem_singleton.mpr rfl

theorem lineLexemes_inside {d : DocDelimiter} {l : Line} (h : d.begins l.content = false) :
    (lineLexemes (some d) l).2 = some d ∧
      ∀ piece ∈ (lineLexemes (some d) l).1, isDocText piece.1 = true := by
  obtain ⟨hdoc, hpieces⟩ := contentLexemes_inside h
  rw [contentLexemes_eq] at hdoc hpieces
  rw [lineLexemes_eq, ← List.append_assoc]
  exact ⟨hdoc, List.forall_mem_append.mpr ⟨hpieces, isDocText_breakLexemes l.ending⟩⟩

/-- **Lines between the two.** The doc string stays open, and no piece is a delimiter. -/
theorem lexemes_inside {d : DocDelimiter} {ls : List Line}
    (h : ∀ l ∈ ls, d.begins l.content = false) :
    docAfter (some d) ls = some d ∧
      ∀ piece ∈ lexemes (some d) ls, isDocText piece.1 = true := by
  induction ls with
  | nil => exact ⟨rfl, fun _ h => absurd h List.not_mem_nil⟩
  | cons l rest ih =>
    obtain ⟨hl, hrest⟩ := List.forall_mem_cons.mp h
    obtain ⟨hdoc, hpieces⟩ := lineLexemes_inside hl
    obtain ⟨hafter, hinside⟩ := ih hrest
    constructor
    · rw [docAfter, List.foldl_cons, hdoc]
      exact hafter
    · show ∀ piece ∈ (lineLexemes (some d) l).1 ++ lexemes (lineLexemes (some d) l).2 rest, _
      rw [hdoc]
      exact List.forall_mem_append.mpr ⟨hpieces, hinside⟩

/-- **A doc string among lines.** -/
theorem lexemes_docString {d : DocDelimiter} {before content after : List Line} (op cl : Line)
    (hbefore : docAfter none before = none) (hop : d.begins op.content = true)
    (hcontent : ∀ l ∈ content, d.begins l.content = false) (hcl : d.begins cl.content = true) :
    ∃ inside, (∀ piece ∈ inside, isDocText piece.1 = true) ∧
      lexemes none (before ++ op :: (content ++ cl :: after)) =
        lexemes none before ++ (indentLexemes op.content ++ (.docStringDelimiter, d.chars) ::
          (inside ++ (.docStringDelimiter, d.chars) ::
            (behindDelimiter d cl.content ++ (breakLexemes cl.ending ++ lexemes none after)))) := by
  have hopen : lineLexemes none op = (indentLexemes op.content ++ (.docStringDelimiter, d.chars) ::
      (behindDelimiter d op.content ++ breakLexemes op.ending), some d) := by
    have hline := contentLexemes_of_opens hop
    rw [contentLexemes_eq, Prod.mk.injEq, List.append_cancel_left_eq] at hline
    rw [lineLexemes_eq, hline.1, hline.2, List.cons_append]
  have hclose : lineLexemes (some d) cl =
      (indentLexemes cl.content ++ (.docStringDelimiter, d.chars) ::
        (behindDelimiter d cl.content ++ breakLexemes cl.ending), none) := by
    have hline := contentLexemes_of_closes hcl
    rw [contentLexemes_eq, Prod.mk.injEq, List.append_cancel_left_eq] at hline
    rw [lineLexemes_eq, hline.1, hline.2, List.cons_append]
  obtain ⟨hdoc, hpieces⟩ := lexemes_inside hcontent
  refine ⟨behindDelimiter d op.content ++ (breakLexemes op.ending ++
    (lexemes (some d) content ++ indentLexemes cl.content)), ?_, ?_⟩
  · simp only [List.forall_mem_append]
    exact ⟨isDocText_wordLexemes _, isDocText_breakLexemes _, hpieces, isDocText_indentLexemes _⟩
  · rw [lexemes_append, hbefore, lexemes, hopen]
    simp only [lexemes_append, hdoc, lexemes, hclose, List.append_assoc, List.cons_append]

end Token

/-! ## §B A source around a doc string -/

/-- A line, and the text behind it: the line keeps its contents, and what follows loses at most a
line feed that belongs to its break. -/
theorem lines_append_of_line {a b : List Char} {l : Line} (ha : lines a = [l])
    (hends : EndsInBreak a ∨ b = []) :
    ∃ ending ls, lines (a ++ b) = ⟨l.content, ending⟩ :: ls ∧
      (lines b = ls ∨ lines b = ⟨[], ['\n']⟩ :: ls) := by
  rcases hends with hends | rfl
  · by_cases hsplit : a.getLast? = some '\r' ∧ b.head? = some '\n'
    · obtain ⟨hlast, hhead⟩ := hsplit
      obtain ⟨front, rfl⟩ := List.getLast?_eq_some_iff.mp hlast
      obtain ⟨rest, rfl⟩ := List.head?_eq_some_iff.mp hhead
      obtain ⟨ls, content, hcr, hcrlf⟩ := lines_carriageReturn front
      -- The text before the carriage return is one line, so none stands before it.
      obtain ⟨rfl, hl⟩ : ls = [] ∧ l = ⟨content, ['\r']⟩ := by
        rw [ha] at hcr
        cases ls with
        | nil => exact ⟨rfl, (List.cons.inj hcr).1⟩
        | cons => simp at hcr
      refine ⟨['\r', '\n'], lines rest, ?_, Or.inr rfl⟩
      have hwhole : lines (front ++ ['\r', '\n'] ++ rest) =
          lines (front ++ ['\r', '\n']) ++ lines rest := by
        apply lines_append_of_endsInBreak
        · intro c hc
          rw [List.getLast?_append] at hc
          obtain rfl := Option.some.inj hc
          rfl
        · intro hlast
          rw [List.getLast?_append] at hlast
          exact absurd (Option.some.inj hlast) (by decide)
      rw [show front ++ ['\r'] ++ '\n' :: rest = front ++ ['\r', '\n'] ++ rest by simp, hwhole, hcrlf,
        hl]
      rfl
    · refine ⟨l.ending, lines b, ?_, Or.inl rfl⟩
      rw [lines_append_of_endsInBreak hends fun hlast hhead => hsplit ⟨hlast, hhead⟩, ha]
      rfl
  · exact ⟨l.ending, [], by rw [List.append_nil, ha], Or.inl rfl⟩

/-- **`DocStringFrame`** — a source around the contents of a doc string: what stands before it, its
opening line, its closing line, and what stands behind. -/
structure DocStringFrame where
  delimiter : Token.DocDelimiter
  before : String
  opening : String
  closing : String
  after : String
  /-- What stands before is whole lines that leave no doc string open. -/
  before_ends : EndsInBreak before.toList
  before_closed : Token.docAfter none (lines before.toList) = none
  opening_ends : EndsInBreak opening.toList
  opening_line : ∃ l, lines opening.toList = [l] ∧ delimiter.begins l.content = true
  /-- The closing line may be the last one and have no break. -/
  closing_ends : EndsInBreak closing.toList ∨ after = ""
  closing_line : ∃ l, lines closing.toList = [l] ∧ delimiter.begins l.content = true

namespace DocStringFrame

/-- The source with contents filled in. -/
def source (f : DocStringFrame) (content : String) : String :=
  f.before ++ f.opening ++ content ++ f.closing ++ f.after

/-- **`f.Admits content`** — the contents are whole lines, none of which begins with the
delimiter. -/
structure Admits (f : DocStringFrame) (content : String) : Prop where
  ends : EndsInBreak content.toList
  lines : ∀ l ∈ lines content.toList, f.delimiter.begins l.content = false

/-- A text whose first line begins with a delimiter begins with no line feed. -/
theorem head?_ne_newline {d : Token.DocDelimiter} {cs : List Char} {l : Line} {ls : List Line}
    (h : FeatureFile.lines cs = l :: ls) (hl : d.begins l.content = true) :
    cs.head? ≠ some '\n' := by
  intro hhead
  obtain ⟨rest, rfl⟩ := List.head?_eq_some_iff.mp hhead
  obtain ⟨rfl, -⟩ : (⟨[], ['\n']⟩ : Line) = l ∧ FeatureFile.lines rest = ls := List.cons.inj h
  cases d <;> cases hl

/-- **The lines of the source.** Those of the contents stand between two lines that do not depend on
them, but for the break of the first. -/
theorem lines_source (f : DocStringFrame) :
    ∃ op cl : List Char, f.delimiter.begins op = true ∧ f.delimiter.begins cl = true ∧
      ∃ ending after, ∀ content, f.Admits content →
        ∃ ending' inside, (∀ l ∈ inside, l ∈ FeatureFile.lines content.toList) ∧
          FeatureFile.lines (f.source content).toList =
            FeatureFile.lines f.before.toList ++
              ⟨op, ending'⟩ :: (inside ++ ⟨cl, ending⟩ :: after) := by
  obtain ⟨op, hop, hopens⟩ := f.opening_line
  obtain ⟨cl, hcl, hcloses⟩ := f.closing_line
  have hafter : EndsInBreak f.closing.toList ∨ f.after.toList = [] := by
    refine f.closing_ends.imp_right ?_
    rintro h
    rw [h]
    rfl
  obtain ⟨ending, after, hclosing, -⟩ := lines_append_of_line hcl hafter
  refine ⟨op.content, cl.content, hopens, hcloses, ending, after, ?_⟩
  intro content hcontent
  -- The closing line begins with no line feed, so the contents end where they do alone.
  have hrest : FeatureFile.lines (content.toList ++ (f.closing.toList ++ f.after.toList)) =
      FeatureFile.lines content.toList ++ ⟨cl.content, ending⟩ :: after := by
    rw [lines_append_of_endsInBreak hcontent.ends fun _ => head?_ne_newline hclosing hcloses, hclosing]
  obtain ⟨ending', ls, hopening, hls⟩ := lines_append_of_line
    (b := content.toList ++ (f.closing.toList ++ f.after.toList)) hop (Or.inl f.opening_ends)
  have hsource : (f.source content).toList = f.before.toList ++
      (f.opening.toList ++ (content.toList ++ (f.closing.toList ++ f.after.toList))) := by
    simp only [source, String.toList_append, List.append_assoc]
  have hwhole := lines_append_of_endsInBreak f.before_ends fun _ =>
    head?_ne_newline (l := ⟨op.content, ending'⟩) hopening hopens
  rw [hsource, hwhole, hopening]
  rw [hrest] at hls
  rcases hls with rfl | hmerged
  · exact ⟨ending', _, fun _ h => h, rfl⟩
  · -- The first line of the contents is a line feed that joins the break of the opening line.
    cases hlines : FeatureFile.lines content.toList with
    | nil =>
      rw [hlines] at hmerged
      obtain ⟨hcontent, -⟩ := List.cons.inj hmerged
      rw [(Line.mk.inj hcontent).1] at hcloses
      cases hdelimiter : f.delimiter <;> rw [hdelimiter] at hcloses <;> cases hcloses
    | cons first inside =>
      rw [hlines] at hmerged
      obtain ⟨-, rfl⟩ := List.cons.inj hmerged
      exact ⟨ending', inside, fun _ h => List.mem_cons_of_mem _ h, rfl⟩

/-- **The pieces of the source.** Those before the opening delimiter and behind the closing one do not
depend on the contents. -/
theorem lexemes_eq (f : DocStringFrame) :
    ∃ indent rest, (∀ piece ∈ indent, piece.1.isTrivia = true) ∧
      ∀ content, f.Admits content →
        ∃ inside, (∀ piece ∈ inside, Token.isDocText piece.1 = true) ∧
          Token.lexemes none (FeatureFile.lines (f.source content).toList) =
            Token.lexemes none (FeatureFile.lines f.before.toList) ++
              (indent ++ (.docStringDelimiter, f.delimiter.chars) ::
                (inside ++ (.docStringDelimiter, f.delimiter.chars) :: rest)) := by
  obtain ⟨op, cl, hop, hcl, ending, after, hlines⟩ := f.lines_source
  refine ⟨Token.indentLexemes op, Token.behindDelimiter f.delimiter cl ++
    (Token.breakLexemes ending ++ Token.lexemes none after), Token.isTrivia_indentLexemes op, ?_⟩
  intro content hcontent
  obtain ⟨ending', inside, hinside, hsource⟩ := hlines content hcontent
  rw [hsource]
  exact Token.lexemes_docString ⟨op, ending'⟩ ⟨cl, ending⟩ f.before_closed hop
    (fun l hl => hcontent.lines l (hinside l hl)) hcl

end DocStringFrame

end FeatureFile

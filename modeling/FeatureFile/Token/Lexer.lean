/-
# FeatureFile.Token.Lexer — from source text to tokens

The source is read line by line. What a line holds is decided by its first character after the
indentation, and the only thing that one line hands to the next is the doc string left open
(`DocDelimiter`). So the lexer is a fold over lines: `lines` cuts the text at its line breaks,
`lineLexemes` classifies one line, and `place` gives the pieces their offsets. No step looks at an
offset, and no step looks past a line break.

Every function here returns its argument cut into pieces; nothing is dropped or invented.
-/

import FeatureFile.Text.Bytes
import FeatureFile.Token

namespace FeatureFile

open Text (isBlank isIndent isBreak)

/-! ## §A Lines -/

/-- One line of a source text: its contents and the characters of the break that ends it, none for
a last line without a break. -/
structure Line where
  content : List Char
  ending : List Char
  deriving DecidableEq, Repr

namespace Line

/-- The text of the line, its break included. -/
def chars (l : Line) : List Char := l.content ++ l.ending

/-- Puts a character before the contents of the first line. -/
def push (c : Char) : List Line → List Line
  | [] => [⟨[c], []⟩]
  | l :: rest => { l with content := c :: l.content } :: rest

end Line

/-- The lines of a text. A carriage return and the line feed after it are one break. -/
def lines : List Char → List Line
  | [] => []
  | '\r' :: '\n' :: rest => ⟨[], ['\r', '\n']⟩ :: lines rest
  | c :: rest => if isBreak c then ⟨[], [c]⟩ :: lines rest else Line.push c (lines rest)

/-! ## §B Pieces of a line -/

/-- A piece of a line with its class. -/
abbrev Lexeme := TokenKind × List Char

namespace Token

/-- Runs of spaces and tabs are white space, the runs between them words. -/
def wordLexemes (cs : List Char) : List Lexeme :=
  (cs.splitBy fun a b => isIndent a == isIndent b).map fun run =>
    (if run.head?.any isIndent then .whitespace else .text, run)

/-- Tags up to the first run that begins a comment. -/
def tagRunLexemes : List (List Char) → List Lexeme
  | [] => []
  | run :: rest =>
    if run.head?.any isIndent then (.whitespace, run) :: tagRunLexemes rest
    else if run.head? == some '#' then [(.comment, run ++ rest.flatten)]
    else (.tag, run) :: tagRunLexemes rest

/-- A line of tags: words that are tags, and a comment from the first word that begins with a
hash. -/
def tagLexemes (cs : List Char) : List Lexeme :=
  tagRunLexemes (cs.splitBy fun a b => isIndent a == isIndent b)

/-- Whether a character may stand in the name of a step parameter. -/
def isParameterChar (c : Char) : Bool := !(c == '<' || c == '>' || isBlank c)

/-- The name and the rest, when the text begins with a step parameter: a non-empty name in angle
brackets. -/
def parameter? : List Char → Option (List Char × List Char)
  | '<' :: rest =>
    match rest.takeWhile isParameterChar, rest.dropWhile isParameterChar with
    | c :: name, '>' :: after => some (c :: name, after)
    | _, _ => none
  | _ => none

/-- The beginning of a text up to the first space, tab or step parameter, and the rest. -/
def wordEnd : List Char → List Char × List Char
  | [] => ([], [])
  | c :: cs =>
    if isIndent c || (parameter? (c :: cs)).isSome then ([], c :: cs)
    else
      let r := wordEnd cs
      (c :: r.1, r.2)

theorem parameter?_length {cs name after : List Char} (h : parameter? cs = some (name, after)) :
    after.length < cs.length := by
  unfold parameter? at h
  split at h
  · rename_i rest
    split at h
    · rename_i c nm aft _ hdrop
      simp only [Option.some.injEq, Prod.mk.injEq] at h
      have hle : (rest.dropWhile isParameterChar).length ≤ rest.length :=
        (List.dropWhile_suffix _).length_le
      rw [hdrop, List.length_cons] at hle
      rw [← h.2, List.length_cons]
      omega
    · simp at h
  · simp at h

theorem wordEnd_length (cs : List Char) : (wordEnd cs).2.length ≤ cs.length := by
  induction cs with
  | nil => simp [wordEnd]
  | cons c cs ih =>
    rw [wordEnd]
    split
    · simp
    · simp only [List.length_cons]; omega

/-- The text of a step after its keyword: white space, step parameters, and words between them. A
bracket that begins no parameter is part of a word. -/
def stepLexemes : List Char → List Lexeme
  | [] => []
  | c :: cs =>
    if isIndent c then
      (.whitespace, c :: cs.takeWhile isIndent) :: stepLexemes (cs.dropWhile isIndent)
    else
      match _h : parameter? (c :: cs) with
      | some (name, after) =>
        (.parameterStart, ['<']) :: (.parameterName, name) :: (.parameterEnd, ['>']) ::
          stepLexemes after
      | none =>
        let r := wordEnd cs
        (.text, c :: r.1) :: stepLexemes r.2
  termination_by cs => cs.length
  decreasing_by
    · have := (List.dropWhile_suffix isIndent (l := cs)).length_le
      simp only [List.length_cons]; omega
    · exact parameter?_length _h
    · have := wordEnd_length cs
      simp only [List.length_cons]; omega

/-- The beginning of a text up to the first pipe that no backslash escapes, and the rest. -/
def cellEnd : List Char → List Char × List Char
  | [] => ([], [])
  | ['\\'] => (['\\'], [])
  | '\\' :: c :: cs =>
    let r := cellEnd cs
    ('\\' :: c :: r.1, r.2)
  | c :: cs =>
    if c == '|' then ([], c :: cs)
    else
      let r := cellEnd cs
      (c :: r.1, r.2)

/-- A cell that begins with no pipe holds its first character. -/
theorem cellEnd_cons {c : Char} (cs : List Char) (h : (c == '|') = false) :
    ∃ rest, (cellEnd (c :: cs)).1 = c :: rest := by
  unfold cellEnd
  split
  · simp_all
  · simp_all
  · simp_all
  · simp_all

/-- Cutting trailing spaces and tabs keeps a first character that is neither. -/
theorem dropIndentEnd_cons {c : Char} (cs : List Char) (h : isIndent c = false) :
    ∃ rest, Text.dropIndentEnd (c :: cs) = c :: rest := by
  refine ⟨Text.dropIndentEnd cs, ?_⟩
  simp only [Text.dropIndentEnd, List.reverse_cons, List.dropWhile_append]
  split
  · simp_all
  · simp

/-- The first cell of a row that begins with a cell, without its trailing spaces and tabs. -/
def firstCell (cs : List Char) : List Char := Text.dropIndentEnd (cellEnd cs).1

theorem firstCell_cons {c : Char} (cs : List Char) (h₁ : isIndent c = false)
    (h₂ : (c == '|') = false) : ∃ rest, firstCell (c :: cs) = c :: rest := by
  obtain ⟨rest, hrest⟩ := cellEnd_cons cs h₂
  rw [firstCell, hrest]
  exact dropIndentEnd_cons rest h₁

/-- A table row: pipes, white space, and cells. A cell is cut before its trailing spaces and
tabs. -/
def tableLexemes : List Char → List Lexeme
  | [] => []
  | c :: cs =>
    if isIndent c then
      (.whitespace, c :: cs.takeWhile isIndent) :: tableLexemes (cs.dropWhile isIndent)
    else if c == '|' then (.pipe, [c]) :: tableLexemes cs
    else
      (.tableCell, firstCell (c :: cs)) ::
        tableLexemes ((c :: cs).drop (firstCell (c :: cs)).length)
  termination_by cs => cs.length
  decreasing_by
    · have := (List.dropWhile_suffix isIndent (l := cs)).length_le
      simp only [List.length_cons]; omega
    · simp
    · rename_i h₁ h₂
      obtain ⟨rest, hrest⟩ := firstCell_cons cs (Bool.eq_false_iff.2 h₁) (Bool.eq_false_iff.2 h₂)
      rw [hrest]
      simp only [List.length_drop, List.length_cons]; omega

/-! ## §C Lines by their first character -/

/-- The two delimiters of doc strings; one is closed by its own kind only. -/
inductive DocDelimiter where
  | quotes
  | backticks
  deriving DecidableEq, Repr

namespace DocDelimiter

/-- The three characters. -/
def chars : DocDelimiter → List Char
  | quotes => "\"\"\"".toList
  | backticks => "```".toList

/-- The delimiter at the beginning of a text. -/
def ofStart? (cs : List Char) : Option DocDelimiter :=
  [quotes, backticks].find? fun d => d.chars.isPrefixOf cs

end DocDelimiter

/-- The keyword at the beginning of a line, with its spelling: a block keyword directly before a
colon, a step keyword before a space, a tab or the end of the line. -/
def keywordAt? (cs : List Char) : Option (Keyword × List Char) :=
  Keyword.spellings.findSome? fun (spelling, keyword) =>
    if spelling.toList.isPrefixOf cs then
      let after := cs.drop spelling.length
      if (if keyword.isStep then after.head?.all isIndent else after.head? == some ':') then
        some (keyword, spelling.toList)
      else none
    else none

/-- A colon and a title. -/
def titleLexemes : List Char → List Lexeme
  | [] => []
  | c :: rest => (.colon, [c]) :: wordLexemes rest

/-- What follows a keyword on its line: the text of a step, or a colon and a title. -/
def afterKeyword (keyword : Keyword) (cs : List Char) : List Lexeme :=
  if keyword.isStep then stepLexemes cs else titleLexemes cs

/-- The pieces of a line without its indentation, outside every doc string, and the doc string that
is open after it. -/
def plainLexemes (cs : List Char) : List Lexeme × Option DocDelimiter :=
  match cs.head? with
  | some '#' => ([(.comment, cs)], none)
  | some '@' => (tagLexemes cs, none)
  | some '|' => (tableLexemes cs, none)
  | _ =>
    match DocDelimiter.ofStart? cs with
    | some d => ((.docStringDelimiter, d.chars) :: wordLexemes (cs.drop d.chars.length), some d)
    | none =>
      match keywordAt? cs with
      | some (k, spelling) =>
        ((.keyword k, spelling) :: afterKeyword k (cs.drop spelling.length), none)
      | none => (wordLexemes cs, none)

/-- The pieces of a line without its indentation inside a doc string, and the doc string that is
open after it: only the delimiter that opened it counts. -/
def docLexemes (d : DocDelimiter) (cs : List Char) : List Lexeme × Option DocDelimiter :=
  if d.chars.isPrefixOf cs then
    ((.docStringDelimiter, d.chars) :: wordLexemes (cs.drop d.chars.length), none)
  else ([(.text, cs)], some d)

/-- The pieces of a line without its indentation, given the doc string that is open before it. -/
def bodyLexemes (doc : Option DocDelimiter) (body : List Char) :
    List Lexeme × Option DocDelimiter :=
  -- A blank line ends no doc string.
  if body.isEmpty then ([], doc)
  else
    match doc with
    | some d => docLexemes d body
    | none => plainLexemes body

/-- The pieces of the contents of a line, given the doc string that is open before it. -/
def contentLexemes (doc : Option DocDelimiter) (cs : List Char) :
    List Lexeme × Option DocDelimiter :=
  let indent := cs.takeWhile isIndent
  let rest := bodyLexemes doc (cs.dropWhile isIndent)
  (if indent.isEmpty then rest.1 else (.whitespace, indent) :: rest.1, rest.2)

/-- The pieces of a line, its break last. -/
def lineLexemes (doc : Option DocDelimiter) (l : Line) : List Lexeme × Option DocDelimiter :=
  let (pieces, open?) := contentLexemes doc l.content
  (if l.ending.isEmpty then pieces else pieces ++ [(.newline, l.ending)], open?)

/-- The pieces of several lines, given the doc string that is open before them. -/
def lexemes (doc : Option DocDelimiter) : List Line → List Lexeme
  | [] => []
  | l :: rest =>
    let (pieces, open?) := lineLexemes doc l
    pieces ++ lexemes open? rest

/-! ## §D Tokens of a source -/

/-- Lays pieces end to end from an offset. -/
def place (offset : Nat) : List Lexeme → List Token
  | [] => []
  | (kind, cs) :: rest =>
    let stop := offset + Text.byteLength cs
    ⟨kind, ⟨offset, stop, Nat.le_add_right _ _⟩, String.ofList cs⟩ :: place stop rest

end Token

/-- The tokens of a source text, in order; they cover it without gaps. -/
def tokenize (source : String) : List Token :=
  Token.place 0 (Token.lexemes none (lines source.toList))

end FeatureFile

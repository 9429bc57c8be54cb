/-
# FeatureFile.Token.Stream — tokens one at a time

A stream reads a source text as far as it is asked to. Between two tokens it holds what is left of
the text, its offset, where it stands in its line (`LinePlace`) and the doc string that is open.
Each token is found from these and from the rest of the line alone; a line break puts the stream at
the start of a line, whatever it held before.

Reading a stream to its end gives the tokens of the source (`tokenize`).
-/

import FeatureFile.Token.Lexer

namespace FeatureFile

open Text (isIndent isBreak byteLength)

/-- Where a stream stands in its line, which decides how the line is read on. -/
inductive LinePlace where
  /-- Before or behind the indentation. -/
  | lineStart
  /-- Behind a block keyword. -/
  | colon
  /-- In a title, in free text, or behind a delimiter, a comment or a line of a doc string. -/
  | words
  /-- In the text of a step. -/
  | step
  /-- Behind the opening bracket of a step parameter. -/
  | parameterName
  /-- Behind the name of a step parameter. -/
  | parameterEnd
  | tags
  | table
  deriving DecidableEq, Repr

/-- The next token of a line: its kind and length in characters, and how to go on behind it. -/
structure LineCut where
  kind : TokenKind
  length : Nat
  place : LinePlace
  doc : Option Token.DocDelimiter
  deriving DecidableEq, Repr

namespace LineCut

/-- The length of the run of spaces and tabs at the head of a line. -/
def indentLength (line : List Char) : Nat := (line.takeWhile isIndent).length

/-- The length of the word at the head of a line. -/
def wordLength (line : List Char) : Nat := (line.takeWhile fun c => !isIndent c).length

/-- The run of spaces and tabs at the head of a line, or else what a reader of words finds. -/
def orIndent (place : LinePlace) (doc : Option Token.DocDelimiter) (line : List Char)
    (cut : LineCut) : LineCut :=
  if 0 < indentLength line then ⟨.whitespace, indentLength line, place, doc⟩ else cut

/-- The next token among words. -/
def ofWords (doc : Option Token.DocDelimiter) (line : List Char) : LineCut :=
  orIndent .words doc line ⟨.text, wordLength line, .words, doc⟩

/-- The next token in the text of a step. -/
def ofStep (doc : Option Token.DocDelimiter) (line : List Char) : LineCut :=
  orIndent .step doc line <|
    if (Token.parameter? line).isSome then ⟨.parameterStart, 1, .parameterName, doc⟩
    else ⟨.text, (Token.wordEnd line.tail).1.length + 1, .step, doc⟩

/-- The next token on a line of tags. -/
def ofTags (doc : Option Token.DocDelimiter) (line : List Char) : LineCut :=
  orIndent .tags doc line <|
    if line.head? == some '#' then ⟨.comment, line.length, .tags, doc⟩
    else ⟨.tag, wordLength line, .tags, doc⟩

/-- The next token on a table row. -/
def ofTable (doc : Option Token.DocDelimiter) (line : List Char) : LineCut :=
  orIndent .table doc line <|
    if line.head? == some '|' then ⟨.pipe, 1, .table, doc⟩
    else ⟨.tableCell, (Token.firstCell line).length, .table, doc⟩

/-- The first token of a line behind its indentation, outside every doc string. -/
def ofPlain (line : List Char) : LineCut :=
  match line.head? with
  | some '#' => ⟨.comment, line.length, .words, none⟩
  | some '@' => ofTags none line
  | some '|' => ofTable none line
  | _ =>
    match Token.DocDelimiter.ofStart? line with
    | some d => ⟨.docStringDelimiter, d.chars.length, .words, some d⟩
    | none =>
      match Token.keywordAt? line with
      | some (k, spelling) =>
        ⟨.keyword k, spelling.length, if k.isStep then .step else .colon, none⟩
      | none => ofWords none line

/-- The first token of a line behind its indentation, inside a doc string. -/
def ofDoc (d : Token.DocDelimiter) (line : List Char) : LineCut :=
  if d.chars.isPrefixOf line then ⟨.docStringDelimiter, d.chars.length, .words, none⟩
  else ⟨.text, line.length, .words, some d⟩

/-- The next token of what is left of a line. -/
def next (place : LinePlace) (doc : Option Token.DocDelimiter) (line : List Char) : LineCut :=
  match place with
  | .lineStart =>
    orIndent .lineStart doc line <|
      match doc with
      | some d => ofDoc d line
      | none => ofPlain line
  | .colon => ⟨.colon, 1, .words, doc⟩
  | .words => ofWords doc line
  | .step => ofStep doc line
  | .parameterName => ⟨.parameterName, (line.takeWhile (· != '>')).length, .parameterEnd, doc⟩
  | .parameterEnd => ⟨.parameterEnd, 1, .step, doc⟩
  | .tags => ofTags doc line
  | .table => ofTable doc line

end LineCut

/-- A source text that is being read. -/
structure TokenStream where
  /-- What is left of the text. -/
  rest : List Char
  /-- The byte offset of what is left. -/
  offset : Nat
  place : LinePlace
  doc : Option Token.DocDelimiter
  deriving DecidableEq, Repr

namespace TokenStream

/-- The stream at the beginning of a source. -/
def ofSource (source : String) : TokenStream := ⟨source.toList, 0, .lineStart, none⟩

/-- Takes a token of so many characters off the text, and of one at least. -/
def emit (s : TokenStream) (cut : LineCut) : Token × TokenStream :=
  let length := max cut.length 1
  let taken := s.rest.take length
  let stop := s.offset + byteLength taken
  (⟨cut.kind, ⟨s.offset, stop, Nat.le_add_right _ _⟩, String.ofList taken⟩,
    ⟨s.rest.drop length, stop, cut.place, cut.doc⟩)

/-- What is left of the line that the stream stands in. -/
def line (s : TokenStream) : List Char := s.rest.takeWhile fun c => !isBreak c

/-- How the next token is cut off a text that is not at its end: a line break, or a token of the
line. -/
def cut (s : TokenStream) : LineCut :=
  if s.rest.head?.any isBreak then
    ⟨.newline, if ['\r', '\n'].isPrefixOf s.rest then 2 else 1, .lineStart, s.doc⟩
  else .next s.place s.doc s.line

/-- The next token and the stream behind it. At the end of the text there is none, and the stream
stays as it is. -/
def next (s : TokenStream) : Option Token × TokenStream :=
  match s.rest with
  | [] => (none, s)
  | _ :: _ => (some (s.emit s.cut).1, (s.emit s.cut).2)

/-- What the stream gives when it is asked so many times and then once more. -/
def output : TokenStream → Nat → Option Token
  | s, 0 => s.next.1
  | s, n + 1 => s.next.2.output n

end TokenStream

end FeatureFile

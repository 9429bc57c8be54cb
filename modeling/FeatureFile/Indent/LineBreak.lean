/-
# FeatureFile.Indent.LineBreak — line breaks that know the structure

A line break behind a keyword starts the next line where the following element belongs: a scenario
below a feature, a step below a scenario, a row below examples, a step below a step. The new line is
indented like the line of the last keyword before the caret, and by further levels below blocks. The
break itself is written like the first one of the text.
-/

import FeatureFile.Config
import FeatureFile.Document
import FeatureFile.Token.Lexer

namespace FeatureFile

/-! ## §A Line endings -/

/-- How a text breaks its lines. -/
inductive LineEnding where
  | lf
  | crlf
  | cr
  deriving DecidableEq, Repr

namespace LineEnding

/-- The name of the ending. -/
def name : LineEnding → String
  | lf => "Lf"
  | crlf => "CrLf"
  | cr => "Cr"

/-- The characters of the ending. -/
def text : LineEnding → String
  | lf => "\n"
  | crlf => "\r\n"
  | cr => "\r"

/-- The ending of the first line that has one; a line feed if none has. -/
def detect (cs : List Char) : LineEnding :=
  match cs.dropWhile fun c => !Text.isBreak c with
  | '\r' :: '\n' :: _ => crlf
  | '\r' :: _ => cr
  | _ => lf

end LineEnding

/-! ## §B Indentation -/

/-- The last keyword that starts before an offset, with its number. -/
def lastKeywordBefore? (tokens : List Token) (offset : Nat) : Option (Nat × Token × Keyword) :=
  (tokens.takeWhile fun t => t.span.start < offset).zipIdx.reverse.findSome? fun (t, index) =>
    t.keyword?.map fun keyword => (index, t, keyword)

/-- The levels of indentation below a keyword. -/
def Keyword.levelsBelow (o : IndentOptions) : Keyword → Nat
  | feature | rule => o.scenarioLevels
  | background | scenario | scenarioOutline => o.stepLevels
  | examples => o.tableLevels
  | step _ => 0

/-- The indentation of the line of a keyword: the white space right before it. -/
def baseIndent (tokens : List Token) (index : Nat) : String :=
  if index = 0 then ""
  else
    match tokens[index - 1]? with
    | some t => if t.kind = .whitespace then t.text else ""
    | none => ""

/-- So many levels of indentation. The number of spaces stays at the greatest size. -/
def indentText (levels : Nat) (o : IndentOptions) : String :=
  match o.style with
  | .tab => String.ofList (List.replicate levels '\t')
  | .space => String.ofList (List.replicate (min (levels * o.width) IndentOptions.sizeLimit) ' ')

/-- What a line break at an offset of a source inserts; nothing if no keyword starts before it. -/
def lineBreakText? (source : String) (offset : Nat) (o : IndentOptions) : Option String :=
  let tokens := tokenize source
  (lastKeywordBefore? tokens offset).map fun (index, _, keyword) =>
    (LineEnding.detect source.toList).text ++ baseIndent tokens index ++
      indentText (keyword.levelsBelow o) o

/-! ## §C The handler -/

/-- What answers the Enter key. -/
structure LineBreakHandler where
  enabled : Bool := false
  options : IndentOptions := {}
  deriving DecidableEq, Repr

namespace LineBreakHandler

/-- The handler of a configuration. -/
def ofConfig (c : Config) : LineBreakHandler := ⟨c.smartIndent, c.indent⟩

/-- Answers the Enter key at a caret: the document afterwards, and whether the key was handled. It
is left to the caller where the handler is off, where text is selected, at the start of the
document and where no keyword precedes the caret. -/
def handle (h : LineBreakHandler) (d : Document) (c : Caret) : Except Error (Document × Bool) :=
  if !d.writable then .error .writeBlocked
  else if d.length < c.offset then .error (.offsetOutOfRange c.offset d.length)
  else if !h.enabled || c.hasSelection || c.offset == 0 then .ok (d, false)
  else
    match lineBreakText? d.text c.offset h.options with
    | none => .ok (d, false)
    | some text => (d.insert c.offset text).map fun d => (d, true)

end LineBreakHandler

end FeatureFile

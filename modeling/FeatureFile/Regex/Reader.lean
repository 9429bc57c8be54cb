/-
# FeatureFile.Regex.Reader — reading written expressions

The reader walks the text once from left to right. It holds the groups that are open, the branches
of the innermost one that are finished, and the items of its last branch; each round takes one item
off the text (`Reader.step`). Flags set inside a group last until it is closed.

A repetition needs an item before it, and a change of flags is none. A lone closing brace is a
literal, an opening brace that begins no counted repetition is an error. Beside every item goes its
depth, for a text may not be nested too deeply.
-/

import FeatureFile.Regex.Bracket
import FeatureFile.Regex.GroupName

namespace FeatureFile

namespace Regex

/-! ## §A Repetitions -/

/-- The largest bound of a counted repetition. -/
def countLimit : Nat := UInt32.size - 1

/-- A number with the blanks around it, if there is one, and the rest. -/
def readCount (flags : Flags) (cs : List Char) : Option Nat × List Char :=
  let (digits, rest) := flags.span Text.isAsciiDigit (Text.trimStart cs)
  (if digits.isEmpty || countLimit < Text.decimal digits then none else some (Text.decimal digits),
    Text.trimStart rest)

/-- The bounds of a counted repetition behind its brace, and the rest behind the closing one. -/
def readBounds (flags : Flags) (cs : List Char) :
    Except Error ((Nat × Option Nat) × List Char) :=
  match readCount flags (flags.skip cs) with
  | (some least, '}' :: rest) => .ok ((least, some least), rest)
  | (some least, ',' :: rest) =>
    match flags.skip rest with
    | '}' :: rest => .ok ((least, none), rest)
    | rest =>
      match readCount flags rest with
      | (some most, '}' :: rest) =>
        if least ≤ most then .ok ((least, some most), rest) else .error .badRepetition
      | _ => .error .badRepetition
  | _ => .error .badRepetition

/-! ## §B The state of the reader -/

/-- An expression with the depth of what wrote it. -/
structure Nested where
  regex : Regex
  depth : Nat
  deriving DecidableEq, Repr

/-- Several expressions made one; two or more are a level of their own. -/
def Nested.join (make : List Regex → Regex) (parts : List Nested) : Nested :=
  match parts with
  | [part] => part
  | parts =>
    let inner := parts.foldl (fun depth part => max depth part.depth) 0
    ⟨make (parts.map (·.regex)), if parts.isEmpty then 0 else inner + 1⟩

/-- What stands in a branch: an expression, or a change of flags. -/
inductive Item where
  | part (r : Nested)
  | flags
  deriving DecidableEq, Repr

/-- An item as an expression; a change of flags matches the empty text. -/
def Item.nested : Item → Nested
  | part r => r
  | flags => ⟨empty, 0⟩

/-- An open group: its number and name if it records its text, the flags to return to, and what was
read of the group around it, last first. -/
structure OpenGroup where
  capture : Option (Nat × Option String)
  flags : Flags
  branches : List Nested
  items : List Item
  deriving DecidableEq, Repr

/-- The state of the reader. Branches and items are held last first. -/
structure Reader where
  outer : List OpenGroup := []
  branches : List Nested := []
  items : List Item := []
  flags : Flags := {}
  groups : Nat := 0
  names : List String := []
  deriving DecidableEq, Repr

namespace Reader

/-- Adds an item to the last branch. -/
def push (s : Reader) (r : Regex) (depth : Nat) : Reader :=
  { s with items := .part ⟨r, depth⟩ :: s.items }

/-- The last branch. -/
def branch (s : Reader) : Nested := .join concat (s.items.reverse.map Item.nested)

/-- The contents of the innermost group. -/
def contents (s : Reader) : Nested := .join choice (s.branch :: s.branches).reverse

/-- Ends a branch. -/
def endBranch (s : Reader) : Reader := { s with branches := s.branch :: s.branches, items := [] }

/-! ## §C Groups -/

/-- Opens a group. -/
def openGroup (s : Reader) (capture : Option (Nat × Option String)) (flags : Flags) : Reader :=
  { s with
    outer := ⟨capture, s.flags, s.branches, s.items⟩ :: s.outer
    branches := []
    items := []
    flags }

/-- Opens a group that records its text under the next number. -/
def openCapture (s : Reader) (name : Option String) : Reader :=
  { s with groups := s.groups + 1 }.openGroup (some (s.groups + 1, name)) s.flags

/-- Closes the innermost group, a level of its own. -/
def closeGroup (s : Reader) : Except Error Reader :=
  match s.outer with
  | [] => .error .unopenedGroup
  | g :: outer =>
    let ⟨inner, depth⟩ := s.contents
    let r :=
      match g.capture with
      | some (index, name) => group index name inner
      | none => inner
    .ok
      { s with
        outer, branches := g.branches, items := .part ⟨r, depth + 1⟩ :: g.items, flags := g.flags }

/-- Reads what stands behind an opening parenthesis. -/
def readOpening (s : Reader) (cs : List Char) : Except Error (Reader × List Char) :=
  let named (rest : List Char) : Except Error (Reader × List Char) :=
    match readGroupName rest with
    | .error e => .error e
    | .ok (name, rest) =>
      if s.names.contains name then .error .duplicateGroupName
      else .ok ({ s with names := name :: s.names }.openCapture (some name), rest)
  match s.flags.skip cs with
  | '?' :: '=' :: _ | '?' :: '!' :: _ | '?' :: '<' :: '=' :: _ | '?' :: '<' :: '!' :: _ =>
    .error .lookAround
  | '?' :: 'P' :: '<' :: rest | '?' :: '<' :: rest => named rest
  | '?' :: rest =>
    match readFlags s.flags [] rest with
    | .ok (flags, ':' :: rest) => .ok (s.openGroup none flags, rest)
    | .ok (flags, ')' :: after) =>
      -- No letters at all read as a question mark with nothing before it.
      if rest.head? == some ')' then .error .nothingToRepeat
      else .ok ({ s with flags, items := .flags :: s.items }, after)
    | .ok _ => .error .badFlags
    | .error e => .error e
  | cs => .ok (s.openCapture none, cs)

/-! ## §D Items -/

/-- Repeats the last item; a question mark behind the repetition makes it lazy. -/
def repeatLast (s : Reader) (least : Nat) (most : Option Nat) (cs : List Char) :
    Except Error (Reader × List Char) :=
  match s.items with
  | .part ⟨r, depth⟩ :: items =>
    let lazy := cs.head? == some '?'
    let greedy := lazy == s.flags.swapGreed
    .ok ({ s with items := .part ⟨r.repeated least most greedy, depth + 1⟩ :: items },
      if lazy then cs.tail else cs)
  | _ => .error .nothingToRepeat

/-- Reads one item that begins with a given character. -/
def step (s : Reader) (c : Char) (rest : List Char) : Except Error (Reader × List Char) :=
  match c with
  | '(' => s.readOpening rest
  | ')' => s.closeGroup.map fun s => (s, rest)
  | '|' => .ok (s.endBranch, rest)
  | '[' =>
    let (k, inside) := openClass s.flags rest
    (readClass s.flags (rest.length + 1) [] k inside).map fun (k, rest) =>
      (s.push (ofSet k.set) k.depth, rest)
  | '?' => s.repeatLast 0 (some 1) rest
  | '*' => s.repeatLast 0 none rest
  | '+' => s.repeatLast 1 none rest
  -- A brace always begins a counted repetition; only a closing one may be literal.
  | '{' =>
    match readBounds s.flags rest with
    | .ok ((least, most), rest) => s.repeatLast least most (s.flags.skip rest)
    | .error e => .error e
  | '\\' =>
    (readEscape s.flags rest).map fun (e, rest) =>
      match e with
      | .literal c => (s.push (s.flags.literal c) 0, rest)
      | .set chars => (s.push (ofSet chars) 0, rest)
      | .check a => (s.push (check a) 0, rest)
  | '.' => s.flags.dot.map fun chars => (s.push (ofSet chars) 0, rest)
  | '^' => .ok (s.push (check s.flags.start) 0, rest)
  | '$' => .ok (s.push (check s.flags.finish) 0, rest)
  | c => .ok (s.push (s.flags.literal c) 0, rest)

/-- Reads items until the text ends. Every item takes a character, which gives the fuel. -/
def run : Nat → Reader → List Char → Except Error Reader
  | 0, s, cs => if (s.flags.skip cs).isEmpty then .ok s else .error .unclosedGroup
  | fuel + 1, s, cs =>
    match s.flags.skip cs with
    | [] => .ok s
    | c :: rest =>
      match s.step c rest with
      | .ok (s, rest) => run fuel s rest
      | .error e => .error e

/-- How deeply a text may be nested. -/
def depthLimit : Nat := 250

/-- The expression that was read, with no group left open. -/
def finish (s : Reader) : Except Error Regex :=
  let ⟨r, depth⟩ := s.contents
  if !s.outer.isEmpty then .error .unclosedGroup
  else if depthLimit < depth then .error .tooDeep
  else .ok r

end Reader

/-- The regular expression that a text writes, however large. -/
def read (text : List Char) : Except Error Regex :=
  match Reader.run text.length {} text with
  | .ok s => s.finish
  | .error e => .error e

end Regex

end FeatureFile

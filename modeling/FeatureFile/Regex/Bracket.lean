/-
# FeatureFile.Regex.Bracket — classes in brackets

A class lists characters, ranges, escapes, ASCII classes and other classes. Operators between such
lists, all of one rank and read from the left, take the common part, the difference or the symmetric
difference. Beside its set, a class has a depth: how far brackets, lists of several items and
operators are nested in it.
-/

import FeatureFile.Regex.Escape

namespace FeatureFile

namespace Regex

/-! ## §A Open classes -/

/-- The operators between the lists of a class. -/
inductive ClassOperator where
  | intersection
  | difference
  | symmetricDifference
  deriving DecidableEq, Repr

/-- The set that an operator makes of two. -/
def ClassOperator.apply : ClassOperator → CharSet → CharSet → CharSet
  | intersection => .intersection
  | difference => .difference
  | symmetricDifference => .symmetricDifference

/-- A set with the depth of what wrote it. -/
structure ClassSet where
  set : CharSet
  depth : Nat
  deriving DecidableEq, Repr

/-- A list of items: their union, their number, and their greatest depth. -/
structure ClassItems where
  set : CharSet := .empty
  count : Nat := 0
  depth : Nat := 0
  deriving DecidableEq, Repr

namespace ClassItems

/-- Adds an item. -/
def add (k : ClassItems) (item : ClassSet) : ClassItems :=
  ⟨k.set.union item.set, k.count + 1, max k.depth item.depth⟩

/-- The items as one; two or more are a level of their own. -/
def close (k : ClassItems) : ClassSet := ⟨k.set, if 2 ≤ k.count then k.depth + 1 else k.depth⟩

end ClassItems

/-- An open class: whether it is negated, what stands before the current list with the operator
between them, and the current list. -/
structure OpenClass where
  negated : Bool
  pending : Option (ClassSet × ClassOperator)
  items : ClassItems
  deriving DecidableEq, Repr

namespace OpenClass

/-- Adds an item to the current list. -/
def add (k : OpenClass) (item : ClassSet) : OpenClass := { k with items := k.items.add item }

/-- The lists so far as one set. -/
def operand (flags : Flags) (k : OpenClass) : ClassSet :=
  let right := k.items.close
  match k.pending with
  | none => right
  | some (left, op) =>
    ⟨op.apply (flags.fold left.set) (flags.fold right.set), max left.depth right.depth + 1⟩

/-- Puts an operator behind the lists so far. -/
def operator (flags : Flags) (k : OpenClass) (op : ClassOperator) : OpenClass :=
  { k with pending := some (k.operand flags, op), items := {} }

/-- The set of a finished class, a level of its own. -/
def close (flags : Flags) (k : OpenClass) : Except Error ClassSet :=
  let inner := k.operand flags
  (flags.negate k.negated (flags.fold inner.set)).map fun s => ⟨s, inner.depth + 1⟩

end OpenClass

/-! ## §B Items -/

/-- One item of a class, a literal or a set, and the rest. -/
def readClassItem (flags : Flags) (cs : List Char) : Except Error (Escape × List Char) :=
  let item : Except Error (Escape × List Char) :=
    match cs with
    | [] => .error .unclosedClass
    | '\\' :: rest => readEscape flags rest
    | c :: rest => .ok (.literal c, rest)
  match item with
  | .ok (.check _, _) => .error .badClassItem
  | .ok (.literal c, rest) =>
    if flags.ascii && 0x80 ≤ c.toNat then .error .notAscii else .ok (.literal c, rest)
  | item => item

/-- The set of an item or of a range of two literals, and the rest. A hyphen before the end of the
class or before another hyphen makes no range. -/
def readClassRange (flags : Flags) (cs : List Char) : Except Error (CharSet × List Char) :=
  match readClassItem flags cs with
  | .error e => .error e
  | .ok (item, rest) =>
    let rest := flags.skip rest
    let alone : Except Error (CharSet × List Char) :=
      match item with
      | .literal c => .ok (.single c, rest)
      | .set s => .ok (s, rest)
      | .check _ => .error .badClassItem
    match rest with
    | '-' :: after =>
      -- Here the hyphen is a literal or part of an operator.
      if flags.peek after == some ']' || flags.peek after == some '-' then alone
      else
        match item, readClassItem flags (flags.skip after) with
        | _, .error e => .error e
        | .literal first, .ok (.literal last, rest) =>
          if first ≤ last then .ok (.range first last, rest) else .error .badRange
        | _, .ok _ => .error .badClassItem
    | _ => alone

/-- An ASCII class behind its opening bracket, and the rest behind the closing one. -/
def readAsciiClass? (cs : List Char) : Option ((Bool × CharSet) × List Char) :=
  match cs with
  | ':' :: rest =>
    let negated := rest.head? == some '^'
    let rest := if negated then rest.tail else rest
    match CharSet.asciiClass? (String.ofList (rest.takeWhile (· != ':'))),
        rest.dropWhile (· != ':') with
    | some s, ':' :: ']' :: after => some ((negated, s), after)
    | _, _ => none
  | _ => none

/-! ## §C Classes -/

/-- The hyphens at the head of a text, and the rest; each is a literal. -/
def readHyphens (flags : Flags) (k : OpenClass) (cs : List Char) : OpenClass × List Char :=
  let (hyphens, rest) := flags.span (· == '-') cs
  (hyphens.foldl (fun k _ => k.add ⟨.single '-', 0⟩) k, rest)

/-- Opens a class behind its bracket. What stands first is literal if it is a run of hyphens, or
else one closing bracket. -/
def openClass (flags : Flags) (cs : List Char) : OpenClass × List Char :=
  let cs := flags.skip cs
  let negated := cs.head? == some '^'
  let (k, rest) := readHyphens flags ⟨negated, none, {}⟩ (if negated then cs.tail else cs)
  match k.items.count, rest with
  | 0, ']' :: rest => (k.add ⟨.single ']', 0⟩, rest)
  | _, _ => (k, rest)

/-- Reads a class up to its closing bracket. The classes that are open around it wait in a list; the
fuel bounds the number of items. -/
def readClass (flags : Flags) :
    Nat → List OpenClass → OpenClass → List Char → Except Error (ClassSet × List Char)
  | 0, _, _, _ => .error .unclosedClass
  | fuel + 1, outer, k, cs =>
    match flags.skip cs with
    | [] => .error .unclosedClass
    | '[' :: rest =>
      match readAsciiClass? rest with
      | some ((negated, s), rest) =>
        match flags.negate negated (flags.fold s) with
        | .ok s => readClass flags fuel outer (k.add ⟨s, 0⟩) rest
        | .error e => .error e
      | none =>
        let (inner, rest) := openClass flags rest
        readClass flags fuel (k :: outer) inner rest
    | ']' :: rest =>
      match k.close flags, outer with
      | .error e, _ => .error e
      | .ok s, [] => .ok (s, rest)
      | .ok s, next :: outer => readClass flags fuel outer (next.add s) rest
    | '&' :: '&' :: rest => readClass flags fuel outer (k.operator flags .intersection) rest
    | '-' :: '-' :: rest => readClass flags fuel outer (k.operator flags .difference) rest
    | '~' :: '~' :: rest =>
      readClass flags fuel outer (k.operator flags .symmetricDifference) rest
    | cs =>
      match readClassRange flags cs with
      | .ok (s, rest) => readClass flags fuel outer (k.add ⟨s, 0⟩) rest
      | .error e => .error e

end Regex

end FeatureFile

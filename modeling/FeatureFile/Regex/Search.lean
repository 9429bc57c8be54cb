/-
# FeatureFile.Regex.Search — finding the preferred match

Threads are explored depth first in order of preference, from every start of the text, the leftmost
start first. What a thread can still do depends only on its instruction and its position, so a
second thread at a place already explored is dropped: the first one has failed from there, or is
still on its way. That bounds the work by the number of places, and it ends every loop that
consumes nothing.
-/

import FeatureFile.Regex.Program
import FeatureFile.Span
import FeatureFile.Text.Bytes

namespace FeatureFile

namespace Regex

/-- A way through a program: the next instruction, the position in the text, and the positions
recorded so far, the latest first. -/
structure Thread where
  pc : Nat
  pos : Nat
  marks : List (Nat × Nat)
  deriving DecidableEq, Repr

/-- The character before a position. -/
def before? (text : Array Char) (pos : Nat) : Option Char :=
  if pos = 0 then none else text[pos - 1]?

/-- Where a thread goes under an instruction, in order of preference. -/
def advance (text : Array Char) (t : Thread) : Instruction → List Thread
  | .jump next => [{ t with pc := next }]
  | .consume chars next =>
    if text[t.pos]?.any chars.contains then [{ t with pc := next, pos := t.pos + 1 }] else []
  | .require a next =>
    if a.holds (before? text t.pos) text[t.pos]? then [{ t with pc := next }] else []
  | .branch first second => [{ t with pc := first }, { t with pc := second }]
  | .mark slot next => [{ t with pc := next, marks := (slot, t.pos) :: t.marks }]
  | .accept => []

/-- Explores threads in order until one accepts; its marks are the answer. The table tells which
places have been explored, and the fuel bounds the number of threads. -/
def explore (program : Array Instruction) (text : Array Char) :
    Nat → Array Bool → List Thread → Option (List (Nat × Nat))
  | 0, _, _ => none
  | _ + 1, _, [] => none
  | fuel + 1, seen, t :: rest =>
    -- A place outside the table counts as explored, so it ends its thread.
    let place := t.pc * (text.size + 1) + t.pos
    if seen.getD place true then explore program text fuel seen rest
    else
      match program[t.pc]? with
      | none => explore program text fuel seen rest
      | some .accept => some t.marks
      | some instruction =>
        explore program text fuel (seen.setIfInBounds place true)
          (advance text t instruction ++ rest)

/-- The marks of the preferred match of an expression in a text. Each place sends out at most two
threads, which gives the fuel. -/
def search (r : Regex) (text : Array Char) : Option (List (Nat × Nat)) :=
  let program := r.program
  let places := program.size * (text.size + 1)
  let starts := (List.range (text.size + 1)).map fun pos => Thread.mk 0 pos []
  explore program text (2 * places + text.size + 2) (Array.replicate places false) starts

/-- The positions between which a group matched. -/
def groupRange? (marks : List (Nat × Nat)) (index : Nat) : Option (Nat × Nat) :=
  match marks.lookup (2 * index), marks.lookup (2 * index + 1) with
  | some start, some stop => some (start, stop)
  | _, _ => none

/-- What a group matched: its text, and its place in bytes. -/
structure Capture where
  text : String
  span : Span
  deriving DecidableEq, Repr

/-- What lies between two positions of a text. -/
def captureAt (text : List Char) (start stop : Nat) : Capture :=
  let offset := Text.byteLength (text.take start)
  let inside := (text.drop start).take (stop - start)
  ⟨String.ofList inside, ⟨offset, offset + Text.byteLength inside, Nat.le_add_right _ _⟩⟩

/-- What the groups of the preferred match hold, from group zero, the whole match, to the last. A
group that took no part holds nothing. -/
def captures? (r : Regex) (text : String) : Option (List (Option Capture)) :=
  let chars := text.toList
  (r.search chars.toArray).map fun marks =>
    (List.range (r.groupCount + 1)).map fun index =>
      (groupRange? marks index).map fun (start, stop) => captureAt chars start stop

end Regex

end FeatureFile

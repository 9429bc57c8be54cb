/-
# FeatureFile.Regex.Footprint.Set — the memory of sets of characters

A set is read octet by octet. An ASCII set is one state with a list of ranges. The automaton of
another set shares states between its sequences of octets: read forwards, those with the same ranges
and the same ways on; read backwards, a beginning that two sequences have in common. States are
looked up in a table of fixed size, in which a new entry drives out an old one of the same slot;
what has been driven out is made anew. The slot depends on the numbers of the states, so a set may
take more or less depending on what comes before it.
-/

import Std.Data.HashMap
import FeatureFile.CharSet
import FeatureFile.Regex.Footprint.Basic
import FeatureFile.Regex.Octets

namespace FeatureFile.Footprint

/-- The slot of a list of numbers in a table of a size. -/
def slot (size : UInt64) (key : List Nat) : Nat :=
  (key.foldl (fun h n => (h ^^^ n.toUInt64) * 1099511628211) 14695981039346656037 % size).toNat

/-! ## §A Forwards -/

/-- A way on for a range of octets. -/
structure Edge where
  low : Nat
  high : Nat
  target : Nat
  deriving DecidableEq

/-- A state that is not finished: its edges, last first, and the range of the edge that is being
made. -/
structure OpenState where
  edges : List Edge := []
  range : Option (Nat × Nat) := none

/-- Finishes the edge that is being made. -/
def OpenState.close (s : OpenState) (target : Nat) : OpenState :=
  match s.range with
  | some (low, high) => ⟨⟨low, high, target⟩ :: s.edges, none⟩
  | none => s

/-- The construction of an automaton from its sequences in order: what it takes so far, the finished
states by slot, and the unfinished states of the last sequence, the innermost first. -/
structure Sharing where
  footprint : Footprint
  table : Std.HashMap Nat (List Edge × Nat) := {}
  path : List OpenState := [{}]

namespace Sharing

/-- The slots of the table. -/
def tableSize : UInt64 := 10000

/-- A state with some edges, given last first: one from the table, or else a new one. -/
def state (s : Sharing) (edges : List Edge) : Nat × Sharing :=
  let edges := edges.reverse
  let place := slot tableSize (edges.flatMap fun e => [e.low, e.high, e.target])
  match (s.table[place]?).filter fun entry => entry.1 = edges with
  | some (_, number) => (number, s)
  | none =>
    (s.footprint.states,
      { s with
        footprint := s.footprint.add (.ranges edges.length)
        table := s.table.insert place (edges, s.footprint.states) })

/-- Finishes the innermost states of a path until so many are left around the last one, whose edge
is finished too. -/
def closeTo (keep : Nat) : List OpenState → Nat → Sharing → Sharing
  | [], _, s => s
  | [root], target, s => { s with path := [root.close target] }
  | inner :: outer, target, s =>
    if keep < outer.length then
      let (number, s) := s.state (inner.close target).edges
      closeTo keep outer number s
    else { s with path := inner.close target :: outer }

/-- Adds a sequence: it shares the edges that are being made as far as they agree with it. -/
def add (target : Nat) (s : Sharing) (sequence : List (Nat × Nat)) : Sharing :=
  let agreed := (sequence.zip s.path.reverse).takeWhile fun (range, state) =>
    state.range == some range
  let s := s.closeTo agreed.length s.path target
  match sequence.drop agreed.length, s.path with
  | range :: rest, inner :: outer =>
    let deeper := rest.map fun range => OpenState.mk [] (some range)
    { s with path := deeper.reverse ++ { inner with range := some range } :: outer }
  | _, _ => s

/-- Finishes the automaton. -/
def finish (target : Nat) (s : Sharing) : Footprint :=
  let s := s.closeTo 0 s.path target
  match s.path with
  | root :: _ => (s.state root.edges).2.footprint
  | [] => s.footprint

end Sharing

/-- Adds an automaton that reads one of some sequences. -/
def addForwards (sequences : List (List (Nat × Nat))) (f : Footprint) : Footprint :=
  let target := f.states
  let start : Sharing := { footprint := f.add (.plain 1) }
  (sequences.foldl (Sharing.add target) start).finish target

/-! ## §B Backwards -/

/-- The construction of an automaton that reads the octets of a character from the last to the
first: what it takes so far, and the states by slot, each with the range that it reads and the state
that it goes on to. -/
structure Backwards where
  footprint : Footprint
  table : Std.HashMap Nat (Edge × Nat) := {}

namespace Backwards

/-- The slots of the table. -/
def tableSize : UInt64 := 1000

/-- A state that reads a range and goes on to another: one from the table, or else a new one. -/
def state (s : Backwards) (edge : Edge) : Nat × Backwards :=
  let place := slot tableSize [edge.target, edge.low, edge.high]
  match (s.table[place]?).filter fun entry => entry.1 = edge with
  | some (_, number) => (number, s)
  | none =>
    (s.footprint.states,
      { s with
        footprint := s.footprint.add (.plain 1)
        table := s.table.insert place (edge, s.footprint.states) })

/-- Adds a sequence, which is one more branch. -/
def add (target : Nat) (s : Backwards) (sequence : List (Nat × Nat)) : Backwards :=
  let (_, s) := sequence.foldl (fun (target, s) r => s.state ⟨r.1, r.2, target⟩) (target, s)
  { s with footprint := s.footprint.add ⟨0, branchBytes⟩ }

end Backwards

/-- Adds an automaton that reads one of some sequences backwards. -/
def addBackwards (sequences : List (List (Nat × Nat))) (f : Footprint) : Footprint :=
  -- The branching state comes first, the target second.
  let target := f.states + 1
  let start : Backwards := { footprint := f.add (.plain 2) }
  (sequences.foldl (Backwards.add target) start).footprint

/-! ## §C Either way -/

/-- What a set of characters adds. -/
def chargeSet (backwards : Bool) (chars : CharSet) : Charge :=
  if chars.isAscii then .fixed ((plain 1).add (.ranges chars.ranges.length))
  else
    let sequences := chars.ranges.flatMap fun r => Octets.sequences r.1 r.2
    if backwards then ⟨fun f => (addBackwards sequences f).within⟩
    else ⟨fun f => (addForwards sequences f).within⟩

end FeatureFile.Footprint

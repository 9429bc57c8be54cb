/-
# FeatureFile.Regex.Footprint.Basic — the memory of an automaton

An automaton that reads octets takes a fixed amount of memory for each of its states. A state with a
list of ranges of octets takes more for each range, and a branching state more for each branch. What
does not fit into the limit is refused, and the count stops there.
-/

namespace FeatureFile

/-- The states of an automaton, and the bytes that their edges take beyond the states. -/
structure Footprint where
  states : Nat := 0
  bytes : Nat := 0
  deriving DecidableEq, Repr

namespace Footprint

/-- The bytes of one state. -/
def stateBytes : Nat := 32

/-- The bytes of one range in a list of ranges. -/
def rangeBytes : Nat := 8

/-- The bytes of one branch. -/
def branchBytes : Nat := 4

/-- The memory that an automaton may take. -/
def limit : Nat := 10 * 1024 * 1024

/-- The memory that an automaton takes. -/
def total (f : Footprint) : Nat := stateBytes * f.states + f.bytes

/-- Two automata side by side. -/
def add (f g : Footprint) : Footprint := ⟨f.states + g.states, f.bytes + g.bytes⟩

/-- One state with a list of so many ranges. -/
def ranges (count : Nat) : Footprint := ⟨1, rangeBytes * count⟩

/-- One state with so many branches. -/
def branching (count : Nat) : Footprint := ⟨1, branchBytes * count⟩

/-- So many states with one way on. -/
def plain (count : Nat) : Footprint := ⟨count, 0⟩

/-- An automaton that fits. -/
def within (f : Footprint) : Option Footprint := if f.total ≤ limit then some f else none

end Footprint

/-- What a part of an expression adds to an automaton, if it still fits. -/
structure Charge where
  apply : Footprint → Option Footprint

namespace Charge

/-- Adds nothing. -/
def nothing : Charge := ⟨some⟩

/-- Adds a fixed amount. -/
def fixed (g : Footprint) : Charge := ⟨fun f => (f.add g).within⟩

/-- One charge after the other. -/
def andThen (a b : Charge) : Charge := ⟨fun f => (a.apply f).bind b.apply⟩

/-- Makes a charge so many times. -/
def applyTimes (a : Charge) : Nat → Footprint → Option Footprint
  | 0, f => some f
  | n + 1, f =>
    match a.apply f with
    | some f => applyTimes a n f
    | none => none

/-- A charge so many times. -/
def times (a : Charge) (n : Nat) : Charge := ⟨a.applyTimes n⟩

end Charge

end FeatureFile

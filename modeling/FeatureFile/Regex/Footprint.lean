/-
# FeatureFile.Regex.Footprint — expressions that are too large

An expression is refused if the automaton that finds its matches, or the one that finds their
beginnings backwards from their ends, does not fit into memory. Repetitions are written out, so
their bounds count. The parts are charged in the order in which the automaton is laid out, since
what a set takes depends on where its states come to stand.
-/

import FeatureFile.Regex.Footprint.Set
import FeatureFile.Regex.Footprint.Words
import FeatureFile.Regex.Reader
import FeatureFile.Text.Bytes

namespace FeatureFile

namespace Regex

/-- Where a branch stands in its choice. -/
inductive BranchPlace where
  /-- It is no branch of a choice, or the first one. -/
  | first
  | second
  | later
  deriving DecidableEq, Repr

namespace BranchPlace

/-- The place of the branch behind. -/
def next : BranchPlace → BranchPlace
  | first => second
  | second | later => later

/-- What the choice itself adds behind a branch: a branching state and a state that joins the
branches behind the second one, and an edge for each later one. -/
def charge : BranchPlace → Charge
  | first => .nothing
  | second => .fixed ((Footprint.branching 2).add (.plain 1))
  | later => .fixed ⟨0, Footprint.branchBytes⟩

end BranchPlace

/-- The octets of a literal in the order of reading. -/
def octets? (backwards : Bool) : Regex → Option (List Nat)
  | literal c cs =>
    let inOrder := (c :: cs).flatMap fun c => octets c.toNat
    some (if backwards then inOrder.reverse else inOrder)
  | _ => none

/-- What a repetition adds, given what one turn adds and whether each turn consumes a character. -/
def chargeRepetition (turn : Charge) (consumes : Bool) (least : Nat) : Option Nat → Charge
  | none =>
    if least = 0 then
      if consumes then (Charge.fixed (.branching 2)).andThen turn
      else turn.andThen (.fixed (((Footprint.branching 2).add (.branching 2)).add (.plain 1)))
    else (turn.times least).andThen (.fixed (.branching 2))
  | some most =>
    if least = 0 && most = 1 then
      ((Charge.fixed (.branching 2)).andThen turn).andThen (.fixed (.plain 1))
    else
      let required : Charge := if least = 0 then .fixed (.plain 1) else turn.times least
      if least = most then required
      else
        (required.andThen (.fixed (.plain 1))).andThen
          (((Charge.fixed (.branching 2)).andThen turn).times (most - least))

/-- What an expression adds, read in a direction; groups are recorded forwards only. -/
def charge (backwards : Bool) : Regex → BranchPlace → Charge
  | empty, place | check _, place => (Charge.fixed (.plain 1)).andThen place.charge
  | literal c cs, place => (Charge.fixed (.plain (Text.byteLength (c :: cs)))).andThen place.charge
  | set chars, place => (Footprint.chargeSet backwards chars).andThen place.charge
  | repetition least most _ r, place =>
    (chargeRepetition (r.charge backwards .first) r.consumes least most).andThen place.charge
  | group _ _ r, place =>
    let inner := r.charge backwards .first
    let mark := Charge.fixed (.plain 1)
    (if backwards then inner else (mark.andThen inner).andThen mark).andThen place.charge
  | seq r s, place =>
    let (r, s) := (r.charge backwards .first, s.charge backwards .first)
    (if backwards then s.andThen r else r.andThen s).andThen place.charge
  | alt r s, place =>
    match place, (alt r s).branches.mapM (octets? backwards) with
    | .first, some texts => Footprint.chargeTexts texts
    | _, _ =>
      ((r.charge backwards .first).andThen place.charge).andThen (s.charge backwards place.next)

/-- What comes before an expression: nothing but a state if its matches begin at a fixed place, or
else a loop over all octets. -/
def chargeStart (anchored : Bool) : Charge :=
  if anchored then .fixed (.plain 1)
  else .fixed (((Footprint.branching 2).add (.plain 1)).add (.ranges 1))

/-- Whether the automata of an expression fit into memory. -/
def fits (r : Regex) : Bool :=
  let whole := group 0 none r
  let accept := Charge.fixed (.plain 1)
  let forwards :=
    ((chargeStart r.anchoredAtStart).andThen (whole.charge false .first)).andThen accept
  let backwards := ((chargeStart r.anchoredAtEnd).andThen (whole.charge true .first)).andThen accept
  (backwards.apply {}).isSome && (forwards.apply {}).isSome

/-- The regular expression that a text writes, if it is not too large. -/
def parse (text : List Char) : Except Error Regex :=
  match read text with
  | .ok r => if r.fits then .ok r else .error .tooLarge
  | .error e => .error e

end Regex

end FeatureFile

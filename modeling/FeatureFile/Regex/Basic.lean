/-
# FeatureFile.Regex.Basic — regular expressions

An expression is kept in a normal form that its builders make: neighbouring literals are one text, a
set of one character is a literal, sequences and choices lean to the right and hold none of their
own kind as a part, and what all branches of a choice begin with stands in front of it. Choice is
ordered: the left branch and, in a greedy loop, another turn are tried first, and the order decides
which of several matches is found.
-/

import FeatureFile.Regex.Assertion

namespace FeatureFile

/-! ## §A Expressions -/

/-- A regular expression. -/
inductive Regex where
  /-- The empty text. -/
  | empty
  /-- A text of at least one character. -/
  | literal (first : Char) (rest : List Char)
  /-- One character of a set. -/
  | set (chars : CharSet)
  /-- The empty text where an assertion holds. -/
  | check (assertion : Assertion)
  /-- Between so many turns and so many, the upper bound possibly absent. -/
  | repetition (least : Nat) (most : Option Nat) (greedy : Bool) (r : Regex)
  /-- A group that records the text it matched. -/
  | group (index : Nat) (name : Option String) (r : Regex)
  | seq (r s : Regex)
  /-- The left branch, or else the right one. -/
  | alt (r s : Regex)
  deriving DecidableEq, Repr

namespace Regex

/-- The least number of characters of a match; none if a part of the expression never matches. -/
def minLength? : Regex → Option Nat
  | empty | check _ => some 0
  | literal _ rest => some (rest.length + 1)
  | set chars => if chars.ranges.isEmpty then none else some 1
  | repetition least _ _ r => r.minLength?.map (· * least)
  | group _ _ r => r.minLength?
  | seq r s =>
    match r.minLength?, s.minLength? with
    | some m, some n => some (m + n)
    | _, _ => none
  | alt r s =>
    match r.minLength?, s.minLength? with
    | some m, some n => some (min m n)
    | _, _ => none

/-- Whether every match consumes a character. -/
def consumes (r : Regex) : Bool := r.minLength?.any (0 < ·)

/-- Whether no match consumes a character. -/
def onlyEmpty : Regex → Bool
  | empty | check _ => true
  | literal .. | set _ => false
  | repetition _ most _ r => most.isSome && r.onlyEmpty
  | group _ _ r => r.onlyEmpty
  | seq r s | alt r s => r.onlyEmpty && s.onlyEmpty

/-- Whether every match begins at the start of the text, as far as its first parts show. -/
def anchoredAtStart : Regex → Bool
  | empty | literal .. | set _ => false
  | check a => a == .textStart
  | repetition least _ _ r => 0 < least && r.anchoredAtStart
  | group _ _ r => r.anchoredAtStart
  | seq r s => r.anchoredAtStart || r.onlyEmpty && s.anchoredAtStart
  | alt r s => r.anchoredAtStart && s.anchoredAtStart

/-- Whether every match stops at the end of the text, as far as its last parts show. -/
def anchoredAtEnd : Regex → Bool
  | empty | literal .. | set _ => false
  | check a => a == .textEnd
  | repetition least _ _ r => 0 < least && r.anchoredAtEnd
  | group _ _ r => r.anchoredAtEnd
  | seq r s => s.anchoredAtEnd || s.onlyEmpty && r.anchoredAtEnd
  | alt r s => r.anchoredAtEnd && s.anchoredAtEnd

/-! ## §B Sequences -/

/-- One character of a set; a set of one character is a literal. -/
def ofSet (chars : CharSet) : Regex :=
  match chars.theChar? with
  | some c => literal c []
  | none => set chars

/-- The parts of an expression that stand one after the other. -/
def items : Regex → List Regex
  | empty => []
  | seq r s => r :: s.items
  | r => [r]

/-- Puts a part in front of others; two literals that meet become one. -/
def glue : Regex → List Regex → List Regex
  | literal c cs, literal d ds :: rest => literal c (cs ++ d :: ds) :: rest
  | r, rest => r :: rest

/-- Parts in sequence. -/
def sequence : List Regex → Regex
  | [] => empty
  | [r] => r
  | r :: rest => seq r (sequence rest)

/-- Expressions one after the other. -/
def concat (rs : List Regex) : Regex := sequence ((rs.flatMap items).foldr glue [])

/-! ## §C Choices -/

/-- The branches of an expression in order of preference. -/
def branches : Regex → List Regex
  | alt r s => r :: s.branches
  | r => [r]

/-- The only character of a literal that has one. -/
def theChar? : Regex → Option Char
  | literal c [] => some c
  | _ => none

/-- The set of an expression that is one. -/
def theSet? : Regex → Option CharSet
  | set chars => some chars
  | _ => none

/-- Branches that are all single characters, or all sets, as one set. -/
def merged? (rs : List Regex) : Option CharSet :=
  match rs.mapM theChar? with
  | some cs => some (.ofCodes (cs.map Char.toNat))
  | none => (rs.mapM theSet?).map fun sets => sets.foldl CharSet.union .empty

/-- Branches in order of preference, one of them the last. -/
def choose (last : Regex) : List Regex → Regex
  | [] => last
  | r :: rest => alt r (choose last rest)

/-- Branches as one expression, with no common beginning to look for. -/
def alternatives (rs : List Regex) : Regex :=
  let rs := rs.flatMap branches
  match merged? rs, rs.getLast? with
  | some chars, _ => ofSet chars
  | none, some last => choose last rs.dropLast
  | none, none => set .empty

/-- What two lists of parts begin with. -/
def common : List Regex → List Regex → List Regex
  | r :: rs, s :: ss => if r = s then r :: common rs ss else []
  | _, _ => []

/-- The parts of a sequence of two or more; another expression has none. -/
def sequenceItems : Regex → List Regex
  | seq r s => (seq r s).items
  | _ => []

/-- The parts that all branches begin with. -/
def commonStart : List Regex → List Regex
  | [] => []
  | r :: rest => rest.foldl (fun start s => common start s.sequenceItems) r.sequenceItems

/-- A choice of two or more branches. Nested choices are part of it, and what all branches begin
with comes first. -/
def choice (rs : List Regex) : Regex :=
  let rs := rs.flatMap branches
  let start := commonStart rs
  if start.isEmpty then alternatives rs
  else
    concat (start ++ [alternatives (rs.map fun r => concat (r.items.drop start.length))])

/-! ## §D Repetitions -/

/-- An expression repeated between two bounds, the upper one possibly absent. More than one turn of
an expression that consumes nothing is pointless, so its bounds are at most one. -/
def repeated (r : Regex) (least : Nat) (most : Option Nat) (greedy : Bool) : Regex :=
  -- An absent upper bound becomes one as well.
  let least := if r.onlyEmpty then min least 1 else least
  let most := if r.onlyEmpty then some (min (most.getD 1) 1) else most
  if most = some 0 then empty
  else if least = 1 && most = some 1 then r
  else repetition least most greedy r

/-! ## §E Groups -/

/-- The numbered groups of an expression with their names. -/
def groups : Regex → List (Nat × Option String)
  | empty | literal .. | set _ | check _ => []
  | repetition _ _ _ r => r.groups
  | group index name r => (index, name) :: r.groups
  | seq r s | alt r s => r.groups ++ s.groups

/-- The largest number of a group; zero if there is none. -/
def groupCount (r : Regex) : Nat := r.groups.foldl (fun n g => max n g.1) 0

/-- The names of the groups from the first to the last. A number that no group carries has no
name. -/
def groupNames (r : Regex) : List (Option String) :=
  (List.range' 1 r.groupCount).map fun i => (r.groups.lookup i).join

end Regex

end FeatureFile

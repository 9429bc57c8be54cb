/-
# FeatureFile.CharSet.Table — long tables in a short notation

The tables of the character database are written as text. A number is written in base 32; its last
digit is one of `0`–`9` and `a`–`v`, and the digits before it are taken from `A`–`Z`, `w`–`z`, `+`
and `-`, so that numbers need nothing between them.

A table of ranges alternates the gap before a range with the distance from its first code point to
its last one. A table of runs divides all code points: it alternates that distance with a number.
-/

import FeatureFile.CharSet

namespace FeatureFile.CharSet

namespace Table

/-- The value of a digit that ends a number. -/
def lastDigit? (c : Char) : Option Nat :=
  if '0' ≤ c && c ≤ '9' then some (c.toNat - '0'.toNat)
  else if 'a' ≤ c && c ≤ 'v' then some (c.toNat - 'a'.toNat + 10)
  else none

/-- The value of a digit that does not end a number. -/
def innerDigit (c : Char) : Nat :=
  if 'A' ≤ c && c ≤ 'Z' then c.toNat - 'A'.toNat
  else if 'w' ≤ c && c ≤ 'z' then c.toNat - 'w'.toNat + 26
  else if c == '+' then 30
  else 31

/-- The numbers of a text, given the digits read before it. -/
def readNumbers : Nat → List Char → List Nat
  | _, [] => []
  | n, c :: rest =>
    match lastDigit? c with
    | some d => (32 * n + d) :: readNumbers 0 rest
    | none => readNumbers (32 * n + innerDigit c) rest

/-- The numbers of the lines of a table. -/
def numbers (lines : List String) : List Nat := readNumbers 0 (lines.flatMap String.toList)

/-- The ranges that gaps and distances write from a code point on. -/
def ranges : Nat → List Nat → List (Nat × Nat)
  | start, gap :: distance :: rest =>
    (start + gap, start + gap + distance) :: ranges (start + gap + distance + 1) rest
  | _, _ => []

/-- The numbered runs that distances and numbers write from a code point on. -/
def runs : Nat → List Nat → List ((Nat × Nat) × Nat)
  | start, distance :: number :: rest =>
    ((start, start + distance), number) :: runs (start + distance + 1) rest
  | _, _ => []

end Table

/-- The set that the lines of a table of ranges write. -/
def ofTable (lines : List String) : CharSet := ⟨Table.ranges 0 (Table.numbers lines)⟩

end FeatureFile.CharSet

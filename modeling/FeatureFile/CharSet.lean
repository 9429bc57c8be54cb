/-
# FeatureFile.CharSet — sets of characters

A set of characters is a list of inclusive ranges of code points in increasing order, any two of
them with a gap between them. The operations keep that form, so that two sets with the same
characters are mostly the same list, and the number of ranges says how much a set costs.

The surrogates are code points without a character. A range may run across them; a bound that would
come to lie on one moves to the nearest character, which is what `next` and `previous` are for.
-/

import FeatureFile.Text.Blank

namespace FeatureFile

/-- A set of characters as ranges of code points. -/
structure CharSet where
  ranges : List (Nat × Nat)
  deriving DecidableEq, Repr

namespace CharSet

/-! ## §A Code points and ranges -/

/-- The last code point. -/
def lastCode : Nat := 0x10ffff

/-- The code point of the next character. -/
def next (n : Nat) : Nat := if n = 0xd7ff then 0xe000 else n + 1

/-- The code point of the character before. -/
def previous (n : Nat) : Nat := if n = 0xe000 then 0xd7ff else n - 1

/-- Joins ranges that overlap or touch; they are given in increasing order of their lower bounds. -/
def joined : List (Nat × Nat) → List (Nat × Nat)
  | (a, b) :: (c, d) :: rest =>
    if c ≤ b + 1 then joined ((a, max b d) :: rest) else (a, b) :: joined ((c, d) :: rest)
  | ranges => ranges
termination_by ranges => ranges.length

/-- The ranges between ranges, with those before the first and behind the last. -/
def gaps : Nat → List (Nat × Nat) → List (Nat × Nat)
  | low, [] => [(low, lastCode)]
  | low, (a, b) :: rest =>
    let gap := if low ≤ previous a then (low, previous a) else (previous a, low)
    -- Nothing lies behind the last code point.
    if b = lastCode then [gap] else gap :: gaps (next b) rest

/-- The common part of two lists of ranges. -/
def meets : List (Nat × Nat) → List (Nat × Nat) → List (Nat × Nat)
  | (a, b) :: rest, (c, d) :: others =>
    let common := if max a c ≤ min b d then [(max a c, min b d)] else []
    common ++ (if b < d then meets rest ((c, d) :: others) else meets ((a, b) :: rest) others)
  | _, _ => []
termination_by first second => first.length + second.length

/-- What one list of ranges has beyond another. -/
def minus : List (Nat × Nat) → List (Nat × Nat) → List (Nat × Nat)
  | [], _ => []
  | ranges, [] => ranges
  | (a, b) :: rest, (c, d) :: others =>
    if d < a then minus ((a, b) :: rest) others
    else if b < c then (a, b) :: minus rest ((c, d) :: others)
    else
      (if a < c then [(a, previous c)] else []) ++
        (if d < b then minus ((next d, b) :: rest) others else minus rest ((c, d) :: others))
termination_by first second => first.length + second.length

/-! ## §B Sets -/

/-- No character. -/
def empty : CharSet := ⟨[]⟩

/-- All characters. -/
def all : CharSet := ⟨[(0, lastCode)]⟩

/-- The characters between two, both included. -/
def range (first last : Char) : CharSet := ⟨[(first.toNat, last.toNat)]⟩

/-- The set of one character. -/
def single (c : Char) : CharSet := range c c

/-- The characters of some code points. -/
def ofCodes (codes : List Nat) : CharSet :=
  ⟨joined ((codes.mergeSort (· ≤ ·)).map fun n => (n, n))⟩

/-- Whether a set holds a code point. -/
def containsCode (s : CharSet) (n : Nat) : Bool := Text.inRanges n s.ranges

/-- Whether a set holds a character. -/
def contains (s : CharSet) (c : Char) : Bool := s.containsCode c.toNat

/-- Whether a set holds no character beyond ASCII. -/
def isAscii (s : CharSet) : Bool := s.ranges.all fun r => r.2 ≤ 0x7f

/-- The only character of a set that has one. -/
def theChar? (s : CharSet) : Option Char :=
  match s.ranges with
  | [(a, b)] => if a = b then some (Char.ofNat a) else none
  | _ => none

/-! ## §C Operations -/

/-- The characters of either set. -/
def union (s t : CharSet) : CharSet :=
  ⟨joined (List.merge s.ranges t.ranges fun x y => x.1 ≤ y.1)⟩

/-- The characters of both sets. -/
def intersection (s t : CharSet) : CharSet := ⟨meets s.ranges t.ranges⟩

/-- The characters of one set that are not in the other. -/
def difference (s t : CharSet) : CharSet := ⟨minus s.ranges t.ranges⟩

/-- The characters of exactly one of two sets. -/
def symmetricDifference (s t : CharSet) : CharSet :=
  (s.union t).difference (s.intersection t)

/-- All other characters. -/
def complement (s : CharSet) : CharSet :=
  match s.ranges with
  | (0, b) :: rest => if b = lastCode then empty else ⟨gaps (next b) rest⟩
  | ranges => ⟨gaps 0 ranges⟩

@[simp] theorem contains_single (c d : Char) : (single c).contains d = (d == c) := by
  rw [Bool.eq_iff_iff]
  have h : d = c ↔ d.toNat = c.toNat := ⟨congrArg _, fun h => Char.toNat_inj.mp h⟩
  simp only [single, range, contains, containsCode, Text.inRanges, beq_iff_eq, h]
  split <;> simp <;> omega

end CharSet

end FeatureFile

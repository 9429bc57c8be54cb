/-
# FeatureFile.Regex.Octets — characters as octets

The octets of a character in UTF-8, and a range of characters as sequences of ranges of octets: a
character lies in the range exactly if its octets lie, one by one, in one of the sequences. A range
is divided until the octets of its ends differ only where everything behind them runs through all
its values.
-/

namespace FeatureFile

/-- The octets of a code point in UTF-8. -/
def octets (n : Nat) : List Nat :=
  if n < 0x80 then [n]
  else if n < 0x800 then [0xc0 + n / 64, 0x80 + n % 64]
  else if n < 0x10000 then [0xe0 + n / 4096, 0x80 + n / 64 % 64, 0x80 + n % 64]
  else [0xf0 + n / 262144, 0x80 + n / 4096 % 64, 0x80 + n / 64 % 64, 0x80 + n % 64]

namespace Octets

/-- The last code points with a sequence of one, two and three octets. -/
def lengthLimits : List Nat := [0x7f, 0x7ff, 0xffff]

/-- The numbers of code points that one, two and three octets run through. -/
def blockSizes : List Nat := [64, 4096, 262144]

/-- Where a range must be divided for blocks of a size: the last code point of the first part. A
range inside one block need not be divided. -/
def blockCut? (low high size : Nat) : Option Nat :=
  if low / size = high / size then none
  else if low % size ≠ 0 then some (low / size * size + size - 1)
  else if high % size ≠ size - 1 then some (high / size * size - 1)
  else none

/-- Where a range must be divided: after the last code point of a length, or by blocks. -/
def cut? (low high : Nat) : Option Nat :=
  match lengthLimits.find? fun limit => low ≤ limit && limit < high with
  | some limit => some limit
  | none => if high < 0x80 then none else blockSizes.findSome? (blockCut? low high)

/-- The sequences of a range without surrogates. A range is divided a few times at each length,
which the fuel allows for. -/
def divided : Nat → Nat → Nat → List (List (Nat × Nat))
  | 0, low, high => [(octets low).zip (octets high)]
  | fuel + 1, low, high =>
    match cut? low high with
    | some cut => divided fuel low cut ++ divided fuel (cut + 1) high
    | none => [(octets low).zip (octets high)]

/-- The sequences of octets of a range of code points; the surrogates in it are left out. -/
def sequences (low high : Nat) : List (List (Nat × Nat)) :=
  let parts :=
    if low < 0xe000 && 0xd7ff < high then [(low, 0xd7ff), (0xe000, high)] else [(low, high)]
  (parts.filter fun p => p.1 ≤ p.2).flatMap fun p => divided 16 p.1 p.2

end Octets

end FeatureFile

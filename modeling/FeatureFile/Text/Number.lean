/-
# FeatureFile.Text.Number — numbers written in ASCII digits

Decimal and hexadecimal digits, and the numbers that they write.
-/

namespace FeatureFile.Text

/-- Whether a character is an ASCII digit. -/
def isAsciiDigit (c : Char) : Bool := '0' ≤ c && c ≤ '9'

/-- The number that a list of ASCII digits writes. -/
def decimal (cs : List Char) : Nat := cs.foldl (fun n c => 10 * n + (c.toNat - '0'.toNat)) 0

/-- The value of a hexadecimal digit. -/
def hexDigit? (c : Char) : Option Nat :=
  if '0' ≤ c && c ≤ '9' then some (c.toNat - '0'.toNat)
  else if 'a' ≤ c && c ≤ 'f' then some (c.toNat - 'a'.toNat + 10)
  else if 'A' ≤ c && c ≤ 'F' then some (c.toNat - 'A'.toNat + 10)
  else none

/-- The number that hexadecimal digits write, the digits before them included; nothing if one of
the characters is no digit. -/
def hexadecimal? : Nat → List Char → Option Nat
  | n, [] => some n
  | n, c :: cs =>
    match hexDigit? c with
    | some d => hexadecimal? (16 * n + d) cs
    | none => none

end FeatureFile.Text

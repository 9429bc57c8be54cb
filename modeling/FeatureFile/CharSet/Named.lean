/-
# FeatureFile.CharSet.Named — sets of characters by name

A set is asked for by the name of a property, category or script, or by a property and a value.
Case, spaces, hyphens and underscores in names do not count, nor does a leading `is`.
-/

import FeatureFile.CharSet.Age
import FeatureFile.CharSet.Break
import FeatureFile.CharSet.Derived
import FeatureFile.CharSet.Script

namespace FeatureFile.CharSet

/-- Whether a name begins with `is`, in any case. -/
def beginsWithIs : List Char → Bool
  | a :: b :: _ => a.toLower == 'i' && b.toLower == 's'
  | _ => false

/-- A name without what does not count. -/
def normalName (name : List Char) : String :=
  let counted := (if beginsWithIs name then name.drop 2 else name).filter fun c =>
    c.toNat < 0x80 && !(c == ' ' || c == '_' || c == '-')
  let normal := String.ofList (counted.map Char.toLower)
  -- This one names a property that no set belongs to, and not the category of the letter left.
  if beginsWithIs name && normal == "c" then "isc" else normal

/-- The set of a name. -/
def named? (name : List Char) : Option CharSet :=
  let normal := normalName name
  match property? normal with
  | some s => some s
  | none =>
    match category? normal with
    | some s => some s
    | none => script? normal

/-- The set of a property and a value. -/
def valued? (property value : List Char) : Option CharSet :=
  let value := normalName value
  match normalName property with
  | "generalcategory" | "gc" => category? value
  | "script" | "sc" => script? value
  | "scriptextensions" | "scx" => scriptExtension? value
  | "age" => age? value
  | "graphemeclusterbreak" | "gcb" => graphemeBreak.find? value
  | "wordbreak" | "wb" => wordBreak.find? value
  | "sentencebreak" | "sb" => sentenceBreak.find? value
  | _ => none

/-- The ASCII classes that brackets name. -/
def asciiClass? (name : String) : Option CharSet :=
  match name with
  | "alnum" => some ⟨[(0x30, 0x39), (0x41, 0x5a), (0x61, 0x7a)]⟩
  | "alpha" => some ⟨[(0x41, 0x5a), (0x61, 0x7a)]⟩
  | "ascii" => some ⟨[(0, 0x7f)]⟩
  | "blank" => some ⟨[(0x9, 0x9), (0x20, 0x20)]⟩
  | "cntrl" => some ⟨[(0, 0x1f), (0x7f, 0x7f)]⟩
  | "digit" => some ⟨[(0x30, 0x39)]⟩
  | "graph" => some ⟨[(0x21, 0x7e)]⟩
  | "lower" => some ⟨[(0x61, 0x7a)]⟩
  | "print" => some ⟨[(0x20, 0x7e)]⟩
  | "punct" => some ⟨[(0x21, 0x2f), (0x3a, 0x40), (0x5b, 0x60), (0x7b, 0x7e)]⟩
  | "space" => some ⟨[(0x9, 0xd), (0x20, 0x20)]⟩
  | "upper" => some ⟨[(0x41, 0x5a)]⟩
  | "word" => some ⟨[(0x30, 0x39), (0x41, 0x5a), (0x5f, 0x5f), (0x61, 0x7a)]⟩
  | "xdigit" => some ⟨[(0x30, 0x39), (0x41, 0x46), (0x61, 0x66)]⟩
  | _ => none

end FeatureFile.CharSet

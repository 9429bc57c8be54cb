/-
# FeatureFile.CharSet.Fold — sets closed under case

A set is closed under case by adding the case variants of its characters: what they fold to, and
what folds to that. The closure of a set of ASCII characters within ASCII only pairs the letters.
-/

import FeatureFile.CharSet
import FeatureFile.Text.CaseFold

namespace FeatureFile.CharSet

/-- The case variants of a character. -/
def variants (c : Char) : CharSet := ofCodes ((Text.caseVariants c).map Char.toNat)

/-- A set with the case variants of its characters. -/
def folded (s : CharSet) : CharSet :=
  let images := Text.foldRuns.flatMap fun run =>
    (run.members.filter s.containsCode).map run.apply
  let t := s.union (ofCodes images)
  let sources := Text.foldRuns.flatMap fun run =>
    run.members.filter fun n => t.containsCode (run.apply n)
  t.union (ofCodes sources)

/-- A set with the other case of its ASCII letters. -/
def asciiFolded (s : CharSet) : CharSet :=
  let lower := (s.intersection ⟨[('A'.toNat, 'Z'.toNat)]⟩).ranges.map fun r => (r.1 + 32, r.2 + 32)
  let upper := (s.intersection ⟨[('a'.toNat, 'z'.toNat)]⟩).ranges.map fun r => (r.1 - 32, r.2 - 32)
  (s.union ⟨lower⟩).union ⟨upper⟩

end FeatureFile.CharSet

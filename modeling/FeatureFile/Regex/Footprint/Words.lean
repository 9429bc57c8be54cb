/-
# FeatureFile.Regex.Footprint.Words — the memory of a choice between texts

A choice between texts is read along a tree of their octets, in which texts share what they begin
with, as far as the order of preference allows: where a text ends, the texts behind it no longer
share the ways on of those before it. A place of the tree is a branching state; its branches are one
state for each group of texts between two ends, and one way out for each end.
-/

import FeatureFile.Regex.Footprint.Basic

namespace FeatureFile.Footprint

/-- The texts at a place of the tree: the finished groups of texts between two ends, the texts of
the last group, both last first, and the number of ends. -/
structure Place where
  groups : List (List (List Nat)) := []
  last : List (List Nat) := []
  ends : Nat := 0

namespace Place

/-- Adds a text. A text that ends here where nothing but ends came before says nothing new. -/
def add (p : Place) (text : List Nat) : Place :=
  if !text.isEmpty then { p with last := text :: p.last }
  else if p.groups.all List.isEmpty && p.last.isEmpty && 0 < p.ends then p
  else ⟨p.last :: p.groups, [], p.ends + 1⟩

/-- The groups with a text in them, each in order. -/
def filled (p : Place) : List (List (List Nat)) :=
  ((p.last :: p.groups).filter fun texts => !texts.isEmpty).map List.reverse

end Place

/-- The texts behind each first octet. -/
def byOctet (texts : List (List Nat)) : List (List (List Nat)) :=
  (texts.filterMap List.head?).eraseDups.map fun octet =>
    (texts.filter fun text => text.head? == some octet).map List.tail

/-- What a place of the tree and all behind it take. A place where texts only end takes nothing; the
fuel is the length of the longest text. -/
def tree : Nat → List (List Nat) → Footprint
  | 0, _ => {}
  | fuel + 1, texts =>
    if texts.all List.isEmpty then {}
    else
      let place := texts.foldl Place.add {}
      let branches := place.filled.map fun group =>
        let behind := byOctet group
        -- A single way on needs no list.
        let state := if behind.length = 1 then Footprint.plain 1 else .ranges behind.length
        (behind.map (tree fuel)).foldl Footprint.add state
      branches.foldl Footprint.add (.branching (place.filled.length + place.ends))

/-- What a choice between texts adds, each text given by its octets. -/
def chargeTexts (texts : List (List Nat)) : Charge :=
  let longest := texts.foldl (fun n text => max n text.length) 0
  Charge.fixed ((Footprint.plain 1).add (tree longest texts))

end FeatureFile.Footprint
